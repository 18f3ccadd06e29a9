import Mathlib.Data.List.GetD

set_option autoImplicit false

/-!
# A display controller with an address window

Two commands set the columns and the rows of a window; after a third the pixels that follow,
two bytes each, fill it row by row, however they are split into transfers.
-/
namespace SimpleAttestation.DisplayPanel

def CASET : UInt8 := 0x2a

def RASET : UInt8 := 0x2b

def RAMWR : UInt8 := 0x2c

/-- `args` are the data since the command, `half` the first byte of a pixel, and `next` counts
    the pixels written since the command. -/
structure Panel where
  command : UInt8
  args : List UInt8
  columns : ℕ × ℕ
  rows : ℕ × ℕ
  half : Option UInt8
  next : ℕ
  ram : ℕ → ℕ → ℕ

namespace Panel

def width (p : Panel) : ℕ := p.columns.2 + 1 - p.columns.1

def height (p : Panel) : ℕ := p.rows.2 + 1 - p.rows.1

/-- Writes the next pixel; behind the last one of the window comes its first again. -/
def paint (p : Panel) (pixel : ℕ) : Panel :=
  let n := p.next % (p.width * p.height)
  { p with
    half := none
    next := p.next + 1
    ram := fun c r => if c = p.columns.1 + n % p.width ∧ r = p.rows.1 + n / p.width then pixel
      else p.ram c r }

def span (args : List UInt8) (old : ℕ × ℕ) : ℕ × ℕ :=
  match args with
  | [a, b, c, d] => (256 * a.toNat + b.toNat, 256 * c.toNat + d.toNat)
  | _ => old

def receive (p : Panel) (data : Bool) (b : UInt8) : Panel :=
  if !data then { p with command := b, args := [], half := none, next := 0 }
  else if p.command = CASET then
    { p with args := p.args ++ [b], columns := span (p.args ++ [b]) p.columns }
  else if p.command = RASET then
    { p with args := p.args ++ [b], rows := span (p.args ++ [b]) p.rows }
  else if p.command = RAMWR then
    match p.half with
    | none => { p with half := some b }
    | some high => p.paint (256 * high.toNat + b.toNat)
  else p

def receiveAll (p : Panel) (data : Bool) (bytes : List UInt8) : Panel :=
  bytes.foldl (fun p b => p.receive data b) p

def inside (p : Panel) (c r : ℕ) : Prop :=
  p.columns.1 ≤ c ∧ c ≤ p.columns.2 ∧ p.rows.1 ≤ r ∧ r ≤ p.rows.2

instance (p : Panel) (c r : ℕ) : Decidable (p.inside c r) :=
  inferInstanceAs (Decidable (_ ∧ _ ∧ _ ∧ _))

/-- Where a pixel of the window comes in the order of writing. -/
def index (p : Panel) (c r : ℕ) : ℕ := (r - p.rows.1) * p.width + (c - p.columns.1)

def painted (p : Panel) (pixels : List UInt16) : Panel :=
  { p with
    next := p.next + pixels.length
    ram := fun c r => if p.inside c r ∧ p.next ≤ p.index c r ∧ p.index c r < p.next + pixels.length then
        (pixels.getD (p.index c r - p.next) 0).toNat
      else p.ram c r }

end Panel

open Panel

def pixelBytes (color : UInt16) : List UInt8 := [(color >>> 8).toUInt8, color.toUInt8]

theorem pixel_bytes (color : UInt16) :
    256 * (color >>> 8).toUInt8.toNat + color.toUInt8.toNat = color.toNat := by
  have bound := color.toNat_lt
  rw [UInt16.toNat_toUInt8, UInt16.toNat_toUInt8, UInt16.toNat_shiftRight, Nat.shiftRight_eq_div_pow]
  change 256 * (color.toNat / 256 % 256) + color.toNat % 256 = color.toNat
  omega

section
variable {p : Panel} {data : Bool} {xs ys : List UInt8} {c r n : ℕ}

theorem receiveAll_append : p.receiveAll data (xs ++ ys) = (p.receiveAll data xs).receiveAll data ys :=
  List.foldl_append

theorem index_cell (inside : p.inside c r) :
    p.index c r = n ↔ c = p.columns.1 + n % p.width ∧ r = p.rows.1 + n / p.width := by
  obtain ⟨left, right, top, bottom⟩ := inside
  have width : p.width = p.columns.2 + 1 - p.columns.1 := rfl
  have column : c - p.columns.1 < p.width := by omega
  have pos : 0 < p.width := by omega
  unfold index
  constructor
  · rintro rfl
    rw [Nat.mul_comm, Nat.mul_add_mod, Nat.mod_eq_of_lt column, Nat.mul_add_div pos,
      Nat.div_eq_of_lt column]
    omega
  · rintro ⟨hc, hr⟩
    have row : r - p.rows.1 = n / p.width := by omega
    have rest : c - p.columns.1 = n % p.width := by omega
    rw [row, rest, Nat.mul_comm]
    exact Nat.div_add_mod n p.width

theorem cell_inside (room : n < p.width * p.height) :
    p.inside (p.columns.1 + n % p.width) (p.rows.1 + n / p.width) := by
  have width : p.width = p.columns.2 + 1 - p.columns.1 := rfl
  have height : p.height = p.rows.2 + 1 - p.rows.1 := rfl
  have pos : 0 < p.width := Nat.pos_of_mul_pos_right (Nat.lt_of_le_of_lt (Nat.zero_le _) room)
  have column := Nat.mod_lt n pos
  have row : n / p.width < p.height := Nat.div_lt_of_lt_mul room
  generalize n / p.width = q at row ⊢
  exact ⟨Nat.le_add_right _ _, by omega, Nat.le_add_right _ _, by omega⟩

theorem receive_columns (a b c d : UInt8) : (p.receive false CASET).receiveAll true [a, b, c, d] =
    { p with
      command := CASET, args := [a, b, c, d], half := none, next := 0
      columns := (256 * a.toNat + b.toNat, 256 * c.toNat + d.toNat) } := rfl

theorem receive_rows (a b c d : UInt8) : (p.receive false RASET).receiveAll true [a, b, c, d] =
    { p with
      command := RASET, args := [a, b, c, d], half := none, next := 0
      rows := (256 * a.toNat + b.toNat, 256 * c.toNat + d.toNat) } := rfl

theorem receive_half {b : UInt8} (writing : p.command = RAMWR) (half : p.half = none) :
    p.receive true b = { p with half := some b } := by
  unfold receive
  rw [if_neg (by decide : ¬ (!true) = true), if_neg (by rw [writing]; decide), if_neg (by rw [writing]; decide),
    if_pos writing, half]

theorem receive_pixel {b high : UInt8} (writing : p.command = RAMWR) (half : p.half = some high) :
    p.receive true b = p.paint (256 * high.toNat + b.toNat) := by
  unfold receive
  rw [if_neg (by decide : ¬ (!true) = true), if_neg (by rw [writing]; decide), if_neg (by rw [writing]; decide),
    if_pos writing, half]

theorem paint_painted {color : UInt16} {pixels : List UInt16} (half : p.half = none)
    (room : p.next < p.width * p.height) :
    (p.paint color.toNat).painted pixels = p.painted (color :: pixels) := by
  have length : p.next + 1 + pixels.length = p.next + (color :: pixels).length := by
    rw [List.length_cons]
    omega
  have ram : ((p.paint color.toNat).painted pixels).ram = (p.painted (color :: pixels)).ram := by
    funext c r
    change (if p.inside c r ∧ p.next + 1 ≤ p.index c r ∧ p.index c r < p.next + 1 + pixels.length then
        (pixels.getD (p.index c r - (p.next + 1)) 0).toNat
      else if c = p.columns.1 + p.next % (p.width * p.height) % p.width ∧
          r = p.rows.1 + p.next % (p.width * p.height) / p.width then color.toNat else p.ram c r) =
      if p.inside c r ∧ p.next ≤ p.index c r ∧ p.index c r < p.next + (color :: pixels).length then
        ((color :: pixels).getD (p.index c r - p.next) 0).toNat
      else p.ram c r
    rw [Nat.mod_eq_of_lt room, length]
    by_cases inside : p.inside c r
    · have cell := @index_cell p c r p.next inside
      rcases Nat.lt_trichotomy (p.index c r) p.next with before | here | after
      · rw [if_neg (by omega), if_neg (mt cell.mpr (by omega)), if_neg (by omega)]
      · rw [if_neg (by omega), if_pos (cell.mp here),
          if_pos ⟨inside, by omega, by rw [List.length_cons]; omega⟩, here, Nat.sub_self]
        rfl
      · have step : p.index c r - p.next = p.index c r - (p.next + 1) + 1 := by omega
        rw [if_neg (mt cell.mpr (by omega)), step]
        exact if_congr ⟨fun h => ⟨h.1, by omega, h.2.2⟩, fun h => ⟨h.1, by omega, h.2.2⟩⟩ rfl rfl
    · have out : ¬ (c = p.columns.1 + p.next % p.width ∧ r = p.rows.1 + p.next / p.width) := by
        rintro ⟨rfl, rfl⟩
        exact inside (cell_inside room)
      rw [if_neg fun h => inside h.1, if_neg out, if_neg fun h => inside h.1]
  unfold painted at ram ⊢
  dsimp only at ram
  rw [ram, ← length]
  unfold paint
  rw [half]

theorem receive_pixels (pixels : List UInt16) (writing : p.command = RAMWR) (half : p.half = none)
    (room : p.next + pixels.length ≤ p.width * p.height) :
    p.receiveAll true (pixels.flatMap pixelBytes) = p.painted pixels := by
  induction pixels generalizing p with
  | nil =>
    have empty : p.painted [] = p := by
      unfold painted
      have ram : (fun c r => if p.inside c r ∧ p.next ≤ p.index c r ∧
          p.index c r < p.next + ([] : List UInt16).length then
          (([] : List UInt16).getD (p.index c r - p.next) 0).toNat else p.ram c r) = p.ram := by
        funext c r
        rw [if_neg]
        rw [List.length_nil]
        omega
      rw [ram]
      rfl
    rw [empty]
    rfl
  | cons color pixels ih =>
    rw [List.length_cons] at room
    have first : p.receiveAll true (pixelBytes color) = p.paint color.toNat := by
      change (p.receive true _).receive true _ = _
      have second := @receive_pixel { p with half := some (color >>> 8).toUInt8 } color.toUInt8 _ writing rfl
      rw [receive_half writing half, second, pixel_bytes]
      rfl
    have rest := @ih (p.paint color.toNat) writing rfl (by
      change p.next + 1 + pixels.length ≤ p.width * p.height
      omega)
    rw [List.flatMap_cons, receiveAll_append, first, rest, paint_painted half (by omega)]

end

end SimpleAttestation.DisplayPanel
