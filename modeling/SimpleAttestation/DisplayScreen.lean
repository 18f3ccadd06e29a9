import SimpleAttestation.Display

set_option autoImplicit false

/-!
# What the display shows

The panel hears the bytes sent while its chip is selected. A drawing that succeeds leaves a
known picture in the part of its memory that can be seen, whatever was there before.
-/
namespace SimpleAttestation.DisplayScreen
open CallProgram Platform DisplayPanel DisplayPanel.Panel Display

/-- The levels of the pins, the panel behind them, and the LED of the board. -/
structure Glass where
  panel : Panel
  dc : Bool
  cs : Bool
  backlight : Bool
  led : Bool

namespace Glass

/-- The chip is selected by a low level. -/
def send (s : Glass) (bytes : List UInt8) : Glass :=
  if s.cs then s else { s with panel := s.panel.receiveAll s.dc bytes }

def visible (s : Glass) (x y : ℕ) : ℕ := s.panel.ram (x + AUTH_LCD_X_OFFSET) (y + AUTH_LCD_Y_OFFSET)

def shows (s : Glass) (picture : ℕ → ℕ → ℕ) : Prop :=
  ∀ x < 160, ∀ y < 80, s.visible x y = picture x y

end Glass

/-- A failed transfer has sent any part of its bytes. -/
def lcdDevice : Device LcdCall LcdCall.Reply Glass where
  answers
    | .writeDc set, s, _, t => t = { s with dc := set }
    | .writeCs set, s, _, t => t = { s with cs := set }
    | .spiTransmit bytes, s, ok, t => ∃ k, (ok = true → bytes.length ≤ k) ∧ t = s.send (bytes.take k)
    | .writeBacklight set, s, _, t => t = { s with backlight := set }
    | .writeLed on, s, _, t => t = { s with led := on }
    | .periphClockConfig, s, _, t | .spiInit, s, _, t | .delay _, s, _, t => t = s
  tears _ s t := t = s

/-- A drawing that succeeds leaves a glass of `P`; none touches the backlight or the LED. -/
def Draws (p : LcdProg Bool) (s : Glass) (P : Glass → Prop) : Prop :=
  Safe lcdDevice (fun _ _ => True) (fun _ => True) p
    (fun ok t => t.backlight = s.backlight ∧ t.led = s.led ∧ (ok = true → P t)) s

section
variable {s : Glass} {p q : LcdProg Bool} {P Q : Glass → Prop} {data : Bool} {bytes : List UInt8}

theorem draws_mono (h : Draws p s P) (less : ∀ t, P t → Q t) : Draws p s Q :=
  safe_post (fun _ _ x => ⟨x.1, x.2.1, fun ok => less _ (x.2.2 ok)⟩) h

theorem draws_done (h : P s) : Draws (pure true) s P := ⟨trivial, rfl, rfl, fun _ => h⟩

theorem draws_andThen (h : Draws p s P) (next : ∀ t, P t → Draws q t Q) : Draws (andThen p q) s Q := by
  refine safe_then h fun ok t ht _ => ?_
  obtain ⟨backlight, led, good⟩ := ht
  cases ok with
  | false => exact ⟨trivial, backlight, led, fun no => Bool.noConfusion no⟩
  | true =>
    refine safe_post ?_ (next t (good rfl))
    rintro ok u ⟨backlight', led', good'⟩
    exact ⟨backlight'.trans backlight, led'.trans led, good'⟩

theorem draws_transfer :
    Draws (transfer data bytes) s fun t => t.panel = s.panel.receiveAll data bytes := by
  refine ⟨trivial, trivial, fun _ _ => trivial, ?_⟩
  rintro _ _ rfl
  refine ⟨trivial, trivial, fun _ _ => trivial, ?_⟩
  rintro _ _ rfl
  refine ⟨trivial, trivial, fun _ _ => trivial, ?_⟩
  rintro ok _ ⟨k, whole, rfl⟩
  refine ⟨trivial, trivial, fun _ _ => trivial, ?_⟩
  rintro _ _ rfl
  refine ⟨trivial, rfl, rfl, fun done => ?_⟩
  rw [List.take_of_length_le (whole done)]
  rfl

theorem draws_command (cmd : UInt8) (bytes : List UInt8) : Draws (command cmd bytes) s fun t =>
    t.panel = (s.panel.receive false cmd).receiveAll true bytes := by
  refine draws_andThen draws_transfer fun t ht => ?_
  replace ht : t.panel = s.panel.receive false cmd := ht
  rw [← ht]
  cases bytes with
  | nil => exact draws_done rfl
  | cons b bytes => exact draws_transfer

end

section
variable {s : Glass} {p : Panel} {x y w h a b : ℕ}

def opened (p : Panel) (x y w h : ℕ) : Panel :=
  { p with
    command := RAMWR, args := [], half := none, next := 0
    columns := (x + AUTH_LCD_X_OFFSET, x + AUTH_LCD_X_OFFSET + w - 1)
    rows := (y + AUTH_LCD_Y_OFFSET, y + AUTH_LCD_Y_OFFSET + h - 1) }

theorem byte_pair {n : ℕ} (small : n < 256) : 256 * (0 : UInt8).toNat + (UInt8.ofNat n).toNat = n := by
  rw [UInt8.toNat_ofNat', Nat.mod_eq_of_lt small]
  exact Nat.zero_add n

theorem draws_window (right : x + w ≤ 160) (bottom : y + h ≤ 80) :
    Draws (window x y w h) s fun t => t.panel = opened s.panel x y w h := by
  have columns : x + AUTH_LCD_X_OFFSET + w - 1 < 256 := by
    unfold AUTH_LCD_X_OFFSET
    omega
  have rows : y + AUTH_LCD_Y_OFFSET + h - 1 < 256 := by
    unfold AUTH_LCD_Y_OFFSET
    omega
  have left : x + AUTH_LCD_X_OFFSET < 256 := by
    unfold AUTH_LCD_X_OFFSET
    omega
  have top : y + AUTH_LCD_Y_OFFSET < 256 := by
    unfold AUTH_LCD_Y_OFFSET
    omega
  refine draws_andThen (draws_command _ _) fun t ht => draws_andThen (draws_command _ _) fun u hu =>
    draws_mono (draws_command _ _) fun v hv => ?_
  rw [hv, hu, ht, receive_columns, receive_rows, byte_pair columns, byte_pair rows, byte_pair left,
    byte_pair top]
  rfl

theorem opened_inside (width : 0 < w) (height : 0 < h) :
    (opened p x y w h).inside (a + AUTH_LCD_X_OFFSET) (b + AUTH_LCD_Y_OFFSET) ↔
      (x ≤ a ∧ a < x + w) ∧ y ≤ b ∧ b < y + h := by
  unfold inside opened
  dsimp only
  omega

theorem opened_width (width : 0 < w) : (opened p x y w h).width = w := by
  unfold Panel.width opened
  dsimp only
  omega

theorem opened_height (height : 0 < h) : (opened p x y w h).height = h := by
  unfold Panel.height opened
  dsimp only
  omega

theorem opened_pixels (pixels : List UInt16) (width : 0 < w) (height : 0 < h)
    (full : pixels.length = w * h) :
    ((opened p x y w h).receiveAll true (pixels.flatMap pixelBytes)).ram
        (a + AUTH_LCD_X_OFFSET) (b + AUTH_LCD_Y_OFFSET) =
      if (x ≤ a ∧ a < x + w) ∧ y ≤ b ∧ b < y + h then (pixels.getD ((b - y) * w + (a - x)) 0).toNat
      else p.ram (a + AUTH_LCD_X_OFFSET) (b + AUTH_LCD_Y_OFFSET) := by
  have room : (opened p x y w h).next + pixels.length ≤
      (opened p x y w h).width * (opened p x y w h).height := by
    rw [opened_width width, opened_height height, full]
    exact (Nat.zero_add _).le
  rw [receive_pixels pixels rfl rfl room]
  have inside := @opened_inside p x y w h a b width height
  by_cases there : (x ≤ a ∧ a < x + w) ∧ y ≤ b ∧ b < y + h
  · have index : (opened p x y w h).index (a + AUTH_LCD_X_OFFSET) (b + AUTH_LCD_Y_OFFSET) =
        (b - y) * w + (a - x) := by
      unfold Panel.index
      rw [opened_width width]
      change (b + AUTH_LCD_Y_OFFSET - (y + AUTH_LCD_Y_OFFSET)) * w +
        (a + AUTH_LCD_X_OFFSET - (x + AUTH_LCD_X_OFFSET)) = _
      rw [Nat.add_sub_add_right, Nat.add_sub_add_right]
    have last : (b - y) * w + (a - x) < pixels.length := by
      have row : (b - y + 1) * w ≤ h * w := Nat.mul_le_mul_right w (by omega)
      rw [Nat.add_mul, Nat.one_mul] at row
      rw [full, Nat.mul_comm w h]
      omega
    have written : (opened p x y w h).inside (a + AUTH_LCD_X_OFFSET) (b + AUTH_LCD_Y_OFFSET) ∧
        (opened p x y w h).next ≤ (opened p x y w h).index (a + AUTH_LCD_X_OFFSET) (b + AUTH_LCD_Y_OFFSET) ∧
        (opened p x y w h).index (a + AUTH_LCD_X_OFFSET) (b + AUTH_LCD_Y_OFFSET) <
          (opened p x y w h).next + pixels.length := by
      rw [index]
      exact ⟨inside.mpr there, Nat.zero_le _, last.trans_eq (Nat.zero_add _).symm⟩
    unfold Panel.painted
    dsimp only
    rw [if_pos written, if_pos there, index]
    rfl
  · unfold Panel.painted
    dsimp only
    rw [if_neg fun h => there (inside.mp h.1), if_neg there]
    rfl

end

def written (x y : ℕ) (s : List Char) (color : UInt16) (picture : ℕ → ℕ → ℕ) (a b : ℕ) : ℕ :=
  if x ≤ a ∧ (y ≤ b ∧ b < y + 14) ∧ (a - x) / 12 < s.length then
    if on (s.getD ((a - x) / 12) ' ') (b - y) ((a - x) % 12) then color.toNat else 0
  else picture a b

section
variable {g : Glass} {color : UInt16} {picture : ℕ → ℕ → ℕ}

theorem draws_sendRows (row : List UInt8) (n : ℕ) : Draws (sendRows row n) g fun t =>
    t.panel = g.panel.receiveAll true (List.replicate n row).flatten := by
  induction n generalizing g with
  | zero => exact draws_done rfl
  | succ n ih =>
    refine draws_andThen draws_transfer fun t ht => draws_mono ih fun u hu => ?_
    rw [hu, ht, ← receiveAll_append]
    rfl

theorem rows_flatten (n m : ℕ) (color : UInt16) :
    (List.replicate n ((List.replicate m color).flatMap pixelBytes)).flatten =
      (List.replicate (m * n) color).flatMap pixelBytes := by
  induction n with
  | zero => rfl
  | succ n ih =>
    rw [List.replicate_succ, List.flatten_cons, ih, ← List.flatMap_append, List.replicate_append_replicate,
      Nat.mul_succ, Nat.add_comm m]

theorem draws_fill : Draws (fill color) g fun t => t.shows fun _ _ => color.toNat := by
  refine draws_andThen (draws_window (by decide) (by decide)) fun t ht =>
    draws_mono (draws_sendRows _ 80) fun u hu => ?_
  intro x hx y hy
  rw [Glass.visible, hu, rows_flatten, ht, opened_pixels _ (by decide) (by decide) List.length_replicate,
    if_pos (by omega)]
  rw [List.getD_eq_getElem _ _ (by rw [List.length_replicate]; omega), List.getElem_replicate]

theorem pixels_getD {c : Char} {i j : ℕ} (row : i < 14) (col : j < 12) :
    (pixels c color).getD (i * 12 + j) 0 = if on c i j then color else 0 := by
  have cell : (i * 12 + j) / 12 = i ∧ (i * 12 + j) % 12 = j := by omega
  unfold pixels
  rw [List.getD_eq_getElem _ _ (by rw [List.length_map, List.length_range]; omega), List.getElem_map,
    List.getElem_range, cell.1, cell.2]

theorem written_cons {c : Char} {s : List Char} {x y a b : ℕ} :
    written (x + 12) y s color (written x y [c] color picture) a b = written x y (c :: s) color picture a b := by
  unfold written
  rcases Nat.lt_or_ge a (x + 12) with first | later
  · have same : (a - x) / 12 = 0 := by omega
    rw [if_neg (by omega), same]
    exact if_congr (by simp) rfl rfl
  · have next : (a - x) / 12 = (a - (x + 12)) / 12 + 1 ∧ (a - x) % 12 = (a - (x + 12)) % 12 := by omega
    rw [next.1, next.2, List.getD_cons_succ, @List.length_cons _ c s,
      if_neg (fun h => absurd (Nat.lt_of_succ_lt_succ h.2.2) (Nat.not_lt_zero _) :
        ¬ (x ≤ a ∧ (y ≤ b ∧ b < y + 14) ∧ (a - (x + 12)) / 12 + 1 < [c].length))]
    exact if_congr (by omega) rfl rfl

theorem draws_glyph {c : Char} {x y : ℕ} (right : x + 12 ≤ 160) (bottom : y + 14 ≤ 80) :
    Draws (andThen (window x y 12 14) (transfer true ((pixels c color).flatMap pixelBytes))) g
      fun t => ∀ a b, t.visible a b = written x y [c] color g.visible a b := by
  refine draws_andThen (draws_window right bottom) fun t ht => draws_mono draws_transfer fun u hu => ?_
  intro a b
  have length : (pixels c color).length = 12 * 14 := by
    unfold pixels
    rw [List.length_map, List.length_range]
  rw [Glass.visible, hu, ht, opened_pixels _ (by decide) (by decide) length, written]
  by_cases there : (x ≤ a ∧ a < x + 12) ∧ y ≤ b ∧ b < y + 14
  · have cell : (a - x) / 12 = 0 ∧ (a - x) % 12 = a - x := by omega
    rw [if_pos there, if_pos ⟨there.1.1, there.2, by rw [cell.1]; exact Nat.one_pos⟩, pixels_getD (by omega) (by omega),
      cell.1, cell.2, List.getD_cons_zero]
    split <;> rfl
  · rw [if_neg there, if_neg (by rw [List.length_singleton]; omega)]
    rfl

/-- Characters beyond the right edge are left out, and nothing of them could be seen. -/
theorem draws_textFrom {y : ℕ} (bottom : y + 14 ≤ 80) (s : List Char) {x : ℕ} (edge : x ≤ 160)
    (fits : (160 - x) % 12 = 0) (before : g.shows picture) :
    Draws (textFrom y color x s) g fun t => t.shows (written x y s color picture) := by
  induction s generalizing g x picture with
  | nil =>
    refine draws_done fun a ha b hb => ?_
    rw [before a ha b hb, written, if_neg (fun h => Nat.not_lt_zero _ h.2.2)]
  | cons c s ih =>
    unfold textFrom
    split
    · rename_i right
      refine draws_andThen (draws_glyph right bottom) fun t ht => ?_
      have after : t.shows (written x y [c] color picture) := by
        intro a ha b hb
        rw [ht, written, written, before a ha b hb]
      refine draws_mono (ih (by omega) (by omega) after) fun u hu a ha b hb => ?_
      rw [hu a ha b hb, written_cons]
    · rename_i right
      refine draws_done fun a ha b hb => ?_
      rw [before a ha b hb, written, if_neg (by omega)]

theorem draws_text {y : ℕ} {s : List Char} (bottom : y + 14 ≤ 80) (before : g.shows picture) :
    Draws (text y s color) g fun t => t.shows (written 4 y s color picture) :=
  draws_textFrom bottom s (by decide) (by decide) before

end

section
variable {g : Glass}

theorem draws_periph : Draws (Prog.ask LcdCall.periphClockConfig) g fun _ => True := by
  refine ⟨trivial, trivial, fun _ _ => trivial, ?_⟩
  rintro ok _ rfl
  exact ⟨trivial, rfl, rfl, fun _ => trivial⟩

theorem draws_spi : Draws (Prog.ask LcdCall.spiInit) g fun _ => True := by
  refine ⟨trivial, trivial, fun _ _ => trivial, ?_⟩
  rintro ok _ rfl
  exact ⟨trivial, rfl, rfl, fun _ => trivial⟩

theorem draws_sleep (ms : ℕ) : Draws (sleep ms) g fun _ => True := by
  refine ⟨trivial, trivial, fun _ _ => trivial, ?_⟩
  rintro _ _ rfl
  exact ⟨trivial, rfl, rfl, fun _ => trivial⟩

theorem draws_commands (cmds : List (UInt8 × List UInt8)) : Draws (commands cmds) g fun _ => True := by
  induction cmds generalizing g with
  | nil => exact draws_done trivial
  | cons x cmds ih => exact draws_andThen (draws_mono (draws_command _ _) fun _ _ => trivial) fun _ _ => ih

theorem init_screen : Safe lcdDevice (fun _ _ => True) (fun _ => True) boardLcdInit
    (fun ok t => t.backlight = !ok ∧ t.led = g.led ∧ (ok = true → t.shows fun _ _ => 0)) g := by
  unfold boardLcdInit
  rw [Prog.ask_bind]
  refine ⟨trivial, trivial, fun _ _ => trivial, ?_⟩
  rintro _ _ rfl
  rw [Prog.ask_bind]
  refine ⟨trivial, trivial, fun _ _ => trivial, ?_⟩
  rintro _ _ rfl
  have drawn : Draws _ { g with cs := true, backlight := true } _ :=
    draws_andThen draws_periph fun _ _ => draws_andThen draws_spi fun _ _ =>
      draws_andThen (draws_command 0x01 []) fun _ _ =>
      draws_andThen (draws_sleep 150) fun _ _ =>
      draws_andThen (draws_command 0x11 []) fun _ _ =>
      draws_andThen (draws_sleep 120) fun _ _ => draws_andThen (draws_commands initCommands) fun _ _ =>
      draws_andThen (draws_commands gammaCommands) fun _ _ => @draws_fill _ 0
  refine safe_then drawn fun ok t ht _ => ?_
  obtain ⟨backlight, led, black⟩ := ht
  cases ok with
  | false => exact ⟨trivial, backlight, led, fun no => Bool.noConfusion no⟩
  | true =>
    refine ⟨trivial, trivial, fun _ _ => trivial, ?_⟩
    rintro _ _ rfl
    refine ⟨trivial, trivial, fun _ _ => trivial, ?_⟩
    rintro _ _ rfl
    exact ⟨trivial, rfl, led, fun _ => black rfl⟩

end

end SimpleAttestation.DisplayScreen
