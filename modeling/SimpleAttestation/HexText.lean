import Mathlib.Data.List.Basic

set_option autoImplicit false

/-!
# Bytes as pairs of digits, and text as lines
-/
namespace SimpleAttestation.HexText

def hexDigit (n : ℕ) : Char := Char.ofNat (if n < 10 then 48 + n else 55 + n)

def hexValue (c : Char) : Option ℕ :=
  let n := c.toNat
  if 48 ≤ n ∧ n ≤ 57 then some (n - 48)
  else if 65 ≤ n ∧ n ≤ 70 then some (n - 55)
  else if 97 ≤ n ∧ n ≤ 102 then some (n - 87)
  else none

def toHex (bytes : List UInt8) : List Char :=
  bytes.flatMap fun b => [hexDigit (b.toNat / 16), hexDigit (b.toNat % 16)]

def fromHex : List Char → Option (List UInt8)
  | [] => some []
  | [_] => none
  | high :: low :: rest => do
    let high ← hexValue high
    let low ← hexValue low
    let bytes ← fromHex rest
    pure (UInt8.ofNat (16 * high + low) :: bytes)

/-- The lines of a text whose first line so far is `line`. -/
def splitLinesFrom (line : List Char) : List Char → List (List Char)
  | [] => if line = [] then [] else [line]
  | c :: text => if c = '\n' then line :: splitLinesFrom [] text else splitLinesFrom (line ++ [c]) text

def splitLines (text : List Char) : List (List Char) := splitLinesFrom [] text

theorem hexValue_hexDigit {n : ℕ} (h : n < 16) : hexValue (hexDigit n) = some n := by
  have all : ∀ n : Fin 16, hexValue (hexDigit n) = some n.val := by decide
  exact all ⟨n, h⟩

theorem hexDigit_ne_newline {n : ℕ} (h : n < 16) : hexDigit n ≠ '\n' := by
  have all : ∀ n : Fin 16, hexDigit n ≠ '\n' := by decide
  exact all ⟨n, h⟩

theorem fromHex_toHex (bytes : List UInt8) : fromHex (toHex bytes) = some bytes := by
  induction bytes with
  | nil => rfl
  | cons b bytes ih =>
    have bound := b.toNat_lt
    have halves : 16 * (b.toNat / 16) + b.toNat % 16 = b.toNat := Nat.div_add_mod _ _
    change fromHex (hexDigit (b.toNat / 16) :: hexDigit (b.toNat % 16) :: toHex bytes) = _
    rw [fromHex, hexValue_hexDigit (by omega), hexValue_hexDigit (by omega), ih]
    simp only [Option.bind_eq_bind, Option.bind_some, halves, UInt8.ofNat_toNat]
    rfl

theorem toHex_no_newline (bytes : List UInt8) : '\n' ∉ toHex bytes := by
  intro h
  obtain ⟨b, -, hb⟩ := List.mem_flatMap.mp h
  have bound := b.toNat_lt
  simp only [List.mem_cons, List.not_mem_nil, or_false] at hb
  rcases hb with hb | hb
  · exact hexDigit_ne_newline (by omega) hb.symm
  · exact hexDigit_ne_newline (by omega) hb.symm

theorem splitLines_cons (line text : List Char) (h : '\n' ∉ line) :
    splitLines (line ++ '\n' :: text) = line :: splitLines text := by
  have general : ∀ line before : List Char, '\n' ∉ line →
      splitLinesFrom before (line ++ '\n' :: text) = (before ++ line) :: splitLines text := by
    intro line
    induction line with
    | nil =>
      intro before _
      rw [List.nil_append, List.append_nil]
      exact if_pos rfl
    | cons c line ih =>
      intro before h
      obtain ⟨hc, h⟩ := not_or.mp (mt List.mem_cons.mpr h)
      rw [List.cons_append, splitLinesFrom, if_neg (Ne.symm hc), ih _ h]
      simp
  exact general line [] h

theorem splitLines_flatten (ls : List (List Char)) (h : ∀ l ∈ ls, '\n' ∉ l) :
    splitLines (ls.map (· ++ ['\n'])).flatten = ls := by
  induction ls with
  | nil => rfl
  | cons l ls ih =>
    obtain ⟨hl, hls⟩ := List.forall_mem_cons.mp h
    have e : ((l :: ls).map (· ++ ['\n'])).flatten = l ++ '\n' :: (ls.map (· ++ ['\n'])).flatten := by
      simp
    rw [e, splitLines_cons l _ hl, ih hls]

end SimpleAttestation.HexText
