import Mathlib.Data.List.Basic

set_option autoImplicit false

/-!
# Consistent overhead byte stuffing

A block is a run of nonzero bytes. Its code is its length plus one, and stands before it;
between two blocks it stands for a zero. Blocks are shorter than 255 bytes here, so no block
is ever split.
-/
namespace SimpleAttestation.Cobs

def code (block : List UInt8) : UInt8 := UInt8.ofNat (block.length + 1)

/-- The first block, and the encoding of what follows the zero that ends it. -/
def split : List UInt8 → List UInt8 × List UInt8
  | [] => ([], [])
  | b :: raw =>
    let (block, rest) := split raw
    if b = 0 then ([], code block :: (block ++ rest)) else (b :: block, rest)

/-- The encoding of `block ++ raw`, with `block` already read. -/
def stuffFrom (block raw : List UInt8) : List UInt8 :=
  code (block ++ (split raw).1) :: (block ++ (split raw).1 ++ (split raw).2)

def stuff (raw : List UInt8) : List UInt8 := stuffFrom [] raw

variable {block raw w : List UInt8} {b : UInt8}

theorem stuffFrom_nil (block : List UInt8) : stuffFrom block [] = code block :: block := by
  simp [stuffFrom, split]

theorem stuffFrom_zero (block raw : List UInt8) :
    stuffFrom block (0 :: raw) = code block :: (block ++ stuff raw) := by
  simp [stuff, stuffFrom, split]

theorem stuffFrom_cons (block : List UInt8) (hb : b ≠ 0) (raw : List UInt8) :
    stuffFrom block (b :: raw) = stuffFrom (block ++ [b]) raw := by
  simp [stuffFrom, split, hb]

theorem stuffFrom_append (block more : List UInt8) (nonzero : ∀ b ∈ more, b ≠ 0) (raw : List UInt8) :
    stuffFrom block (more ++ raw) = stuffFrom (block ++ more) raw := by
  induction more generalizing block with
  | nil => rw [List.nil_append, List.append_nil]
  | cons b more ih =>
    obtain ⟨hb, rest⟩ := List.forall_mem_cons.mp nonzero
    rw [List.cons_append, stuffFrom_cons block hb, ih (block ++ [b]) rest]
    simp

theorem stuff_block (nonzero : ∀ b ∈ block, b ≠ 0) : stuff block = code block :: block := by
  have h := stuffFrom_append [] block nonzero []
  rw [List.append_nil, List.nil_append, stuffFrom_nil] at h
  exact h

theorem stuff_blocks (nonzero : ∀ b ∈ block, b ≠ 0) (raw : List UInt8) :
    stuff (block ++ 0 :: raw) = code block :: (block ++ stuff raw) := by
  have h := stuffFrom_append [] block nonzero (0 :: raw)
  rw [List.nil_append, stuffFrom_zero] at h
  exact h

theorem blocks_induction {motive : List UInt8 → Prop}
    (last : ∀ block, (∀ b ∈ block, b ≠ 0) → motive block)
    (more : ∀ block raw, (∀ b ∈ block, b ≠ 0) → motive raw → motive (block ++ 0 :: raw))
    (raw : List UInt8) : motive raw := by
  have general : ∀ raw block : List UInt8, (∀ b ∈ block, b ≠ 0) → motive (block ++ raw) := by
    intro raw
    induction raw with
    | nil =>
      intro block nonzero
      rw [List.append_nil]
      exact last block nonzero
    | cons b raw ih =>
      intro block nonzero
      by_cases hb : b = 0
      · subst hb
        exact more block raw nonzero (ih [] (by simp))
      · have h := ih (block ++ [b]) (by simpa [or_imp, forall_and] using ⟨nonzero, hb⟩)
        rwa [List.append_assoc] at h
  exact general raw [] (by simp)

theorem length_stuff (raw : List UInt8) : (stuff raw).length = raw.length + 1 := by
  induction raw using blocks_induction with
  | last block nonzero => rw [stuff_block nonzero, List.length_cons]
  | more block raw nonzero ih =>
    rw [stuff_blocks nonzero]
    simp [ih]

theorem stuff_ne_nil (raw : List UInt8) : stuff raw ≠ [] := by
  intro h
  have len := length_stuff raw
  rw [h] at len
  cases len

theorem toNat_code (short : block.length ≤ 254) : (code block).toNat = block.length + 1 := by
  rw [code, UInt8.toNat_ofNat']
  exact Nat.mod_eq_of_lt (by omega)

theorem code_ne_zero (short : block.length ≤ 254) : code block ≠ 0 := by
  intro h
  have e := toNat_code short
  rw [h] at e
  cases e

theorem stuff_nonzero (short : raw.length ≤ 254) : ∀ b ∈ stuff raw, b ≠ 0 := by
  induction raw using blocks_induction with
  | last block nonzero =>
    rw [stuff_block nonzero]
    exact List.forall_mem_cons.mpr ⟨code_ne_zero short, nonzero⟩
  | more block raw nonzero ih =>
    rw [List.length_append, List.length_cons] at short
    rw [stuff_blocks nonzero]
    refine List.forall_mem_cons.mpr ⟨code_ne_zero (by omega), fun b hb => ?_⟩
    rcases List.mem_append.mp hb with hb | hb
    · exact nonzero b hb
    · exact ih (by omega) b hb

end SimpleAttestation.Cobs
