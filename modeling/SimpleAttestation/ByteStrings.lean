import Mathlib.Data.List.Basic
import Mathlib.Data.List.Forall2

set_option autoImplicit false

/-!
# Byte buffers of fixed length, copies between them, and bits stuck at one
-/
namespace SimpleAttestation.ByteStrings

/-- A C array `uint8_t [n]`. -/
@[ext] structure Bytes (n : ℕ) where
  data : List UInt8
  length_data : data.length = n
deriving DecidableEq

attribute [simp] Bytes.length_data

def Bytes.fill (n : ℕ) (b : UInt8) : Bytes n := ⟨List.replicate n b, List.length_replicate⟩

/-- `memcpy(dst, buf + off, n)` into an array of `n` bytes. -/
def bytesAt (n : ℕ) (buf : List UInt8) (off : ℕ) : Bytes n :=
  ⟨(List.range n).map fun i => buf.getD (off + i) 0, by simp⟩

/-- `memcpy(buf + off, src, len)` with `len` the length of `src`. -/
def overwrite (buf : List UInt8) (off : ℕ) (src : List UInt8) : List UInt8 :=
  buf.take off ++ src ++ buf.drop (off + src.length)

theorem length_take_bytes {k n : ℕ} (bytes : Bytes k) (room : n ≤ k) :
    (bytes.data.take n).length = n := by
  rw [List.length_take, bytes.length_data]
  exact Nat.min_eq_left room

theorem take_set_next {buf : List UInt8} {i : ℕ} (inside : i < buf.length) (b : UInt8) :
    (buf.set i b).take (i + 1) = buf.take i ++ [b] := by
  rw [List.take_add_one, List.take_set_of_le (Nat.le_refl _), List.getElem?_set_self inside]
  rfl

theorem bytesAt_data {n : ℕ} {buf : List UInt8} {off : ℕ} (h : off + n ≤ buf.length) :
    (bytesAt n buf off).data = (buf.drop off).take n := by
  apply List.ext_getElem
  · simp only [Bytes.length_data, List.length_take, List.length_drop]
    omega
  · intro i hi _
    have hi' : i < n := by simpa using hi
    have hb : off + i < buf.length := by omega
    simp [bytesAt, hb]

theorem bytesAt_append {n : ℕ} (pre : List UInt8) (b : Bytes n) (post : List UInt8) (off : ℕ)
    (h : pre.length = off) : bytesAt n (pre ++ b.data ++ post) off = b := by
  ext1
  subst h
  rw [bytesAt_data (by simp), List.append_assoc, List.drop_left]
  exact List.take_left' b.length_data

theorem overwrite_append (pre rest src : List UInt8) (off : ℕ) (h : pre.length = off) :
    overwrite (pre ++ rest) off src = (pre ++ src) ++ rest.drop src.length := by
  subst h
  rw [overwrite, List.take_left, List.drop_append, List.drop_eq_nil_of_le (by omega),
    Nat.add_sub_cancel_left, List.nil_append]

def bit (b : UInt8) (i : ℕ) : Bool := b.toBitVec.getLsbD i

/-- Every bit of `actual` is one or has its value in `target`. -/
def Raised (target actual : UInt8) : Prop :=
  ∀ i, i < 8 → bit actual i = true ∨ bit actual i = bit target i

theorem raised_or {target actual : UInt8} (h : Raised target actual) :
    target ||| actual = actual := by
  apply UInt8.toBitVec_inj.mp
  apply BitVec.eq_of_getLsbD_eq
  intro i hi
  rw [UInt8.toBitVec_or, BitVec.getLsbD_or]
  rcases h i hi with one | same
  · change actual.toBitVec.getLsbD i = true at one
    rw [one, Bool.or_true]
  · change actual.toBitVec.getLsbD i = target.toBitVec.getLsbD i at same
    rw [same, Bool.or_self]

/-- A bit stuck at one cannot be lowered again: nothing but 0xFF comes out of 0xFF. -/
theorem raised_full {actual : UInt8} (h : Raised 255 actual) : actual = 255 := by
  have both := raised_or h
  have full : (255 : UInt8) ||| actual = 255 := by
    apply UInt8.toBitVec_inj.mp
    exact BitVec.allOnes_or
  exact both.symm.trans full

theorem raised_full_list {ts as : List UInt8} (h : List.Forall₂ Raised ts as)
    (full : ∀ t ∈ ts, t = 255) : ∀ a ∈ as, a = 255 := by
  induction h with
  | nil => simp
  | @cons t a ts as first rest ih =>
    obtain ⟨ht, hts⟩ := List.forall_mem_cons.mp full
    subst ht
    exact List.forall_mem_cons.mpr ⟨raised_full first, ih hts⟩

end SimpleAttestation.ByteStrings
