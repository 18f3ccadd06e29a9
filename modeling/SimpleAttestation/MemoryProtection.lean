import Mathlib.Logic.Function.Basic
import Mathlib.Data.Nat.Init

set_option autoImplicit false

/-!
# A memory protection unit

Numbered regions over an address space, as ARMv7-M has them: a region starts at a multiple
of its size, any eighth of it can be left out, and of two that cover an address the higher
number decides.
-/
namespace SimpleAttestation.MemoryProtection

structure Rights where
  write : Bool
  execute : Bool
deriving DecidableEq

/-- `size` is a power of two; bit `i` of `subregionDisable` leaves out the `i`-th eighth. -/
structure Region where
  base : ℕ
  size : ℕ
  subregionDisable : ℕ
  rights : Rights
deriving DecidableEq

/-- The low bits of the base are not compared. -/
def Region.covers (r : Region) (a : ℕ) : Bool :=
  a / r.size == r.base / r.size && !r.subregionDisable.testBit (a % r.size / (r.size / 8))

@[ext] structure Mpu where
  enabled : Bool
  regions : ℕ → Option Region

def Mpu.reset : Mpu := ⟨false, fun _ => none⟩

def Mpu.disable (m : Mpu) : Mpu := { m with enabled := false }

def Mpu.enable (m : Mpu) : Mpu := { m with enabled := true }

def Mpu.configure (m : Mpu) (number : ℕ) (r : Region) : Mpu :=
  { m with regions := Function.update m.regions number (some r) }

/-- The region that decides about an address, among those numbered below `n`. -/
def Mpu.find (m : Mpu) (a : ℕ) : ℕ → Option Region
  | 0 => none
  | n + 1 => if (m.regions n).any (·.covers a) then m.regions n else m.find a n

/-- `background` is what privileged code may do where no region says otherwise. -/
def Mpu.rights (m : Mpu) (background : ℕ → Rights) (count a : ℕ) : Rights :=
  if m.enabled then ((m.find a count).map Region.rights).getD (background a) else background a

section
variable {m : Mpu} {r : Region} {a n : ℕ}

theorem covers_iff (whole : r.subregionDisable = 0) :
    r.covers a = true ↔ a / r.size = r.base / r.size := by
  rw [Region.covers, whole, Nat.zero_testBit, Bool.not_false, Bool.and_true, beq_iff_eq]

/-- A region at a multiple of its size is an interval. -/
theorem covers_interval (whole : r.subregionDisable = 0) (pos : 0 < r.size)
    (aligned : r.base % r.size = 0) : r.covers a = true ↔ r.base ≤ a ∧ a < r.base + r.size := by
  rw [covers_iff whole, Nat.div_eq_iff pos]
  have same := Nat.div_add_mod r.base r.size
  rw [aligned, Nat.add_zero, Nat.mul_comm] at same
  rw [same]
  omega

theorem find_miss (misses : ∀ r, m.regions n = some r → r.covers a = false) :
    m.find a (n + 1) = m.find a n := by
  rw [Mpu.find]
  cases here : m.regions n with
  | none => rfl
  | some r =>
    rw [Option.any_some, misses r here]
    rfl

theorem find_unused {count : ℕ} (le : n ≤ count) (unused : ∀ k, n ≤ k → k < count → m.regions k = none) :
    m.find a count = m.find a n := by
  induction count, le using Nat.le_induction with
  | base => rfl
  | succ count le ih =>
    rw [find_miss fun r here => by rw [unused count le (Nat.lt_succ_self _)] at here; cases here]
    exact ih fun k lo hi => unused k lo (Nat.lt_succ_of_lt hi)

theorem rights_found {background : ℕ → Rights} {count : ℕ} (on : m.enabled = true)
    (found : m.find a count = some r) : m.rights background count a = r.rights := by
  rw [Mpu.rights, if_pos on, found]
  rfl

end

end SimpleAttestation.MemoryProtection
