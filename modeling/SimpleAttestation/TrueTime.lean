import Mathlib.Data.List.Chain
import Mathlib.Order.Nat

set_option autoImplicit false

/-!
# Deadlines on a timer that wraps

True time is unbounded and a timer shows it modulo `M`. Subtracting two of its readings
gives the time between them modulo `M`, so an expired deadline looks expired only for
`M - duration` ticks. Readings closer together than that cannot step over it.
-/
namespace SimpleAttestation.TrueTime

/-- The wrapped difference of the readings at `now` and at `start`. -/
def elapsed (M start now : ℕ) : ℕ := (M - start % M + now % M) % M

def Soon (gap a b : ℕ) : Prop := a ≤ b ∧ b < a + gap

instance (gap a b : ℕ) : Decidable (Soon gap a b) := inferInstanceAs (Decidable (_ ∧ _))

def Spaced (gap : ℕ) (ts : List ℕ) : Prop := ts.IsChain (Soon gap)

instance (gap : ℕ) (ts : List ℕ) : Decidable (Spaced gap ts) :=
  inferInstanceAs (Decidable (ts.IsChain (Soon gap)))

section
variable {M start now duration gap : ℕ}

theorem elapsed_eq (pos : 0 < M) (order : start ≤ now) :
    elapsed M start now = (now - start) % M := by
  obtain ⟨d, rfl⟩ := Nat.exists_eq_add_of_le order
  have below := Nat.mod_lt start pos
  have split := Nat.div_add_mod start M
  have whole : M - start % M + (start + d) = M * (1 + start / M) + d := by
    rw [Nat.mul_add, Nat.mul_one]
    omega
  rw [elapsed, Nat.add_mod_mod, whole, Nat.mul_add_mod, Nat.add_sub_cancel_left]

/-- Never early. -/
theorem start_add_le (pos : 0 < M) (order : start ≤ now) (h : duration ≤ elapsed M start now) :
    start + duration ≤ now := by
  have le := Nat.mod_le (now - start) M
  rw [elapsed_eq pos order] at h
  omega

/-- Nor late, while the last reading was in time and is not too long ago. -/
theorem elapsed_iff {last : ℕ} (pos : 0 < M) (fits : duration ≤ M) (first : start ≤ last)
    (inTime : last < start + duration) (next : Soon (M - duration) last now) :
    duration ≤ elapsed M start now ↔ start + duration ≤ now := by
  obtain ⟨order, close⟩ := next
  have short : now - start < M := by omega
  rw [elapsed_eq pos (first.trans order), Nat.mod_eq_of_lt short]
  omega

@[simp] theorem spaced_one (a : ℕ) : Spaced gap [a] := .singleton a

@[simp] theorem spaced_cons (a b : ℕ) (ts : List ℕ) :
    Spaced gap (a :: b :: ts) ↔ Soon gap a b ∧ Spaced gap (b :: ts) := List.isChain_cons_cons

theorem spaced_snoc (ts : List ℕ) (t : ℕ) :
    Spaced gap (ts ++ [t]) ↔ Spaced gap ts ∧ ∀ last ∈ ts.getLast?, Soon gap last t := by
  rw [Spaced, List.isChain_append]
  simp [Spaced]

theorem spaced_le {a : ℕ} {ts : List ℕ} (h : Spaced gap (a :: ts)) : ∀ t ∈ a :: ts, a ≤ t := by
  induction ts generalizing a with
  | nil => simp
  | cons b ts ih =>
    obtain ⟨⟨le, -⟩, rest⟩ := (spaced_cons _ _ _).mp h
    exact List.forall_mem_cons.mpr ⟨Nat.le_refl a, fun t ht => le.trans (ih rest t ht)⟩

end

end SimpleAttestation.TrueTime
