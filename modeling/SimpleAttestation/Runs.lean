import Mathlib.Data.List.Basic
import Mathlib.Order.Nat

set_option autoImplicit false

/-!
# Labelled runs of a step relation

The labels of a run are what an observer sees of it. A watermark is an invariant
that carries a number: every number the run emits lies above the watermark before
the step and at most at the watermark after it, so the emitted numbers increase.
-/
namespace SimpleAttestation.Runs

variable {σ ε : Type}

inductive Run (step : σ → ε → σ → Prop) : σ → List ε → σ → Prop where
  | start (s : σ) : Run step s [] s
  | next {s t u : σ} {es : List ε} {e : ε} (before : Run step s es t) (last : step t e u) :
      Run step s (es ++ [e]) u

variable {step : σ → ε → σ → Prop}

theorem run_invariant (Inv : σ → Prop) (hstep : ∀ s e t, Inv s → step s e t → Inv t)
    {s t : σ} {es : List ε} (hs : Inv s) (h : Run step s es t) : Inv t := by
  induction h with
  | start => exact hs
  | next before last ih => exact hstep _ _ _ ih last

theorem run_emits (Inv : σ → Prop) (P : ε → Prop)
    (hstep : ∀ s e t, Inv s → step s e t → Inv t ∧ P e) {s t : σ} {es : List ε} (hs : Inv s)
    (h : Run step s es t) : ∀ e ∈ es, P e := by
  induction h with
  | start => simp
  | next before last ih =>
    have here := run_invariant Inv (fun s e t hs step => (hstep s e t hs step).1) hs before
    exact List.forall_mem_append.mpr ⟨ih, List.forall_mem_singleton.mpr (hstep _ _ _ here last).2⟩

theorem run_append {s t u : σ} {es fs : List ε} (h : Run step s es t) (g : Run step t fs u) :
    Run step s (es ++ fs) u := by
  induction g with
  | start => simpa using h
  | next before last ih =>
    rw [← List.append_assoc]
    exact .next ih last

theorem run_split {s t : σ} {es fs : List ε} (h : Run step s (es ++ fs) t) :
    ∃ u, Run step s es u ∧ Run step u fs t := by
  generalize same : es ++ fs = all at h
  induction h generalizing fs with
  | start =>
    obtain ⟨rfl, rfl⟩ := List.append_eq_nil_iff.mp same
    exact ⟨s, .start s, .start s⟩
  | @next t u before e h last ih =>
    rcases List.eq_nil_or_concat fs with rfl | ⟨rest, f, rfl⟩
    · rw [List.append_nil] at same
      exact ⟨u, same ▸ .next h last, .start u⟩
    · rw [List.concat_eq_append, ← List.append_assoc] at same
      obtain ⟨front, last_⟩ := List.append_inj' same rfl
      obtain rfl := List.singleton_inj.mp last_
      obtain ⟨v, first, second⟩ := ih front
      exact ⟨v, first, by rw [List.concat_eq_append]; exact .next second last⟩

theorem run_head {s t : σ} {e : ε} {es : List ε} (h : Run step s (e :: es) t) :
    ∃ u, step s e u ∧ Run step u es t := by
  obtain ⟨u, first, rest⟩ := run_split (show Run step s ([e] ++ es) t from h)
  refine ⟨u, ?_, rest⟩
  generalize same : [e] = one at first
  cases first with
  | start => cases same
  | @next v _ before f run last =>
    obtain ⟨none_, last_⟩ := List.append_inj' (show [] ++ [e] = before ++ [f] from same) rfl
    obtain rfl := List.singleton_inj.mp last_
    generalize before = none_' at none_ run
    cases run with
    | start => exact last
    | next => exact absurd none_ (by simp)

theorem run_one {s t : σ} {e : ε} (h : step s e t) : Run step s [e] t :=
  .next (.start s) h

theorem run_simulates {τ : Type} {abstract : τ → ε → τ → Prop} (sim : τ → σ → Prop)
    (hstep : ∀ a s e t, sim a s → step s e t → ∃ b, abstract a e b ∧ sim b t) {s t : σ} {a : τ}
    {es : List ε} (hs : sim a s) (h : Run step s es t) : ∃ b, Run abstract a es b ∧ sim b t := by
  induction h with
  | start => exact ⟨a, .start a, hs⟩
  | next before last ih =>
    obtain ⟨b, run, here⟩ := ih
    obtain ⟨c, moved, there⟩ := hstep b _ _ _ here last
    exact ⟨c, .next run moved, there⟩

/-- `mark m s`: everything emitted so far is at most `m`. -/
theorem run_increasing (out : ε → Option ℕ) (mark : ℕ → σ → Prop)
    (hstep : ∀ m s e t, mark m s → step s e t →
      ∃ m', mark m' t ∧ m ≤ m' ∧ ∀ n, out e = some n → m < n ∧ n ≤ m')
    {s t : σ} {es : List ε} {m : ℕ} (hs : mark m s) (h : Run step s es t) :
    (es.filterMap out).Pairwise (· < ·) ∧
      ∃ m', mark m' t ∧ m ≤ m' ∧ ∀ n ∈ es.filterMap out, m < n ∧ n ≤ m' := by
  induction h with
  | start => exact ⟨List.Pairwise.nil, m, hs, le_refl m, by simp⟩
  | @next t u es e before last ih =>
    obtain ⟨sorted, m₁, mark₁, le₁, bound₁⟩ := ih
    obtain ⟨m₂, mark₂, le₂, fresh⟩ := hstep m₁ t e u mark₁ last
    have heads : List.filterMap out [e] = (out e).toList := by
      cases he : out e <;> simp [he]
    rw [List.filterMap_append, heads]
    refine ⟨?_, m₂, mark₂, le₁.trans le₂, ?_⟩
    · rw [List.pairwise_append]
      refine ⟨sorted, by cases out e <;> simp, ?_⟩
      intro a ha b hb
      have hb' : out e = some b := by simpa using hb
      exact (bound₁ a ha).2.trans_lt (fresh b hb').1
    · intro n hn
      rcases List.mem_append.mp hn with hn | hn
      · exact ⟨(bound₁ n hn).1, (bound₁ n hn).2.trans le₂⟩
      · have hn' : out e = some n := by simpa using hn
        exact ⟨le₁.trans_lt (fresh n hn').1, (fresh n hn').2⟩

end SimpleAttestation.Runs
