import Mathlib.Logic.Basic

set_option autoImplicit false

/-!
# Programs that call a device, and a logic for losing power inside them

A program is a tree of calls, each waiting for its answer. A device says how a
completed call may answer and what a call may leave behind when power is lost
inside it. `Safe` is the weakest precondition of a program with a guard on every
call, a postcondition for its return and a crash condition for every moment at
which power can be lost.
-/
namespace SimpleAttestation.CallProgram

inductive Prog (C : Type) (R : C → Type) (α : Type) where
  | done (a : α)
  | call (c : C) (k : R c → Prog C R α)

namespace Prog
variable {C : Type} {R : C → Type} {α β γ : Type}

protected def bind : Prog C R α → (α → Prog C R β) → Prog C R β
  | done a, f => f a
  | call c k, f => call c fun r => (k r).bind f

instance : Monad (Prog C R) where
  pure := done
  bind := Prog.bind

def ask (c : C) : Prog C R (R c) := call c done

@[simp] theorem pure_eq (a : α) : (pure a : Prog C R α) = done a := rfl

@[simp] theorem done_bind (a : α) (f : α → Prog C R β) : (done a >>= f) = f a := rfl

@[simp] theorem call_bind (c : C) (k : R c → Prog C R α) (f : α → Prog C R β) :
    (call c k >>= f) = call c fun r => k r >>= f := rfl

@[simp] theorem ask_bind (c : C) (f : R c → Prog C R β) : (ask c >>= f) = call c f := rfl

theorem bind_assoc (p : Prog C R α) (f : α → Prog C R β) (g : β → Prog C R γ) :
    (p >>= f >>= g) = p >>= fun a => f a >>= g := by
  induction p with
  | done a => rfl
  | call c k ih =>
    rw [call_bind, call_bind, call_bind]
    exact congrArg (call c) (funext ih)

def eval {σ : Type} (h : (c : C) → σ → R c × σ) : Prog C R α → σ → α × σ
  | done a, s => (a, s)
  | call c k, s => (k (h c s).1).eval h (h c s).2

@[simp] theorem eval_done {σ : Type} (h : (c : C) → σ → R c × σ) (a : α) (s : σ) :
    (done a : Prog C R α).eval h s = (a, s) := rfl

@[simp] theorem eval_call {σ : Type} (h : (c : C) → σ → R c × σ) (c : C)
    (k : R c → Prog C R α) (s : σ) :
    (call c k).eval h s = (k (h c s).1).eval h (h c s).2 := rfl

theorem eval_bind {σ : Type} (h : (c : C) → σ → R c × σ) (p : Prog C R α)
    (f : α → Prog C R β) (s : σ) :
    (p >>= f).eval h s = (f (p.eval h s).1).eval h (p.eval h s).2 := by
  induction p generalizing s with
  | done a => rfl
  | call c k ih => exact ih _ _

def calls {σ : Type} (h : (c : C) → σ → R c × σ) : Prog C R α → σ → List (C × σ)
  | done _, _ => []
  | call c k, s => (c, s) :: (k (h c s).1).calls h (h c s).2

/-- Answer every call of a program by a program over another device, threading the
    state `S` of the code that does so. -/
def interp {C' : Type} {R' : C' → Type} {S : Type}
    (h : (c : C) → S → Prog C' R' (R c × S)) : Prog C R α → S → Prog C' R' (α × S)
  | done a, s => done (a, s)
  | call c k, s => h c s >>= fun x => (k x.1).interp h x.2

end Prog

/-- `answers c s r t`: call `c` completes with answer `r` and takes the device from `s`
    to `t`. `tears c s t`: power is lost inside `c` and leaves `t`. -/
structure Device (C : Type) (R : C → Type) (σ : Type) where
  answers : (c : C) → σ → R c → σ → Prop
  tears : C → σ → σ → Prop

section
variable {C : Type} {R : C → Type} {σ α β : Type}

def Exec (dev : Device C R σ) : Prog C R α → σ → α → σ → Prop
  | .done a, s, b, t => b = a ∧ t = s
  | .call c k, s, b, t => ∃ r u, dev.answers c s r u ∧ Exec dev (k r) u b t

/-- A run that power loss ends: before a call, inside it, or before the return. -/
def Cut (dev : Device C R σ) : Prog C R α → σ → σ → Prop
  | .done _, s, t => t = s
  | .call c k, s, t => t = s ∨ dev.tears c s t ∨ ∃ r u, dev.answers c s r u ∧ Cut dev (k r) u t

def Safe (dev : Device C R σ) (G : C → σ → Prop) (K : σ → Prop) :
    Prog C R α → (α → σ → Prop) → σ → Prop
  | .done a, Q, s => K s ∧ Q a s
  | .call c k, Q, s => K s ∧ G c s ∧ (∀ t, dev.tears c s t → K t) ∧
      ∀ r t, dev.answers c s r t → Safe dev G K (k r) Q t

/-- Total correctness. A program is well-founded, so all that can fail to come is an answer. -/
def Ends (dev : Device C R σ) (p : Prog C R α) (s : σ) (Q : α → σ → Prop) : Prop :=
  (∃ a t, Exec dev p s a t) ∧ ∀ a t, Exec dev p s a t → Q a t

variable {dev : Device C R σ} {G G' : C → σ → Prop} {K K' : σ → Prop}

@[simp] theorem safe_done (a : α) (Q : α → σ → Prop) (s : σ) :
    Safe dev G K (.done a) Q s ↔ K s ∧ Q a s := Iff.rfl

@[simp] theorem safe_call (c : C) (k : R c → Prog C R α) (Q : α → σ → Prop) (s : σ) :
    Safe dev G K (.call c k) Q s ↔ K s ∧ G c s ∧ (∀ t, dev.tears c s t → K t) ∧
      ∀ r t, dev.answers c s r t → Safe dev G K (k r) Q t := Iff.rfl

theorem safe_here (p : Prog C R α) (Q : α → σ → Prop) (s : σ)
    (h : Safe dev G K p Q s) : K s := by
  cases p with
  | done a => exact h.1
  | call c k => exact h.1

theorem safe_mono (p : Prog C R α) (Q Q' : α → σ → Prop) (s : σ)
    (hG : ∀ c s, G c s → G' c s) (hK : ∀ s, K s → K' s) (hQ : ∀ a s, Q a s → Q' a s)
    (h : Safe dev G K p Q s) : Safe dev G' K' p Q' s := by
  induction p generalizing s with
  | done a => exact ⟨hK s h.1, hQ a s h.2⟩
  | call c k ih =>
    obtain ⟨here, guard, torn, rest⟩ := h
    exact ⟨hK s here, hG c s guard, fun t ht => hK t (torn t ht),
      fun r t hr => ih r t (rest r t hr)⟩

theorem safe_post {p : Prog C R α} {P Q : α → σ → Prop} {s : σ} (post : ∀ a t, P a t → Q a t)
    (h : Safe dev G K p P s) : Safe dev G K p Q s :=
  safe_mono p P Q s (fun _ _ g => g) (fun _ k => k) post h

theorem safe_and_crash {p : Prog C R α} {Q : α → σ → Prop} {s : σ}
    (h : Safe dev G K p Q s) : Safe dev G K p (fun a t => Q a t ∧ K t) s := by
  induction p generalizing s with
  | done a => exact ⟨h.1, h.2, h.1⟩
  | call c k ih =>
    obtain ⟨here, guard, torn, rest⟩ := h
    exact ⟨here, guard, torn, fun r t hr => ih r (rest r t hr)⟩

theorem safe_and {p : Prog C R α} {Q Q' : α → σ → Prop} {s : σ} (h : Safe dev G K p Q s)
    (h' : Safe dev G' K' p Q' s) : Safe dev G K p (fun a t => Q a t ∧ Q' a t) s := by
  induction p generalizing s with
  | done a => exact ⟨h.1, h.2, h'.2⟩
  | call c k ih => exact ⟨h.1, h.2.1, h.2.2.1, fun r t hr => ih r (h.2.2.2 r t hr) (h'.2.2.2 r t hr)⟩

theorem safe_both {p : Prog C R α} {Q Q' : α → σ → Prop} {s : σ} (h : Safe dev G K p Q s)
    (h' : Safe dev G' K' p Q' s) :
    Safe dev (fun c t => G c t ∧ G' c t) (fun t => K t ∧ K' t) p (fun a t => Q a t ∧ Q' a t) s := by
  induction p generalizing s with
  | done a => exact ⟨⟨h.1, h'.1⟩, h.2, h'.2⟩
  | call c k ih =>
    obtain ⟨here, guard, torn, rest⟩ := h
    obtain ⟨here', guard', torn', rest'⟩ := h'
    exact ⟨⟨here, here'⟩, ⟨guard, guard'⟩, fun t ht => ⟨torn t ht, torn' t ht⟩,
      fun r t hr => ih r (rest r t hr) (rest' r t hr)⟩

theorem safe_narrow {dev' : Device C R σ} (h : ∀ c s r t, dev'.answers c s r t → dev.answers c s r t)
    (torn : ∀ c s t, dev'.tears c s t → dev.tears c s t) {p : Prog C R α} {Q : α → σ → Prop} {s : σ}
    (safe : Safe dev G K p Q s) : Safe dev' G K p Q s := by
  induction p generalizing s with
  | done a => exact safe
  | call c k ih =>
    obtain ⟨here, guard, left, rest⟩ := safe
    exact ⟨here, guard, fun t ht => left t (torn c s t ht), fun r t hr => ih r (rest r t (h c s r t hr))⟩

theorem safe_bind (p : Prog C R α) (f : α → Prog C R β) (Q : β → σ → Prop) (s : σ) :
    Safe dev G K (p >>= f) Q s ↔ Safe dev G K p (fun a t => Safe dev G K (f a) Q t) s := by
  induction p generalizing s with
  | done a =>
    rw [Prog.done_bind, safe_done]
    exact ⟨fun h => ⟨safe_here _ _ _ h, h⟩, fun h => h.2⟩
  | call c k ih => simp only [Prog.call_bind, safe_call, ih]

theorem safe_then {p : Prog C R α} {f : α → Prog C R β} {P : α → σ → Prop} {Q : β → σ → Prop} {s : σ}
    (h : Safe dev G K p P s) (next : ∀ a t, P a t → K t → Safe dev G K (f a) Q t) :
    Safe dev G K (p >>= f) Q s := by
  rw [safe_bind]
  exact safe_post (fun a t hp => next a t hp.1 hp.2) (safe_and_crash h)

theorem safe_exec (p : Prog C R α) (Q : α → σ → Prop) (s t : σ) (a : α)
    (h : Safe dev G K p Q s) (he : Exec dev p s a t) : Q a t := by
  induction p generalizing s with
  | done b =>
    obtain ⟨rfl, rfl⟩ := he
    exact h.2
  | call c k ih =>
    obtain ⟨r, u, hr, he⟩ := he
    exact ih r u (h.2.2.2 r u hr) he

theorem safe_cut (p : Prog C R α) (Q : α → σ → Prop) (s t : σ)
    (h : Safe dev G K p Q s) (hc : Cut dev p s t) : K t := by
  induction p generalizing s with
  | done b =>
    obtain rfl := hc
    exact h.1
  | call c k ih =>
    rcases hc with rfl | torn | ⟨r, u, hr, hc⟩
    · exact h.1
    · exact h.2.2.1 t torn
    · exact ih r u (h.2.2.2 r u hr) hc

theorem cut_here (p : Prog C R α) (s : σ) : Cut dev p s s := by
  cases p with
  | done a => rfl
  | call c k => exact Or.inl rfl

/-- `Safe` is no stronger than what it says about completed and interrupted runs. -/
theorem safe_of_runs (p : Prog C R α) (Q : α → σ → Prop) (s : σ)
    (hQ : ∀ a t, Exec dev p s a t → Q a t) (hK : ∀ t, Cut dev p s t → K t) :
    Safe dev (fun _ _ => True) K p Q s := by
  induction p generalizing s with
  | done a => exact ⟨hK s rfl, hQ a s ⟨rfl, rfl⟩⟩
  | call c k ih =>
    refine ⟨hK s (Or.inl rfl), trivial, fun t ht => hK t (Or.inr (Or.inl ht)), ?_⟩
    intro r t hr
    exact ih r t (fun a u hu => hQ a u ⟨r, t, hr, hu⟩)
      (fun u hu => hK u (Or.inr (Or.inr ⟨r, t, hr, hu⟩)))

theorem safe_ends (live : ∀ c s, G c s → ∃ r t, dev.answers c s r t) (p : Prog C R α)
    (Q : α → σ → Prop) (s : σ) (h : Safe dev G K p Q s) : Ends dev p s Q := by
  refine ⟨?_, fun a t => safe_exec p Q s t a h⟩
  induction p generalizing s with
  | done a => exact ⟨a, s, rfl, rfl⟩
  | call c k ih =>
    obtain ⟨-, guard, -, rest⟩ := h
    obtain ⟨r, u, hr⟩ := live c s guard
    obtain ⟨a, t, ht⟩ := ih r u (rest r u hr)
    exact ⟨a, t, r, u, hr, ht⟩

theorem exec_exists (live : ∀ c s, ∃ r t, dev.answers c s r t) (p : Prog C R α) (s : σ) :
    ∃ a t, Exec dev p s a t := by
  have any := @safe_of_runs _ _ _ _ dev (fun _ => True) p (fun _ _ => True) s
    (fun _ _ _ => trivial) (fun _ _ => trivial)
  exact (safe_ends (fun c s _ => live c s) p _ s any).1

theorem ends_mono {p : Prog C R α} {Q Q' : α → σ → Prop} {s : σ} (h : Ends dev p s Q)
    (hQ : ∀ a t, Q a t → Q' a t) : Ends dev p s Q' :=
  ⟨h.1, fun a t he => hQ a t (h.2 a t he)⟩

theorem exec_bind (p : Prog C R α) (f : α → Prog C R β) (s u : σ) (b : β) :
    Exec dev (p >>= f) s b u ↔ ∃ a t, Exec dev p s a t ∧ Exec dev (f a) t b u := by
  induction p generalizing s with
  | done a =>
    constructor
    · exact fun h => ⟨a, s, ⟨rfl, rfl⟩, h⟩
    · rintro ⟨_, _, ⟨rfl, rfl⟩, h⟩
      exact h
  | call c k ih =>
    constructor
    · rintro ⟨r, w, hr, h⟩
      obtain ⟨a, t, hp, hf⟩ := (ih r w).mp h
      exact ⟨a, t, ⟨r, w, hr, hp⟩, hf⟩
    · rintro ⟨a, t, ⟨r, w, hr, hp⟩, hf⟩
      exact ⟨r, w, hr, (ih r w).mpr ⟨a, t, hp, hf⟩⟩

theorem exec_mono {dev' : Device C R σ} (h : ∀ c s r t, dev.answers c s r t → dev'.answers c s r t)
    (p : Prog C R α) (s t : σ) (a : α) (he : Exec dev p s a t) : Exec dev' p s a t := by
  induction p generalizing s with
  | done b => exact he
  | call c k ih =>
    obtain ⟨r, u, hr, he⟩ := he
    exact ⟨r, u, h c s r u hr, ih r u he⟩

theorem cut_mono {dev' : Device C R σ} (h : ∀ c s r t, dev.answers c s r t → dev'.answers c s r t)
    (torn : ∀ c s t, dev.tears c s t → dev'.tears c s t) (p : Prog C R α) (s t : σ)
    (hc : Cut dev p s t) : Cut dev' p s t := by
  induction p generalizing s with
  | done b => exact hc
  | call c k ih =>
    rcases hc with same | left | ⟨r, u, hr, hc⟩
    · exact Or.inl same
    · exact Or.inr (Or.inl (torn c s t left))
    · exact Or.inr (Or.inr ⟨r, u, h c s r u hr, ih r u hc⟩)

def Makes (dev : Device C R σ) : Prog C R α → σ → C → σ → Prop
  | .done _, _, _, _ => False
  | .call c k, s, c', u => (c' = c ∧ u = s) ∨ ∃ r t, dev.answers c s r t ∧ Makes dev (k r) t c' u

theorem safe_makes (p : Prog C R α) (Q : α → σ → Prop) (s : σ) (h : Safe dev G K p Q s) {c : C} {u : σ}
    (made : Makes dev p s c u) : G c u := by
  induction p generalizing s with
  | done a => exact made.elim
  | call d k ih =>
    obtain ⟨-, guard, -, rest⟩ := h
    rcases made with ⟨rfl, rfl⟩ | ⟨r, t, answered, made⟩
    · exact guard
    · exact ih r t (rest r t answered) made

theorem eval_exec (h : (c : C) → σ → R c × σ)
    (hdev : ∀ c s, dev.answers c s (h c s).1 (h c s).2)
    (p : Prog C R α) (s : σ) : Exec dev p s (p.eval h s).1 (p.eval h s).2 := by
  induction p generalizing s with
  | done b => exact ⟨rfl, rfl⟩
  | call c k ih => exact ⟨_, _, hdev c s, ih _ _⟩

def functionDevice (h : (c : C) → σ → R c × σ) : Device C R σ where
  answers c s r t := h c s = (r, t)
  tears _ _ _ := False

theorem eval_function (h : (c : C) → σ → R c × σ) (p : Prog C R α) (s : σ) :
    Exec (functionDevice h) p s (p.eval h s).1 (p.eval h s).2 :=
  eval_exec h (fun _ _ => rfl) p s

theorem safe_eval (h : (c : C) → σ → R c × σ) {p : Prog C R α} {Q : α → σ → Prop} {s : σ}
    (safe : Safe (functionDevice h) G K p Q s) :
    Safe (functionDevice h) G K p (fun a t => p.eval h s = (a, t)) s := by
  induction p generalizing s with
  | done a => exact ⟨safe.1, rfl⟩
  | call c k ih =>
    refine ⟨safe.1, safe.2.1, safe.2.2.1, fun r t answered => ?_⟩
    have same : (k r).eval h t = (Prog.call c k).eval h s := by
      rw [Prog.eval_call, show h c s = (r, t) from answered]
    rw [← same]
    exact ih r (safe.2.2.2 r t answered)

theorem safe_calls (h : (c : C) → σ → R c × σ)
    (hdev : ∀ c s, dev.answers c s (h c s).1 (h c s).2) (p : Prog C R α) (Q : α → σ → Prop) (s : σ)
    (hp : Safe dev G K p Q s) : ∀ x ∈ p.calls h s, G x.1 x.2 := by
  induction p generalizing s with
  | done a => simp [Prog.calls]
  | call c k ih =>
    obtain ⟨-, guard, -, rest⟩ := hp
    exact List.forall_mem_cons.mpr ⟨guard, ih _ _ (rest _ _ (hdev c s))⟩

end

/-- Refinement. When every call of `A` is answered by a program over `B` that simulates
    it, losing power included, what is safe over `A` is safe over `B`. `sim` relates the
    states while power is on and `down` after it is lost. -/
theorem safe_interp {C C' : Type} {R : C → Type} {R' : C' → Type} {S τ σ α : Type}
    (A : Device C R τ) (B : Device C' R' σ) (G : C → τ → Prop) (G' : C' → σ → Prop)
    (K : τ → Prop) (h : (c : C) → S → Prog C' R' (R c × S))
    (sim : τ → S → σ → Prop) (down : τ → σ → Prop)
    (hdown : ∀ a s t, sim a s t → down a t)
    (hcall : ∀ c a s t, sim a s t → G c a →
      Safe B G' (fun t' => ∃ a', (a' = a ∨ A.tears c a a' ∨ ∃ r, A.answers c a r a') ∧ down a' t')
        (h c s) (fun x t' => ∃ a', A.answers c a x.1 a' ∧ sim a' x.2 t') t)
    (p : Prog C R α) (Q : α → τ → Prop) (a : τ) (s : S) (t : σ) (hs : sim a s t)
    (hp : Safe A G K p Q a) :
    Safe B G' (fun t' => ∃ a', K a' ∧ down a' t') (p.interp h s)
      (fun x t' => ∃ a', Q x.1 a' ∧ sim a' x.2 t') t := by
  induction p generalizing a s t with
  | done b => exact ⟨⟨a, hp.1, hdown a s t hs⟩, a, hp.2, hs⟩
  | call c k ih =>
    obtain ⟨here, guard, torn, rest⟩ := hp
    rw [Prog.interp, safe_bind]
    refine safe_mono (h c s) _ _ t (fun _ _ g => g) ?_ ?_ (hcall c a s t hs guard)
    · rintro t' ⟨a', moved, hd⟩
      rcases moved with rfl | moved | ⟨r, moved⟩
      · exact ⟨a', here, hd⟩
      · exact ⟨a', torn a' moved, hd⟩
      · exact ⟨a', safe_here _ _ _ (rest r a' moved), hd⟩
    · rintro x t' ⟨a', answered, hs'⟩
      exact ih x.1 a' x.2 t' hs' (rest x.1 a' answered)

section
variable {C : Type} {R : C → Type} {σ α β : Type} {dev : Device C R σ} {bad bad' : C → Prop}
  {p : Prog C R α}

def Avoids (bad : C → Prop) : Prog C R α → Prop
  | .done _ => True
  | .call c k => ¬ bad c ∧ ∀ r, Avoids bad (k r)

theorem avoids_bind {f : α → Prog C R β} (h : Avoids bad p) (next : ∀ a, Avoids bad (f a)) :
    Avoids bad (p >>= f) := by
  induction p with
  | done a => exact next a
  | call c k ih => exact ⟨h.1, fun r => ih r (h.2 r)⟩

theorem avoids_mono (less : ∀ c, bad' c → bad c) (h : Avoids bad p) : Avoids bad' p := by
  induction p with
  | done a => trivial
  | call c k ih => exact ⟨fun no => h.1 (less c no), fun r => ih r (h.2 r)⟩

theorem avoids_interp {C' : Type} {R' : C' → Type} {S : Type} {worse : C' → Prop}
    {handler : (c : C) → S → Prog C' R' (R c × S)}
    (good : ∀ c s, ¬ bad c → Avoids worse (handler c s)) (h : Avoids bad p) (s : S) :
    Avoids worse (p.interp handler s) := by
  induction p generalizing s with
  | done a => trivial
  | call c k ih => exact avoids_bind (good c s h.1) fun x => ih x.1 (h.2 x.1) x.2

theorem safe_avoids {K : σ → Prop} (h : Avoids bad p) (kept : ∀ c s, ¬ bad c → K s →
      (∀ t, dev.tears c s t → K t) ∧ ∀ r t, dev.answers c s r t → K t) {s : σ} (here : K s) :
    Safe dev (fun _ _ => True) K p (fun _ t => K t) s := by
  induction p generalizing s with
  | done a => exact ⟨here, here⟩
  | call c k ih =>
    obtain ⟨torn, answered⟩ := kept c s h.1 here
    exact ⟨here, trivial, torn, fun r t hr => ih r (h.2 r) (answered r t hr)⟩

end

/-- Both devices hear every call and agree on its answer. -/
def Device.prod {C : Type} {R : C → Type} {σ τ : Type} (A : Device C R σ) (B : Device C R τ) :
    Device C R (σ × τ) where
  answers c s r t := A.answers c s.1 r t.1 ∧ B.answers c s.2 r t.2
  tears c s t := A.tears c s.1 t.1 ∧ B.tears c s.2 t.2

section
variable {C : Type} {R : C → Type} {σ τ α : Type} {A : Device C R σ} {B : Device C R τ}

theorem exec_prod (p : Prog C R α) {s t : σ × τ} {a : α} (h : Exec (A.prod B) p s a t) :
    Exec A p s.1 a t.1 ∧ Exec B p s.2 a t.2 := by
  induction p generalizing s with
  | done b =>
    obtain ⟨rfl, rfl⟩ := h
    exact ⟨⟨rfl, rfl⟩, rfl, rfl⟩
  | call c k ih =>
    obtain ⟨r, u, ⟨first, second⟩, rest⟩ := h
    obtain ⟨left, right⟩ := ih r rest
    exact ⟨⟨r, u.1, first, left⟩, r, u.2, second, right⟩

theorem safe_prod {G : C → σ → Prop} {G' : C → τ → Prop} {K : σ → Prop} {K' : τ → Prop} {p : Prog C R α}
    {Q : α → σ → Prop} {Q' : α → τ → Prop} {s : σ} {t : τ} (h : Safe A G K p Q s) (h' : Safe B G' K' p Q' t) :
    Safe (A.prod B) (fun c x => G c x.1 ∧ G' c x.2) (fun x => K x.1 ∧ K' x.2) p
      (fun a x => Q a x.1 ∧ Q' a x.2) (s, t) := by
  induction p generalizing s t with
  | done a => exact ⟨⟨h.1, h'.1⟩, h.2, h'.2⟩
  | call c k ih =>
    obtain ⟨here, guard, torn, rest⟩ := h
    obtain ⟨here', guard', torn', rest'⟩ := h'
    exact ⟨⟨here, here'⟩, ⟨guard, guard'⟩, fun u hu => ⟨torn _ hu.1, torn' _ hu.2⟩,
      fun r u hu => ih r (rest r _ hu.1) (rest' r _ hu.2)⟩

theorem cut_prod (p : Prog C R α) {s t : σ × τ} (h : Cut (A.prod B) p s t) :
    Cut A p s.1 t.1 ∧ Cut B p s.2 t.2 := by
  induction p generalizing s with
  | done a =>
    obtain rfl := h
    exact ⟨rfl, rfl⟩
  | call c k ih =>
    rcases h with rfl | ⟨first, second⟩ | ⟨r, u, ⟨first, second⟩, rest⟩
    · exact ⟨Or.inl rfl, Or.inl rfl⟩
    · exact ⟨Or.inr (Or.inl first), Or.inr (Or.inl second)⟩
    · obtain ⟨left, right⟩ := ih r rest
      exact ⟨Or.inr (Or.inr ⟨r, u.1, first, left⟩), Or.inr (Or.inr ⟨r, u.2, second, right⟩)⟩

end

end SimpleAttestation.CallProgram
