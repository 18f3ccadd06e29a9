import SimpleAttestation.CallProgram

set_option autoImplicit false

/-!
# Traces

A trace is the completed calls of a run with their answers, and any answer is possible.
A device only says which traces it follows, so what holds of every trace holds over
every device.
-/
namespace SimpleAttestation.CallTraces
open CallProgram

structure Event (C : Type) (R : C → Type) where
  call : C
  reply : R call

section
variable {C : Type} {R : C → Type} {σ α β : Type}

def Traced : Prog C R α → List (Event C R) → α → Prop
  | .done a, es, b => es = [] ∧ b = a
  | .call c k, es, b => ∃ r rest, es = ⟨c, r⟩ :: rest ∧ Traced (k r) rest b

def Follows (dev : Device C R σ) : σ → List (Event C R) → σ → Prop
  | s, [], t => t = s
  | s, e :: es, t => ∃ u, dev.answers e.call s e.reply u ∧ Follows dev u es t

theorem traced_ask (c : C) (f : R c → Prog C R β) (es : List (Event C R)) (b : β) :
    Traced (Prog.ask c >>= f) es b ↔ ∃ r rest, es = ⟨c, r⟩ :: rest ∧ Traced (f r) rest b := Iff.rfl

theorem traced_bind (p : Prog C R α) (f : α → Prog C R β) (es : List (Event C R)) (b : β) :
    Traced (p >>= f) es b ↔ ∃ a xs ys, es = xs ++ ys ∧ Traced p xs a ∧ Traced (f a) ys b := by
  induction p generalizing es with
  | done a =>
    constructor
    · exact fun h => ⟨a, [], es, rfl, ⟨rfl, rfl⟩, h⟩
    · rintro ⟨_, _, ys, rfl, ⟨rfl, rfl⟩, h⟩
      exact h
  | call c k ih =>
    constructor
    · rintro ⟨r, rest, rfl, h⟩
      obtain ⟨a, xs, ys, rfl, hp, hf⟩ := (ih r rest).mp h
      exact ⟨a, ⟨c, r⟩ :: xs, ys, rfl, ⟨r, xs, rfl, hp⟩, hf⟩
    · rintro ⟨a, _, ys, rfl, ⟨r, xs, rfl, hp⟩, hf⟩
      exact ⟨r, xs ++ ys, rfl, (ih r _).mpr ⟨a, xs, ys, rfl, hp, hf⟩⟩

variable {dev : Device C R σ}

/-- The runs over a device are the traces it follows. -/
theorem exec_iff_traced (p : Prog C R α) (s t : σ) (a : α) :
    Exec dev p s a t ↔ ∃ es, Traced p es a ∧ Follows dev s es t := by
  induction p generalizing s with
  | done b =>
    constructor
    · rintro ⟨rfl, rfl⟩
      exact ⟨[], ⟨rfl, rfl⟩, rfl⟩
    · rintro ⟨_, ⟨rfl, rfl⟩, rfl⟩
      exact ⟨rfl, rfl⟩
  | call c k ih =>
    constructor
    · rintro ⟨r, u, hr, h⟩
      obtain ⟨es, traced, follows⟩ := (ih r u).mp h
      exact ⟨⟨c, r⟩ :: es, ⟨r, es, rfl, traced⟩, u, hr, follows⟩
    · rintro ⟨_, ⟨r, rest, rfl, traced⟩, u, hr, follows⟩
      exact ⟨r, u, hr, (ih r u).mpr ⟨rest, traced, follows⟩⟩

theorem traced_exec {p : Prog C R α} {es : List (Event C R)} {a : α} {s t : σ}
    (traced : Traced p es a) (follows : Follows dev s es t) : Exec dev p s a t :=
  (exec_iff_traced p s t a).mpr ⟨es, traced, follows⟩

theorem total_exec (total : ∀ c s r, ∃ t, dev.answers c s r t) {p : Prog C R α}
    {es : List (Event C R)} {a : α} (traced : Traced p es a) (s : σ) : ∃ t, Exec dev p s a t := by
  induction p generalizing es s with
  | done b =>
    obtain ⟨-, rfl⟩ := traced
    exact ⟨s, rfl, rfl⟩
  | call c k ih =>
    obtain ⟨r, rest, -, traced⟩ := traced
    obtain ⟨u, answered⟩ := total c s r
    obtain ⟨t, exec⟩ := ih r traced u
    exact ⟨t, r, u, answered, exec⟩

theorem traced_eval (h : (c : C) → σ → R c × σ) (p : Prog C R α) (s : σ) : ∃ es : List (Event C R),
    Traced p es (p.eval h s).1 ∧ (p.calls h s).map Prod.fst = es.map Event.call := by
  induction p generalizing s with
  | done a => exact ⟨[], ⟨rfl, rfl⟩, rfl⟩
  | call c k ih =>
    obtain ⟨es, traced, same⟩ := ih (h c s).1 (h c s).2
    exact ⟨⟨c, _⟩ :: es, ⟨_, es, rfl, traced⟩, congrArg (c :: ·) same⟩

theorem follows_mem (s t : σ) (es : List (Event C R)) (h : Follows dev s es t) :
    ∀ e ∈ es, ∃ u v, dev.answers e.call u e.reply v := by
  induction es generalizing s with
  | nil => simp
  | cons e es ih =>
    obtain ⟨u, first, rest⟩ := h
    exact List.forall_mem_cons.mpr ⟨⟨s, u, first⟩, ih u rest⟩

theorem follows_append (s t : σ) (xs ys : List (Event C R)) :
    Follows dev s (xs ++ ys) t ↔ ∃ u, Follows dev s xs u ∧ Follows dev u ys t := by
  induction xs generalizing s with
  | nil =>
    constructor
    · exact fun h => ⟨s, rfl, h⟩
    · rintro ⟨_, rfl, h⟩
      exact h
  | cons e xs ih =>
    constructor
    · rintro ⟨u, answered, rest⟩
      obtain ⟨v, first, last⟩ := (ih u).mp rest
      exact ⟨v, ⟨u, answered, first⟩, last⟩
    · rintro ⟨v, ⟨u, answered, first⟩, last⟩
      exact ⟨u, answered, (ih u).mpr ⟨v, first, last⟩⟩

theorem follows_noting {ε : Type} (f : Event C R → Option ε) (dev : Device C R (List ε))
    (es : List (Event C R)) (s : List ε)
    (hdev : ∀ e ∈ es, ∀ s, dev.answers e.call s e.reply (s ++ (f e).toList)) :
    Follows dev s es (s ++ es.filterMap f) := by
  induction es generalizing s with
  | nil => exact List.append_nil s
  | cons e es ih =>
    obtain ⟨first, rest⟩ := List.forall_mem_cons.mp hdev
    refine ⟨s ++ (f e).toList, first s, ?_⟩
    have rest := ih (s ++ (f e).toList) rest
    have same : (s ++ (f e).toList) ++ es.filterMap f = s ++ (e :: es).filterMap f := by
      rw [List.filterMap_cons]
      cases f e <;> simp
    rwa [same] at rest

end

end SimpleAttestation.CallTraces
