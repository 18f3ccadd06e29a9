import Mathlib.Data.List.GetD
import Mathlib.Logic.Function.Basic
import SimpleAttestation.ByteStrings
import SimpleAttestation.CallTraces

set_option autoImplicit false

/-!
# Programs over byte arrays

What C does not check: the index of a load or a store, an unsigned subtraction, the
increment of a byte. An operation that is not legal may answer anything and leave any
memory, so nothing can be said of a program before all its operations are legal. The
results of the arithmetic are those of a legal operation, and its operands are recorded.
-/
namespace SimpleAttestation.ArrayPrograms
open ByteStrings CallProgram CallTraces

inductive ArrayOp (A : Type) where
  | load (a : A) (i : ℕ)
  | store (a : A) (i : ℕ) (b : UInt8)
  /-- `m - n` on a `size_t` -/
  | sub (m n : ℕ)
  /-- `++` on a `uint8_t` -/
  | increment (b : UInt8)

@[reducible] def ArrayOp.Reply {A : Type} : ArrayOp A → Type
  | load _ _ => UInt8
  | store _ _ _ => Unit
  | sub _ _ => Unit
  | increment _ => Unit

abbrev ArrayProg (A : Type) : Type → Type := Prog (ArrayOp A) ArrayOp.Reply

abbrev ArrayEvent (A : Type) : Type := Event (ArrayOp A) ArrayOp.Reply

abbrev load {A : Type} (a : A) (i : ℕ) : ArrayProg A UInt8 := Prog.ask (ArrayOp.load a i)
abbrev store {A : Type} (a : A) (i : ℕ) (b : UInt8) : ArrayProg A Unit :=
  Prog.ask (ArrayOp.store a i b)

def sub {A : Type} (m n : ℕ) : ArrayProg A ℕ := do
  Prog.ask (ArrayOp.sub m n)
  pure (m - n)

def increment {A : Type} (b : UInt8) : ArrayProg A UInt8 := do
  Prog.ask (ArrayOp.increment b)
  pure (b + 1)

section
variable {A α β : Type} {es : List (ArrayEvent A)} {b : β}

theorem traced_load (a : A) (i : ℕ) (f : UInt8 → ArrayProg A β) :
    Traced (load a i >>= f) es b ↔ ∃ r rest, es = ⟨.load a i, r⟩ :: rest ∧ Traced (f r) rest b :=
  Iff.rfl

theorem traced_store (a : A) (i : ℕ) (v : UInt8) (f : Unit → ArrayProg A β) :
    Traced (store a i v >>= f) es b ↔
      ∃ rest, es = ⟨.store a i v, ()⟩ :: rest ∧ Traced (f ()) rest b :=
  ⟨fun ⟨_, rest, same, h⟩ => ⟨rest, same, h⟩, fun ⟨rest, same, h⟩ => ⟨(), rest, same, h⟩⟩

theorem traced_sub (m n : ℕ) (f : ℕ → ArrayProg A β) :
    Traced (sub m n >>= f) es b ↔
      ∃ rest, es = ⟨.sub m n, ()⟩ :: rest ∧ Traced (f (m - n)) rest b :=
  ⟨fun ⟨_, rest, same, h⟩ => ⟨rest, same, h⟩, fun ⟨rest, same, h⟩ => ⟨(), rest, same, h⟩⟩

theorem traced_increment (v : UInt8) (f : UInt8 → ArrayProg A β) :
    Traced (increment v >>= f) es b ↔
      ∃ rest, es = ⟨.increment v, ()⟩ :: rest ∧ Traced (f (v + 1)) rest b :=
  ⟨fun ⟨_, rest, same, h⟩ => ⟨rest, same, h⟩, fun ⟨rest, same, h⟩ => ⟨(), rest, same, h⟩⟩

/-- Array `a` has `size a` bytes. -/
abbrev Memory (size : A → ℕ) : Type := (a : A) → Bytes (size a)

def Legal (size : A → ℕ) : ArrayOp A → Prop
  | .load a i => i < size a
  | .store a i _ => i < size a
  | .sub m n => n ≤ m
  | .increment b => b ≠ 255

instance (size : A → ℕ) : DecidablePred (Legal size)
  | .load a i => inferInstanceAs (Decidable (i < size a))
  | .store a i _ => inferInstanceAs (Decidable (i < size a))
  | .sub m n => inferInstanceAs (Decidable (n ≤ m))
  | .increment b => inferInstanceAs (Decidable (b ≠ 255))

variable [DecidableEq A] {size : A → ℕ}

def stored (m : Memory size) (a : A) (i : ℕ) (b : UInt8) : Memory size :=
  Function.update m a ⟨(m a).data.set i b, by simp⟩

@[simp] theorem stored_same (m : Memory size) (a : A) (i : ℕ) (b : UInt8) :
    (stored m a i b a).data = (m a).data.set i b := by
  rw [stored, Function.update_self]

@[simp] theorem stored_other (m : Memory size) {a a' : A} (h : a' ≠ a) (i : ℕ) (b : UInt8) :
    stored m a i b a' = m a' := by
  rw [stored, Function.update_of_ne h]

theorem take_stored {m : Memory size} {a : A} {i : ℕ} (inside : i < size a) (b : UInt8) :
    (stored m a i b a).data.take (i + 1) = (m a).data.take i ++ [b] := by
  rw [stored_same, take_set_next (by rw [Bytes.length_data]; exact inside)]

/-- What a legal operation does. -/
def act : (op : ArrayOp A) → Memory size → op.Reply × Memory size
  | .load a i, m => ((m a).data.getD i 0, m)
  | .store a i b, m => ((), stored m a i b)
  | .sub _ _, m => ((), m)
  | .increment _, m => ((), m)

abbrev Behaviour (size : A → ℕ) : Type :=
  (op : ArrayOp A) → Memory size → op.Reply × Memory size

/-- `undefined` is what the others do. -/
def perform (undefined : Behaviour size) : Behaviour size := fun op m =>
  if Legal size op then act op m else undefined op m

theorem eval_load (a : A) (i : ℕ) (f : UInt8 → ArrayProg A β) (m : Memory size) :
    (load a i >>= f).eval act m = (f ((m a).data.getD i 0)).eval act m := rfl

theorem eval_store (a : A) (i : ℕ) (v : UInt8) (f : Unit → ArrayProg A β) (m : Memory size) :
    (store a i v >>= f).eval act m = (f ()).eval act (stored m a i v) := rfl

theorem eval_sub (n k : ℕ) (f : ℕ → ArrayProg A β) (m : Memory size) :
    (sub n k >>= f).eval act m = (f (n - k)).eval act m := rfl

theorem eval_increment (v : UInt8) (f : UInt8 → ArrayProg A β) (m : Memory size) :
    (increment v >>= f).eval act m = (f (v + 1)).eval act m := rfl

variable (undefined : Behaviour size)

def ops (p : ArrayProg A α) (m : Memory size) : List (ArrayOp A) :=
  (p.calls (perform undefined) m).map Prod.fst

theorem ops_of_traces {p : ArrayProg A α} {P : ArrayOp A → Prop}
    (h : ∀ es a, Traced p es a → ∀ e ∈ es, P e.call) (m : Memory size) :
    ∀ op ∈ ops undefined p m, P op := by
  obtain ⟨es, traced, same⟩ := traced_eval (perform undefined) p m
  rw [ops, same]
  intro op here
  obtain ⟨e, he, rfl⟩ := List.mem_map.mp here
  exact h es _ traced e he

/-- What is undefined makes no difference to a program whose operations are legal. -/
theorem eval_defined (p : ArrayProg A α) (m : Memory size)
    (legal : ∀ op ∈ ops undefined p m, Legal size op) :
    p.eval (perform undefined) m = p.eval act m := by
  induction p generalizing m with
  | done a => rfl
  | call op k ih =>
    obtain ⟨first, rest⟩ := List.forall_mem_cons.mp legal
    have defined : perform undefined op m = act op m := if_pos first
    rw [Prog.eval_call, Prog.eval_call, ← defined]
    exact ih _ _ rest

/-- `memcpy(dst + dstOff, src + srcOff, n)` -/
def memcpy (dst : A) (dstOff : ℕ) (src : A) (srcOff : ℕ) : ℕ → ArrayProg A Unit
  | 0 => pure ()
  | n + 1 => do
    let b ← load src srcOff
    store dst dstOff b
    memcpy dst (dstOff + 1) src (srcOff + 1) n

omit [DecidableEq A] in
theorem traced_memcpy {dst src : A} {dstOff srcOff n : ℕ} {u : Unit}
    (h : Traced (memcpy dst dstOff src srcOff n) es u) : ∀ e ∈ es,
      (∃ i, srcOff ≤ i ∧ i < srcOff + n ∧ e.call = .load src i) ∨
        ∃ i b, dstOff ≤ i ∧ i < dstOff + n ∧ e.call = .store dst i b := by
  induction n generalizing dstOff srcOff es with
  | zero =>
    obtain ⟨rfl, -⟩ := h
    simp
  | succ n ih =>
    obtain ⟨b, _, rfl, _, rest, rfl, h⟩ := h
    refine List.forall_mem_cons.mpr ⟨Or.inl ⟨srcOff, by omega, by omega, rfl⟩,
      List.forall_mem_cons.mpr ⟨Or.inr ⟨dstOff, b, by omega, by omega, rfl⟩, fun e he => ?_⟩⟩
    rcases ih h e he with ⟨i, low, high, same⟩ | ⟨i, b, low, high, same⟩
    · exact Or.inl ⟨i, by omega, by omega, same⟩
    · exact Or.inr ⟨i, b, by omega, by omega, same⟩

theorem overwrite_cons {buf : List UInt8} {off : ℕ} (inside : off < buf.length) (b : UInt8)
    (src : List UInt8) :
    overwrite (buf.set off b) (off + 1) src = overwrite buf off (b :: src) := by
  rw [overwrite, take_set_next inside, List.drop_set_of_lt (by omega)]
  simp [overwrite, Nat.add_assoc, Nat.add_comm 1]

theorem memcpy_act {dst src : A} (apart : src ≠ dst) (dstOff srcOff n : ℕ) (m : Memory size)
    (room : dstOff + n ≤ size dst) (within : srcOff + n ≤ size src) :
    let m' := ((memcpy dst dstOff src srcOff n).eval act m).2
    (m' dst).data = overwrite (m dst).data dstOff (((m src).data.drop srcOff).take n) ∧
      ∀ a, a ≠ dst → m' a = m a := by
  induction n generalizing dstOff srcOff m with
  | zero =>
    refine ⟨?_, fun _ _ => rfl⟩
    change (m dst).data = _
    simp [overwrite]
  | succ n ih =>
    have inside : srcOff < (m src).data.length := by
      rw [Bytes.length_data]
      omega
    have here : dstOff < (m dst).data.length := by
      rw [Bytes.length_data]
      omega
    have rest := ih (dstOff + 1) (srcOff + 1) (stored m dst dstOff ((m src).data.getD srcOff 0))
      (by omega) (by omega)
    rw [stored_same, stored_other m apart, overwrite_cons here] at rest
    obtain ⟨bytes, others⟩ := rest
    refine ⟨?_, fun a h => (others a h).trans (stored_other m h _ _)⟩
    rw [List.drop_eq_getElem_cons inside, List.take_succ_cons, ← List.getD_eq_getElem _ 0 inside]
    exact bytes

end

end SimpleAttestation.ArrayPrograms
