import SimpleAttestation.JournalCrash

set_option autoImplicit false

/-!
# On a faithful flash the journal is a register that only grows
-/
namespace SimpleAttestation.JournalRegister
open Crypto CallProgram Journal JournalScan JournalLoad JournalSave JournalCrash

def registerStep (value : UInt32) : JournalOp → UInt32 × Bool
  | .load => (value, true)
  | .save c => if value < c then (c, true) else (value, false)

def registerRun : UInt32 → List JournalOp → UInt32
  | value, [] => value
  | value, op :: ops => registerRun (registerStep value op).1 ops

def journalStep (tc : TinyCrypt) (blockSize : ℕ) (initial : UInt32) (op : JournalOp)
    (s : AuthJournal × Flash) : (AuthJournal × Flash) × Bool :=
  let ((j, ok), f) := (runOp tc initial op s.1).eval (flashEval blockSize) s.2
  ((j, f), ok)

def journalRun (tc : TinyCrypt) (blockSize : ℕ) (initial : UInt32) :
    AuthJournal × Flash → List JournalOp → AuthJournal × Flash
  | s, [] => s
  | s, op :: ops => journalRun tc blockSize initial (journalStep tc blockSize initial op s).1 ops

/-- A program goes to an erased slot, an erase to the block that does not hold the newest
    record and only when the other one has no erased slot left. -/
def Targets (j : AuthJournal) : FlashCall → Flash → Prop
  | .read _ _, _ => True
  | .program block off _, t =>
    block < 2 ∧ off % 32 = 0 ∧ off + 32 ≤ j.blockSize ∧ slotAt t block off = blank
  | .erase block, t => block < 2 ∧ block ≠ j.active ∧
    ∀ off, off % 32 = 0 → off + 32 ≤ j.blockSize → slotAt t j.active off ≠ blank

structure Refines (tc : TinyCrypt) (initial : UInt32) (s : AuthJournal × Flash) (op : JournalOp) :
    Prop where
  stands : Stands tc s.1 s.2
  answer : (journalStep tc s.1.blockSize initial op s).2 = (registerStep s.1.counter op).2
  value : (journalStep tc s.1.blockSize initial op s).1.1.counter = (registerStep s.1.counter op).1
  refused : (journalStep tc s.1.blockSize initial op s).2 = false →
    (journalStep tc s.1.blockSize initial op s).1 = s
  targets : ∀ x ∈ (runOp tc initial op s.1).calls (flashEval s.1.blockSize) s.2,
    Targets s.1 x.1 x.2
  /-- A load on a memory that holds anything recovers the value. -/
  recovers : ∀ boot, SetUp s.1 boot →
    ∃ k, (authJournalLoad tc boot initial).eval (flashEval s.1.blockSize) s.2 = ((k, true), s.2) ∧
      k.counter = s.1.counter

structure Good (tc : TinyCrypt) (initial : UInt32) (j₀ : AuthJournal) (s : AuthJournal × Flash) :
    Prop where
  valid : s.1.valid = true
  ready : s.1.ready = true
  setUp : SetUp j₀ s.1
  stands : Matches tc initial s.1 s.2

section
variable {tc : TinyCrypt} {initial : UInt32} {j : AuthJournal} {f : Flash} {c : UInt32}

theorem append_eval {r : ByteStrings.Bytes 32} (made : recordOf tc j.key c = some r)
    (blockSize block off : ℕ) (f : Flash) :
    (appendRecord tc j c block off).eval (flashEval blockSize) f =
      (({ j.moveTo c block (off + 32) with ready := true }, true), writeSlot f block off r) := by
  obtain ⟨mac, hmac, rfl⟩ := Option.map_eq_some_iff.mp made
  have same := (Wire.ctCompare_bytes (makeRecord c mac) (makeRecord c mac)).mpr rfl
  rw [appendRecord, hmac]
  change Prog.eval _ (if !Wire.simpleCtCompare (makeRecord c mac).data
    (slotAt (writeSlot f block off (makeRecord c mac)) block off).data 32 then
      pure (j, false) else pure (_, true)) _ = _
  rw [slotAt_write, same]
  rfl

theorem save_eval {r : ByteStrings.Bytes 32} (made : recordOf tc j.key c = some r)
    (ready : j.ready = true) (fresh : j.counter < c) :
    (authJournalSave tc j c).eval (flashEval j.blockSize) f =
      ((saved j c, true), writeSlot (saveBase j f) (saveBlock j) (saveOff j) r) := by
  have opened : ¬ (!j.ready || decide (c ≤ j.counter)) = true := by
    simp [ready, UInt32.not_le.mpr fresh]
  have unready : recordOf tc ({ j with ready := false } : AuthJournal).key c = some r := made
  rw [authJournalSave, if_neg opened]
  by_cases full : j.next = j.blockSize
  · rw [if_pos full, saved, saveBase, saveBlock, saveOff, if_pos full, if_pos full, if_pos full]
    exact append_eval unready j.blockSize (j.active ^^^ 1) 0 _
  · rw [if_neg full, saved, saveBase, saveBlock, saveOff, if_neg full, if_neg full, if_neg full]
    exact append_eval unready j.blockSize j.active j.next f

theorem save_targets (h : Matches tc initial j f) (valid : j.valid = true) (ready : j.ready = true)
    (fresh : j.counter < c) :
    ∀ x ∈ (authJournalSave tc j c).calls (flashEval j.blockSize) f, Targets j x.1 x.2 := by
  obtain ⟨free, aligned, inside, two⟩ := room_slot (base_room h valid)
  have stands := matches_stands h valid
  have spec := @safe_save j.blockSize (wholeTear j.blockSize) (Targets j) (fun _ => True) tc j c f rfl
    wholeTear_readOnly ready fresh trivial ?_ ?_
  · exact safe_calls (flashEval j.blockSize) (flashEval_answers j.blockSize _) _ _ f spec
  · intro full
    refine ⟨⟨(xor_one stands.active_lt).1, (xor_one stands.active_lt).2, ?_⟩, fun _ _ => trivial,
      trivial⟩
    intro off hoff room
    exact stands.before off hoff (by omega)
  · exact fun r _ => ⟨⟨two, aligned, inside, free⟩, fun _ _ => trivial, trivial, trivial⟩

end

section
variable {tc : TinyCrypt} {initial : UInt32} {j₀ : AuthJournal} {s : AuthJournal × Flash}

theorem good_recovers (h : Good tc initial j₀ s) (boot : AuthJournal) (setUp : SetUp s.1 boot) :
    (authJournalLoad tc boot initial).eval (flashEval s.1.blockSize) s.2 =
      ((({ boot with ready := true } : AuthJournal).moveTo s.1.counter s.1.active s.1.next, true),
        s.2) :=
  load_complete tc boot s.1 initial s.2 ((valid_setUp setUp).trans h.valid) setUp.key
    setUp.blockSize h.stands

theorem step_load (h : Good tc initial j₀ s) :
    journalStep tc s.1.blockSize initial .load s = (s, true) := by
  have run := good_recovers h s.1 ⟨rfl, rfl, rfl⟩
  have same : ({ s.1 with ready := true } : AuthJournal).moveTo s.1.counter s.1.active s.1.next = s.1 := by
    rw [← h.ready]
    rfl
  rw [same] at run
  simp only [journalStep, runOp, run]

theorem load_targets (tc : TinyCrypt) (initial : UInt32) (s : AuthJournal × Flash) :
    ∀ x ∈ (authJournalLoad tc s.1 initial).calls (flashEval s.1.blockSize) s.2,
      Targets s.1 x.1 x.2 := by
  have spec := @safe_load s.1.blockSize (wholeTear s.1.blockSize) (Targets s.1) (fun _ => True) tc s.1
    initial s.2 wholeTear_readOnly trivial fun _ _ => trivial
  exact safe_calls (flashEval s.1.blockSize) (flashEval_answers _ _) _ _ s.2 spec

theorem step_save {c : UInt32} {r : ByteStrings.Bytes 32} (h : Good tc initial j₀ s)
    (made : recordOf tc s.1.key c = some r) (fresh : s.1.counter < c) :
    journalStep tc s.1.blockSize initial (.save c) s =
      ((saved s.1 c, writeSlot (saveBase s.1 s.2) (saveBlock s.1) (saveOff s.1) r), true) := by
  have run := save_eval (f := s.2) made h.ready fresh
  simp only [journalStep, runOp, run]

theorem step_refused {c : UInt32} (stale : ¬ s.1.counter < c) :
    journalStep tc s.1.blockSize initial (.save c) s = (s, false) := by
  rw [journalStep, runOp, save_refused tc s.1 c (Or.inr (UInt32.not_lt.mp stale))]
  rfl

theorem good_step (made : ∀ c, ∃ r, recordOf tc j₀.key c = some r) (h : Good tc initial j₀ s)
    (op : JournalOp) : Refines tc initial s op ∧
      Good tc initial j₀ (journalStep tc s.1.blockSize initial op s).1 := by
  have stands := matches_stands h.stands h.valid
  have recovers : ∀ boot, SetUp s.1 boot → ∃ k, (authJournalLoad tc boot initial).eval
      (flashEval s.1.blockSize) s.2 = ((k, true), s.2) ∧ k.counter = s.1.counter :=
    fun boot setUp => ⟨_, good_recovers h boot setUp, rfl⟩
  cases op with
  | load =>
    rw [step_load h]
    refine ⟨⟨stands, ?_, ?_, ?_, load_targets tc initial s, recovers⟩, h⟩
    · rw [step_load h]
      rfl
    · rw [step_load h]
      rfl
    · rw [step_load h]
      exact fun _ => rfl
  | save c =>
    by_cases fresh : s.1.counter < c
    · obtain ⟨r, hr⟩ := made c
      rw [← h.setUp.key] at hr
      have step := step_save h hr fresh
      have register : registerStep s.1.counter (.save c) = (c, true) := if_pos fresh
      rw [step]
      refine ⟨⟨stands, ?_, ?_, ?_, save_targets h.stands h.valid h.ready fresh, recovers⟩, ?_⟩
      · rw [step, register]
      · rw [step, register]
        rfl
      · rw [step]
        exact fun no => by cases no
      · exact ⟨h.valid, rfl, ⟨h.setUp.1, h.setUp.2, h.setUp.3⟩,
          saved_matches h.stands h.valid hr fresh⟩
    · have step := @step_refused tc initial s c fresh
      have register : registerStep s.1.counter (.save c) = (s.1.counter, false) := if_neg fresh
      have none : authJournalSave tc s.1 c = .done (s.1, false) :=
        save_refused tc s.1 c (Or.inr (UInt32.not_lt.mp fresh))
      rw [step]
      refine ⟨⟨stands, ?_, ?_, ?_, ?_, recovers⟩, h⟩
      · rw [step, register]
      · rw [step, register]
      · rw [step]
        exact fun _ => rfl
      · change ∀ x ∈ (authJournalSave tc s.1 c).calls _ s.2, _
        rw [none]
        intro x hx
        cases hx

theorem good_run (made : ∀ c, ∃ r, recordOf tc j₀.key c = some r) (h : Good tc initial j₀ s)
    (ops : List JournalOp) : Good tc initial j₀ (journalRun tc s.1.blockSize initial s ops) ∧
      (journalRun tc s.1.blockSize initial s ops).1.counter = registerRun s.1.counter ops := by
  induction ops generalizing s with
  | nil => exact ⟨h, rfl⟩
  | cons op ops ih =>
    obtain ⟨refines, next⟩ := good_step made h op
    have size : (journalStep tc s.1.blockSize initial op s).1.1.blockSize = s.1.blockSize :=
      next.setUp.blockSize.trans h.setUp.blockSize.symm
    have rest := ih next
    rw [size, refines.value] at rest
    exact rest

end

theorem record_exists {tc : TinyCrypt} {sha256 : List UInt8 → ByteStrings.Bytes 32}
    {hmac : List UInt8 → List UInt8 → ByteStrings.Bytes 32} (h : tc.Computes sha256 hmac)
    (key : ByteStrings.Bytes 32) (c : UInt32) : ∃ r, recordOf tc key c = some r := by
  have computed := @hmacCompute_bytes _ _ _ h key ([0x43, 0x54, 0x52, 0x31] ++ Wire.simplePutU32 c)
    (by simp [UINT_MAX])
  rw [recordOf, recordMac, computed]
  exact ⟨_, rfl⟩

/-- After any operations whatsoever the next one does what the register does. -/
theorem journal_refines_register (tc : TinyCrypt) (sha256 : List UInt8 → ByteStrings.Bytes 32)
    (hmac : List UInt8 → List UInt8 → ByteStrings.Bytes 32) (computes : tc.Computes sha256 hmac)
    (initial : UInt32) (j₀ j : AuthJournal) (f f' : Flash)
    (load : (authJournalLoad tc j₀ initial).eval (flashEval j₀.blockSize) f = ((j, true), f'))
    (ops : List JournalOp) (op : JournalOp) :
    f' = f ∧ j.ready = true ∧
    (journalRun tc j₀.blockSize initial (j, f) ops).1.counter = registerRun j.counter ops ∧
      Refines tc initial (journalRun tc j₀.blockSize initial (j, f) ops) op := by
  have run := eval_exec (flashEval j₀.blockSize)
    (flashEval_answers j₀.blockSize (bitTear j₀.blockSize)) (authJournalLoad tc j₀ initial) f
  rw [load] at run
  obtain ⟨rfl, outcome⟩ := load_exec bitTear_readOnly run
  cases outcome with
  | found c b n valid m =>
    have start : Good tc initial j₀ ((({ j₀ with ready := true } : AuthJournal).moveTo c b n), f') :=
      ⟨valid, rfl, ⟨rfl, rfl, rfl⟩, m⟩
    obtain ⟨good, value⟩ := good_run (record_exists computes j₀.key) start ops
    exact ⟨rfl, rfl, value, (good_step (record_exists computes j₀.key) good op).1⟩

theorem journal_refines_register_small :
    Refines referenceTinyCrypt 7 (journalRun referenceTinyCrypt 64 7
      (({ smallJournal with ready := true } : AuthJournal).moveTo 7 1 32, seedFlash (smallSeed 7))
      [.save 10, .load]) (.save 9) :=
  (journal_refines_register referenceTinyCrypt _ _ reference_computes 7 smallJournal _ _ _
    (small_load (by decide)) [.save 10, .load] (.save 9)).2.2.2

end SimpleAttestation.JournalRegister
