import SimpleAttestation.Store

set_option autoImplicit false

/-!
# The store implements the durable counter

`Settled d f` says that every load of the flash finds `d` or nothing. It survives what a
torn save leaves with `d` the old value or the new one.
-/
namespace SimpleAttestation.StoreRegister
open ByteStrings Crypto CallProgram Platform Journal JournalLoad JournalSave JournalCrash Store

variable {tc : TinyCrypt} {board : Board} {p : List UInt8}

def Settled (tc : TinyCrypt) (board : Board) (p : List UInt8) (d : UInt32) (f : Flash) : Prop :=
  ∀ j, j.key = bytesAt 32 p 16 → j.blockSize = board.journalBlockSize →
    Matches tc (initialOf p) j f → j.counter = d

/-- The journal in memory, the flash and the durable counter they stand for. -/
structure Backed (tc : TinyCrypt) (board : Board) (p : List UInt8) (d : UInt32) (j : AuthJournal)
    (f : Flash) : Prop where
  settled : Settled tc board p d f
  ready : j.ready = true → j.valid = true ∧ SetUp (journalOf board p) j ∧
    Matches tc (initialOf p) j f ∧ j.counter = d

theorem settled_exists (tc : TinyCrypt) (board : Board) (p : List UInt8) (f : Flash) :
    ∃ d, Settled tc board p d f := by
  by_cases h : ∃ j, j.key = bytesAt 32 p 16 ∧ j.blockSize = board.journalBlockSize ∧
      Matches tc (initialOf p) j f
  · obtain ⟨j, key, size, m⟩ := h
    exact ⟨j.counter, fun j' key' size' m' =>
      (matches_same m m' (key'.trans key.symm) (size'.trans size.symm)).counter⟩
  · exact ⟨0, fun j key size m => absurd ⟨j, key, size, m⟩ h⟩

theorem backed_off {d : UInt32} {j : AuthJournal} {f : Flash} (h : Settled tc board p d f)
    (off : j.ready = false) : Backed tc board p d j f :=
  ⟨h, fun ready => by rw [off] at ready; cases ready⟩

theorem settled_matches {j : AuthJournal} {f : Flash} (setUp : SetUp (journalOf board p) j)
    (m : Matches tc (initialOf p) j f) : Settled tc board p j.counter f :=
  fun _ key' size' m' =>
    (matches_same m m' (key'.trans setUp.key.symm) (size'.trans setUp.blockSize.symm)).counter

theorem settled_torn {j : AuthJournal} {c : UInt32} {t : Flash} (setUp : SetUp (journalOf board p) j)
    (h : OldOrNew tc (initialOf p) j c t) :
    Settled tc board p j.counter t ∨ Settled tc board p c t := by
  by_cases new : ∃ j', j'.key = j.key ∧ j'.blockSize = j.blockSize ∧
      Matches tc (initialOf p) j' t ∧ j'.counter = c
  · obtain ⟨j', key, size, m, rfl⟩ := new
    refine Or.inr fun k key' size' m' => ?_
    refine (matches_same m m' ?_ ?_).counter
    · exact (key'.trans setUp.key.symm).trans key.symm
    · exact (size'.trans setUp.blockSize.symm).trans size.symm
  · refine Or.inl fun k key' size' m' => ?_
    have key := key'.trans setUp.key.symm
    have size := size'.trans setUp.blockSize.symm
    rcases h k key size m' with same | same
    · exact same.counter
    · exact absurd ⟨k, key, size, m', same.counter⟩ new

section
variable {blockSize : ℕ} {G : BoardCall → Flash → Prop} {K : Flash → Prop} {α β : Type}

theorem safe_onFlash (prog : FlashProg α) (Q : α → Flash → Prop) (f : Flash)
    (hG : ∀ c s, G (.flash c) s)
    (h : Safe (flashDevice blockSize (bitTear blockSize)) (fun _ _ => True) K prog Q f) :
    Safe (boardDevice blockSize) G K (onFlash prog) Q f := by
  induction prog generalizing f with
  | done a => exact h
  | call c k ih =>
    obtain ⟨here, -, torn, rest⟩ := h
    exact ⟨here, hG c f, torn, fun r t hr => ih r t (rest r t hr)⟩

theorem safe_outside (c : PlatformCall) (f : c.Reply → BoardProg β) (Q : β → Flash → Prop)
    (s : Flash) (hG : G (.platform c) s) (hf : ∀ r, Safe (boardDevice blockSize) G K (f r) Q s)
    (hK : K s) : Safe (boardDevice blockSize) G K (Prog.ask (BoardCall.platform c) >>= f) Q s := by
  refine ⟨hK, hG, fun t ht => ?_, fun r t ht => ?_⟩
  · obtain rfl : t = s := ht
    exact hK
  · obtain rfl : t = s := ht
    exact hf r

end

/-- Where losing power inside `c` may leave the durable counter. -/
def Down (tc : TinyCrypt) (board : Board) (p : List UInt8) (c : PlatformCall) (d : UInt32)
    (t : Flash) : Prop :=
  ∃ d', (d' = d ∨ (registerDevice (materialOf p 0)).tears c d d' ∨
    ∃ r, (registerDevice (materialOf p 0)).answers c d r d') ∧ Settled tc board p d' t

theorem safe_storeLoad {d : UInt32} {j : AuthJournal} {f : Flash} (h : Backed tc board p d j f) :
    Safe (boardDevice board.journalBlockSize) (fun _ _ => True) (Down tc board p .load d)
      (boardStoreLoad tc board p j) (fun x t => ∃ d',
        (registerDevice (materialOf p 0)).answers .load d x.1 d' ∧ Backed tc board p d' x.2 t) f := by
  have hK : Down tc board p .load d f := ⟨d, Or.inl rfl, h.settled⟩
  unfold boardStoreLoad
  refine ⟨hK, trivial, fun t ht => ?_, ?_⟩
  · obtain rfl : t = f := ht
    exact hK
  · rintro valid t rfl
    change Safe _ _ _ (if !valid then pure (none, j) else _) _ _
    split
    · exact ⟨hK, d, ⟨rfl, Or.inl rfl⟩, h⟩
    · split
      · exact safe_outside _ _ _ t trivial (fun _ => ⟨hK, d, ⟨rfl, Or.inl rfl⟩, h⟩) hK
      · refine safe_then (safe_onFlash _ _ t (fun _ _ => trivial) (safe_load tc (journalOf board p)
          (initialOf p) t bitTear_readOnly hK fun _ _ => trivial)) ?_
        rintro ⟨k, loaded⟩ u ⟨rfl, outcome⟩ -
        cases outcome with
        | invalid | failed =>
          exact safe_outside _ _ _ u trivial
            (fun _ => ⟨hK, d, ⟨rfl, Or.inl rfl⟩, backed_off h.settled rfl⟩) hK
        | found c b n valid m =>
          obtain rfl : c = d := h.settled _ rfl rfl m
          exact ⟨hK, c, ⟨rfl, Or.inr rfl⟩, h.settled, fun _ => ⟨valid, ⟨rfl, rfl, rfl⟩, m, rfl⟩⟩

theorem safe_storeSave {d c : UInt32} {j : AuthJournal} {f : Flash} (h : Backed tc board p d j f) :
    Safe (boardDevice board.journalBlockSize) (fun _ _ => True) (Down tc board p (.saveCounter c) d)
      (boardStoreSave tc j c) (fun x t => ∃ d',
        (registerDevice (materialOf p 0)).answers (.saveCounter c) d x.1 d' ∧
          Backed tc board p d' x.2 t) f := by
  have down : ∀ t, Settled tc board p d t ∨ Settled tc board p c t →
      Down tc board p (.saveCounter c) d t := by
    rintro t (old | new)
    · exact ⟨d, Or.inl rfl, old⟩
    · exact ⟨c, Or.inr (Or.inl (Or.inr rfl)), new⟩
  have failed : ∀ t (k : AuthJournal) d', (d' = d ∨ d' = c) → Backed tc board p d' k t →
      Safe (boardDevice board.journalBlockSize) (fun _ _ => True)
        (Down tc board p (.saveCounter c) d)
        (Prog.ask BoardCall.storeError >>= fun e => pure (-(e : ℤ), k)) (fun x t => ∃ d',
          (registerDevice (materialOf p 0)).answers (.saveCounter c) d x.1 d' ∧
            Backed tc board p d' x.2 t) t := by
    intro t k d' either backed
    have hK : Down tc board p (.saveCounter c) d t := ⟨d', either.imp_right (Or.inl ∘ Or.inr), backed.settled⟩
    refine ⟨hK, trivial, ?_, ?_⟩
    · intro u hu
      obtain rfl : u = t := hu
      exact hK
    · intro e u hu
      obtain rfl : u = t := hu
      have nonpos : ¬ (0 : ℤ) < -(e : ℤ) := by omega
      exact ⟨hK, d', ⟨fun pos => absurd pos nonpos, either⟩, backed⟩
  unfold boardStoreSave
  rw [safe_bind]
  by_cases go : j.ready = true ∧ j.counter < c
  · obtain ⟨valid, setUp, m, rfl⟩ := h.ready go.1
    have spec := safe_save_torn m valid go.1 go.2
    rw [setUp.blockSize] at spec
    refine safe_mono _ _ _ f (fun _ _ g => g) (fun t k => down t (settled_torn setUp k)) ?_
      (safe_onFlash _ _ f (fun _ _ => trivial) (safe_and_crash spec))
    rintro ⟨k, ok⟩ t ⟨⟨e, m'⟩ | e, torn⟩
    · obtain ⟨rfl, rfl⟩ := Prod.mk.inj e
      have setUp' : SetUp (journalOf board p) (saved j c) := ⟨setUp.1, setUp.2, setUp.3⟩
      have new : Settled tc board p c t := settled_matches setUp' m'
      exact ⟨down t (Or.inr new), c, ⟨fun _ => rfl, Or.inr rfl⟩, new, fun _ => ⟨valid, setUp', m', rfl⟩⟩
    · obtain ⟨rfl, rfl⟩ := Prod.mk.inj e
      rcases settled_torn setUp torn with old | new
      · exact failed t _ _ (Or.inl rfl) (backed_off old rfl)
      · exact failed t _ _ (Or.inr rfl) (backed_off new rfl)
  · have refused : j.ready = false ∨ c ≤ j.counter := by
      rw [not_and_or, Bool.not_eq_true] at go
      exact go.imp_right UInt32.not_lt.mp
    rw [save_refused tc j c refused]
    exact ⟨down f (Or.inl h.settled), failed f j d (Or.inl rfl) h⟩

theorem safe_boardPlatform (c : PlatformCall) (d : UInt32) (j : AuthJournal) (f : Flash)
    (h : Backed tc board p d j f) :
    Safe (boardDevice board.journalBlockSize) (fun _ _ => True) (Down tc board p c d)
      (boardPlatform tc board p c j) (fun x t => ∃ d',
        (registerDevice (materialOf p 0)).answers c d x.1 d' ∧ Backed tc board p d' x.2 t) f := by
  cases c with
  | load => exact safe_storeLoad h
  | saveCounter c => exact safe_storeSave h
  | _ =>
    have here : ∀ c, Down tc board p c d f := fun _ => ⟨d, Or.inl rfl, h.settled⟩
    exact safe_outside _ _ _ f trivial (fun _ => ⟨here _, d, rfl, h⟩) (here _)

/-- What holds of a program on the durable counter holds of it on the board. -/
theorem safe_board {α : Type} (prog : PlatformProg α) (G : PlatformCall → UInt32 → Prop)
    (K : UInt32 → Prop) (Q : α → UInt32 → Prop) (d : UInt32) (j : AuthJournal) (f : Flash)
    (h : Backed tc board p d j f)
    (safe : Safe (registerDevice (materialOf p 0)) G K prog Q d) :
    Safe (boardDevice board.journalBlockSize) (fun _ _ => True)
      (fun t => ∃ d', K d' ∧ Settled tc board p d' t) (prog.interp (boardPlatform tc board p) j)
      (fun x t => ∃ d', Q x.1 d' ∧ Backed tc board p d' x.2 t) f :=
  safe_interp (registerDevice (materialOf p 0)) (boardDevice board.journalBlockSize) G
    (fun _ _ => True) K (boardPlatform tc board p) (Backed tc board p) (Settled tc board p)
    (fun _ _ _ backed => backed.settled) (fun c d j f backed _ => safe_boardPlatform c d j f backed)
    prog Q d j f h safe

end SimpleAttestation.StoreRegister
