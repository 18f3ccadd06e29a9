import SimpleAttestation.JournalRegister
import SimpleAttestation.Session
import SimpleAttestation.StoreRegister

set_option autoImplicit false

/-!
# Two boards on which nothing fails
-/
namespace SimpleAttestation.BoardSession
open ByteStrings Wire Crypto CallProgram Platform ProverRequest VerifierSession Session Journal
  JournalScan JournalLoad JournalSave JournalCrash JournalRegister Store

/-- The flash does its job, the option bytes pass, and the other callbacks are calm. -/
def calmBoard (blockSize : ℕ) (memory : ℕ → UInt8) (inTime : UInt32 → Prop) :
    Device BoardCall BoardCall.Reply Flash where
  answers
    | .flash c, s, r, t => (r, t) = flashEval blockSize c s
    | .protectionValid, s, valid, t => valid = true ∧ t = s
    | .storeError, s, _, t => t = s
    | .platform c, s, r, t => calmReply memory inTime c r ∧ t = s
  tears _ _ _ := False

/-- The store of a board that has loaded `d`. -/
structure Serving (tc : TinyCrypt) (board : Board) (p : List UInt8) (d : UInt32) (j : AuthJournal)
    (f : Flash) : Prop where
  record : recordValid tc board p = true
  good : Good tc (initialOf p) (journalOf board p) (j, f)
  counter : j.counter = d

/-- A flash on which a load finds `d`. -/
def Loadable (tc : TinyCrypt) (board : Board) (p : List UInt8) (d : UInt32) (f : Flash) : Prop :=
  ∃ j, Serving tc board p d j f

section
variable {tc : TinyCrypt} {sha256 : List UInt8 → Bytes 32} {hmac : List UInt8 → List UInt8 → Bytes 32}
  {board : Board} {p : List UInt8} {memory : ℕ → UInt8} {inTime : UInt32 → Prop} {d : UInt32}
  {j : AuthJournal} {f : Flash} {α : Type}

theorem calmBoard_live (clock : ∃ now, inTime now) (blockSize : ℕ) (c : BoardCall) (s : Flash) :
    ∃ r t, (calmBoard blockSize memory inTime).answers c s r t := by
  cases c with
  | flash c => exact ⟨_, _, rfl⟩
  | protectionValid => exact ⟨true, s, rfl, rfl⟩
  | storeError => exact ⟨(0 : ℕ), s, rfl⟩
  | platform c =>
    obtain ⟨r, hr⟩ := @calmReply_exists memory inTime clock c
    exact ⟨r, s, hr, rfl⟩

theorem onFlash_eval {Q : α → Flash → Prop} (blockSize : ℕ) (prog : FlashProg α) (f : Flash)
    (h : Q (prog.eval (flashEval blockSize) f).1 (prog.eval (flashEval blockSize) f).2) :
    Safe (calmBoard blockSize memory inTime) (fun _ _ => True) (fun _ => True) (onFlash prog) Q f := by
  induction prog generalizing f with
  | done a => exact ⟨trivial, h⟩
  | call c k ih =>
    refine ⟨trivial, trivial, fun _ torn => torn.elim, fun r t answered => ?_⟩
    obtain ⟨rfl, rfl⟩ := Prod.mk.inj answered
    exact ih _ _ h

theorem load_calm (h : Loadable tc board p d f) (j : AuthJournal) :
    Safe (calmBoard board.journalBlockSize memory inTime) (fun _ _ => True) (fun _ => True)
      (boardStoreLoad tc board p j)
      (fun x t => x.1 = some (materialOf p d) ∧ t = f ∧ Serving tc board p d x.2 t) f := by
  obtain ⟨k, record, good, rfl⟩ := h
  have size : k.blockSize = board.journalBlockSize := good.setUp.blockSize
  have loaded := good_recovers good (journalOf board p)
    ⟨good.setUp.blockSize.symm, good.setUp.callbacks.symm, good.setUp.key.symm⟩
  rw [size] at loaded
  refine ⟨trivial, trivial, fun _ torn => torn.elim, ?_⟩
  rintro _ t ⟨rfl, rfl⟩
  change Safe _ _ _ (if !recordValid tc board p then _ else _) _ _
  rw [record, if_neg (by decide), safe_bind]
  refine onFlash_eval _ _ _ ?_
  rw [loaded]
  refine ⟨trivial, rfl, rfl, record, ⟨?_, rfl, ⟨rfl, rfl, rfl⟩, ?_⟩, rfl⟩
  · exact (valid_setUp good.setUp).symm.trans good.valid
  · exact matches_moved good.stands good.setUp.key.symm good.setUp.blockSize.symm

theorem save_calm (computes : tc.Computes sha256 hmac) {c : UInt32} (h : Serving tc board p d j f)
    (fresh : d < c) :
    Safe (calmBoard board.journalBlockSize memory inTime) (fun _ _ => True) (fun _ => True)
      (boardStoreSave tc j c) (fun x t => x.1 = 1 ∧ Serving tc board p c x.2 t) f := by
  obtain ⟨record, good, rfl⟩ := h
  have size : j.blockSize = board.journalBlockSize := good.setUp.blockSize
  obtain ⟨r, made⟩ := record_exists computes j.key c
  have run := save_eval (f := f) made good.ready fresh
  rw [size] at run
  rw [boardStoreSave, safe_bind]
  refine onFlash_eval _ _ _ ?_
  rw [run]
  exact ⟨trivial, rfl, record, ⟨good.valid, rfl, ⟨good.setUp.1, good.setUp.2, good.setUp.3⟩,
    saved_matches good.stands good.valid made fresh⟩, rfl⟩

theorem outside_calm {β : Type} (c : PlatformCall) (k : c.Reply → BoardProg β) (Q : β → Flash → Prop)
    (h : ∀ r, calmReply memory inTime c r → Safe (calmBoard board.journalBlockSize memory inTime)
      (fun _ _ => True) (fun _ => True) (k r) Q f) :
    Safe (calmBoard board.journalBlockSize memory inTime) (fun _ _ => True) (fun _ => True)
      (Prog.ask (BoardCall.platform c) >>= k) Q f := by
  refine ⟨trivial, trivial, fun _ torn => torn.elim, ?_⟩
  rintro r t ⟨reply, rfl⟩
  exact h r reply

theorem platform_calm (computes : tc.Computes sha256 hmac) (c : PlatformCall)
    (h : Serving tc board p d j f) (forward : Forward c d) :
    Safe (calmBoard board.journalBlockSize memory inTime) (fun _ _ => True) (fun _ => True)
      (boardPlatform tc board p c j) (fun x t => ∃ d',
        (calmDevice (materialOf p 0) memory inTime).answers c d x.1 d' ∧
          Serving tc board p d' x.2 t) f := by
  cases c with
  | load =>
    refine safe_post ?_ (load_calm ⟨j, h⟩ j)
    rintro ⟨_, k⟩ t ⟨rfl, -, serving⟩
    exact ⟨d, ⟨rfl, rfl⟩, serving⟩
  | saveCounter c =>
    refine safe_post ?_ (save_calm computes h forward)
    rintro ⟨_, k⟩ t ⟨rfl, serving⟩
    exact ⟨c, ⟨Int.one_pos, rfl⟩, serving⟩
  | _ => exact outside_calm _ _ _ fun r reply => ⟨trivial, d, ⟨reply, rfl⟩, h⟩

theorem board_calm (computes : tc.Computes sha256 hmac) {prog : PlatformProg α}
    {Q : α → UInt32 → Prop} (h : Serving tc board p d j f)
    (safe : Safe (calmDevice (materialOf p 0) memory inTime) Forward (fun _ => True) prog Q d) :
    Safe (calmBoard board.journalBlockSize memory inTime) (fun _ _ => True) (fun _ => True)
      (prog.interp (boardPlatform tc board p) j)
      (fun x t => ∃ d', Q x.1 d' ∧ Serving tc board p d' x.2 t) f := by
  refine safe_mono _ _ _ f (fun _ _ g => g) (fun _ _ => trivial) (fun _ _ q => q)
    (safe_interp (calmDevice (materialOf p 0) memory inTime)
      (calmBoard board.journalBlockSize memory inTime) Forward (fun _ _ => True) (fun _ => True)
      (boardPlatform tc board p) (Serving tc board p) (fun _ _ => True) (fun _ _ _ _ => trivial) ?_
      prog Q d j f h safe)
  intro c d j f serving forward
  exact safe_mono _ _ _ f (fun _ _ g => g) (fun _ _ => ⟨d, Or.inl rfl, trivial⟩) (fun _ _ q => q)
    (platform_calm computes c serving forward)

theorem boot_calm (computes : tc.Computes sha256 hmac)
    {k : PlatformCall.load.Reply → PlatformProg α} {Q : α → UInt32 → Prop}
    (h : Loadable tc board p d f) (j : AuthJournal)
    (safe : Safe (calmDevice (materialOf p 0) memory inTime) Forward (fun _ => True)
      (Prog.call PlatformCall.load k) Q d) :
    Safe (calmBoard board.journalBlockSize memory inTime) (fun _ _ => True) (fun _ => True)
      ((Prog.call PlatformCall.load k).interp (boardPlatform tc board p) j)
      (fun x t => ∃ d', Q x.1 d' ∧ Serving tc board p d' x.2 t) f := by
  obtain ⟨-, -, -, rest⟩ := safe
  rw [Prog.interp]
  refine safe_then (load_calm h j) ?_
  rintro ⟨loaded, j'⟩ t ⟨rfl, -, serving⟩ -
  exact board_calm computes serving (rest _ d ⟨rfl, rfl⟩)

theorem calmBoard_board (blockSize : ℕ) (c : BoardCall) (s : Flash) (r : c.Reply) (t : Flash)
    (h : (calmBoard blockSize memory inTime).answers c s r t) :
    (boardDevice blockSize).answers c s r t := by
  cases c with
  | flash c =>
    obtain ⟨rfl, rfl⟩ := Prod.mk.inj h
    exact flashEval_answers blockSize (bitTear blockSize) c s
  | protectionValid => exact h.2
  | storeError => exact h
  | platform c => exact h.2

end

/-- A board, its provisioning record, its journal blocks and its code. -/
structure Installed where
  board : Board
  record : List UInt8
  flash : Flash
  memory : ℕ → UInt8

/-- Whatever a calm board answers, the program returns and `Q` holds of what it leaves. -/
def Installed.Runs {α : Type} (tc : TinyCrypt) (b : Installed) (inTime : UInt32 → Prop)
    (prog : PlatformProg α) (s : AuthJournal × Flash) (Q : α → AuthJournal × Flash → Prop) : Prop :=
  Ends (calmBoard b.board.journalBlockSize b.memory inTime)
    (prog.interp (boardPlatform tc b.board b.record) s.1) s.2 fun x t => Q x.1 (x.2, t)

/-- The measured range of `main`. -/
def Board.ranges (board : Board) : List AttestationRange :=
  [⟨some board.measureStart, board.measureLength⟩]

/-- Both boards boot, and the first request and its response arrive intact and in time. -/
def FirstSession (tc : TinyCrypt) (bV bP : Installed) (timeoutMs : UInt32) (out resp : List UInt8)
    (Q : List UInt8 → VerifyResult → Prop) : Prop :=
  bV.Runs tc (fun _ => True) (initVerifier .zero allCallbacks timeoutMs) (.zero, bV.flash) fun x sV =>
  bP.Runs tc (fun _ => True) (proverInit .zero allCallbacks (Board.ranges bP.board)) (.zero, bP.flash)
    fun y sP =>
  x.2 = true ∧ y.2 = true ∧
  bV.Runs tc (fun _ => True) (verifierChallenge tc x.1 out) sV fun x sV =>
  x.2.2 = SIMPLE_REQUEST_LEN ∧
  bP.Runs tc (fun _ => True) (proverHandleRequest tc y.1 (x.2.1.take SIMPLE_REQUEST_LEN) resp) sP
    fun y _ =>
  y.2.2 = SIMPLE_REPORT_LEN ∧
  bV.Runs tc x.1.early (verify tc x.1 (y.2.1.take SIMPLE_REPORT_LEN)) sV fun z _ =>
  Q (y.2.1.take SIMPLE_REPORT_LEN) z.2

section
variable {tc : TinyCrypt} {sha256 : List UInt8 → Bytes 32} {hmac : List UInt8 → List UInt8 → Bytes 32}
  {b bV bP : Installed} {d dV dP : UInt32} {s : AuthJournal × Flash}

theorem runs_calm {α : Type} {inTime : UInt32 → Prop} {prog : PlatformProg α}
    {Q : α → UInt32 → Prop} {Q' : α → AuthJournal × Flash → Prop} (computes : tc.Computes sha256 hmac)
    (clock : ∃ now, inTime now) (h : Serving tc b.board b.record d s.1 s.2)
    (safe : Safe (calmDevice (materialOf b.record 0) b.memory inTime) Forward (fun _ => True) prog Q d)
    (hQ : ∀ a s d, Q a d → Serving tc b.board b.record d s.1 s.2 → Q' a s) :
    b.Runs tc inTime prog s Q' := by
  refine ends_mono (safe_ends (fun c s _ => calmBoard_live clock _ c s) _ _ _
    (board_calm computes h safe)) ?_
  rintro ⟨a, j⟩ t ⟨d', q, serving⟩
  exact hQ a (j, t) d' q serving

theorem runs_exec {α : Type} {inTime : UInt32 → Prop} {prog : PlatformProg α}
    {Q : α → AuthJournal × Flash → Prop} (h : b.Runs tc inTime prog s Q) :
    ∃ a j f, Exec (boardDevice b.board.journalBlockSize) (prog.interp (boardPlatform tc b.board b.record)
      s.1) s.2 (a, j) f ∧ Q a (j, f) := by
  obtain ⟨⟨⟨a, j⟩, f, run⟩, all⟩ := h
  exact ⟨a, j, f, exec_mono (calmBoard_board _) _ _ _ _ run, all _ _ run⟩

/-- What both initialisers are once their arguments are accepted. -/
def loadAndReport {α : Type} (f : Option AuthMaterial → α) : PlatformProg α := do
  let loaded ← Prog.ask PlatformCall.load
  authLoaded allCallbacks loaded.isSome
  pure (f loaded)

theorem loadAndReport_map {α β : Type} (f : Option AuthMaterial → α) (g : α → β) :
    (loadAndReport f >>= fun a => pure (g a)) = loadAndReport fun loaded => g (f loaded) :=
  congrArg (Prog.call PlatformCall.load) (funext fun loaded =>
    Prog.bind_assoc (authLoaded allCallbacks loaded.isSome) _ _)

theorem runs_boot {α : Type} (computes : tc.Computes sha256 hmac)
    (h : Loadable tc b.board b.record d b.flash) (f : Option AuthMaterial → α) :
    b.Runs tc (fun _ => True) (loadAndReport f) (.zero, b.flash) fun x s =>
      x = f (some (materialOf b.record d)) ∧ Serving tc b.board b.record d s.1 s.2 := by
  have spec : Safe (calmDevice (materialOf b.record 0) b.memory fun _ => True) Forward (fun _ => True)
      (loadAndReport f) (fun x t => x = f (some (materialOf b.record d)) ∧ t = d) d := by
    refine ⟨trivial, trivial, fun _ torn => torn.elim, ?_⟩
    rintro loaded t ⟨rfl, rfl⟩
    exact safe_authLoaded _ _ _ calm_quiet (forward_quiet · t) ⟨trivial, rfl, rfl⟩
  refine ends_mono (safe_ends (fun c s _ => calmBoard_live ⟨0, trivial⟩ _ c s) _ _ _
    (boot_calm computes h .zero spec)) ?_
  rintro ⟨a, j⟩ t ⟨_, ⟨rfl, rfl⟩, serving⟩
  exact ⟨rfl, serving⟩

def bootedVerifier (material : AuthMaterial) (timeoutMs : UInt32) : Verifier :=
  ⟨allCallbacks, material, .fill 16 0, 0, timeoutMs, true, false⟩

theorem initVerifier_eq {timeoutMs : UInt32} (pos : timeoutMs ≠ 0) (small : timeoutMs ≤ INT32_MAX) :
    initVerifier .zero allCallbacks timeoutMs = loadAndReport fun loaded => (⟨allCallbacks,
      loaded.getD .zero, .fill 16 0, 0, timeoutMs, loaded.isSome, false⟩, loaded.isSome) := by
  have accepts : initAccepts allCallbacks timeoutMs = true := by
    simp [initAccepts, allCallbacks, pos, small]
  rw [initVerifier, accepts]
  rfl

theorem boot_verifier (computes : tc.Computes sha256 hmac)
    (h : Loadable tc b.board b.record d b.flash) {timeoutMs : UInt32} (pos : timeoutMs ≠ 0)
    (small : timeoutMs ≤ INT32_MAX) :
    b.Runs tc (fun _ => True) (initVerifier .zero allCallbacks timeoutMs) (.zero, b.flash)
      fun x s => x = (bootedVerifier (materialOf b.record d) timeoutMs, true) ∧
        Serving tc b.board b.record d s.1 s.2 := by
  rw [initVerifier_eq pos small]
  exact runs_boot computes h _

theorem boot_prover (computes : tc.Computes sha256 hmac)
    (h : Loadable tc b.board b.record d b.flash) {ranges : List AttestationRange} (some_ : ranges ≠ []) :
    b.Runs tc (fun _ => True) (proverInit .zero allCallbacks ranges) (.zero, b.flash)
      fun x s => x = (⟨allCallbacks, materialOf b.record d, ranges, true⟩, true) ∧
        Serving tc b.board b.record d s.1 s.2 := by
  have nonempty : ranges.isEmpty = false := by simpa using some_
  rw [proverInit, nonempty]
  exact runs_boot computes h fun loaded =>
    ((⟨allCallbacks, loaded.getD .zero, ranges, loaded.isSome⟩ : Prover), loaded.isSome)

/-- The prover measures what the verifier expects. -/
structure Paired (hmac : List UInt8 → List UInt8 → Bytes 32) (bV bP : Installed) : Prop where
  shared : (materialOf bP.record 0).kAuth = (materialOf bV.record 0).kAuth
  measurable : Measurable (Board.ranges bP.board)
  measured : hmac (materialOf bP.record 0).kAttest.data
    (measuredBytes bP.memory (Board.ranges bP.board)) = (materialOf bV.record 0).referenceVs

theorem first_session (computes : tc.Computes sha256 hmac)
    (hV : Loadable tc bV.board bV.record dV bV.flash) (hP : Loadable tc bP.board bP.record dP bP.flash)
    (paired : Paired hmac bV bP) (behind : dP ≤ dV) (below : dV ≠ UINT32_MAX) {timeoutMs : UInt32}
    (pos : timeoutMs ≠ 0) (small : timeoutMs ≤ INT32_MAX) {out resp : List UInt8}
    (room : 84 ≤ out.length) (room' : 33 ≤ resp.length) :
    FirstSession tc bV bP timeoutMs out resp fun response r => response.head? = some 1 ∧ r = .pass := by
  have clock : ∃ _ : UInt32, True := ⟨0, trivial⟩
  refine ends_mono (boot_verifier computes hV pos small) ?_
  rintro ⟨_, jV⟩ fV ⟨rfl, servingV⟩
  refine ends_mono (boot_prover computes hP (List.cons_ne_nil _ _)) ?_
  rintro ⟨_, jP⟩ fP ⟨rfl, servingP⟩
  refine ⟨rfl, rfl, ?_⟩
  have issue : CanIssue (bootedVerifier (materialOf bV.record dV) timeoutMs) dV :=
    ⟨rfl, rfl, below, rfl, pos⟩
  refine runs_calm (s := (jV, fV)) computes clock servingV (calm_challenge computes issue room) ?_
  rintro _ sV _ ⟨msg, now, issues, -, rfl⟩ servingV
  refine ⟨rfl, ?_⟩
  rw [List.take_left' (length_msgBytes msg)]
  have answer : CanAnswer (bootedVerifier (materialOf bV.record dV) timeoutMs)
      ⟨allCallbacks, materialOf bP.record dP, Board.ranges bP.board, true⟩ dP :=
    ⟨rfl, rfl, paired.shared, behind, paired.measurable⟩
  refine runs_calm (s := (jP, fP)) computes clock servingP
    (calm_handle computes (issues_accepts answer issues room') rfl paired.measurable) ?_
  rintro _ _ _ ⟨result, tag, measured, tagged, -, rfl⟩ -
  refine ⟨rfl, ?_⟩
  rw [List.take_left' (length_reportBytes _)]
  have one : result = 1 := by
    rw [measured, resultOf, issues.vs]
    exact if_pos paired.measured
  have genuine : Genuine tc ((bootedVerifier (materialOf bV.record dV) timeoutMs).begin msg now) _ result :=
    response_genuine paired.shared (one ▸ UInt8.le_refl 1) tagged
  refine runs_calm computes ⟨now, early_begin msg now pos⟩ servingV (calm_verify ⟨rfl, rfl⟩ genuine) ?_
  rintro _ _ _ ⟨rfl, -⟩ -
  rw [one]
  exact ⟨rfl, rfl⟩

end

end SimpleAttestation.BoardSession
