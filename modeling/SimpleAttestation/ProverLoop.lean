import SimpleAttestation.JournalRegister
import SimpleAttestation.ProverSpec
import SimpleAttestation.Store
import SimpleAttestation.TransportStream

set_option autoImplicit false

/-!
# The prover's loop (main.c)

One iteration is a function of the state and of what the outside gives it. The flash
callbacks are a function of the flash contents and the measured memory is fixed; every
other answer may change from one iteration to the next.
-/
namespace SimpleAttestation.ProverLoop
open ByteStrings Wire Crypto CallProgram Platform Cobs ProverRequest Session Journal JournalSave Store
open Transport TransportFrames TransportStream
open ProverSpec (responseTag_eq signed signed_accepts smallHmac)
open JournalRegister (save_eval)
open JournalLoad (smallJournal smallSeed seedFlash small_record)

def AUTH_FRAME_TIMEOUT_MS : UInt32 := 250

/-- What does not change while the loop runs. `record` is the provisioning record. -/
structure Surroundings where
  board : Board
  record : List UInt8
  flash : (c : FlashCall) → Flash → c.Reply × Flash
  memory : ℕ → UInt8

/-- What one iteration is given: the read and the clock at its byte, what the buffers on the
    stack hold, what `link.write` returns, and the answers of all other callbacks. -/
structure LoopEvent where
  read : ReadOutcome
  nowMs : UInt32
  response : Bytes SIMPLE_REPORT_LEN
  stack : Bytes AUTH_FRAME_MAX
  written : ℤ
  protectionValid : Bool
  storeError : ℕ
  outside : (c : PlatformCall) → c.Reply

def Surroundings.callbacks (k : Surroundings) (e : LoopEvent) :
    (c : BoardCall) → Flash → c.Reply × Flash
  | .flash c, f => k.flash c f
  | .protectionValid, f => (e.protectionValid, f)
  | .storeError, f => (e.storeError, f)
  | .platform (.readRange start length), f => (readMemory k.memory start length, f)
  | .platform c, f => (e.outside c, f)

def Surroundings.platform (tc : TinyCrypt) (k : Surroundings) (e : LoopEvent) (c : PlatformCall)
    (s : AuthJournal × Flash) : c.Reply × AuthJournal × Flash :=
  let x := (boardPlatform tc k.board k.record c s.1).eval (k.callbacks e) s.2
  (x.1.1, x.1.2, x.2)

/-- What a request can change. `halted` is being in `board_fatal`, which does not return. -/
structure ProverCore where
  prover : Prover
  journal : AuthJournal
  flash : Flash
  halted : Bool

/-- The receiver and the variables `type`, `payload` and `length` that all frames share. -/
structure Inbox where
  receiver : AuthReceiver
  out : FrameOut
  room : out.payload.length = SIMPLE_REQUEST_LEN

structure LoopState where
  core : ProverCore
  inbox : Inbox

inductive Report where
  | error (code : ℕ)
  | peer (code : ℕ)
  | fatal
deriving DecidableEq

/-- What an iteration did: the request it delivered, the data handed to `link.write`, and what
    it showed. -/
structure Effects where
  delivered : Option (List UInt8)
  written : List (List UInt8)
  reported : List Report

inductive Received where
  | nothing
  | failed (error : AuthError)
  | frame

def Inbox.take (x : Inbox) (e : LoopEvent) : Inbox × Received :=
  match e.read with
  | .error => (⟨{ x.receiver with discard := true }, x.out, x.room⟩, .failed .uartRx)
  | .none => (x, .nothing)
  | .byte b =>
    let fed := authFrameFeed x.receiver b e.nowMs AUTH_FRAME_TIMEOUT_MS x.out
    (⟨fed.1, fed.2.2, (feed_room (by decide)).trans x.room⟩,
      if fed.2.1 < 0 then .failed .frame else if fed.2.1 = 0 then .nothing else .frame)

/-- `auth_frame_send` of a response. -/
def transmit (e : LoopEvent) (response : List UInt8) : Bool × List (List UInt8) :=
  (authFrameSend true AUTH_FRAME_RESPONSE response 100 e.stack).eval
    (fun (.write data _) sent => (e.written, sent ++ [data])) []

/-- The two clock readings around the call only go to `board_last_elapsed_ms`. -/
def ProverCore.serve (tc : TinyCrypt) (k : Surroundings) (c : ProverCore) (e : LoopEvent)
    (request : List UInt8) : ProverCore × Effects :=
  let x := (proverHandleRequest tc c.prover request e.response.data).eval (k.platform tc e)
    (c.journal, c.flash)
  let (prover, response, n) := x.1
  let core : ProverCore := ⟨prover, x.2.1, x.2.2, !prover.ready⟩
  if !prover.ready then (core, ⟨some request, [], [.fatal]⟩)
  else if n = 0 then (core, ⟨some request, [], []⟩)
  else
    let sent := transmit e (response.take n)
    (core, ⟨some request, sent.2, if sent.1 then [] else [.error AuthError.uartTx.code]⟩)

def ProverCore.dispatch (tc : TinyCrypt) (k : Surroundings) (c : ProverCore) (e : LoopEvent)
    (out : FrameOut) : ProverCore × Effects :=
  if out.type = AUTH_FRAME_DIAGNOSTIC then
    let peer := (out.payload.getD 0 0).toNat
    if AuthError.none.code < peer ∧ peer ≤ AuthError.flashSequence.code then
      (c, ⟨none, [], [.peer peer]⟩)
    else (c, ⟨none, [], [.error AuthError.frame.code]⟩)
  else if out.type ≠ AUTH_FRAME_REQUEST then (c, ⟨none, [], [.error AuthError.frameType.code]⟩)
  else c.serve tc k e (out.payload.take out.length)

def proverStep (tc : TinyCrypt) (k : Surroundings) (s : LoopState) (e : LoopEvent) :
    LoopState × Effects :=
  if s.core.halted then (s, ⟨none, [], []⟩)
  else
    let (inbox, received) := s.inbox.take e
    match received with
    | .nothing => (⟨s.core, inbox⟩, ⟨none, [], []⟩)
    | .failed error => (⟨s.core, inbox⟩, ⟨none, [], [.error error.code]⟩)
    | .frame =>
      let (core, effects) := s.core.dispatch tc k e inbox.out
      (⟨core, inbox⟩, effects)

def proverRun (tc : TinyCrypt) (k : Surroundings) : LoopState → List LoopEvent →
    LoopState × List Effects
  | s, [] => (s, [])
  | s, e :: es =>
    let (s, first) := proverStep tc k s e
    let (s, rest) := proverRun tc k s es
    (s, first :: rest)

/-- The request payloads that `auth_frame_feed` delivered. -/
def deliveredBy (effects : List Effects) : List (List UInt8) := effects.filterMap Effects.delivered

/-- The request that `auth_frame_feed` returns to an iteration. -/
def Inbox.request (x : Inbox) (e : LoopEvent) : Option (List UInt8) :=
  match e.read with
  | .byte b =>
    let fed := authFrameFeed x.receiver b e.nowMs AUTH_FRAME_TIMEOUT_MS x.out
    if 0 < fed.2.1 ∧ fed.2.2.type = AUTH_FRAME_REQUEST then some (fed.2.2.payload.take fed.2.2.length)
    else none
  | .none | .error => none

def byteOf (e : LoopEvent) : Option UInt8 :=
  match e.read with
  | .byte b => some b
  | .none | .error => none

def nothing : Effects := ⟨none, [], []⟩

def writtenBy (effects : List Effects) : List (List UInt8) := effects.flatMap Effects.written

def measured (tc : TinyCrypt) (memory : ℕ → UInt8) (key : Bytes 32) (ranges : List AttestationRange) :
    Option (Bytes 32) :=
  if ranges.isEmpty || !ranges.all AttestationRange.valid then none
  else (tc.tcHmacSetKey tc.hmacZero key.data).bind tc.tcHmacInit >>= fun h =>
    (ranges.map (readRange memory)).foldlM tc.tcHmacUpdate h >>= tc.tcHmacFinal

/-- The response to an accepted request; empty when there is none. -/
def answerTo (tc : TinyCrypt) (memory : ℕ → UInt8) (p : Prover) (msg : SimpleMsg) : List UInt8 :=
  match measured tc memory p.material.kAttest p.ranges with
  | none => []
  | some vs =>
    match responseTag tc p.material.kAuth (resultOf vs msg) msg with
    | none => []
    | some tag => reportBytes ⟨resultOf vs msg, tag⟩

def framesOf (response : List UInt8) : List (List UInt8) :=
  if response = [] then [] else [0 :: (stuff (rawFrame AUTH_FRAME_RESPONSE response) ++ [0])]

def ProverCore.commit (tc : TinyCrypt) (k : Surroundings) (c : ProverCore) (msg : SimpleMsg) :
    ProverCore × List (List UInt8) :=
  let saved := (authJournalSave tc c.journal msg.counter).eval k.flash c.flash
  if saved.1.2 then
    (⟨c.prover.advance msg.counter, saved.1.1, saved.2, false⟩,
      framesOf (answerTo tc k.memory c.prover msg))
  else (⟨{ c.prover with ready := false }, saved.1.1, saved.2, true⟩, [])

section
variable {tc : TinyCrypt} {k : Surroundings} {e e' : LoopEvent} {s : AuthJournal × Flash}
  {p p' : Prover} {req resp resp' : List UInt8} {n : ℕ}

theorem loop_quiet : Quiet (functionDevice (k.platform tc e)) := by
  intro c s hc
  refine ⟨fun _ torn => torn.elim, fun r t answered => ?_⟩
  have same : (k.platform tc e c s).2 = s := by
    cases c with
    | load | saveCounter | nowMs => cases hc
    | _ => rfl
  rw [answered] at same
  exact same

theorem loop_reads : ReadsMemory (functionDevice (k.platform tc e)) k.memory := by
  intro start length s bytes t answered
  exact (Prod.mk.inj answered).1.symm

theorem onFlash_callbacks {α : Type} (prog : FlashProg α) (f : Flash) :
    (onFlash prog).eval (k.callbacks e) f = prog.eval k.flash f := by
  induction prog generalizing f with
  | done a => rfl
  | call c rest ih => exact ih _ _

theorem platform_commit {c : UInt32} {saved : ℤ} {t : AuthJournal × Flash}
    (h : k.platform tc e (.saveCounter c) s = (saved, t)) :
    t = (((authJournalSave tc s.1 c).eval k.flash s.2).1.1,
      ((authJournalSave tc s.1 c).eval k.flash s.2).2) ∧
    (0 < saved ↔ ((authJournalSave tc s.1 c).eval k.flash s.2).1.2 = true) := by
  simp only [Surroundings.platform, boardPlatform, boardStoreSave, Prog.eval_bind,
    onFlash_callbacks] at h
  generalize (authJournalSave tc s.1 c).eval k.flash s.2 = x at h ⊢
  obtain ⟨⟨j, ok⟩, f⟩ := x
  cases ok with
  | true =>
    obtain ⟨rfl, rfl⟩ := Prod.mk.inj h
    exact ⟨rfl, by simp⟩
  | false =>
    obtain ⟨rfl, rfl⟩ := Prod.mk.inj h
    refine ⟨rfl, ?_⟩
    simp

theorem safe_measured {σ : Type} {dev : Device PlatformCall PlatformCall.Reply σ} {memory : ℕ → UInt8}
    (hq : Quiet dev) (hmem : ReadsMemory dev memory) (s : σ) (key : Bytes 32)
    (ranges : List AttestationRange) :
    Safe dev (fun _ _ => True) (fun _ => True) (attestationComputeValidState tc key ranges)
      (fun r t => t = s ∧ r = measured tc memory key ranges) s := by
  unfold attestationComputeValidState measured
  split
  · exact ⟨trivial, rfl, rfl⟩
  · cases (tc.tcHmacSetKey tc.hmacZero key.data).bind tc.tcHmacInit with
    | none => exact ⟨trivial, rfl, rfl⟩
    | some h => exact safe_updates hq hmem s trivial (fun _ _ => trivial) h ranges

theorem measured_eq {sha256 : List UInt8 → Bytes 32} {hmac : List UInt8 → List UInt8 → Bytes 32}
    (computes : tc.Computes sha256 hmac) (memory : ℕ → UInt8) (key : Bytes 32)
    {ranges : List AttestationRange} (ok : Measurable ranges) :
    measured tc memory key ranges = some (hmac key.data (measuredBytes memory ranges)) := by
  have calm : Quiet (calmDevice .zero memory fun _ => True) := calm_quiet
  obtain ⟨r, t, run⟩ := exec_exists
    (@calm_live .zero memory (fun _ => True) ⟨0, trivial⟩) (attestationComputeValidState tc key ranges) 0
  have one := safe_exec _ _ _ _ _ (safe_measured calm calm_reads 0 key ranges) run
  have other := safe_exec _ _ _ _ _ (safe_measurement (G := fun _ _ => True) (K := fun _ => True) computes
    calm calm_reads 0 trivial (fun _ _ => trivial) key ok) run
  exact one.2.symm.trans other.2

theorem handle_outcome : HandleOutcome tc (· = measured tc k.memory p.material.kAttest p.ranges)
    (commits (functionDevice (k.platform tc e)) s) p req resp s
    ((proverHandleRequest tc p req resp).eval (k.platform tc e) s).1
    ((proverHandleRequest tc p req resp).eval (k.platform tc e) s).2 := by
  have safe := safe_handleRequest (G := fun _ _ => True) (K := fun _ => True) tc
    (· = measured tc k.memory p.material.kAttest p.ranges) p req resp s (@loop_quiet tc k e) trivial
    (fun _ _ _ => trivial) fun msg _ => ⟨trivial, fun _ _ => trivial,
      fun saved t _ => ⟨trivial, safe_measured loop_quiet loop_reads t _ _⟩⟩
  exact safe_exec _ _ _ _ _ safe (eval_function (k.platform tc e) _ s)

/-- What a call leaves, whatever the response buffer held and the quiet callbacks answered. -/
structure Settles (tc : TinyCrypt) (k : Surroundings) (p : Prover) (req : List UInt8)
    (s : AuthJournal × Flash) (msg : SimpleMsg) (p' : Prover) (response : List UInt8)
    (t : AuthJournal × Flash) : Prop where
  state : t = (((authJournalSave tc s.1 msg.counter).eval k.flash s.2).1.1,
    ((authJournalSave tc s.1 msg.counter).eval k.flash s.2).2)
  prover : p' = if ((authJournalSave tc s.1 msg.counter).eval k.flash s.2).1.2 = true
    then p.advance msg.counter else { p with ready := false }
  response : response = if ((authJournalSave tc s.1 msg.counter).eval k.flash s.2).1.2 = true
    then answerTo tc k.memory p msg else []

theorem outcome_settles {t : AuthJournal × Flash}
    (h : HandleOutcome tc (· = measured tc k.memory p.material.kAttest p.ranges)
      (commits (functionDevice (k.platform tc e)) s) p req resp s (p', resp', n) t) :
    n = (resp'.take n).length ∧
    ((∀ msg, ¬ Accepts tc p req resp msg) ∧ p' = p ∧ resp'.take n = [] ∧ t = s ∨
      ∃ msg, Accepts tc p req resp msg ∧ Settles tc k p req s msg p' (resp'.take n) t) := by
  cases h with
  | refused none_ => exact ⟨rfl, Or.inl ⟨none_, rfl, rfl, rfl⟩⟩
  | uncommitted accepted commit failed =>
    obtain ⟨same, positive⟩ := platform_commit commit
    have unsaved := mt positive.mpr (Int.not_lt.mpr failed)
    exact ⟨rfl, Or.inr ⟨_, accepted, same, (if_neg unsaved).symm, (if_neg unsaved).symm⟩⟩
  | @silent msg saved u accepted commit positive failed =>
    obtain ⟨same, iff⟩ := platform_commit commit
    have saved := iff.mp positive
    have nothing : answerTo tc k.memory p msg = [] := by
      rcases failed with unmeasured | ⟨vs, measured, untagged⟩
      · rw [answerTo, ← unmeasured]
      · rw [answerTo, ← measured]
        dsimp only
        rw [untagged]
    exact ⟨rfl, Or.inr ⟨msg, accepted, same, (if_pos saved).symm, by rw [if_pos saved, nothing]; rfl⟩⟩
  | @answered msg saved u vs tag accepted commit positive measured tagged =>
    obtain ⟨same, iff⟩ := platform_commit commit
    have saved := iff.mp positive
    have length : (reportBytes ⟨resultOf vs msg, tag⟩).length = 33 := length_reportBytes _
    have whole : (reportBytes ⟨resultOf vs msg, tag⟩ ++ resp.drop 33).take 33 =
        reportBytes ⟨resultOf vs msg, tag⟩ := List.take_left' length
    have answer : answerTo tc k.memory p msg = reportBytes ⟨resultOf vs msg, tag⟩ := by
      rw [answerTo, ← measured]
      dsimp only
      rw [tagged]
    rw [whole]
    exact ⟨length.symm, Or.inr ⟨msg, accepted, same, (if_pos saved).symm,
      by rw [if_pos saved, answer]⟩⟩

theorem answerTo_length (msg : SimpleMsg) : answerTo tc k.memory p msg = [] ∨
    (answerTo tc k.memory p msg).length = 33 := by
  unfold answerTo
  split
  · exact Or.inl rfl
  · split
    · exact Or.inl rfl
    · exact Or.inr (length_reportBytes _)

theorem transmit_written {response : List UInt8} (length : response.length = 33) :
    (transmit e response).2 = framesOf response := by
  have legal : legalFrame AUTH_FRAME_RESPONSE response.length = true := by
    rw [length]
    decide
  have some_ : response ≠ [] := by
    rintro rfl
    cases length
  rw [transmit, send_eq e.stack legal (by decide), framesOf, if_neg some_]
  rfl

theorem serve_cases (c : ProverCore) :
    (∀ msg, ¬ Accepts tc c.prover req e.response.data msg) ∧
      (c.serve tc k e req).1 = ⟨c.prover, c.journal, c.flash, !c.prover.ready⟩ ∧
      (c.serve tc k e req).2.written = [] ∨
    ∃ msg, Accepts tc c.prover req e.response.data msg ∧
      ((c.serve tc k e req).1, (c.serve tc k e req).2.written) = c.commit tc k msg := by
  have outcome := @handle_outcome tc k e (c.journal, c.flash) c.prover req e.response.data
  unfold ProverCore.serve
  generalize (proverHandleRequest tc c.prover req e.response.data).eval (k.platform tc e)
    (c.journal, c.flash) = x at outcome ⊢
  obtain ⟨⟨p', resp', n⟩, j, f⟩ := x
  obtain ⟨length, refused | ⟨msg, accepted, settled⟩⟩ := outcome_settles outcome
  · obtain ⟨none_, rfl, empty, same⟩ := refused
    obtain ⟨rfl, rfl⟩ := Prod.mk.inj same
    rw [empty] at length
    obtain rfl : n = 0 := length
    refine Or.inl ⟨none_, ?_⟩
    dsimp only
    split <;> exact ⟨rfl, rfl⟩
  · refine Or.inr ⟨msg, accepted, ?_⟩
    obtain ⟨state, prover, response⟩ := settled
    obtain ⟨rfl, rfl⟩ := Prod.mk.inj state
    rw [ProverCore.commit]
    dsimp only at prover response ⊢
    generalize (authJournalSave tc c.journal msg.counter).eval k.flash c.flash = saved at prover response ⊢
    obtain ⟨⟨j, ok⟩, f⟩ := saved
    cases ok with
    | false =>
      obtain rfl : p' = { c.prover with ready := false } := prover
      rfl
    | true =>
      obtain rfl : p' = c.prover.advance msg.counter := prover
      have response : resp'.take n = answerTo tc k.memory c.prover msg := response
      have ready : (c.prover.advance msg.counter).ready = true := accepted.ready
      rw [response] at length
      simp only [ready, Bool.not_true, Bool.false_eq_true, if_false, if_true]
      rcases @answerTo_length tc k c.prover msg with empty | whole
      · rw [empty] at length
        rw [if_pos (show n = 0 from length), empty]
        rfl
      · rw [if_neg (by omega), response, transmit_written whole]

theorem serve_accepted {sha256 : List UInt8 → Bytes 32} {hmac : List UInt8 → List UInt8 → Bytes 32}
    (computes : tc.Computes sha256 hmac) (c : ProverCore) {msg : SimpleMsg}
    (accepted : Accepts tc c.prover req e.response.data msg) (measurable : Measurable c.prover.ranges)
    (saved : ((authJournalSave tc c.journal msg.counter).eval k.flash c.flash).1.2 = true) :
    (c.serve tc k e req).1.prover = c.prover.advance msg.counter ∧
      (c.serve tc k e req).1.halted = false ∧ ∃ report,
      (c.serve tc k e req).2.written = framesOf (reportBytes report) ∧
      report.result = resultOf (hmac c.prover.material.kAttest.data
        (measuredBytes k.memory c.prover.ranges)) msg := by
  rcases @serve_cases tc k e req c with ⟨none_, -⟩ | ⟨msg', accepted', commit⟩
  · exact absurd accepted (none_ msg)
  · obtain rfl := Option.some.inj (accepted'.parsed.symm.trans accepted.parsed)
    rw [ProverCore.commit, if_pos saved, answerTo, measured_eq computes _ _ measurable] at commit
    dsimp only at commit
    rw [responseTag_eq computes _ (resultOf_le _ _)] at commit
    obtain ⟨core, written⟩ := Prod.mk.inj commit
    exact ⟨by rw [core], by rw [core], _, written, rfl⟩

theorem serve_same (c : ProverCore) :
    (c.serve tc k e req).1 = (c.serve tc k e' req).1 ∧
      (c.serve tc k e req).2.written = (c.serve tc k e' req).2.written := by
  have room : 33 ≤ e.response.data.length := e.response.length_data.ge
  have room' : 33 ≤ e'.response.data.length := e'.response.length_data.ge
  rcases @serve_cases tc k e req c with ⟨none_, core, written⟩ | ⟨msg, h, commit⟩
  · rcases @serve_cases tc k e' req c with ⟨-, core', written'⟩ | ⟨msg', h', -⟩
    · exact ⟨core.trans core'.symm, written.trans written'.symm⟩
    · exact absurd ⟨h'.ready, room, h'.parsed, h'.fresh, h'.tag⟩ (none_ msg')
  · rcases @serve_cases tc k e' req c with ⟨none_, -⟩ | ⟨msg', h', commit'⟩
    · exact absurd ⟨h.ready, room', h.parsed, h.fresh, h.tag⟩ (none_ msg)
    · obtain rfl := Option.some.inj (h.parsed.symm.trans h'.parsed)
      exact Prod.mk.inj (commit.trans commit'.symm)

theorem serve_delivered (c : ProverCore) : (c.serve tc k e req).2.delivered = some req := by
  unfold ProverCore.serve
  dsimp only
  split
  · rfl
  · split <;> rfl

theorem dispatch_delivered (c : ProverCore) (out : FrameOut) : (c.dispatch tc k e out).2.delivered =
    if out.type = AUTH_FRAME_REQUEST then some (out.payload.take out.length) else none := by
  unfold ProverCore.dispatch
  split
  · rename_i diagnostic
    have other : ¬ out.type = AUTH_FRAME_REQUEST := by
      rw [diagnostic]
      decide
    rw [if_neg other]
    dsimp only
    split <;> rfl
  · split
    · rfl
    · rename_i request
      rw [if_pos (not_not.mp request)]
      exact serve_delivered c

theorem step_request (s : LoopState) (e : LoopEvent) :
    (proverStep tc k s e).2.delivered = if s.core.halted then none else s.inbox.request e := by
  unfold proverStep
  by_cases halted : s.core.halted = true
  · rw [if_pos halted, if_pos halted]
  rw [if_neg halted, if_neg halted, Inbox.take, Inbox.request]
  cases e.read with
  | error | none => rfl
  | byte b =>
    dsimp only
    generalize (authFrameFeed s.inbox.receiver b e.nowMs AUTH_FRAME_TIMEOUT_MS s.inbox.out).2.1 = value
    rcases Int.lt_trichotomy value 0 with negative | zero | positive
    · rw [if_pos negative, if_neg fun h => absurd h.1 (by omega)]
    · rw [if_neg (by omega), if_pos zero, if_neg fun h => absurd h.1 (by omega)]
    · rw [if_neg (by omega), if_neg (by omega)]
      dsimp only
      rw [dispatch_delivered]
      simp only [positive, true_and]

inductive Serves (tc : TinyCrypt) (k : Surroundings) :
    ProverCore → List (List UInt8) → ProverCore → List (List UInt8) → Prop where
  | nil (c : ProverCore) : Serves tc k c [] c []
  | cons {c c' : ProverCore} {requests frames : List (List UInt8)} (e : LoopEvent)
      (request : List UInt8) (rest : Serves tc k (c.serve tc k e request).1 requests c' frames) :
      Serves tc k c (request :: requests) c' ((c.serve tc k e request).2.written ++ frames)

theorem serves_unique {c d d' : ProverCore} {requests frames frames' : List (List UInt8)}
    (h : Serves tc k c requests d frames) (h' : Serves tc k c requests d' frames') :
    d = d' ∧ frames = frames' := by
  induction h generalizing d' frames' with
  | nil c =>
    cases h'
    exact ⟨rfl, rfl⟩
  | @cons c d requests frames e request rest ih =>
    cases h' with
    | cons e' _ rest' =>
      obtain ⟨core, written⟩ := @serve_same tc k e e' request c
      rw [← core] at rest'
      obtain ⟨same, more⟩ := ih rest'
      exact ⟨same, congrArg₂ (· ++ ·) written more⟩

theorem step_cases (s : LoopState) (e : LoopEvent) :
    ((proverStep tc k s e).2.delivered = none ∧ (proverStep tc k s e).2.written = [] ∧
      (proverStep tc k s e).1.core = s.core) ∨
    ∃ request, (proverStep tc k s e).2.delivered = some request ∧
      (proverStep tc k s e).1.core = (s.core.serve tc k e request).1 ∧
      (proverStep tc k s e).2 = (s.core.serve tc k e request).2 := by
  unfold proverStep
  split
  · exact Or.inl ⟨rfl, rfl, rfl⟩
  · generalize s.inbox.take e = x
    obtain ⟨inbox, received⟩ := x
    cases received with
    | nothing | failed => exact Or.inl ⟨rfl, rfl, rfl⟩
    | frame =>
      dsimp only
      unfold ProverCore.dispatch
      split
      · dsimp only
        split <;> exact Or.inl ⟨rfl, rfl, rfl⟩
      · split
        · exact Or.inl ⟨rfl, rfl, rfl⟩
        · exact Or.inr ⟨_, serve_delivered s.core, rfl, rfl⟩

theorem run_serves (s : LoopState) (es : List LoopEvent) :
    Serves tc k s.core (deliveredBy (proverRun tc k s es).2) (proverRun tc k s es).1.core
      (writtenBy (proverRun tc k s es).2) := by
  induction es generalizing s with
  | nil => exact .nil s.core
  | cons e es ih =>
    have rest := ih (proverStep tc k s e).1
    rcases @step_cases tc k s e with ⟨none_, silent, core⟩ | ⟨request, delivered, core, effects⟩
    · simp only [proverRun, deliveredBy, writtenBy, List.filterMap_cons, none_, List.flatMap_cons,
        silent, List.nil_append]
      rw [core] at rest
      exact rest
    · simp only [proverRun, deliveredBy, writtenBy, List.filterMap_cons, delivered, List.flatMap_cons]
      rw [core] at rest
      rw [effects]
      exact .cons e request rest

theorem run_determined {s : LoopState} {xs ys : List LoopEvent}
    (same : deliveredBy (proverRun tc k s xs).2 = deliveredBy (proverRun tc k s ys).2) :
    (proverRun tc k s xs).1.core = (proverRun tc k s ys).1.core ∧
      writtenBy (proverRun tc k s xs).2 = writtenBy (proverRun tc k s ys).2 := by
  have first := @run_serves tc k s xs
  rw [same] at first
  exact serves_unique first (run_serves s ys)

theorem take_agree {x y : Inbox} (h : Agree x.receiver y.receiver) (e : LoopEvent) :
    Agree (x.take e).1.receiver (y.take e).1.receiver ∧ (x.take e).2 = (y.take e).2 ∧
      ((x.take e).2 = .frame → (x.take e).1.out.type = (y.take e).1.out.type ∧
        (x.take e).1.out.payload.take (x.take e).1.out.length =
          (y.take e).1.out.payload.take (y.take e).1.out.length) := by
  unfold Inbox.take
  cases e.read with
  | error => exact ⟨⟨h.used, rfl, h.started, h.held⟩, rfl, fun none_ => by cases none_⟩
  | none => exact ⟨h, rfl, fun none_ => by cases none_⟩
  | byte b =>
    obtain ⟨same, agree⟩ := @agree_feed _ _ AUTH_FRAME_TIMEOUT_MS h b e.nowMs x.out
    obtain ⟨receiver, value, frame⟩ := @feed_out y.receiver AUTH_FRAME_TIMEOUT_MS _ _
      (x.room.trans y.room.symm) (by decide) b e.nowMs
    rw [← same] at value frame
    rw [receiver] at agree
    dsimp only
    refine ⟨agree, by rw [value], fun framed => frame ?_⟩
    split at framed
    · cases framed
    · split at framed
      · cases framed
      · omega

theorem step_agree {s s' : LoopState} (core : s.core = s'.core)
    (agree : Agree s.inbox.receiver s'.inbox.receiver) (e : LoopEvent) :
    (proverStep tc k s e).2.delivered = (proverStep tc k s' e).2.delivered ∧
      (proverStep tc k s e).1.core = (proverStep tc k s' e).1.core ∧
      Agree (proverStep tc k s e).1.inbox.receiver (proverStep tc k s' e).1.inbox.receiver := by
  obtain ⟨agree', received, frame⟩ := take_agree agree e
  unfold proverStep
  rw [← core]
  split
  · exact ⟨rfl, core, agree⟩
  · generalize s.inbox.take e = x at agree' received frame ⊢
    generalize s'.inbox.take e = y at agree' received frame ⊢
    obtain ⟨inbox, kind⟩ := x
    obtain ⟨inbox', _⟩ := y
    obtain rfl : kind = _ := received
    cases kind with
    | nothing | failed => exact ⟨rfl, rfl, agree'⟩
    | frame =>
      obtain ⟨type, payload⟩ := frame rfl
      dsimp only at type payload agree' ⊢
      unfold ProverCore.dispatch
      rw [← type, ← payload]
      split
      · dsimp only
        split <;> split <;> exact ⟨rfl, rfl, agree'⟩
      · split <;> exact ⟨rfl, rfl, agree'⟩

theorem run_agree {s s' : LoopState} (core : s.core = s'.core)
    (agree : Agree s.inbox.receiver s'.inbox.receiver) (es : List LoopEvent) :
    deliveredBy (proverRun tc k s es).2 = deliveredBy (proverRun tc k s' es).2 := by
  induction es generalizing s s' with
  | nil => rfl
  | cons e es ih =>
    obtain ⟨delivered, core', agree'⟩ := @step_agree tc k s s' core agree e
    have rest := ih core' agree'
    simp only [deliveredBy] at rest ⊢
    simp only [proverRun, List.filterMap_cons, delivered, rest]

theorem run_append (s : LoopState) (xs ys : List LoopEvent) : proverRun tc k s (xs ++ ys) =
    ((proverRun tc k (proverRun tc k s xs).1 ys).1,
      (proverRun tc k s xs).2 ++ (proverRun tc k (proverRun tc k s xs).1 ys).2) := by
  induction xs generalizing s with
  | nil => rfl
  | cons x xs ih => simp only [List.cons_append, proverRun, ih]

theorem delivered_append (s : LoopState) (xs ys : List LoopEvent) :
    deliveredBy (proverRun tc k s (xs ++ ys)).2 = deliveredBy (proverRun tc k s xs).2 ++
      deliveredBy (proverRun tc k (proverRun tc k s xs).1 ys).2 := by
  rw [run_append, deliveredBy, List.filterMap_append]
  rfl

theorem run_snoc (s : LoopState) (xs : List LoopEvent) (e : LoopEvent) :
    (proverRun tc k s (xs ++ [e])).1 = (proverStep tc k (proverRun tc k s xs).1 e).1 := by
  rw [run_append]
  rfl

theorem step_halted {s : LoopState} (halted : s.core.halted = true) (e : LoopEvent) :
    proverStep tc k s e = (s, ⟨none, [], []⟩) := by
  rw [proverStep, if_pos halted]

theorem run_halted {s : LoopState} (halted : s.core.halted = true) (es : List LoopEvent) :
    deliveredBy (proverRun tc k s es).2 = [] := by
  induction es with
  | nil => rfl
  | cons e es ih =>
    simp only [deliveredBy] at ih ⊢
    simp only [proverRun, step_halted halted, List.filterMap_cons, ih]

theorem step_delimiter {s : LoopState} {e : LoopEvent} (zero : e.read = .byte 0)
    (running : (proverStep tc k s e).1.core.halted = false) :
    (proverStep tc k s e).1.inbox.receiver.used = 0 ∧
      (proverStep tc k s e).1.inbox.receiver.discard = false := by
  have going : ¬ s.core.halted = true := by
    intro halted
    rw [step_halted halted, halted] at running
    cases running
  have emptied : (s.inbox.take e).1.receiver.used = 0 ∧ (s.inbox.take e).1.receiver.discard = false := by
    rw [Inbox.take, zero]
    exact feed_delimiter (by decide) _ _
  rw [proverStep, if_neg going]
  generalize s.inbox.take e = x at emptied ⊢
  obtain ⟨inbox, received⟩ := x
  cases received <;> exact emptied

theorem run_delimiter {s : LoopState} {es : List LoopEvent} {e : LoopEvent} (zero : e.read = .byte 0)
    (running : (proverRun tc k s (es ++ [e])).1.core.halted = false) :
    (proverRun tc k s (es ++ [e])).1.inbox.receiver.used = 0 ∧
      (proverRun tc k s (es ++ [e])).1.inbox.receiver.discard = false := by
  rw [run_snoc] at running ⊢
  exact step_delimiter zero running

theorem quiet_core {s : LoopState} {es : List LoopEvent}
    (quiet : deliveredBy (proverRun tc k s es).2 = []) : (proverRun tc k s es).1.core = s.core := by
  have served := @run_serves tc k s es
  rw [quiet] at served
  exact (serves_unique served (.nil s.core)).1

theorem inserted_delivered (s : LoopState) (before noise after : List LoopEvent) (z last : LoopEvent)
    (zero : z.read = .byte 0) (zero' : last.read = .byte 0)
    (quiet : deliveredBy (proverRun tc k (proverRun tc k s (before ++ [z])).1 (noise ++ [last])).2 = []) :
    deliveredBy (proverRun tc k s (before ++ [z] ++ (noise ++ [last]) ++ after)).2 =
      deliveredBy (proverRun tc k s (before ++ [z] ++ after)).2 := by
  rw [delivered_append s (before ++ [z] ++ (noise ++ [last])), delivered_append s (before ++ [z]),
    delivered_append s (before ++ [z]) after, quiet, List.append_nil]
  refine congrArg _ ?_
  rw [run_append s (before ++ [z])]
  have core := quiet_core quiet
  dsimp only
  cases halted : (proverRun tc k s (before ++ [z])).1.core.halted with
  | true => rw [run_halted halted, run_halted (core ▸ halted)]
  | false =>
    obtain ⟨used, discard⟩ := run_delimiter zero halted
    obtain ⟨used', discard'⟩ := run_delimiter zero' (core ▸ halted)
    refine run_agree core ⟨used'.trans used.symm, discard'.trans discard.symm,
      fun some_ => absurd used' some_, ?_⟩ after
    rw [used, used', List.take_zero, List.take_zero]

section
variable {s : LoopState}

theorem step_idle (running : s.core.halted = false) (idle : e.read = .none) :
    proverStep tc k s e = (s, nothing) := by
  rw [proverStep, if_neg (by rw [running]; decide), Inbox.take, idle]
  rfl

theorem step_fed {b : UInt8} {r : AuthReceiver} {out : FrameOut} (running : s.core.halted = false)
    (byte : e.read = .byte b)
    (fed : authFrameFeed s.inbox.receiver b e.nowMs AUTH_FRAME_TIMEOUT_MS s.inbox.out = (r, 0, out)) :
    ∃ s', proverStep tc k s e = (s', nothing) ∧ s'.core = s.core ∧ s'.inbox.receiver = r := by
  have receiver : (s.inbox.take e).1.receiver = r := by
    rw [Inbox.take, byte]
    exact congrArg Prod.fst fed
  have received : (s.inbox.take e).2 = .nothing := by
    rw [Inbox.take, byte]
    dsimp only
    rw [fed]
    rfl
  rw [proverStep, if_neg (by rw [running]; decide)]
  generalize s.inbox.take e = taken at receiver received
  obtain ⟨inbox, _⟩ := taken
  obtain rfl := received
  exact ⟨⟨s.core, inbox⟩, rfl, rfl, receiver⟩

theorem run_idle (running : s.core.halted = false) (es : List LoopEvent) (idle : ∀ e ∈ es, e.read = .none) :
    proverRun tc k s es = (s, es.map fun _ => nothing) := by
  induction es with
  | nil => rfl
  | cons e es ih =>
    obtain ⟨first, rest⟩ := List.forall_mem_cons.mp idle
    rw [proverRun, step_idle running first]
    dsimp only
    rw [ih rest]
    rfl

theorem run_bytes {w : List UInt8} {started : UInt32} (es : List LoopEvent) (running : s.core.halted = false)
    (some_ : w ≠ []) (held : Holding w started s.inbox.receiver) (clean : ∀ e ∈ es, e.read ≠ .error)
    (nonzero : ∀ b ∈ es.filterMap byteOf, b ≠ 0)
    (inTime : ∀ e ∈ es, authExpired e.nowMs started AUTH_FRAME_TIMEOUT_MS = false) :
    ∃ s', proverRun tc k s es = (s', es.map fun _ => nothing) ∧ s'.core = s.core ∧
      Holding (w ++ es.filterMap byteOf) started s'.inbox.receiver := by
  induction es generalizing s w with
  | nil => exact ⟨s, rfl, rfl, by rw [List.filterMap_nil, List.append_nil]; exact held⟩
  | cons e es ih =>
    obtain ⟨firstClean, clean⟩ := List.forall_mem_cons.mp clean
    obtain ⟨now, inTime⟩ := List.forall_mem_cons.mp inTime
    rw [List.filterMap_cons] at nonzero ⊢
    cases read : e.read with
    | error => exact absurd read firstClean
    | none =>
      have absent : byteOf e = none := by rw [byteOf, read]
      rw [absent] at nonzero ⊢
      obtain ⟨s', run, core, held'⟩ := ih running some_ held clean nonzero inTime
      refine ⟨s', ?_, core, held'⟩
      rw [proverRun, step_idle running read]
      dsimp only
      rw [run]
      rfl
    | byte b =>
      have present : byteOf e = some b := by rw [byteOf, read]
      rw [present] at nonzero ⊢
      obtain ⟨hb, nonzero⟩ := List.forall_mem_cons.mp nonzero
      obtain ⟨r, fed, held'⟩ := @feed_next s.inbox.receiver w b e.nowMs started AUTH_FRAME_TIMEOUT_MS s.inbox.out
        (by decide) some_ held hb now
      obtain ⟨s₁, first, core₁, rfl⟩ := @step_fed tc k e s b r _ running read fed
      obtain ⟨s', run, core, held''⟩ := ih (by rw [core₁]; exact running) (by simp) held' clean nonzero inTime
      refine ⟨s', ?_, core.trans core₁, ?_⟩
      · rw [proverRun, first]
        dsimp only
        rw [run]
        rfl
      · rw [List.append_cons]
        exact held''

theorem step_frame {w : List UInt8} {started : UInt32} {type : UInt8} {payload : List UInt8}
    (running : s.core.halted = false) (held : Holding w started s.inbox.receiver)
    (legal : legalFrame type payload.length = true) (wire : w = stuff (rawFrame type payload))
    (zero : e.read = .byte 0)
    (inTime : authExpired e.nowMs started AUTH_FRAME_TIMEOUT_MS = false) :
    ∃ out : FrameOut, (out.type = type ∧ out.length = payload.length ∧ out.payload.take out.length = payload) ∧
      (proverStep tc k s e).1.core = (s.core.dispatch tc k e out).1 ∧
      (proverStep tc k s e).2 = (s.core.dispatch tc k e out).2 := by
  have small := legal_length legal
  have delivers : Delivers (authFrameFeed s.inbox.receiver 0 e.nowMs AUTH_FRAME_TIMEOUT_MS s.inbox.out).2
      type payload :=
    feed_encoded (by decide) legal (wire ▸ held) inTime (small.trans s.inbox.room.ge)
  obtain ⟨one, same, length, whole⟩ := delivers
  have taken : s.inbox.take e = ((s.inbox.take e).1, .frame) ∧
      (s.inbox.take e).1.out =
        (authFrameFeed s.inbox.receiver 0 e.nowMs AUTH_FRAME_TIMEOUT_MS s.inbox.out).2.2 := by
    rw [Inbox.take, zero]
    dsimp only
    rw [one]
    exact ⟨rfl, rfl⟩
  refine ⟨_, ⟨same, length, whole⟩, ?_⟩
  rw [← taken.2, proverStep, if_neg (by rw [running]; decide), taken.1]
  constructor <;> rfl

/-- Behind a delimiter a frame in time is handed to the loop whole, and before its end nothing
    happens. -/
theorem run_frame (running : s.core.halted = false) (used : s.inbox.receiver.used = 0)
    (discard : s.inbox.receiver.discard = false) (x : LoopEvent) (idle xs : List LoopEvent) {type : UInt8}
    {payload : List UInt8} (legal : legalFrame type payload.length = true)
    (silent : ∀ e ∈ idle, e.read = .none) (begun : x.read ≠ .none) (clean : ∀ e ∈ x :: xs, e.read ≠ .error)
    (bytes : (x :: xs).filterMap byteOf = stuff (rawFrame type payload)) (ended : e.read = .byte 0)
    (inTime : ∀ y ∈ xs ++ [e], authExpired y.nowMs x.nowMs AUTH_FRAME_TIMEOUT_MS = false) :
    ∃ (y : LoopState) (out : FrameOut),
      (out.type = type ∧ out.length = payload.length ∧ out.payload.take out.length = payload) ∧
      proverRun tc k s (idle ++ (x :: xs) ++ [e]) =
        (y, (idle ++ (x :: xs)).map (fun _ => nothing) ++ [(s.core.dispatch tc k e out).2]) ∧
      y.core = (s.core.dispatch tc k e out).1 := by
  have nonzero : ∀ b ∈ (x :: xs).filterMap byteOf, b ≠ 0 := by
    have small := legal_length legal
    rw [bytes]
    exact stuff_nonzero (by simp [rawFrame]; omega)
  obtain ⟨firstClean, clean⟩ := List.forall_mem_cons.mp clean
  obtain ⟨rest, last⟩ := List.forall_mem_append.mp inTime
  cases read : x.read with
  | error => exact absurd read firstClean
  | none => exact absurd read begun
  | byte b =>
    have present : byteOf x = some b := by rw [byteOf, read]
    rw [List.filterMap_cons, present] at nonzero bytes
    obtain ⟨hb, nonzero⟩ := List.forall_mem_cons.mp nonzero
    obtain ⟨r, fed, held⟩ := @feed_first s.inbox.receiver b x.nowMs AUTH_FRAME_TIMEOUT_MS s.inbox.out (by decide)
      used discard hb
    obtain ⟨s₁, first, core₁, rfl⟩ := @step_fed tc k x s b r _ running read fed
    obtain ⟨s₂, later, core₂, held'⟩ := @run_bytes tc k s₁ _ _ xs (by rw [core₁]; exact running) (by simp) held
      clean nonzero rest
    have same := core₂.trans core₁
    obtain ⟨out, taken, core, effect⟩ := @step_frame tc k e s₂ _ _ _ _ (by rw [same]; exact running) held'
      legal bytes ended (last e (List.mem_singleton.mpr rfl))
    have collected : proverRun tc k s (idle ++ (x :: xs)) = (s₂, (idle ++ (x :: xs)).map fun _ => nothing) := by
      rw [run_append, run_idle running idle silent]
      dsimp only
      rw [proverRun, first]
      dsimp only
      rw [later, List.map_append]
      rfl
    rw [same] at core effect
    refine ⟨(proverStep tc k s₂ e).1, out, taken, ?_, core⟩
    rw [run_append, collected, ← effect]
    rfl

end

/-- Nothing but an authenticated request moves the counter or the flash or is answered. -/
theorem step_authenticated (s : LoopState) (e : LoopEvent)
    (acts : (proverStep tc k s e).1.core.prover.material.counter ≠ s.core.prover.material.counter ∨
      (proverStep tc k s e).1.core.flash ≠ s.core.flash ∨ (proverStep tc k s e).2.written ≠ []) :
    ∃ request msg, (proverStep tc k s e).2.delivered = some request ∧
      simpleParseMsg request = some msg ∧
      cryptoHmacCompute tc s.core.prover.material.kAuth.data (request.take 52) = some msg.hmac := by
  rcases @step_cases tc k s e with ⟨-, silent, core⟩ | ⟨request, delivered, core, effects⟩
  · rw [core, silent] at acts
    rcases acts with h | h | h <;> exact absurd rfl h
  · rcases @serve_cases tc k e request s.core with ⟨-, untouched, silent⟩ | ⟨msg, accepted, -⟩
    · rw [core, effects, untouched, silent] at acts
      rcases acts with h | h | h <;> exact absurd rfl h
    · exact ⟨request, msg, delivered, accepted.parsed, accepted.tag⟩

end

/-- What the requests were decides what the prover does; noise behind a delimiter delivers
    nothing else, and what is delivered is what `auth_frame_feed` returns. -/
theorem noise_insensitive (tc : TinyCrypt) (k : Surroundings) (s : LoopState) :
    (∀ xs ys, deliveredBy (proverRun tc k s xs).2 = deliveredBy (proverRun tc k s ys).2 →
      (proverRun tc k s xs).1.core = (proverRun tc k s ys).1.core ∧
        writtenBy (proverRun tc k s xs).2 = writtenBy (proverRun tc k s ys).2) ∧
    (∀ before z noise last after, z.read = .byte 0 → last.read = .byte 0 →
      deliveredBy (proverRun tc k (proverRun tc k s (before ++ [z])).1 (noise ++ [last])).2 = [] →
      deliveredBy (proverRun tc k s (before ++ [z] ++ (noise ++ [last]) ++ after)).2 =
          deliveredBy (proverRun tc k s (before ++ [z] ++ after)).2 ∧
        (proverRun tc k s (before ++ [z] ++ (noise ++ [last]) ++ after)).1.core =
          (proverRun tc k s (before ++ [z] ++ after)).1.core ∧
        writtenBy (proverRun tc k s (before ++ [z] ++ (noise ++ [last]) ++ after)).2 =
          writtenBy (proverRun tc k s (before ++ [z] ++ after)).2) ∧
    (∀ e, (proverStep tc k s e).1.core.prover.material.counter ≠ s.core.prover.material.counter ∨
        (proverStep tc k s e).1.core.flash ≠ s.core.flash ∨ (proverStep tc k s e).2.written ≠ [] →
      ∃ request msg, (proverStep tc k s e).2.delivered = some request ∧
        simpleParseMsg request = some msg ∧
        cryptoHmacCompute tc s.core.prover.material.kAuth.data (request.take 52) = some msg.hmac) ∧
    ∀ e, (proverStep tc k s e).2.delivered = if s.core.halted then none else s.inbox.request e := by
  refine ⟨fun xs ys same => run_determined same, ?_, fun e acts => step_authenticated s e acts,
    step_request s⟩
  intro before z noise last after zero zero' quiet
  have delivered := inserted_delivered s before noise after z last zero zero' quiet
  exact ⟨delivered, run_determined delivered⟩

def smallOutside : (c : PlatformCall) → c.Reply
  | .load | .random _ => none
  | .saveCounter _ => (0 : ℤ)
  | .nowMs => (7 : UInt32)
  | .enterAtomic => (0 : ℕ)
  | .readRange _ length => .fill length 0
  | .leaveAtomic _ | .ui _ | .error _ | .writeResponse _ => ()

def smallEvent (read : ReadOutcome) : LoopEvent :=
  ⟨read, 7, .fill 33 0, .fill 88 0, 1, true, 0, smallOutside⟩

def smallSurroundings : Surroundings := ⟨h743, [], flashEval 64, fun _ => 0⟩

def smallProver : Prover := ⟨allCallbacks, { AuthMaterial.zero with counter := 7 }, [⟨some 0, 4⟩], true⟩

def smallLoop : LoopState :=
  ⟨⟨smallProver, ({ smallJournal with ready := true } : AuthJournal).moveTo 7 1 32, seedFlash (smallSeed 7),
    false⟩, ⟨.zero, ⟨0, List.replicate 84 0, 0⟩, rfl⟩⟩

def smallRequest : SimpleMsg := signed smallHmac smallProver.material.kAuth 8

def smallReads : List LoopEvent :=
  (stuff (rawFrame AUTH_FRAME_REQUEST (msgBytes smallRequest)) ++ [0]).map fun b => smallEvent (.byte b)

theorem small_saved : ((authJournalSave referenceTinyCrypt smallLoop.core.journal smallRequest.counter).eval
    smallSurroundings.flash smallLoop.core.flash).1.2 = true := by
  have run := save_eval (j := smallLoop.core.journal) (f := smallLoop.core.flash) (small_record 8) rfl (by decide)
  rw [show smallRequest.counter = 8 from rfl,
    show smallSurroundings.flash = flashEval smallLoop.core.journal.blockSize from rfl, run]

theorem small_accepts : Accepts referenceTinyCrypt smallProver (msgBytes smallRequest)
    (Bytes.fill 33 0).data smallRequest :=
  signed_accepts reference_computes rfl (by simp) (show (7 : UInt32) < 8 by decide)

theorem small_measurable : Measurable smallProver.ranges :=
  ⟨List.cons_ne_nil _ _, by simp [smallProver, AttestationRange.valid, UINT_MAX]⟩

theorem small_bytes (bytes : List UInt8) :
    (bytes.map fun b => smallEvent (.byte b)).filterMap byteOf = bytes := by
  rw [List.filterMap_map]
  exact List.filterMap_some

theorem small_inTime (bytes : List UInt8) :
    ∀ y ∈ bytes.map fun b => smallEvent (.byte b),
      authExpired y.nowMs 7 AUTH_FRAME_TIMEOUT_MS = false := by
  intro y hy
  obtain ⟨_, -, rfl⟩ := List.mem_map.mp hy
  change authExpired 7 7 AUTH_FRAME_TIMEOUT_MS = false
  decide

theorem small_served : ∃ x : LoopState × List Effects,
    proverRun referenceTinyCrypt smallSurroundings smallLoop ([smallEvent (.byte 0)] ++ smallReads) = x ∧
    x.1.core.halted = false ∧ deliveredBy x.2 = [msgBytes smallRequest] ∧
    x.1.core.prover.material.counter = 8 ∧ ∃ report, writtenBy x.2 = framesOf (reportBytes report) := by
  obtain ⟨used, discard⟩ := @step_delimiter referenceTinyCrypt smallSurroundings smallLoop
    (smallEvent (.byte 0)) rfl rfl
  obtain ⟨b, rest, frame⟩ : ∃ b rest,
      stuff (rawFrame AUTH_FRAME_REQUEST (msgBytes smallRequest)) = b :: rest := by
    rw [← List.length_pos_iff_exists_cons, length_stuff]
    exact Nat.succ_pos _
  have inTime := small_inTime (rest ++ [0])
  rw [List.map_append] at inTime
  obtain ⟨y, out, ⟨type, -, payload⟩, run, core⟩ := @run_frame referenceTinyCrypt smallSurroundings
    (smallEvent (.byte 0)) (proverStep referenceTinyCrypt smallSurroundings smallLoop (smallEvent (.byte 0))).1
    rfl used discard (smallEvent (.byte b)) [] (rest.map fun b => smallEvent (.byte b)) AUTH_FRAME_REQUEST
    (msgBytes smallRequest) (by rw [length_msgBytes]; decide) (by simp) (by simp [smallEvent])
    (by simp [smallEvent]) ((small_bytes (b :: rest)).trans frame.symm) rfl inTime
  have start : (proverStep referenceTinyCrypt smallSurroundings smallLoop (smallEvent (.byte 0))).2 = nothing ∧
      (proverStep referenceTinyCrypt smallSurroundings smallLoop (smallEvent (.byte 0))).1.core =
        smallLoop.core := ⟨rfl, rfl⟩
  have events : smallReads = [] ++ (smallEvent (.byte b) :: rest.map fun b => smallEvent (.byte b)) ++
      [smallEvent (.byte 0)] := by
    rw [smallReads, frame]
    simp
  have served : smallLoop.core.dispatch referenceTinyCrypt smallSurroundings (smallEvent (.byte 0)) out =
      smallLoop.core.serve referenceTinyCrypt smallSurroundings (smallEvent (.byte 0))
        (msgBytes smallRequest) := by
    rw [ProverCore.dispatch, if_neg (by rw [type]; decide), if_neg (by rw [type]; decide), payload]
  obtain ⟨prover, running, report, written, -⟩ := @serve_accepted referenceTinyCrypt smallSurroundings
    (smallEvent (.byte 0)) (msgBytes smallRequest) _ _ reference_computes smallLoop.core smallRequest
    small_accepts small_measurable small_saved
  have delivered := @serve_delivered referenceTinyCrypt smallSurroundings (smallEvent (.byte 0))
    (msgBytes smallRequest) smallLoop.core
  rw [start.2, served] at run core
  refine ⟨_, rfl, ?_⟩
  rw [List.singleton_append, proverRun, events]
  dsimp only
  rw [run, start.1]
  dsimp only
  rw [core, prover]
  refine ⟨running, ?_, rfl, report, ?_⟩
  · simp [deliveredBy, nothing, delivered, List.filterMap_map, List.filterMap_append]
  · simp [writtenBy, nothing, written, List.flatMap_map]

/-- A read error and a peer's diagnostic in front of a request that is answered. -/
theorem noise_insensitive_small : ∃ quiet noisy : LoopState × List Effects,
    proverRun referenceTinyCrypt smallSurroundings smallLoop ([smallEvent (.byte 0)] ++ smallReads) = quiet ∧
    proverRun referenceTinyCrypt smallSurroundings smallLoop ([smallEvent (.byte 0)] ++
      ([.error, .byte 0, .byte 4, .byte 3, .byte 1, .byte 12].map smallEvent ++ [smallEvent (.byte 0)]) ++
        smallReads) = noisy ∧
    (deliveredBy quiet.2 = [msgBytes smallRequest] ∧ quiet.1.core.prover.material.counter = 8 ∧
      ∃ report, writtenBy quiet.2 = framesOf (reportBytes report)) ∧
    deliveredBy noisy.2 = deliveredBy quiet.2 ∧ noisy.1.core = quiet.1.core ∧
      writtenBy noisy.2 = writtenBy quiet.2 := by
  obtain ⟨-, inserted, -⟩ := noise_insensitive referenceTinyCrypt smallSurroundings smallLoop
  have silent : deliveredBy (proverRun referenceTinyCrypt smallSurroundings
      (proverRun referenceTinyCrypt smallSurroundings smallLoop ([] ++ [smallEvent (.byte 0)])).1
      ([.error, .byte 0, .byte 4, .byte 3, .byte 1, .byte 12].map smallEvent ++ [smallEvent (.byte 0)])).2 =
      [] := rfl
  have same := inserted [] (smallEvent (.byte 0)) _ (smallEvent (.byte 0)) smallReads rfl rfl silent
  rw [List.nil_append] at same
  obtain ⟨quiet, ran, -, served⟩ := small_served
  rw [ran] at same ⊢
  exact ⟨quiet, _, rfl, rfl, served, same⟩

end SimpleAttestation.ProverLoop
