import SimpleAttestation.ProverRuns
import SimpleAttestation.Session
import SimpleAttestation.VerifierCounters

set_option autoImplicit false

/-!
# One verifier, one prover and an adversary who is the network

Any byte string may be delivered at any time; what bounds the adversary is the idealised
HMAC. Both parties run on their durable counters and may lose power inside any call.
-/
namespace SimpleAttestation.Network
open ByteStrings Wire Crypto CallProgram Runs Platform ProverRequest Store VerifierSession
  VerifierRuns Session

inductive NetEvent where
  /-- `verifier_challenge` returned this request. -/
  | challenged (msg : SimpleMsg)
  /-- `prover_handle_request` returned a response with this result to this request. -/
  | answered (msg : SimpleMsg) (result : UInt8)
  /-- `verify` returned PASS (1) or MISMATCH (0) for this outstanding challenge. -/
  | accepted (counter : UInt32) (vs : Bytes 32) (nonce : Bytes 16) (result : UInt8)
  | other

structure NetWorld where
  verifier : Verifier
  prover : Prover
  vDurable : UInt32
  pDurable : UInt32
  /-- The byte strings whose tags are on the network. -/
  released : List (List UInt8)

/-- The idealised HMAC. A valid tag for `s` can be presented only if the tag of `s` is on
    the network. -/
def Unforged (tc : TinyCrypt) (key : Bytes 32) (released : List (List UInt8)) (s : List UInt8)
    (tag : Bytes 32) : Prop :=
  cryptoHmacCompute tc key.data s = some tag → s ∈ released

/-- Bytes the adversary can deliver to the prover. -/
def CanRequest (tc : TinyCrypt) (key : Bytes 32) (released : List (List UInt8))
    (req : List UInt8) : Prop :=
  ∀ msg, simpleParseMsg req = some msg → Unforged tc key released (req.take SIMPLE_MSG_LEN) msg.hmac

/-- Bytes the adversary can deliver to a verifier in state `v`. -/
def CanRespond (tc : TinyCrypt) (key : Bytes 32) (released : List (List UInt8)) (v : Verifier)
    (response : List UInt8) : Prop :=
  ∀ report input, simpleParseReport response = some report →
    simpleReportAuth report.result v.material.counter v.nonce = some input →
    Unforged tc key released input.data report.hmac

def CanDeliver (tc : TinyCrypt) (key : Bytes 32) (w : NetWorld) : VerifierOp → Prop
  | .verify response => CanRespond tc key w.released w.verifier response
  | _ => True

def releases : NetEvent → List (List UInt8)
  | .challenged msg => [msgAuth msg]
  | .answered msg result =>
    match simpleReportAuth result msg.counter msg.nonce with
    | some input => [input.data]
    | none => []
  | _ => []

def verifierEvent (v : Verifier) : Answer → NetEvent
  | .request out len =>
    if len = SIMPLE_REQUEST_LEN then
      match simpleParseMsg (out.take SIMPLE_REQUEST_LEN) with
      | some msg => .challenged msg
      | none => .other
    else .other
  | .result .pass => .accepted v.material.counter v.material.referenceVs v.nonce 1
  | .result .mismatch => .accepted v.material.counter v.material.referenceVs v.nonce 0
  | _ => .other

def proverEvent (req resp : List UInt8) (len : ℕ) : NetEvent :=
  if len = SIMPLE_REPORT_LEN then
    match simpleParseMsg req with
    | some msg => .answered msg (resp.getD 0 0)
    | none => .other
  else .other

def NetWorld.sees (w : NetWorld) (e : NetEvent) : NetWorld :=
  { w with released := w.released ++ releases e }

@[simp] theorem NetWorld.sees_other (w : NetWorld) : w.sees .other = w := by
  unfold NetWorld.sees releases
  rw [List.append_nil]

inductive NetStep (tc : TinyCrypt) (baseV baseP : AuthMaterial) :
    NetWorld → NetEvent → NetWorld → Prop where
  | verifier {w : NetWorld} {op : VerifierOp} {v : Verifier} {answer : Answer} {d : UInt32}
      (can : CanDeliver tc baseV.kAuth w op)
      (h : Exec (registerDevice baseV) (runOp tc w.verifier op) w.vDurable (v, answer) d) :
      NetStep tc baseV baseP w (verifierEvent w.verifier answer)
        ({ w with verifier := v, vDurable := d }.sees (verifierEvent w.verifier answer))
  | verifierReset {w : NetWorld} {op : VerifierOp} {d : UInt32} (can : CanDeliver tc baseV.kAuth w op)
      (h : Cut (registerDevice baseV) (runOp tc w.verifier op) w.vDurable d) :
      NetStep tc baseV baseP w .other { w with verifier := .zero, vDurable := d }
  | proverInit {w : NetWorld} {platform : AuthPlatform} {ranges : List AttestationRange}
      {p : Prover} {ok : Bool} {d : UInt32}
      (h : Exec (registerDevice baseP) (proverInit w.prover platform ranges) w.pDurable (p, ok) d) :
      NetStep tc baseV baseP w .other { w with prover := p, pDurable := d }
  | proverInitReset {w : NetWorld} {platform : AuthPlatform} {ranges : List AttestationRange}
      {d : UInt32}
      (h : Cut (registerDevice baseP) (proverInit w.prover platform ranges) w.pDurable d) :
      NetStep tc baseV baseP w .other { w with prover := .zero, pDurable := d }
  | prover {w : NetWorld} {req resp resp' : List UInt8} {len : ℕ} {p : Prover} {d : UInt32}
      (can : CanRequest tc baseV.kAuth w.released req)
      (h : Exec (registerDevice baseP) (proverHandleRequest tc w.prover req resp) w.pDurable
        (p, resp', len) d) :
      NetStep tc baseV baseP w (proverEvent req resp' len)
        ({ w with prover := p, pDurable := d }.sees (proverEvent req resp' len))
  | proverReset {w : NetWorld} {req resp : List UInt8} {d : UInt32}
      (can : CanRequest tc baseV.kAuth w.released req)
      (h : Cut (registerDevice baseP) (proverHandleRequest tc w.prover req resp) w.pDurable d) :
      NetStep tc baseV baseP w .other { w with prover := .zero, pDurable := d }

def NetWorld.start (vDurable pDurable : UInt32) : NetWorld := ⟨.zero, .zero, vDurable, pDurable, []⟩

/-- The prover answers a request of the verifier, and answers its counter once. -/
def AnswerOk (pre : List NetEvent) (msg : SimpleMsg) : Prop :=
  .challenged msg ∈ pre ∧ ∀ m r, .answered m r ∈ pre → m.counter ≠ msg.counter

/-- The newest challenge of the verifier has this counter, VS and nonce; since it was issued
    the prover answered it with this result; and it was not accepted before. -/
def AcceptOk (pre : List NetEvent) (counter : UInt32) (vs : Bytes 32) (nonce : Bytes 16)
    (result : UInt8) : Prop :=
  ∃ before msg after, pre = before ++ .challenged msg :: after ∧
    (∀ m, .challenged m ∉ after) ∧ msg.counter = counter ∧ msg.vs = vs ∧ msg.nonce = nonce ∧
    .answered msg result ∈ after ∧ ∀ v n r, .accepted counter v n r ∉ pre

def EventOk (pre : List NetEvent) : NetEvent → Prop
  | .answered msg _ => AnswerOk pre msg
  | .accepted counter vs nonce result => AcceptOk pre counter vs nonce result
  | _ => True

/-- Every event is justified by those before it. -/
def Agreement (es : List NetEvent) : Prop :=
  ∀ pre e post, es = pre ++ e :: post → EventOk pre e

theorem agreement_snoc {es : List NetEvent} {e : NetEvent} (h : Agreement es) (ok : EventOk es e) :
    Agreement (es ++ [e]) := by
  intro pre f post same
  rcases List.eq_nil_or_concat post with rfl | ⟨post, g, rfl⟩
  · obtain ⟨rfl, last⟩ := List.append_inj' same rfl
    obtain rfl : e = f := by simpa using last
    exact ok
  · rw [List.concat_eq_append, ← List.cons_append, ← List.append_assoc] at same
    obtain ⟨rfl, -⟩ := List.append_inj' same rfl
    exact h pre f post rfl

theorem event_issued (v : Verifier) (msg : SimpleMsg) (rest : List UInt8) :
    verifierEvent v (.request (msgBytes msg ++ rest) 84) = .challenged msg := by
  have bytes : (msgBytes msg ++ rest).take SIMPLE_REQUEST_LEN = msgBytes msg :=
    List.take_left' (length_msgBytes msg)
  rw [verifierEvent, if_pos rfl, bytes, parseMsg_msgBytes]

theorem event_answered {req : List UInt8} {msg : SimpleMsg} (report : SimpleReport)
    (rest : List UInt8) (parsed : simpleParseMsg req = some msg) :
    proverEvent req (reportBytes report ++ rest) 33 = .answered msg report.result := by
  rw [proverEvent, if_pos rfl, parsed]
  rfl

theorem event_verdict (v : Verifier) {r : UInt8} (h : r ≤ 1) :
    verifierEvent v (.result (verdict r)) =
      .accepted v.material.counter v.material.referenceVs v.nonce r := by
  have bin : r = 0 ∨ r = 1 := by
    rw [UInt8.le_iff_toNat_le] at h
    rw [← UInt8.toNat_inj, ← UInt8.toNat_inj]
    change r.toNat = 0 ∨ r.toNat = 1
    change r.toNat ≤ 1 at h
    omega
  rcases bin with rfl | rfl <;> rfl

section
variable {tc : TinyCrypt} {baseV baseP : AuthMaterial}

def NetWorld.up (baseV baseP : AuthMaterial) (ranges : List AttestationRange) (timeoutMs c : UInt32) :
    NetWorld :=
  ⟨⟨allCallbacks, { baseV with counter := c }, .fill 16 0, 0, timeoutMs, true, false⟩,
    ⟨allCallbacks, { baseP with counter := c }, ranges, true⟩, c, c, []⟩

theorem up_reached (ranges : List AttestationRange) (timeoutMs c : UInt32) (some_ : ranges ≠ [])
    (timeout : initAccepts allCallbacks timeoutMs = true) :
    Run (NetStep tc baseV baseP) (.start c c) [.other, .other] (.up baseV baseP ranges timeoutMs c) := by
  have verifier : Exec (registerDevice baseV) (runOp tc .zero (.init allCallbacks timeoutMs)) c
      ((NetWorld.up baseV baseP ranges timeoutMs c).verifier, .loaded true) c := by
    simp only [runOp, initVerifier, timeout, Bool.not_true, Bool.false_eq_true, if_false]
    exact ⟨some { baseV with counter := c }, c, ⟨rfl, Or.inr rfl⟩, (), c, rfl, rfl, rfl⟩
  have prover : Exec (registerDevice baseP) (proverInit .zero allCallbacks ranges) c
      ((NetWorld.up baseV baseP ranges timeoutMs c).prover, true) c := by
    have given : ranges.isEmpty = false := List.isEmpty_eq_false_iff.mpr some_
    simp only [proverInit, given]
    exact ⟨some { baseP with counter := c }, c, ⟨rfl, Or.inr rfl⟩, (), c, rfl, rfl, rfl⟩
  have first : NetStep tc baseV baseP (.start c c) .other { NetWorld.start c c with
      verifier := (NetWorld.up baseV baseP ranges timeoutMs c).verifier } := by
    have step := @NetStep.verifier tc baseV baseP (.start c c) (.init allCallbacks timeoutMs) _ _ _
      trivial verifier
    have event : verifierEvent (NetWorld.start c c).verifier (.loaded true) = .other := rfl
    rw [event, NetWorld.sees_other] at step
    exact step
  exact .next (.next (.start _) first) (.proverInit prover)

theorem calm_register {base : AuthMaterial} {memory : ℕ → UInt8} {inTime : UInt32 → Prop}
    (c : PlatformCall) (s : UInt32) (r : c.Reply) (t : UInt32)
    (h : (calmDevice base memory inTime).answers c s r t) :
    (registerDevice base).answers c s r t := by
  cases c with
  | load => exact ⟨h.2, Or.inr h.1⟩
  | saveCounter c => exact ⟨fun _ => h.2, Or.inr h.2⟩
  | _ => exact h.2

theorem session_run {sha256 : List UInt8 → Bytes 32} {hmac : List UInt8 → List UInt8 → Bytes 32}
    (computes : tc.Computes sha256 hmac) (w : NetWorld) (issue : CanIssue w.verifier w.vDurable)
    (answer : CanAnswer w.verifier w.prover w.pDurable) : ∃ msg r w', Run (NetStep tc baseV baseP) w
      [.challenged msg, .answered msg r, .accepted msg.counter msg.vs msg.nonce r] w' := by
  have clock : ∃ _ : UInt32, True := ⟨0, trivial⟩
  have challenge := @calm_challenge tc _ _ baseV (fun _ => 0) (fun _ => True) _ _ computes
    (List.replicate 84 0) issue (by simp)
  obtain ⟨⟨_, dV, issued⟩, spec⟩ := calm_ends clock challenge
  obtain ⟨msg, now, issues, rfl, rfl⟩ := spec _ _ issued
  have accepted := @issues_accepts tc _ _ _ _ (List.replicate 33 0) _ answer issues (by simp)
  have handle := @calm_handle tc _ _ baseP (fun _ => 0) (fun _ => True) _ _ computes _ _ _ accepted
    answer.follows answer.measurable
  obtain ⟨⟨_, dP, handled⟩, spec⟩ := calm_ends clock handle
  obtain ⟨r, tag, measured, tagged, rfl, rfl⟩ := spec _ _ handled
  have small : r ≤ 1 := measured ▸ resultOf_le _ msg
  have genuine : Genuine tc (w.verifier.begin msg now) _ r :=
    response_genuine answer.shared small tagged
  have verdicts := @calm_verify tc baseV (fun _ => 0) (w.verifier.begin msg now) msg.counter _ _
    ⟨issue.ready, rfl⟩ genuine
  obtain ⟨⟨_, dV, verified⟩, spec⟩ := calm_ends ⟨now, early_begin msg now issue.timeout⟩ verdicts
  obtain ⟨rfl, rfl⟩ := spec _ _ verified
  -- The three calls, as the adversary delivers them.
  have first := @NetStep.verifier tc baseV baseP w (.challenge (List.replicate 84 0)) _ _ _ trivial
    ((exec_bind _ _ _ _ _).mpr ⟨_, _, exec_mono calm_register _ _ _ _ issued, rfl, rfl⟩)
  rw [event_issued] at first
  have canRequest : CanRequest tc baseV.kAuth (w.released ++ [msgAuth msg]) (msgBytes msg) :=
    fun _ _ _ => List.mem_append_right _ (List.mem_singleton.mpr (take_msgBytes msg))
  have second := @NetStep.prover tc baseV baseP (({ w with
      verifier := w.verifier.begin msg now, vDurable := msg.counter } : NetWorld).sees
    (.challenged msg)) (msgBytes msg) _ _ _ _ _ canRequest (exec_mono calm_register _ _ _ _ handled)
  rw [event_answered _ _ (parseMsg_msgBytes msg)] at second
  have canRespond : CanRespond tc baseV.kAuth ((w.released ++ [msgAuth msg]) ++
      releases (.answered msg r)) (w.verifier.begin msg now) (reportBytes ⟨r, tag⟩) := by
    intro report input parsed auth _
    have bytes := (parseReport_eq_some.mp parsed).1
    obtain rfl : r = report.result := (List.cons.inj bytes).1
    refine List.mem_append_right _ ?_
    change simpleReportAuth report.result msg.counter msg.nonce = some input at auth
    rw [releases, auth]
    exact List.mem_singleton.mpr rfl
  have third := @NetStep.verifier tc baseV baseP ((({ w with
      verifier := w.verifier.begin msg now, vDurable := msg.counter,
      prover := w.prover.advance msg.counter, pDurable := msg.counter } : NetWorld).sees
    (.challenged msg)).sees (.answered msg r)) (.verify (reportBytes ⟨r, tag⟩)) _ _ _ canRespond
    ((exec_bind _ _ _ _ _).mpr ⟨_, _, exec_mono calm_register _ _ _ _ verified, rfl, rfl⟩)
  have event := event_verdict (w.verifier.begin msg now) small
  change _ = NetEvent.accepted msg.counter w.verifier.material.referenceVs msg.nonce r at event
  rw [← issues.vs] at event
  change NetStep tc baseV baseP _ (verifierEvent (w.verifier.begin msg now) (.result (verdict r))) _
    at third
  rw [event] at third
  exact ⟨msg, r, _, .next (.next (.next (.start w) first) second) third⟩

end

end SimpleAttestation.Network
