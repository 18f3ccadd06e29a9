import SimpleAttestation.ProverRequest
import SimpleAttestation.VerifierSession

set_option autoImplicit false

/-!
# One undisturbed session
-/
namespace SimpleAttestation.Session
open ByteStrings Wire Crypto CallProgram Platform ProverRequest VerifierSession

def readMemory (memory : ℕ → UInt8) (start length : ℕ) : Bytes length :=
  ⟨(List.range length).map fun i => memory (start + i), by simp⟩

def readRange (memory : ℕ → UInt8) (r : AttestationRange) : List UInt8 :=
  (readMemory memory (r.start.getD 0) r.length).data

def measuredBytes (memory : ℕ → UInt8) (ranges : List AttestationRange) : List UInt8 :=
  (ranges.map (readRange memory)).flatten

def Measurable (ranges : List AttestationRange) : Prop :=
  ranges ≠ [] ∧ ∀ r ∈ ranges, r.valid = true

def calmReply (memory : ℕ → UInt8) (inTime : UInt32 → Prop) : (c : PlatformCall) → c.Reply → Prop
  | .random _, r => r ≠ none
  | .nowMs, now => inTime now
  | .readRange start length, bytes => bytes = readMemory memory start length
  | _, _ => True

/-- Neither a load nor a save fails. The state is the durable counter. -/
def calmDevice (base : AuthMaterial) (memory : ℕ → UInt8) (inTime : UInt32 → Prop) :
    Device PlatformCall PlatformCall.Reply UInt32 where
  answers
    | .load, s, r, t => r = some { base with counter := s } ∧ t = s
    | .saveCounter c, _, r, t => 0 < r ∧ t = c
    | c, s, r, t => calmReply memory inTime c r ∧ t = s
  tears _ _ _ := False

def Forward : PlatformCall → UInt32 → Prop
  | .saveCounter c, s => s < c
  | _, _ => True

section
variable {base : AuthMaterial} {memory : ℕ → UInt8} {inTime : UInt32 → Prop}

theorem calm_quiet : Quiet (calmDevice base memory inTime) := by
  intro c s hc
  refine ⟨fun _ h => h.elim, fun r t h => ?_⟩
  cases c with
  | load | saveCounter _ | nowMs => cases hc
  | _ => exact h.2

theorem calmReply_exists (clock : ∃ now, inTime now) (c : PlatformCall) :
    ∃ r, calmReply memory inTime c r := by
  obtain ⟨now, hnow⟩ := clock
  cases c with
  | load => exact ⟨none, trivial⟩
  | saveCounter c => exact ⟨(0 : ℤ), trivial⟩
  | random n => exact ⟨some (.fill n 0), by simp [calmReply]⟩
  | nowMs => exact ⟨now, hnow⟩
  | enterAtomic => exact ⟨(0 : ℕ), trivial⟩
  | readRange start length => exact ⟨_, rfl⟩
  | leaveAtomic _ | ui _ | error _ | writeResponse _ => exact ⟨(), trivial⟩

theorem calm_live (clock : ∃ now, inTime now) (c : PlatformCall) (s : UInt32) :
    ∃ r t, (calmDevice base memory inTime).answers c s r t := by
  obtain ⟨r, hr⟩ := @calmReply_exists memory inTime clock c
  cases c with
  | load => exact ⟨some { base with counter := s }, s, rfl, rfl⟩
  | saveCounter c => exact ⟨(1 : ℤ), c, Int.one_pos, rfl⟩
  | _ => exact ⟨r, s, hr, rfl⟩

theorem forward_quiet (c : PlatformCall) (s : UInt32) (h : c.quiet = true) : Forward c s := by
  cases c with
  | saveCounter _ => cases h
  | _ => trivial

theorem calm_clock : ClockKeeps (calmDevice base memory inTime) Forward (fun _ => True) :=
  fun _ _ => ⟨trivial, fun _ _ => trivial, fun _ _ _ => trivial⟩

theorem calm_reads (start length : ℕ) (s : UInt32) (r : Bytes length) (t : UInt32)
    (h : (calmDevice base memory inTime).answers (.readRange start length) s r t) :
    r = readMemory memory start length := h.1

end

section
variable {tc : TinyCrypt} {sha256 : List UInt8 → Bytes 32} {hmac : List UInt8 → List UInt8 → Bytes 32}
  {σ : Type} {dev : Device PlatformCall PlatformCall.Reply σ} {G : PlatformCall → σ → Prop}
  {K : σ → Prop} {memory : ℕ → UInt8}

def ReadsMemory (dev : Device PlatformCall PlatformCall.Reply σ) (memory : ℕ → UInt8) : Prop :=
  ∀ a n s r t, dev.answers (.readRange a n) s r t → r = readMemory memory a n

theorem safe_updates (hq : Quiet dev) (hmem : ReadsMemory dev memory) (s : σ) (hK : K s)
    (hG : ∀ c, c.quiet = true → G c s) (h : tc.HmacState) (ranges : List AttestationRange) :
    Safe dev G K (updateRanges tc h ranges) (fun r t => t = s ∧
      r = (ranges.map (readRange memory)).foldlM tc.tcHmacUpdate h >>= tc.tcHmacFinal) s := by
  induction ranges generalizing h with
  | nil => exact ⟨hK, rfl, rfl⟩
  | cons r rest ih =>
    refine safe_quiet _ rfl _ _ s hq hK (hG _ rfl) fun bytes hbytes => ?_
    obtain rfl := hmem _ _ _ _ _ hbytes
    have same : (readMemory memory (r.start.getD 0) r.length).data = readRange memory r := rfl
    rw [List.map_cons, List.foldlM_cons, same]
    cases tc.tcHmacUpdate h (readRange memory r) with
    | none => exact ⟨hK, rfl, rfl⟩
    | some h => exact ih h

theorem key_ne_nil (key : Bytes 32) : key.data ≠ [] := by
  intro e
  have len := key.length_data
  rw [e] at len
  cases len

theorem safe_measurement (computes : tc.Computes sha256 hmac) (hq : Quiet dev)
    (hmem : ReadsMemory dev memory) (s : σ) (hK : K s) (hG : ∀ c, c.quiet = true → G c s)
    (key : Bytes 32) {ranges : List AttestationRange} (ok : Measurable ranges) :
    Safe dev G K (attestationComputeValidState tc key ranges)
      (fun r t => t = s ∧ r = some (hmac key.data (measuredBytes memory ranges))) s := by
  obtain ⟨some_, valid⟩ := ok
  have accepted : ¬ (ranges.isEmpty || !ranges.all AttestationRange.valid) = true := by
    simpa [some_] using valid
  have chunks : ∀ c ∈ ranges.map (readRange memory), c ≠ [] ∧ c.length ≤ UINT_MAX := by
    intro c hc
    obtain ⟨r, hr, rfl⟩ := List.mem_map.mp hc
    have ok := valid r hr
    simp only [AttestationRange.valid, Bool.and_eq_true, bne_iff_ne, decide_eq_true_eq] at ok
    have len : (readRange memory r).length = r.length := Bytes.length_data _
    refine ⟨fun e => ?_, by rw [len]; exact ok.2⟩
    rw [e] at len
    exact ok.1.2 len.symm
  have total := computes.hmac_updates key.data _ (key_ne_nil key) (by rw [key.length_data]; decide)
    chunks
  rw [← bind_assoc] at total
  unfold attestationComputeValidState
  rw [if_neg accepted]
  change (tc.tcHmacSetKey tc.hmacZero key.data).bind tc.tcHmacInit >>= _ = _ at total
  cases start : (tc.tcHmacSetKey tc.hmacZero key.data).bind tc.tcHmacInit with
  | none =>
    rw [start] at total
    cases total
  | some h =>
    rw [start] at total
    refine safe_post ?_ (safe_updates hq hmem s hK hG h ranges)
    rintro r t ⟨same, rfl⟩
    exact ⟨same, total⟩

end

section
variable {tc : TinyCrypt} {sha256 : List UInt8 → Bytes 32} {hmac : List UInt8 → List UInt8 → Bytes 32}
  {base : AuthMaterial} {memory : ℕ → UInt8} {inTime : UInt32 → Prop} {v : Verifier} {p : Prover}
  {d : UInt32}

theorem calm_ends {α : Type} {prog : PlatformProg α} {Q : α → UInt32 → Prop}
    (clock : ∃ now, inTime now)
    (h : Safe (calmDevice base memory inTime) Forward (fun _ => True) prog Q d) :
    Ends (calmDevice base memory inTime) prog d Q :=
  safe_ends (fun c s _ => calm_live clock c s) prog Q d h

structure CanIssue (v : Verifier) (d : UInt32) : Prop where
  ready : v.ready = true
  idle : v.outstanding = false
  below : v.material.counter ≠ UINT32_MAX
  follows : v.material.counter = d
  timeout : v.timeoutMs ≠ 0

theorem calm_challenge (computes : tc.Computes sha256 hmac) {out : List UInt8} (can : CanIssue v d)
    (room : 84 ≤ out.length) :
    Safe (calmDevice base memory inTime) Forward (fun _ => True) (verifierChallenge tc v out)
      (fun x t => ∃ msg now, Issues tc v out msg ∧ t = msg.counter ∧
        x = (v.begin msg now, msgBytes msg ++ out.drop 84, 84)) d := by
  refine safe_post ?_
    (safe_challenge tc v out d calm_quiet trivial forward_quiet calm_clock fun msg issues => ?_)
  · intro x t out
    cases out with
    | refused _ h =>
      rcases h with h | h | h | h | h | ⟨msg, h⟩
      · rw [can.ready] at h
        cases h
      · rw [can.idle] at h
        cases h
      · omega
      · exact absurd h can.below
      · exact absurd rfl h.1
      · rw [hmacCompute_bytes computes _ (by simp; decide)] at h
        cases h
    | uncommitted _ _ _ commit failed => exact absurd commit.1 (Int.not_lt.mpr failed)
    | @issued msg saved now u t issues _ commit _ clock =>
      exact ⟨msg, now, issues, clock.2.trans commit.2, rfl⟩
  · have fresh : d < msg.counter := by
      rw [issues.counter, ← can.follows]
      exact lt_add_one issues.below
    exact ⟨fresh, fun _ _ => trivial, fun _ _ _ => trivial⟩

theorem calm_handle (computes : tc.Computes sha256 hmac) {req resp : List UInt8} {msg : SimpleMsg}
    (accepted : Accepts tc p req resp msg) (follows : p.material.counter = d)
    (ok : Measurable p.ranges) :
    Safe (calmDevice base memory inTime) Forward (fun _ => True) (proverHandleRequest tc p req resp)
      (fun x t => ∃ result tag,
        result = resultOf (hmac p.material.kAttest.data (measuredBytes memory p.ranges)) msg ∧
        responseTag tc p.material.kAuth result msg = some tag ∧ t = msg.counter ∧
        x = (p.advance msg.counter, reportBytes ⟨result, tag⟩ ++ resp.drop 33, 33)) d := by
  have only : ∀ {m}, Accepts tc p req resp m → m = msg := fun h =>
    Option.some.inj (h.parsed.symm.trans accepted.parsed)
  refine safe_post ?_
    (safe_handleRequest tc (· = some (hmac p.material.kAttest.data (measuredBytes memory p.ranges))) p
      req resp d calm_quiet trivial forward_quiet fun m h => ?_)
  · intro x t out
    cases out with
    | refused none => exact absurd accepted (none msg)
    | uncommitted _ commit failed => exact absurd commit.1 (Int.not_lt.mpr failed)
    | silent _ _ _ failed =>
      rcases failed with h | ⟨vs, -, h⟩
      · cases h
      · obtain ⟨input, auth, -⟩ := reportAuth_eq _ _ (resultOf_le vs _)
        rw [responseTag, auth, Option.bind_some, hmacCompute_bytes computes _ (by simp; decide)] at h
        cases h
    | @answered m saved u vs tag h commit _ measured tagged =>
      obtain rfl := only h
      obtain rfl := Option.some.inj measured
      exact ⟨_, tag, rfl, tagged, commit.2, rfl⟩
  · refine ⟨?_, fun _ _ => trivial, fun _ t _ => ⟨trivial, safe_measurement computes calm_quiet
      calm_reads t trivial (forward_quiet · t) _ ok⟩⟩
    change d < m.counter
    rw [← follows]
    exact h.fresh

theorem calm_verify {response : List UInt8} {result : UInt8}
    (open_ : v.ready = true ∧ v.outstanding = true) (genuine : Genuine tc v response result) :
    Safe (calmDevice base memory v.early) Forward (fun _ => True) (verify tc v response)
      (fun x t => x = (verifierCancel v, verdict result) ∧ t = d) d := by
  refine safe_post ?_
    (safe_verify tc v response d calm_quiet trivial forward_quiet calm_clock)
  intro x t out
  cases out with
  | closed h => rcases h with h | h <;> simp [h] at open_
  | expired _ clock late => exact absurd clock.1 late
  | forged _ _ _ none => exact absurd genuine (none result)
  | overtaken _ _ _ _ clock late => exact absurd clock.1 late
  | accepted _ clock _ h clock' =>
    obtain rfl := genuine_unique h genuine
    exact ⟨rfl, clock'.2.trans clock.2⟩

/-- The request delivered intact, then the response, before the deadline. Whatever the RNG and
    the clocks answer, the verdict satisfies `Q`. -/
def Undisturbed (tc : TinyCrypt) (baseV baseP : AuthMaterial) (memory : ℕ → UInt8) (v : Verifier)
    (p : Prover) (dV dP : UInt32) (out resp : List UInt8) (Q : VerifyResult → Prop) : Prop :=
  Ends (calmDevice baseV memory fun _ => True) (verifierChallenge tc v out) dV fun x dV' =>
    x.2.2 = SIMPLE_REQUEST_LEN ∧
    Ends (calmDevice baseP memory fun _ => True)
      (proverHandleRequest tc p (x.2.1.take SIMPLE_REQUEST_LEN) resp) dP fun y _ =>
      y.2.2 = SIMPLE_REPORT_LEN ∧
      Ends (calmDevice baseV memory x.1.early) (verify tc x.1 (y.2.1.take SIMPLE_REPORT_LEN)) dV'
        fun z _ => Q z.2

structure CanAnswer (v : Verifier) (p : Prover) (d : UInt32) : Prop where
  ready : p.ready = true
  follows : p.material.counter = d
  shared : p.material.kAuth = v.material.kAuth
  behind : p.material.counter ≤ v.material.counter
  measurable : Measurable p.ranges

variable {dV dP : UInt32}

theorem issues_accepts {out resp : List UInt8} {msg : SimpleMsg} (can : CanAnswer v p d)
    (issues : Issues tc v out msg) (room : 33 ≤ resp.length) :
    Accepts tc p (msgBytes msg) resp msg := by
  refine ⟨can.ready, room, parseMsg_msgBytes msg, ?_, ?_⟩
  · rw [issues.counter]
    exact UInt32.lt_of_le_of_lt can.behind (lt_add_one issues.below)
  · rw [can.shared, take_msgBytes]
    exact issues.tag

theorem response_genuine {msg : SimpleMsg} {now : UInt32} {result : UInt8} {tag : Bytes 32}
    (shared : p.material.kAuth = v.material.kAuth) (small : result ≤ 1)
    (tagged : responseTag tc p.material.kAuth result msg = some tag) :
    Genuine tc (v.begin msg now) (reportBytes ⟨result, tag⟩) result := by
  obtain ⟨input, auth, computed⟩ := Option.bind_eq_some_iff.mp tagged
  rw [shared] at computed
  exact ⟨small, input, tag, auth, computed, rfl⟩

theorem early_begin (msg : SimpleMsg) (now : UInt32) (h : v.timeoutMs ≠ 0) :
    (v.begin msg now).early now := by
  have pos : ¬ v.timeoutMs ≤ 0 := by
    rw [UInt32.le_iff_toNat_le]
    intro le
    exact h (UInt32.toNat_inj.mp (Nat.le_zero.mp le))
  change decide (v.timeoutMs ≤ now - now) = false
  rw [UInt32.sub_self, decide_eq_false_iff_not]
  exact pos

def sessionVerdict (digest reference : Bytes 32) : VerifyResult :=
  if digest = reference then .pass else .mismatch

theorem verdict_result {out : List UInt8} {msg : SimpleMsg} (issues : Issues tc v out msg)
    (digest : Bytes 32) :
    verdict (resultOf digest msg) = sessionVerdict digest v.material.referenceVs := by
  rw [resultOf, issues.vs, verdict, sessionVerdict]
  split <;> rfl

theorem session_ends (computes : tc.Computes sha256 hmac) {baseV baseP : AuthMaterial}
    {out resp : List UInt8} (issue : CanIssue v dV) (answer : CanAnswer v p dP)
    (room : 84 ≤ out.length) (room' : 33 ≤ resp.length) :
    Undisturbed tc baseV baseP memory v p dV dP out resp (· = sessionVerdict
      (hmac p.material.kAttest.data (measuredBytes memory p.ranges)) v.material.referenceVs) := by
  have clock : ∃ _ : UInt32, True := ⟨0, trivial⟩
  refine ends_mono (calm_ends clock (calm_challenge computes issue room)) ?_
  rintro _ dV' ⟨msg, now, issues, -, rfl⟩
  refine ⟨rfl, ?_⟩
  rw [List.take_left' (length_msgBytes msg)]
  have accepted := issues_accepts answer issues room'
  refine ends_mono (calm_ends clock (calm_handle computes accepted answer.follows answer.measurable)) ?_
  rintro _ dP' ⟨result, tag, measured, tagged, -, rfl⟩
  refine ⟨rfl, ?_⟩
  rw [List.take_left' (length_reportBytes _)]
  have small : result ≤ 1 := measured ▸ resultOf_le _ msg
  have genuine : Genuine tc (v.begin msg now) _ result :=
    response_genuine answer.shared small tagged
  refine ends_mono (calm_ends ⟨now, early_begin msg now issue.timeout⟩
    (calm_verify ⟨issue.ready, rfl⟩ genuine)) ?_
  rintro _ _ ⟨rfl, -⟩
  change verdict result = _
  rw [measured]
  exact verdict_result issues _

end

end SimpleAttestation.Session
