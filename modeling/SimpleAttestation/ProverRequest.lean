import SimpleAttestation.Platform

set_option autoImplicit false

/-!
# The prover (attestation.c, prover.c)
-/
namespace SimpleAttestation.ProverRequest
open ByteStrings Wire Crypto CallProgram Platform

/-- `start` is an address, `none` the null pointer. -/
structure AttestationRange where
  start : Option ℕ
  length : ℕ
deriving DecidableEq

def AttestationRange.valid (r : AttestationRange) : Bool :=
  r.start.isSome && r.length != 0 && decide (r.length ≤ UINT_MAX)

/-- `tc_hmac_update` over the ranges and `tc_hmac_final`; a failed update ends the loop. -/
def updateRanges (tc : TinyCrypt) (h : tc.HmacState) :
    List AttestationRange → PlatformProg (Option (Bytes 32))
  | [] => pure (tc.tcHmacFinal h)
  | r :: rest => do
    let bytes ← Prog.ask (PlatformCall.readRange (r.start.getD 0) r.length)
    match tc.tcHmacUpdate h bytes.data with
    | none => pure none
    | some h => updateRanges tc h rest

def attestationComputeValidState (tc : TinyCrypt) (key : Bytes 32)
    (ranges : List AttestationRange) : PlatformProg (Option (Bytes 32)) :=
  if ranges.isEmpty || !ranges.all AttestationRange.valid then pure none
  else match (tc.tcHmacSetKey tc.hmacZero key.data).bind tc.tcHmacInit with
    | none => pure none
    | some h => updateRanges tc h ranges

structure Prover where
  platform : AuthPlatform
  material : AuthMaterial
  ranges : List AttestationRange
  ready : Bool

/-- The static object before its first initialisation. -/
def Prover.zero : Prover :=
  ⟨⟨false, false, false, false, false, false, false, false⟩, .zero, [], false⟩

def proverInit (p : Prover) (platform : AuthPlatform) (ranges : List AttestationRange) :
    PlatformProg (Prover × Bool) :=
  if !platform.load || !platform.saveCounter || !platform.enterAtomic ||
      !platform.leaveAtomic || ranges.isEmpty then pure (p, false)
  else do
    let loaded ← Prog.ask PlatformCall.load
    authLoaded platform loaded.isSome
    pure (⟨platform, loaded.getD .zero, ranges, loaded.isSome⟩, loaded.isSome)

/-- What the code before the `done:` label leaves: the prover, the caller's buffer, the
    length to return, and what to report. -/
structure Handled where
  prover : Prover
  resp : List UInt8
  len : ℕ
  phase : AuthPhase
  error : ℕ

def Prover.advance (p : Prover) (counter : UInt32) : Prover :=
  { p with material := { p.material with counter := counter } }

/-- From the commit that answered `saved` to `done:`. -/
def answerRequest (tc : TinyCrypt) (p : Prover) (msg : SimpleMsg) (resp : List UInt8)
    (saved : ℤ) : PlatformProg Handled :=
  if saved ≤ 0 then pure ⟨{ p with ready := false }, resp, 0, .rejected, saveError saved⟩
  else do
    let p := p.advance msg.counter
    authUi p.platform .measuring
    let measured ← attestationComputeValidState tc p.material.kAttest p.ranges
    match measured with
    | none => pure ⟨p, resp, 0, .rejected, AuthError.measurement.code⟩
    | some vs =>
      let result : UInt8 := if simpleCtCompare vs.data msg.vs.data 32 then 1 else 0
      match (simpleReportAuth result msg.counter msg.nonce).bind fun input =>
          cryptoHmacCompute tc p.material.kAuth.data input.data with
      | none => pure ⟨p, resp, 0, .rejected, AuthError.response.code⟩
      | some hmac =>
        let (resp', len) := simpleSerializeReport ⟨result, hmac⟩ resp
        if len = 0 then pure ⟨p, resp', 0, .rejected, AuthError.response.code⟩
        else do
          Prog.ask (PlatformCall.writeResponse (resp'.take len))
          pure ⟨p, resp', len, if result = 0 then .mismatch else .pass, AuthError.none.code⟩

def processRequest (tc : TinyCrypt) (p : Prover) (req resp : List UInt8) : PlatformProg Handled :=
  match simpleParseMsg req with
  | none => pure ⟨p, resp, 0, .rejected, AuthError.frame.code⟩
  | some msg =>
    if msg.counter ≤ p.material.counter then
      pure ⟨p, resp, 0, .rejected, AuthError.staleCounter.code⟩
    else if !cryptoHmacVerify tc p.material.kAuth.data (req.take SIMPLE_MSG_LEN) msg.hmac then
      pure ⟨p, resp, 0, .rejected, AuthError.requestAuth.code⟩
    else do
      let saved ← Prog.ask (PlatformCall.saveCounter msg.counter)
      answerRequest tc p msg resp saved

def reportHandled (p : AuthPlatform) (h : Handled) : PlatformProg Unit :=
  if h.error ≠ 0 then authError p h.error else authUi p h.phase

/-- The capacity `resp_max` is the length of the caller's buffer. -/
def proverHandleRequest (tc : TinyCrypt) (p : Prover) (req resp : List UInt8) :
    PlatformProg (Prover × List UInt8 × ℕ) :=
  if !p.ready || decide (resp.length < SIMPLE_REPORT_LEN) then pure (p, resp, 0)
  else if req.length ≠ SIMPLE_REQUEST_LEN then do
    authError p.platform AuthError.requestLength.code
    pure (p, resp, 0)
  else do
    authUi p.platform .request
    let previous ← Prog.ask PlatformCall.enterAtomic
    let h ← processRequest tc p req resp
    Prog.ask (PlatformCall.leaveAtomic previous)
    reportHandled p.platform h
    pure (h.prover, h.resp, h.len)

/-- The request the prover commits to: fresh, well formed and authenticated. -/
structure Accepts (tc : TinyCrypt) (p : Prover) (req resp : List UInt8) (msg : SimpleMsg) :
    Prop where
  ready : p.ready = true
  room : 33 ≤ resp.length
  parsed : simpleParseMsg req = some msg
  fresh : p.material.counter < msg.counter
  tag : cryptoHmacCompute tc p.material.kAuth.data (req.take 52) = some msg.hmac

def resultOf (vs : Bytes 32) (msg : SimpleMsg) : UInt8 := if vs = msg.vs then 1 else 0

theorem resultOf_le (vs : Bytes 32) (msg : SimpleMsg) : resultOf vs msg ≤ 1 := by
  unfold resultOf
  split <;> decide

theorem compare_result (vs : Bytes 32) (msg : SimpleMsg) :
    (if simpleCtCompare vs.data msg.vs.data 32 then 1 else 0 : UInt8) = resultOf vs msg :=
  if_congr (ctCompare_bytes vs msg.vs) rfl rfl

def responseTag (tc : TinyCrypt) (key : Bytes 32) (result : UInt8) (msg : SimpleMsg) :
    Option (Bytes 32) :=
  (simpleReportAuth result msg.counter msg.nonce).bind fun input =>
    cryptoHmacCompute tc key.data input.data

/-- What one call can do: `C saved u` says the commit may answer `saved` and leave the
    device in `u`, and `M` which digests the measurement may return. -/
inductive HandleOutcome {σ : Type} (tc : TinyCrypt) (M : Option (Bytes 32) → Prop)
    (C : UInt32 → ℤ → σ → Prop) (p : Prover) (req resp : List UInt8) (s : σ) :
    Prover × List UInt8 × ℕ → σ → Prop where
  | refused (h : ∀ msg, ¬ Accepts tc p req resp msg) :
      HandleOutcome tc M C p req resp s (p, resp, 0) s
  | uncommitted {msg : SimpleMsg} {saved : ℤ} {u : σ} (h : Accepts tc p req resp msg)
      (commit : C msg.counter saved u) (failed : saved ≤ 0) :
      HandleOutcome tc M C p req resp s ({ p with ready := false }, resp, 0) u
  | silent {msg : SimpleMsg} {saved : ℤ} {u : σ} (h : Accepts tc p req resp msg)
      (commit : C msg.counter saved u) (positive : 0 < saved)
      (failed : M none ∨ ∃ vs, M (some vs) ∧
        responseTag tc p.material.kAuth (resultOf vs msg) msg = none) :
      HandleOutcome tc M C p req resp s (p.advance msg.counter, resp, 0) u
  | answered {msg : SimpleMsg} {saved : ℤ} {u : σ} {vs tag : Bytes 32}
      (h : Accepts tc p req resp msg) (commit : C msg.counter saved u) (positive : 0 < saved)
      (measured : M (some vs))
      (tagged : responseTag tc p.material.kAuth (resultOf vs msg) msg = some tag) :
      HandleOutcome tc M C p req resp s (p.advance msg.counter,
        reportBytes ⟨resultOf vs msg, tag⟩ ++ resp.drop 33, 33) u

section
variable {σ : Type} {dev : Device PlatformCall PlatformCall.Reply σ}
  {G : PlatformCall → σ → Prop} {K : σ → Prop}

/-- How the device answers the commit of a counter in state `s`. -/
abbrev commits (dev : Device PlatformCall PlatformCall.Reply σ) (s : σ) : UInt32 → ℤ → σ → Prop :=
  fun c saved t => dev.answers (.saveCounter c) s saved t

theorem safe_proverInit (platform : AuthPlatform) (ranges : List AttestationRange) (p : Prover)
    (s : σ) (hq : Quiet dev) (hK : K s) (hG : ∀ c t, c.quiet = true → G c t) (hload : G .load s)
    (htorn : ∀ t, dev.tears .load s t → K t) (hdone : ∀ r t, dev.answers .load s r t → K t) :
    Safe dev G K (proverInit p platform ranges) (fun x t => x = (p, false) ∧ t = s ∨
      ∃ loaded, dev.answers .load s loaded t ∧
        x = (⟨platform, loaded.getD .zero, ranges, loaded.isSome⟩, loaded.isSome)) s := by
  unfold proverInit
  split
  · exact ⟨hK, Or.inl ⟨rfl, rfl⟩⟩
  · refine ⟨hK, hload, htorn, fun loaded t ht => ?_⟩
    exact safe_authLoaded _ _ _ hq (hG · t) ⟨hdone loaded t ht, Or.inr ⟨loaded, ht, rfl⟩⟩

theorem safe_updateRanges (tc : TinyCrypt) (hq : Quiet dev) (s : σ) (hK : K s)
    (hG : ∀ c, c.quiet = true → G c s) (h : tc.HmacState) (ranges : List AttestationRange) :
    Safe dev G K (updateRanges tc h ranges) (fun _ t => t = s) s := by
  induction ranges generalizing h with
  | nil => exact ⟨hK, rfl⟩
  | cons r rest ih =>
    refine safe_quiet _ rfl _ _ s hq hK (hG _ rfl) fun bytes _ => ?_
    cases tc.tcHmacUpdate h bytes.data with
    | none => exact ⟨hK, rfl⟩
    | some h => exact ih h

theorem safe_attestation (tc : TinyCrypt) (hq : Quiet dev) (s : σ) (hK : K s)
    (hG : ∀ c, c.quiet = true → G c s) (key : Bytes 32) (ranges : List AttestationRange) :
    Safe dev G K (attestationComputeValidState tc key ranges) (fun _ t => t = s) s := by
  unfold attestationComputeValidState
  split
  · exact ⟨hK, rfl⟩
  · split
    · exact ⟨hK, rfl⟩
    · exact safe_updateRanges tc hq s hK hG _ ranges

theorem safe_answerRequest (tc : TinyCrypt) (M : Option (Bytes 32) → Prop)
    (C : UInt32 → ℤ → σ → Prop) (p : Prover) (req resp : List UInt8) (s u : σ) (saved : ℤ)
    (msg : SimpleMsg) (hq : Quiet dev) (hK : K u) (hG : ∀ c, c.quiet = true → G c u)
    (accepted : Accepts tc p req resp msg) (commit : C msg.counter saved u)
    (hM : Safe dev G K (attestationComputeValidState tc p.material.kAttest p.ranges)
      (fun r t => t = u ∧ M r) u) :
    Safe dev G K (answerRequest tc p msg resp saved) (fun h t => t = u ∧
      HandleOutcome tc M C p req resp s (h.prover, h.resp, h.len) u) u := by
  unfold answerRequest
  split
  · rename_i failed
    exact ⟨hK, rfl, .uncommitted accepted commit failed⟩
  · rename_i positive
    have positive := Int.not_le.mp positive
    refine safe_authUi _ _ _ hq hG ?_
    refine safe_then hM ?_
    rintro measured _ ⟨rfl, hm⟩ -
    cases measured with
    | none => exact ⟨hK, rfl, .silent accepted commit positive (Or.inl hm)⟩
    | some vs =>
      simp only [compare_result]
      change Safe dev G K (match responseTag tc p.material.kAuth (resultOf vs msg) msg with
        | none => _
        | some hmac => _) _ _
      cases tagged : responseTag tc p.material.kAuth (resultOf vs msg) msg with
      | none => exact ⟨hK, rfl, .silent accepted commit positive (Or.inr ⟨vs, hm, tagged⟩)⟩
      | some tag =>
        simp only [serializeReport_eq ⟨resultOf vs msg, tag⟩ accepted.room (resultOf_le vs msg)]
        refine safe_quiet _ rfl _ _ _ hq hK (hG _ rfl) fun _ _ => ?_
        exact ⟨hK, rfl, .answered accepted commit positive hm tagged⟩

/-- One specification of the whole call. Power may be lost at any moment, so the crash
    condition is asked before the commit, inside it and after it. -/
theorem safe_handleRequest (tc : TinyCrypt) (M : Option (Bytes 32) → Prop) (p : Prover)
    (req resp : List UInt8) (s : σ) (hq : Quiet dev) (hK : K s)
    (hG : ∀ c t, c.quiet = true → G c t)
    (hcommit : ∀ msg, Accepts tc p req resp msg → G (.saveCounter msg.counter) s ∧
      (∀ t, dev.tears (.saveCounter msg.counter) s t → K t) ∧
      ∀ saved t, dev.answers (.saveCounter msg.counter) s saved t → K t ∧
        Safe dev G K (attestationComputeValidState tc p.material.kAttest p.ranges)
          (fun r u => u = t ∧ M r) t) :
    Safe dev G K (proverHandleRequest tc p req resp)
      (HandleOutcome tc M (commits dev s) p req resp s) s := by
  unfold proverHandleRequest
  split
  · rename_i closed
    refine ⟨hK, .refused fun msg h => ?_⟩
    have ready := h.ready
    simp only [ready, Bool.not_true, Bool.false_or, decide_eq_true_eq] at closed
    exact Nat.not_lt.mpr h.room closed
  · rename_i opened
    split
    · rename_i short
      refine safe_authError _ _ _ hq (hG · s) ⟨hK, .refused fun msg h => ?_⟩
      have bytes := parseMsg_eq_some.mp h.parsed
      exact short (bytes ▸ length_msgBytes msg)
    · refine safe_authUi _ _ _ hq (hG · s) ?_
      refine safe_quiet _ rfl _ _ s hq hK (hG _ _ rfl) fun previous _ => ?_
      have body : Safe dev G K (processRequest tc p req resp) (fun h t =>
          HandleOutcome tc M (commits dev s) p req resp s (h.prover, h.resp, h.len) t) s := by
        have refuse : (∀ msg, ¬ Accepts tc p req resp msg) → ∀ phase error,
            Safe dev G K (pure ⟨p, resp, 0, phase, error⟩ : PlatformProg Handled) (fun h t =>
              HandleOutcome tc M (commits dev s) p req resp s (h.prover, h.resp, h.len) t) s :=
          fun none _ _ => ⟨hK, .refused none⟩
        unfold processRequest
        cases parsed : simpleParseMsg req with
        | none => exact refuse (fun msg h => by simp [h.parsed] at parsed) _ _
        | some msg =>
          have only : ∀ m, Accepts tc p req resp m → m = msg := fun m h =>
            Option.some.inj (h.parsed.symm.trans parsed)
          dsimp only
          split
          · rename_i stale
            exact refuse (fun m h => absurd (only m h ▸ h.fresh) (UInt32.not_lt.mpr stale)) _ _
          · rename_i fresh
            split
            · rename_i forged
              refine refuse (fun m h => ?_) _ _
              have tag := (hmacVerify_iff tc _ _ _).mpr (only m h ▸ h.tag)
              simp [tag] at forged
            · rename_i genuine
              have accepted : Accepts tc p req resp msg := by
                rw [Bool.not_eq_true, Bool.or_eq_false_iff] at opened
                refine ⟨by simpa using opened.1, by simpa using opened.2, parsed,
                  UInt32.not_le.mp fresh, ?_⟩
                exact (hmacVerify_iff tc _ _ _).mp (by simpa using genuine)
              obtain ⟨guard, torn, answered⟩ := hcommit msg accepted
              refine ⟨hK, guard, torn, fun saved t hs => ?_⟩
              obtain ⟨hKt, hM⟩ := answered saved t hs
              refine safe_post ?_ (safe_answerRequest tc M (commits dev s) p req resp s t saved msg hq
                hKt (hG · t) accepted hs hM)
              rintro h _ ⟨rfl, out⟩
              exact out
      refine safe_then body fun h t out hKt => ?_
      refine safe_quiet _ rfl _ _ t hq hKt (hG _ _ rfl) fun _ _ => ?_
      unfold reportHandled
      split
      · exact safe_authError _ _ _ hq (hG · t) ⟨hKt, out⟩
      · exact safe_authUi _ _ _ hq (hG · t) ⟨hKt, out⟩

end

end SimpleAttestation.ProverRequest
