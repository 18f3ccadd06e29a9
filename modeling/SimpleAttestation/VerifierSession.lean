import SimpleAttestation.Platform

set_option autoImplicit false

/-!
# The verifier (verifier.c)
-/
namespace SimpleAttestation.VerifierSession
open ByteStrings Wire Crypto CallProgram Platform

def UINT32_MAX : UInt32 := 4294967295

def INT32_MAX : UInt32 := 2147483647

inductive VerifyResult where
  | invalid | timeout | idle | mismatch | pass
deriving DecidableEq

/-- The enumerators of `verify_result_t`. -/
def VerifyResult.code : VerifyResult → ℤ
  | invalid => -1 | timeout => -2 | idle => -3 | mismatch => 0 | pass => 1

structure Verifier where
  platform : AuthPlatform
  material : AuthMaterial
  nonce : Bytes 16
  startedMs : UInt32
  timeoutMs : UInt32
  ready : Bool
  outstanding : Bool

/-- The static object before its first initialisation. -/
def Verifier.zero : Verifier :=
  ⟨⟨false, false, false, false, false, false, false, false⟩, .zero, .fill 16 0, 0, 0, false, false⟩

def initAccepts (platform : AuthPlatform) (timeoutMs : UInt32) : Bool :=
  platform.load && platform.saveCounter && platform.random && platform.nowMs && timeoutMs != 0 &&
    decide (timeoutMs ≤ INT32_MAX)

def initVerifier (v : Verifier) (platform : AuthPlatform) (timeoutMs : UInt32) :
    PlatformProg (Verifier × Bool) :=
  if !initAccepts platform timeoutMs then pure (v, false)
  else do
    let loaded ← Prog.ask PlatformCall.load
    authLoaded platform loaded.isSome
    pure (⟨platform, loaded.getD .zero, .fill 16 0, 0, timeoutMs, loaded.isSome, false⟩,
      loaded.isSome)

def verifierCancel (v : Verifier) : Verifier := { v with outstanding := false, nonce := .fill 16 0 }

/-- What the challenge records about the request it is about to return. -/
def Verifier.begin (v : Verifier) (msg : SimpleMsg) (startedMs : UInt32) : Verifier :=
  { v with
    material := { v.material with counter := msg.counter }
    nonce := msg.nonce
    startedMs := startedMs
    outstanding := true }

def Verifier.draft (v : Verifier) (nonce : Bytes 16) : SimpleMsg :=
  ⟨v.material.counter + 1, v.material.referenceVs, nonce, .fill 32 0⟩

/-- Serialise the message into the caller's buffer and tag it there. -/
def composeRequest (tc : TinyCrypt) (v : Verifier) (nonce : Bytes 16) (out : List UInt8) :
    List UInt8 × Option SimpleMsg :=
  let msg := v.draft nonce
  let (out, written) := simpleSerializeMsg msg out
  if written = 0 then (out, none)
  else (out, (cryptoHmacCompute tc v.material.kAuth.data (out.take SIMPLE_MSG_LEN)).map
    fun hmac => { msg with hmac := hmac })

/-- From the commit that answered `saved` on. -/
def sendRequest (v : Verifier) (msg : SimpleMsg) (out : List UInt8) (saved : ℤ) :
    PlatformProg (Verifier × List UInt8 × ℕ) :=
  if saved ≤ 0 then do
    authError v.platform (saveError saved)
    pure ({ v with ready := false }, overwrite out 0 (List.replicate SIMPLE_REQUEST_LEN 0), 0)
  else do
    let startedMs ← Prog.ask PlatformCall.nowMs
    authUi v.platform .request
    let (out, len) := simpleSerializeMsg msg out
    pure (v.begin msg startedMs, out, len)

def verifierChallenge (tc : TinyCrypt) (v : Verifier) (out : List UInt8) :
    PlatformProg (Verifier × List UInt8 × ℕ) :=
  if !v.ready || v.outstanding || decide (out.length < SIMPLE_REQUEST_LEN) then pure (v, out, 0)
  else if v.material.counter == UINT32_MAX then do
    authError v.platform AuthError.challenge.code
    pure (v, out, 0)
  else do
    let random ← Prog.ask (PlatformCall.random 16)
    match random with
    | none => do
      authError v.platform AuthError.rng.code
      pure (v, out, 0)
    | some nonce =>
      match composeRequest tc v nonce out with
      | (out, none) => do
        authError v.platform AuthError.challenge.code
        pure (v, out, 0)
      | (out, some msg) => do
        -- Commit before transmission.
        let saved ← Prog.ask (PlatformCall.saveCounter msg.counter)
        sendRequest v msg out saved

def verifierPoll (v : Verifier) : PlatformProg (Verifier × VerifyResult) :=
  if !v.ready || !v.outstanding then pure (v, .idle)
  else do
    let now ← Prog.ask PlatformCall.nowMs
    if !authExpired now v.startedMs v.timeoutMs then pure (v, .idle)
    else do
      authUi v.platform .timeout
      pure (verifierCancel v, .timeout)

def verify (tc : TinyCrypt) (v : Verifier) (response : List UInt8) :
    PlatformProg (Verifier × VerifyResult) :=
  if !v.ready || !v.outstanding then pure (v, .invalid)
  else do
    let (v, polled) ← verifierPoll v
    if polled = .timeout then pure (v, .timeout)
    else match simpleParseReport response with
      | none => pure (v, .invalid)
      | some report =>
        match simpleReportAuth report.result v.material.counter v.nonce with
        | none => pure (v, .invalid)
        | some input =>
          if !cryptoHmacVerify tc v.material.kAuth.data input.data report.hmac then
            pure (v, .invalid)
          else do
            let (v, polled) ← verifierPoll v
            if polled = .timeout then pure (v, .timeout)
            else do
              authUi v.platform (if report.result = 0 then .mismatch else .pass)
              pure (verifierCancel v, if report.result = 0 then .mismatch else .pass)

theorem lt_add_one {c : UInt32} (h : c ≠ UINT32_MAX) : c < c + 1 := by
  have bound := c.toNat_lt
  have ne : c.toNat ≠ 4294967295 := fun e => h (UInt32.toNat_inj.mp e)
  rw [UInt32.lt_iff_toNat_lt, UInt32.toNat_add]
  have one : (1 : UInt32).toNat = 1 := rfl
  omega

structure Issues (tc : TinyCrypt) (v : Verifier) (out : List UInt8) (msg : SimpleMsg) : Prop where
  ready : v.ready = true
  idle : v.outstanding = false
  room : 84 ≤ out.length
  below : v.material.counter ≠ UINT32_MAX
  counter : msg.counter = v.material.counter + 1
  vs : msg.vs = v.material.referenceVs
  tag : cryptoHmacCompute tc v.material.kAuth.data (msgAuth msg) = some msg.hmac

structure Genuine (tc : TinyCrypt) (v : Verifier) (response : List UInt8) (result : UInt8) :
    Prop where
  small : result ≤ 1
  bytes : ∃ input tag, simpleReportAuth result v.material.counter v.nonce = some input ∧
    cryptoHmacCompute tc v.material.kAuth.data input.data = some tag ∧
    response = reportBytes ⟨result, tag⟩

def verdict (result : UInt8) : VerifyResult := if result = 0 then .mismatch else .pass

theorem composeRequest_eq (tc : TinyCrypt) (v : Verifier) (nonce : Bytes 16) {out : List UInt8}
    (room : 84 ≤ out.length) : composeRequest tc v nonce out =
      (msgBytes (v.draft nonce) ++ out.drop 84,
        (cryptoHmacCompute tc v.material.kAuth.data (msgAuth (v.draft nonce))).map
          fun hmac => { v.draft nonce with hmac := hmac }) := by
  have body : (msgBytes (v.draft nonce) ++ out.drop 84).take 52 = msgAuth (v.draft nonce) := by
    rw [List.take_append_of_le_length (by simp), take_msgBytes]
  simp only [composeRequest, serializeMsg_eq (v.draft nonce) room, body]
  rfl

theorem genuine_unique {tc : TinyCrypt} {v : Verifier} {response : List UInt8} {r r' : UInt8}
    (h : Genuine tc v response r) (h' : Genuine tc v response r') : r = r' := by
  obtain ⟨-, _, _, -, -, e⟩ := h
  obtain ⟨-, _, _, -, -, e'⟩ := h'
  exact (List.cons.inj (e.symm.trans e')).1

section
variable {σ : Type} {dev : Device PlatformCall PlatformCall.Reply σ}

abbrev Clock (dev : Device PlatformCall PlatformCall.Reply σ) (s : σ) (now : UInt32) (t : σ) : Prop :=
  dev.answers .nowMs s now t

def Verifier.early (v : Verifier) (now : UInt32) : Prop :=
  authExpired now v.startedMs v.timeoutMs = false

inductive ChallengeOutcome (dev : Device PlatformCall PlatformCall.Reply σ) (tc : TinyCrypt)
    (v : Verifier) (out : List UInt8) (s : σ) : Verifier × List UInt8 × ℕ → σ → Prop where
  | refused (out' : List UInt8)
      (h : v.ready = false ∨ v.outstanding = true ∨ out.length < 84 ∨
        v.material.counter = UINT32_MAX ∨ dev.answers (.random 16) s none s ∨
        ∃ msg, cryptoHmacCompute tc v.material.kAuth.data (msgAuth msg) = none) :
      ChallengeOutcome dev tc v out s (v, out', 0) s
  | uncommitted {msg : SimpleMsg} {saved : ℤ} {u : σ} (out' : List UInt8) (h : Issues tc v out msg)
      (random : dev.answers (.random 16) s (some msg.nonce) s)
      (commit : dev.answers (.saveCounter msg.counter) s saved u) (failed : saved ≤ 0) :
      ChallengeOutcome dev tc v out s ({ v with ready := false }, out', 0) u
  | issued {msg : SimpleMsg} {saved : ℤ} {now : UInt32} {u t : σ} (h : Issues tc v out msg)
      (random : dev.answers (.random 16) s (some msg.nonce) s)
      (commit : dev.answers (.saveCounter msg.counter) s saved u) (positive : 0 < saved)
      (clock : Clock dev u now t) :
      ChallengeOutcome dev tc v out s (v.begin msg now, msgBytes msg ++ out.drop 84, 84) t

inductive PollOutcome (dev : Device PlatformCall PlatformCall.Reply σ) (v : Verifier) (s : σ) :
    Verifier × VerifyResult → σ → Prop where
  | closed (h : v.ready = false ∨ v.outstanding = false) : PollOutcome dev v s (v, .idle) s
  | waiting {now : UInt32} {t : σ} (open_ : v.ready = true ∧ v.outstanding = true)
      (clock : Clock dev s now t) (early : v.early now) : PollOutcome dev v s (v, .idle) t
  | expired {now : UInt32} {t : σ} (open_ : v.ready = true ∧ v.outstanding = true)
      (clock : Clock dev s now t) (late : ¬ v.early now) :
      PollOutcome dev v s (verifierCancel v, .timeout) t

inductive VerifyOutcome (dev : Device PlatformCall PlatformCall.Reply σ) (tc : TinyCrypt)
    (v : Verifier) (response : List UInt8) (s : σ) : Verifier × VerifyResult → σ → Prop where
  | closed (h : v.ready = false ∨ v.outstanding = false) :
      VerifyOutcome dev tc v response s (v, .invalid) s
  | expired {now : UInt32} {t : σ} (open_ : v.ready = true ∧ v.outstanding = true)
      (clock : Clock dev s now t) (late : ¬ v.early now) :
      VerifyOutcome dev tc v response s (verifierCancel v, .timeout) t
  | forged {now : UInt32} {t : σ} (open_ : v.ready = true ∧ v.outstanding = true)
      (clock : Clock dev s now t) (early : v.early now) (h : ∀ r, ¬ Genuine tc v response r) :
      VerifyOutcome dev tc v response s (v, .invalid) t
  | overtaken {now now' : UInt32} {t u : σ} {result : UInt8}
      (open_ : v.ready = true ∧ v.outstanding = true) (clock : Clock dev s now t)
      (early : v.early now) (h : Genuine tc v response result) (clock' : Clock dev t now' u)
      (late : ¬ v.early now') : VerifyOutcome dev tc v response s (verifierCancel v, .timeout) u
  | accepted {now now' : UInt32} {t u : σ} {result : UInt8}
      (open_ : v.ready = true ∧ v.outstanding = true) (clock : Clock dev s now t)
      (early : v.early now) (h : Genuine tc v response result) (clock' : Clock dev t now' u)
      (early' : v.early now') :
      VerifyOutcome dev tc v response s (verifierCancel v, verdict result) u

variable {G : PlatformCall → σ → Prop} {K : σ → Prop}

def ClockKeeps (dev : Device PlatformCall PlatformCall.Reply σ) (G : PlatformCall → σ → Prop)
    (K : σ → Prop) : Prop :=
  ∀ s, K s → G .nowMs s ∧ (∀ t, dev.tears .nowMs s t → K t) ∧ ∀ now t, Clock dev s now t → K t

theorem clock_always : ClockKeeps dev (fun _ _ => True) (fun _ => True) :=
  fun _ _ => ⟨trivial, fun _ _ => trivial, fun _ _ _ => trivial⟩

theorem safe_initVerifier (platform : AuthPlatform) (timeoutMs : UInt32) (v : Verifier) (s : σ)
    (hq : Quiet dev) (hK : K s) (hG : ∀ c t, c.quiet = true → G c t) (hload : G .load s)
    (htorn : ∀ t, dev.tears .load s t → K t) (hdone : ∀ r t, dev.answers .load s r t → K t) :
    Safe dev G K (initVerifier v platform timeoutMs) (fun x t =>
      initAccepts platform timeoutMs = false ∧ x = (v, false) ∧ t = s ∨
      initAccepts platform timeoutMs = true ∧ ∃ loaded, dev.answers .load s loaded t ∧
        x = (⟨platform, loaded.getD .zero, .fill 16 0, 0, timeoutMs, loaded.isSome, false⟩,
          loaded.isSome)) s := by
  unfold initVerifier
  split
  · rename_i refused
    exact ⟨hK, Or.inl ⟨by simpa using refused, rfl, rfl⟩⟩
  · rename_i accepted
    refine ⟨hK, hload, htorn, fun loaded t ht => ?_⟩
    refine safe_authLoaded _ _ _ hq (hG · t) ⟨hdone loaded t ht, Or.inr ⟨?_, loaded, ht, rfl⟩⟩
    simpa using accepted

theorem safe_challenge (tc : TinyCrypt) (v : Verifier) (out : List UInt8) (s : σ) (hq : Quiet dev)
    (hK : K s) (hG : ∀ c t, c.quiet = true → G c t) (hclock : ClockKeeps dev G K)
    (hcommit : ∀ msg, Issues tc v out msg → G (.saveCounter msg.counter) s ∧
      (∀ t, dev.tears (.saveCounter msg.counter) s t → K t) ∧
      ∀ saved t, dev.answers (.saveCounter msg.counter) s saved t → K t) :
    Safe dev G K (verifierChallenge tc v out) (ChallengeOutcome dev tc v out s) s := by
  unfold verifierChallenge
  split
  · rename_i closed
    refine ⟨hK, .refused out ?_⟩
    simp only [Bool.or_eq_true, Bool.not_eq_true', decide_eq_true_eq, or_assoc] at closed
    rcases closed with h | h | h
    · exact Or.inl h
    · exact Or.inr (Or.inl h)
    · exact Or.inr (Or.inr (Or.inl h))
  · rename_i opened
    simp only [Bool.or_eq_true, Bool.not_eq_true', decide_eq_true_eq, not_or, Bool.not_eq_false,
      Bool.not_eq_true, Nat.not_lt] at opened
    obtain ⟨⟨ready, idle⟩, room⟩ := opened
    split
    · rename_i max
      exact safe_authError _ _ _ hq (hG · s)
        ⟨hK, .refused out (Or.inr (Or.inr (Or.inr (Or.inl (by simpa using max)))))⟩
    · rename_i below
      refine safe_quiet _ rfl _ _ s hq hK (hG _ _ rfl) fun random hrandom => ?_
      cases random with
      | none =>
        exact safe_authError _ _ _ hq (hG · s)
          ⟨hK, .refused out (Or.inr (Or.inr (Or.inr (Or.inr (Or.inl hrandom)))))⟩
      | some nonce =>
        simp only [composeRequest_eq tc v nonce room]
        cases htag : cryptoHmacCompute tc v.material.kAuth.data (msgAuth (v.draft nonce)) with
        | none =>
          exact safe_authError _ _ _ hq (hG · s)
            ⟨hK, .refused _ (Or.inr (Or.inr (Or.inr (Or.inr (Or.inr ⟨_, htag⟩)))))⟩
        | some tag =>
          have issues : Issues tc v out { v.draft nonce with hmac := tag } :=
            ⟨ready, idle, room, by simpa using below, rfl, rfl, htag⟩
          obtain ⟨guard, torn, committed⟩ := hcommit _ issues
          refine ⟨hK, guard, torn, fun saved t hs => ?_⟩
          have hKt := committed saved t hs
          change Safe dev G K (sendRequest v _ _ saved) _ t
          unfold sendRequest
          split
          · rename_i failed
            exact safe_authError _ _ _ hq (hG · t) ⟨hKt, .uncommitted _ issues hrandom hs failed⟩
          · rename_i positive
            obtain ⟨guard', torn', read⟩ := hclock t hKt
            refine ⟨hKt, guard', torn', fun now u hu => ?_⟩
            refine safe_authUi _ _ _ hq (hG · u) ?_
            rw [serializeMsg_eq _ (by simp), List.drop_left' (length_msgBytes _)]
            exact ⟨read now u hu, .issued issues hrandom hs (Int.not_le.mp positive) hu⟩

theorem safe_poll (v : Verifier) (s : σ) (hq : Quiet dev) (hK : K s)
    (hG : ∀ c t, c.quiet = true → G c t) (hclock : ClockKeeps dev G K) :
    Safe dev G K (verifierPoll v) (PollOutcome dev v s) s := by
  unfold verifierPoll
  split
  · rename_i closed
    exact ⟨hK, .closed (by simpa using closed)⟩
  · rename_i opened
    have open_ : v.ready = true ∧ v.outstanding = true := by simpa using opened
    obtain ⟨guard, torn, read⟩ := hclock s hK
    refine ⟨hK, guard, torn, fun now t ht => ?_⟩
    change Safe dev G K (if !authExpired now v.startedMs v.timeoutMs then _ else _) _ t
    split
    · rename_i early
      exact ⟨read now t ht, .waiting open_ ht (by simpa [Verifier.early] using early)⟩
    · rename_i late
      exact safe_authUi _ _ _ hq (hG · t) ⟨read now t ht, .expired open_ ht (by
        simpa [Verifier.early] using late)⟩

theorem safe_verify (tc : TinyCrypt) (v : Verifier) (response : List UInt8) (s : σ)
    (hq : Quiet dev) (hK : K s) (hG : ∀ c t, c.quiet = true → G c t)
    (hclock : ClockKeeps dev G K) :
    Safe dev G K (verify tc v response) (VerifyOutcome dev tc v response s) s := by
  unfold verify
  split
  · rename_i closed
    exact ⟨hK, .closed (by simpa using closed)⟩
  · rename_i opened
    have open_ : v.ready = true ∧ v.outstanding = true := by simpa using opened
    refine safe_then (safe_poll v s hq hK hG hclock) ?_
    rintro ⟨_, _⟩ t out hKt
    cases out with
    | closed h => rcases h with h | h <;> simp [h] at open_
    | expired _ clock late => exact ⟨hKt, .expired open_ clock late⟩
    | waiting _ clock early =>
      have refuse : (∀ r, ¬ Genuine tc v response r) → Safe dev G K
          (pure (v, .invalid) : PlatformProg (Verifier × VerifyResult))
          (VerifyOutcome dev tc v response s) t := fun none => ⟨hKt, .forged open_ clock early none⟩
      change Safe dev G K (match simpleParseReport response with
        | none => _
        | some report => _) _ t
      cases parsed : simpleParseReport response with
      | none =>
        refine refuse fun r ⟨small, input, tag, _, _, bytes⟩ => ?_
        rw [parseReport_eq_some.mpr ⟨bytes, small⟩] at parsed
        cases parsed
      | some report =>
        obtain ⟨bytes, small⟩ := parseReport_eq_some.mp parsed
        obtain ⟨input, auth, -⟩ := reportAuth_eq v.material.counter v.nonce small
        have only : ∀ r, Genuine tc v response r → r = report.result ∧
            cryptoHmacCompute tc v.material.kAuth.data input.data = some report.hmac := by
          rintro r ⟨_, input', tag, auth', computed, bytes'⟩
          obtain ⟨rfl, data⟩ := List.cons.inj (bytes'.symm.trans bytes)
          obtain rfl := Option.some.inj (auth'.symm.trans auth)
          exact ⟨rfl, computed.trans (congrArg some (Bytes.ext data))⟩
        dsimp only
        rw [auth]
        dsimp only
        split
        · rename_i forged
          refine refuse fun r h => ?_
          have tag := (hmacVerify_iff tc _ _ _).mpr (only r h).2
          simp [tag] at forged
        · rename_i genuine
          have h : Genuine tc v response report.result := ⟨small, input, report.hmac, auth,
            (hmacVerify_iff tc _ _ _).mp (by simpa using genuine), bytes⟩
          refine safe_then (safe_poll v t hq hKt hG hclock) ?_
          rintro ⟨_, _⟩ u out hKu
          cases out with
          | closed h => rcases h with h | h <;> simp [h] at open_
          | expired _ clock' late => exact ⟨hKu, .overtaken open_ clock early h clock' late⟩
          | waiting _ clock' early' =>
            exact safe_authUi _ _ _ hq (hG · u)
              ⟨hKu, .accepted open_ clock early h clock' early'⟩

end

end SimpleAttestation.VerifierSession
