import SimpleAttestation.CallTraces
import SimpleAttestation.Session

set_option autoImplicit false

/-!
# What one request does, byte by byte

Nothing is assumed of the callbacks but that a measured range reads as the memory does.
-/
namespace SimpleAttestation.ProverSpec
open ByteStrings Wire Crypto CallProgram CallTraces Platform ProverRequest Session

abbrev PlatformEvent := Event PlatformCall PlatformCall.Reply

def Saved (es : List PlatformEvent) (counter : UInt32) (saved : ℤ) : Prop :=
  (⟨.saveCounter counter, saved⟩ : PlatformEvent) ∈ es

/-- Every range read in a trace has the bytes of the memory. -/
def ReadsTrue (memory : ℕ → UInt8) (es : List PlatformEvent) : Prop :=
  ∀ e ∈ es, ∀ start length bytes, e = ⟨.readRange start length, bytes⟩ →
    bytes = readMemory memory start length

structure Granted (hmac : List UInt8 → List UInt8 → Bytes 32) (p : Prover) (req resp : List UInt8)
    (es : List PlatformEvent) : Prop where
  ready : p.ready = true
  room : 33 ≤ resp.length
  length : req.length = 84
  fresh : p.material.counter < simpleGetU32 (req.take 4)
  authentic : req.drop 52 = (hmac p.material.kAuth.data (req.take 52)).data
  committed : ∃ saved, Saved es (simpleGetU32 (req.take 4)) saved ∧ 0 < saved
  measurable : ∀ r ∈ p.ranges, r.start ≠ none ∧ r.length ≠ 0 ∧ r.length ≤ UINT_MAX

/-- The response to `req` when the ranges hold `measured`. -/
def responseBytes (hmac : List UInt8 → List UInt8 → Bytes 32) (p : Prover) (measured req : List UInt8) :
    List UInt8 :=
  let result : UInt8 :=
    if (hmac p.material.kAttest.data measured).data = (req.drop 4).take 32 then 1 else 0
  result :: (hmac p.material.kAuth.data (result :: (req.take 4 ++ (req.drop 36).take 16))).data

/-- A commit moves the counter or stops the prover, and nothing else changes it. -/
inductive Advances (p : Prover) (req : List UInt8) (es : List PlatformEvent) : Prover → Prop where
  | committed {saved : ℤ} (h : Saved es (simpleGetU32 (req.take 4)) saved) (positive : 0 < saved) :
      Advances p req es (p.advance (simpleGetU32 (req.take 4)))
  | stopped {saved : ℤ} (h : Saved es (simpleGetU32 (req.take 4)) saved) (failed : saved ≤ 0) :
      Advances p req es { p with ready := false }
  | untouched (h : ∀ c saved, ¬ Saved es c saved) : Advances p req es p

/-- The commits of a trace, all that the specification of the call needs to see of it. -/
def commitOf : PlatformEvent → Option (UInt32 × ℤ)
  | ⟨.saveCounter c, saved⟩ => some (c, saved)
  | _ => none

def commitDevice (memory : ℕ → UInt8) : Device PlatformCall PlatformCall.Reply (List (UInt32 × ℤ)) where
  answers
    | .saveCounter c, s, saved, t => t = s ++ [(c, saved)]
    | .readRange start length, s, bytes, t => bytes = readMemory memory start length ∧ t = s
    | _, s, _, t => t = s
  tears _ _ _ := False

section
variable {memory : ℕ → UInt8} {es : List PlatformEvent}

theorem commit_quiet : Quiet (commitDevice memory) := by
  intro c s hc
  refine ⟨fun _ h => h.elim, fun r t h => ?_⟩
  cases c with
  | load | saveCounter _ | nowMs => cases hc
  | readRange start length => exact h.2
  | _ => exact h

theorem commit_reads : ReadsMemory (commitDevice memory) memory := fun _ _ _ _ _ h => h.1

theorem follows_commits (reads : ReadsTrue memory es) :
    Follows (commitDevice memory) [] es (es.filterMap commitOf) := by
  refine follows_noting commitOf _ es [] fun e he s => ?_
  obtain ⟨c, reply⟩ := e
  cases c with
  | saveCounter c => rfl
  | readRange start length => exact ⟨reads _ he start length reply rfl, List.append_nil s⟩
  | _ => exact List.append_nil s

theorem mem_commits {c : UInt32} {saved : ℤ} :
    (c, saved) ∈ es.filterMap commitOf ↔ Saved es c saved := by
  rw [List.mem_filterMap]
  constructor
  · rintro ⟨⟨call, reply⟩, he, hc⟩
    cases call with
    | saveCounter d =>
      obtain ⟨rfl, rfl⟩ := Prod.mk.inj (Option.some.inj hc)
      exact he
    | _ => cases hc
  · exact fun h => ⟨_, h, rfl⟩

theorem saved_cons {c d : UInt32} {saved r : ℤ} :
    Saved (⟨.saveCounter d, r⟩ :: es) c saved ↔ c = d ∧ saved = r ∨ Saved es c saved := by
  rw [← mem_commits, ← mem_commits, List.filterMap_cons]
  change (c, saved) ∈ (d, r) :: _ ↔ _
  rw [List.mem_cons, Prod.mk.injEq]

end

section
variable {tc : TinyCrypt} {sha256 : List UInt8 → Bytes 32} {hmac : List UInt8 → List UInt8 → Bytes 32}
  {p : Prover} {req resp : List UInt8} {msg : SimpleMsg}

theorem get_take (buf : List UInt8) (h : 4 ≤ buf.length) :
    simpleGetU32 (buf.take 4) = simpleGetU32 buf := by
  rw [← put_get_take buf h]
  exact get_put _ []

theorem parseMsg_fields (h : simpleParseMsg req = some msg) : req.length = 84 ∧
    simpleGetU32 (req.take 4) = msg.counter ∧ req.take 4 = simplePutU32 msg.counter ∧
      (req.drop 4).take 32 = msg.vs.data ∧ (req.drop 36).take 16 = msg.nonce.data ∧
      req.drop 52 = msg.hmac.data := by
  have counter := parseMsg_counter h
  rw [simpleParseMsg] at h
  split at h
  · cases h
  · rename_i len
    have len : req.length = 84 := by simpa using len
    obtain rfl := Option.some.inj h
    refine ⟨len, (get_take req (by omega)).trans counter, (put_get_take req (by omega)).symm,
      (bytesAt_data (by omega)).symm, (bytesAt_data (by omega)).symm, ?_⟩
    dsimp only
    rw [bytesAt_data (by omega), List.take_of_length_le (by simp [len])]

theorem parseMsg_exists (len : req.length = 84) : ∃ msg, simpleParseMsg req = some msg := by
  rw [simpleParseMsg, if_neg (by simpa using len)]
  exact ⟨_, rfl⟩

theorem accepts_iff_bytes (computes : tc.Computes sha256 hmac) (parsed : simpleParseMsg req = some msg) :
    Accepts tc p req resp msg ↔ p.ready = true ∧ 33 ≤ resp.length ∧
      p.material.counter < simpleGetU32 (req.take 4) ∧
      req.drop 52 = (hmac p.material.kAuth.data (req.take 52)).data := by
  obtain ⟨len, counter, -, -, -, tag⟩ := parseMsg_fields parsed
  have short : (req.take 52).length ≤ UINT_MAX := by
    rw [List.length_take, len]
    decide
  have computed := hmacCompute_bytes computes p.material.kAuth short
  rw [counter, tag]
  constructor
  · rintro ⟨ready, room, -, fresh, made⟩
    exact ⟨ready, room, fresh, congrArg Bytes.data (Option.some.inj (made.symm.trans computed))⟩
  · rintro ⟨ready, room, fresh, same⟩
    exact ⟨ready, room, parsed, fresh, computed.trans (congrArg some (Bytes.ext same.symm))⟩

theorem responseTag_eq (computes : tc.Computes sha256 hmac) (key : Bytes 32) {result : UInt8}
    (small : result ≤ 1) (msg : SimpleMsg) : responseTag tc key result msg =
      some (hmac key.data (result :: (simplePutU32 msg.counter ++ msg.nonce.data))) := by
  obtain ⟨input, auth, bytes⟩ := reportAuth_eq msg.counter msg.nonce small
  have computed := hmacCompute_bytes computes key (show input.data.length ≤ UINT_MAX by simp; decide)
  rw [responseTag, auth, Option.bind_some, computed, bytes]

theorem responseBytes_eq (parsed : simpleParseMsg req = some msg) (measured : List UInt8) :
    responseBytes hmac p measured req =
      reportBytes ⟨resultOf (hmac p.material.kAttest.data measured) msg,
        hmac p.material.kAuth.data (resultOf (hmac p.material.kAttest.data measured) msg ::
          (simplePutU32 msg.counter ++ msg.nonce.data))⟩ := by
  obtain ⟨-, -, counter, vs, nonce, -⟩ := parseMsg_fields parsed
  have result : (if (hmac p.material.kAttest.data measured).data = (req.drop 4).take 32 then 1 else 0 :
      UInt8) = resultOf (hmac p.material.kAttest.data measured) msg := by
    rw [resultOf, vs]
    exact if_congr Bytes.ext_iff.symm rfl rfl
  simp only [responseBytes, result, counter, nonce, reportBytes]

theorem measurable_iff (some_ : p.ranges ≠ []) : Measurable p.ranges ↔
    ∀ r ∈ p.ranges, r.start ≠ none ∧ r.length ≠ 0 ∧ r.length ≤ UINT_MAX := by
  have valid : ∀ r : AttestationRange, r.valid = true ↔
      r.start ≠ none ∧ r.length ≠ 0 ∧ r.length ≤ UINT_MAX := by
    intro r
    simp only [AttestationRange.valid, Bool.and_eq_true, Option.isSome_iff_ne_none, bne_iff_ne,
      decide_eq_true_eq, and_assoc]
  exact ⟨fun h r hr => (valid r).mp (h.2 r hr), fun h => ⟨some_, fun r hr => (valid r).mpr (h r hr)⟩⟩

/-- What the measurement may return: the digest of the ranges, or nothing when one of them is
    not allowed. -/
def Measures (hmac : List UInt8 → List UInt8 → Bytes 32) (memory : ℕ → UInt8) (p : Prover)
    (r : Option (Bytes 32)) : Prop :=
  Measurable p.ranges ∧ r = some (hmac p.material.kAttest.data (measuredBytes memory p.ranges)) ∨
    ¬ Measurable p.ranges ∧ r = none

theorem safe_measures {σ : Type} {dev : Device PlatformCall PlatformCall.Reply σ}
    {memory : ℕ → UInt8} (computes : tc.Computes sha256 hmac) (hq : Quiet dev)
    (hmem : ReadsMemory dev memory) (s : σ) :
    Safe dev (fun _ _ => True) (fun _ => True)
      (attestationComputeValidState tc p.material.kAttest p.ranges)
      (fun r t => t = s ∧ Measures hmac memory p r) s := by
  by_cases ok : Measurable p.ranges
  · exact safe_post (fun r t ⟨same, digest⟩ => ⟨same, Or.inl ⟨ok, digest⟩⟩)
      (safe_measurement computes hq hmem s trivial (fun _ _ => trivial) p.material.kAttest ok)
  · have refused : (p.ranges.isEmpty || !p.ranges.all AttestationRange.valid) = true := by
      by_contra h
      simp only [Bool.or_eq_true, List.isEmpty_iff, Bool.not_eq_true', not_or, Bool.not_eq_false,
        List.all_eq_true] at h
      exact ok h
    rw [attestationComputeValidState, if_pos refused]
    exact ⟨trivial, rfl, Or.inr ⟨ok, rfl⟩⟩

theorem handle_outcome {memory : ℕ → UInt8} {es : List PlatformEvent} {x : Prover × List UInt8 × ℕ}
    (computes : tc.Computes sha256 hmac) (run : Traced (proverHandleRequest tc p req resp) es x)
    (reads : ReadsTrue memory es) :
    HandleOutcome tc (Measures hmac memory p) (commits (commitDevice memory) []) p req resp []
      x (es.filterMap commitOf) := by
  have ran := traced_exec run (follows_commits reads)
  exact safe_exec _ _ _ _ _ (safe_handleRequest (G := fun _ _ => True) (K := fun _ => True) tc _ p req
    resp [] commit_quiet trivial (fun _ _ _ => trivial) fun msg _ => ⟨trivial, fun _ _ => trivial,
      fun saved t _ => ⟨trivial, safe_measures computes commit_quiet commit_reads t⟩⟩) ran

theorem granted_iff {es : List PlatformEvent} (computes : tc.Computes sha256 hmac)
    (initialised : p.ranges ≠ []) (parsed : simpleParseMsg req = some msg) :
    Granted hmac p req resp es ↔ Accepts tc p req resp msg ∧
      (∃ saved, Saved es msg.counter saved ∧ 0 < saved) ∧ Measurable p.ranges := by
  obtain ⟨len, counter, -⟩ := parseMsg_fields parsed
  rw [accepts_iff_bytes computes parsed, measurable_iff initialised]
  constructor
  · rintro ⟨ready, room, -, fresh, authentic, committed, measurable⟩
    exact ⟨⟨ready, room, fresh, authentic⟩, counter ▸ committed, measurable⟩
  · rintro ⟨⟨ready, room, fresh, authentic⟩, committed, measurable⟩
    exact ⟨ready, room, len, fresh, authentic, counter.symm ▸ committed, measurable⟩

theorem saved_of_commits {es : List PlatformEvent} {c : UInt32} {saved : ℤ}
    (h : es.filterMap commitOf = [(c, saved)]) (c' : UInt32) (saved' : ℤ) :
    Saved es c' saved' ↔ c' = c ∧ saved' = saved := by
  rw [← mem_commits, h, List.mem_singleton, Prod.mk.injEq]

theorem advances_commit {es : List PlatformEvent} {saved : ℤ} (accepted : Accepts tc p req resp msg)
    (commit : es.filterMap commitOf = [(msg.counter, saved)]) (positive : 0 < saved) :
    Advances p req es (p.advance msg.counter) := by
  obtain ⟨-, counter, -⟩ := parseMsg_fields accepted.parsed
  rw [← counter] at commit ⊢
  exact .committed ((saved_of_commits commit _ saved).mpr ⟨rfl, rfl⟩) positive

/-- The full specification of a request. -/
theorem handleRequest_spec (computes : tc.Computes sha256 hmac) (p : Prover) (req resp : List UInt8)
    (memory : ℕ → UInt8) (initialised : p.ranges ≠ []) (es : List PlatformEvent) (p' : Prover)
    (resp' : List UInt8) (n : ℕ)
    (run : Traced (proverHandleRequest tc p req resp) es (p', resp', n))
    (reads : ReadsTrue memory es) :
    (n = 33 ↔ Granted hmac p req resp es) ∧
    (n = 33 → resp' = responseBytes hmac p (measuredBytes memory p.ranges) req ++ resp.drop 33) ∧
    (n ≠ 33 → n = 0 ∧ resp' = resp) ∧
    Advances p req es p' := by
  have out := handle_outcome computes run reads
  generalize hx : (p', resp', n) = x at out
  generalize hcs : es.filterMap commitOf = commits at out
  have denied : ¬ Granted hmac p req resp es → n = 0 → resp' = resp → Advances p req es p' →
      (n = 33 ↔ Granted hmac p req resp es) ∧
      (n = 33 → resp' = responseBytes hmac p (measuredBytes memory p.ranges) req ++ resp.drop 33) ∧
      (n ≠ 33 → n = 0 ∧ resp' = resp) ∧ Advances p req es p' := by
    intro no zero same advances
    have ne : n ≠ 33 := by omega
    exact ⟨⟨fun h => absurd h ne, fun h => absurd h no⟩, fun h => absurd h ne,
      fun _ => ⟨zero, same⟩, advances⟩
  cases out with
  | refused none =>
    obtain ⟨rfl, rfl, rfl⟩ := hx
    refine denied (fun granted => ?_) rfl rfl (.untouched fun c saved h => ?_)
    · obtain ⟨msg, parsed⟩ := parseMsg_exists granted.length
      exact none msg ((granted_iff computes initialised parsed).mp granted).1
    · rw [← mem_commits, hcs] at h
      cases h
  | @uncommitted msg saved u accepted commit failed =>
    obtain ⟨rfl, rfl, rfl⟩ := hx
    obtain ⟨-, counter, -⟩ := parseMsg_fields accepted.parsed
    have only := saved_of_commits (hcs.trans commit)
    refine denied (fun granted => ?_) rfl rfl (.stopped ((only _ saved).mpr ⟨counter, rfl⟩) failed)
    obtain ⟨-, ⟨saved', h, positive⟩, -⟩ :=
      (granted_iff computes initialised accepted.parsed).mp granted
    obtain ⟨-, rfl⟩ := (only _ _).mp h
    exact absurd positive (Int.not_lt.mpr failed)
  | @silent msg saved u accepted commit positive failed =>
    obtain ⟨rfl, rfl, rfl⟩ := hx
    have advances := advances_commit accepted (hcs.trans commit) positive
    refine denied (fun granted => ?_) rfl rfl advances
    obtain ⟨-, -, measurable⟩ := (granted_iff computes initialised accepted.parsed).mp granted
    rcases failed with (⟨-, h⟩ | ⟨no, -⟩) | ⟨vs, -, h⟩
    · cases h
    · exact no measurable
    · rw [responseTag_eq computes _ (resultOf_le vs msg) msg] at h
      cases h
  | @answered msg saved u vs tag accepted commit positive measured tagged =>
    obtain ⟨rfl, rfl, rfl⟩ := hx
    have only := saved_of_commits (hcs.trans commit)
    have advances := advances_commit accepted (hcs.trans commit) positive
    rcases measured with ⟨measurable, digest⟩ | ⟨-, h⟩
    · obtain rfl := Option.some.inj digest
      have small := resultOf_le (hmac p.material.kAttest.data (measuredBytes memory p.ranges)) msg
      have tag_eq := responseTag_eq computes p.material.kAuth small msg
      obtain rfl := Option.some.inj (tag_eq.symm.trans tagged)
      refine ⟨⟨fun _ => ?_, fun _ => rfl⟩, fun _ => ?_, fun h => absurd rfl h, advances⟩
      · exact (granted_iff computes initialised accepted.parsed).mpr
          ⟨accepted, ⟨saved, (only _ saved).mpr ⟨rfl, rfl⟩, positive⟩, measurable⟩
      · rw [responseBytes_eq accepted.parsed]
    · cases h

end

def signed (hmac : List UInt8 → List UInt8 → Bytes 32) (key : Bytes 32) (c : UInt32) : SimpleMsg :=
  ⟨c, .fill 32 0, .fill 16 0, hmac key.data (msgAuth ⟨c, .fill 32 0, .fill 16 0, .fill 32 0⟩)⟩

theorem signed_accepts {tc : TinyCrypt} {sha256 : List UInt8 → Bytes 32}
    {hmac : List UInt8 → List UInt8 → Bytes 32} (computes : tc.Computes sha256 hmac) {p : Prover}
    {c : UInt32} {resp : List UInt8} (ready : p.ready = true) (room : 33 ≤ resp.length)
    (fresh : p.material.counter < c) :
    Accepts tc p (msgBytes (signed hmac p.material.kAuth c)) resp (signed hmac p.material.kAuth c) := by
  refine ⟨ready, room, parseMsg_msgBytes _, fresh, ?_⟩
  rw [take_msgBytes]
  exact hmacCompute_bytes computes _ (by simp; decide)

def smallProver : Prover :=
  ⟨allCallbacks, { AuthMaterial.zero with counter := 5 }, [⟨some 0x08000000, 16⟩], true⟩

def smallHmac (key msg : List UInt8) : Bytes 32 := ⟨Sha256.hmac key msg, rfl⟩

def smallRequest : List UInt8 := msgBytes (signed smallHmac smallProver.material.kAuth 6)

theorem small_accepts {resp : List UInt8} (room : 33 ≤ resp.length) : Accepts referenceTinyCrypt
    smallProver smallRequest resp (signed smallHmac smallProver.material.kAuth 6) :=
  signed_accepts reference_computes rfl room (show (5 : UInt32) < 6 by decide)

theorem small_measurable : Measurable smallProver.ranges :=
  ⟨List.cons_ne_nil _ _, by simp [smallProver, AttestationRange.valid, UINT_MAX]⟩

theorem handleRequest_spec_small : ∃ es resp', Granted smallHmac smallProver smallRequest
    (List.replicate 33 0) es ∧ Traced (proverHandleRequest referenceTinyCrypt smallProver smallRequest
      (List.replicate 33 0)) es (smallProver.advance 6, resp', 33) := by
  have calm := @calm_handle referenceTinyCrypt _ _ .zero (fun _ => 0) (fun _ => True) smallProver 5
    reference_computes _ (List.replicate 33 0) _ (small_accepts (by simp)) rfl small_measurable
  obtain ⟨⟨x, d, ran⟩, only⟩ := calm_ends ⟨0, trivial⟩ calm
  obtain ⟨result, tag, -, -, -, rfl⟩ := only x d ran
  obtain ⟨es, traced, follows⟩ := (exec_iff_traced _ _ _ _).mp ran
  have reads : ReadsTrue (fun _ => 0) es := by
    rintro e he start length bytes rfl
    obtain ⟨s, t, answered⟩ := follows_mem _ _ _ follows _ he
    exact calm_reads start length s bytes t answered
  obtain ⟨returns, -, -, -⟩ := handleRequest_spec reference_computes smallProver smallRequest
    (List.replicate 33 0) (fun _ => 0) small_measurable.1 es _ _ 33 traced reads
  exact ⟨es, _, returns.mp rfl, traced⟩

end SimpleAttestation.ProverSpec
