import SimpleAttestation.Agreement

set_option autoImplicit false

/-!
# The prover is never ahead of the verifier
-/
namespace SimpleAttestation.Synchrony
open ByteStrings Wire Crypto CallProgram Runs Platform ProverRequest ProverRuns Store
  VerifierSession VerifierRuns VerifierCounters Session Network Agreement

/-- Both counters of the prover and every request are at most the verifier's durable counter. -/
structure InStep (es : List NetEvent) (w : NetWorld) : Prop where
  durable : w.pDurable ≤ w.vDurable
  ram : w.prover.material.counter ≤ w.vDurable
  requests : ∀ msg, .challenged msg ∈ es → msg.counter ≤ w.vDurable

structure Behind (w : NetWorld) : Prop where
  durable : w.pDurable ≤ w.vDurable
  ram : w.prover.material.counter ≤ w.pDurable
  timeout : w.verifier.ready = true → w.verifier.timeoutMs ≠ 0

section
variable {tc : TinyCrypt} {baseV baseP : AuthMaterial} {es : List NetEvent} {w w' : NetWorld}

theorem zero_le_counter (c : UInt32) : 0 ≤ c := by
  rw [UInt32.le_iff_toNat_le]
  exact Nat.zero_le _

theorem op_timeout {σ : Type} {dev : Device PlatformCall PlatformCall.Reply σ} (hq : Quiet dev)
    {op : VerifierOp} {v v' : Verifier} {answer : Answer} {s t : σ}
    (start : v.ready = true → v.timeoutMs ≠ 0)
    (h : Exec dev (VerifierRuns.runOp tc v op) s (v', answer) t) :
    v'.ready = true → v'.timeoutMs ≠ 0 := by
  cases op with
  | init platform timeoutMs =>
    rcases op_init hq h with ⟨-, rfl, -⟩ | ⟨accepted, loaded, -, -, rfl⟩
    · exact start
    · intro _
      simp only [initAccepts, Bool.and_eq_true, bne_iff_ne] at accepted
      exact accepted.1.2
  | challenge out =>
    obtain ⟨out', len, rfl, outcome⟩ := op_challenge hq h
    cases outcome with
    | refused | issued => exact start
    | uncommitted => exact fun ready => by cases ready
  | verify response =>
    obtain ⟨r, rfl, outcome⟩ := op_verify hq h
    cases outcome <;> exact start
  | poll =>
    obtain ⟨r, rfl, outcome⟩ := op_poll hq h
    cases outcome <;> exact start
  | cancel =>
    obtain ⟨e, -⟩ := h
    obtain ⟨rfl, -⟩ := Prod.mk.inj e
    exact start

theorem handle_behind {base : AuthMaterial} {p p' : Prover} {req resp resp' : List UInt8} {len : ℕ}
    {d d' : UInt32} (start : p.ready = true → p.material.counter = d) (ram : p.material.counter ≤ d)
    (out : HandleOutcome tc (fun _ => True) (commits (registerDevice base) d) p req resp d
      (p', resp', len) d') :
    p'.material.counter ≤ d' ∧ (d' = d ∨ ∃ msg, Accepts tc p req resp msg ∧ d' = msg.counter) := by
  cases out with
  | refused => exact ⟨ram, Or.inl rfl⟩
  | @uncommitted msg saved u accepted commit failed =>
    have fresh : d < msg.counter := start accepted.ready ▸ accepted.fresh
    rcases commit.2 with rfl | rfl
    · exact ⟨ram, Or.inl rfl⟩
    · exact ⟨UInt32.le_trans ram (UInt32.le_of_lt fresh), Or.inr ⟨msg, accepted, rfl⟩⟩
  | @silent msg saved u accepted commit positive =>
    obtain rfl := commit.1 positive
    exact ⟨UInt32.le_refl _, Or.inr ⟨msg, accepted, rfl⟩⟩
  | @answered msg saved u vs tag accepted commit positive =>
    obtain rfl := commit.1 positive
    exact ⟨UInt32.le_refl _, Or.inr ⟨msg, accepted, rfl⟩⟩

/-- The step lemma. Whatever the prover commits to was challenged before. -/
theorem behind_step (shared : baseP.kAuth = baseV.kAuth) (inv : Inv tc baseV baseP es w)
    (h : Behind w) {e : NetEvent} (step : NetStep tc baseV baseP w e w') : Behind w' := by
  have vStart : w.verifier.ready = true → w.verifier.material.counter = w.vDurable :=
    fun ready => by rw [inv.vReady ready]
  have pStart : w.prover.ready = true → w.prover.material.counter = w.pDurable :=
    fun ready => by rw [inv.pReady ready]
  have committed : ∀ {req resp msg}, CanRequest tc baseV.kAuth w.released req →
      Accepts tc w.prover req resp msg → msg.counter ≤ w.vDurable := fun can accepted =>
    inv.challengedLe _ (accepts_challenged inv shared can accepted)
  cases step with
  | @verifier op v answer d can run =>
    have out := safe_exec _ _ _ _ _ (op_register op vStart) run
    exact ⟨UInt32.le_trans h.durable out.grown, h.ram,
      op_timeout (registerDevice_quiet baseV) h.timeout run⟩
  | @verifierReset op d can cut =>
    have grown := safe_cut _ _ _ _ (op_register op vStart) cut
    exact ⟨UInt32.le_trans h.durable grown, h.ram, fun ready => by cases ready⟩
  | @proverInit platform ranges p ok d run =>
    have out := safe_exec _ _ _ _ _ (init_register w.prover platform ranges w.pDurable) run
    obtain ⟨rfl, loaded⟩ := out
    refine ⟨h.durable, ?_, h.timeout⟩
    rcases loaded with e | ⟨loaded, rfl | rfl, e⟩ <;> obtain ⟨rfl, -⟩ := Prod.mk.inj e
    · exact h.ram
    · exact zero_le_counter _
    · exact UInt32.le_refl _
  | @proverInitReset platform ranges d cut =>
    have left := safe_cut _ _ _ _ (init_register w.prover platform ranges w.pDurable) cut
    obtain rfl := left
    exact ⟨h.durable, zero_le_counter _, h.timeout⟩
  | @prover req resp resp' len p d can run =>
    have out := safe_exec _ _ _ _ _ (handle_register w.prover req resp w.pDurable) run
    obtain ⟨ram, moved⟩ := handle_behind pStart h.ram out
    refine ⟨?_, ram, h.timeout⟩
    rcases moved with rfl | ⟨msg, accepted, rfl⟩
    · exact h.durable
    · exact committed can accepted
  | @proverReset req resp d can cut =>
    have left := safe_cut _ _ _ _ (handle_register w.prover req resp w.pDurable) cut
    refine ⟨?_, zero_le_counter _, h.timeout⟩
    rcases left with rfl | ⟨msg, accepted, rfl⟩
    · exact h.durable
    · exact committed can accepted

theorem behind_run (shared : baseP.kAuth = baseV.kAuth) {c : UInt32}
    (run : Run (NetStep tc baseV baseP) (.start c c) es w) : Behind w := by
  generalize hs : NetWorld.start c c = s at run
  induction run with
  | start =>
    subst hs
    exact ⟨UInt32.le_refl c, zero_le_counter c, fun ready => by cases ready⟩
  | next before last ih =>
    subst hs
    exact behind_step shared (inv_run shared before) ih last

/-- In every reachable state the prover is behind, and where both parties are ready and
    nothing is outstanding, one undisturbed session ends with the verdict on the measured
    memory. -/
theorem never_desynchronised (tc : TinyCrypt) (baseV baseP : AuthMaterial)
    (shared : baseP.kAuth = baseV.kAuth) (c : UInt32) (es : List NetEvent) (w : NetWorld)
    (run : Run (NetStep tc baseV baseP) (.start c c) es w) :
    InStep es w ∧
    ∀ sha256 hmac memory out resp, tc.Computes sha256 hmac → w.verifier.ready = true →
      w.prover.ready = true → w.verifier.outstanding = false →
      w.verifier.material.counter < UINT32_MAX → Measurable w.prover.ranges →
      84 ≤ out.length → 33 ≤ resp.length →
      Undisturbed tc baseV baseP memory w.verifier w.prover w.vDurable w.pDurable out resp (· =
        sessionVerdict (hmac baseP.kAttest.data (measuredBytes memory w.prover.ranges))
          baseV.referenceVs) := by
  have inv := inv_run shared run
  have behind := behind_run shared run
  refine ⟨⟨behind.durable, UInt32.le_trans behind.ram behind.durable, inv.challengedLe⟩, ?_⟩
  intro sha256 hmac memory out resp computes vReady pReady idle below ok room room'
  have vMaterial := inv.vReady vReady
  have pMaterial := inv.pReady pReady
  have issue : CanIssue w.verifier w.vDurable :=
    ⟨vReady, idle, UInt32.ne_of_lt below, by rw [vMaterial], behind.timeout vReady⟩
  have answer : CanAnswer w.verifier w.prover w.pDurable := by
    refine ⟨pReady, ?_, ?_, ?_, ok⟩
    · rw [pMaterial]
    · rw [vMaterial, pMaterial, ← shared]
    · rw [vMaterial, pMaterial]
      exact behind.durable
  have session := @session_ends tc sha256 hmac memory _ _ _ _ computes baseV baseP out resp issue answer
    room room'
  rw [vMaterial, pMaterial] at session
  exact session

theorem never_desynchronised_session : ∃ w,
    Run (NetStep referenceTinyCrypt smallVerifier smallProver) (.start 5 5) [.other, .other] w ∧
    InStep [.other, .other] w ∧
    Undisturbed referenceTinyCrypt smallVerifier smallProver (fun _ => 0xFF) w.verifier w.prover
      w.vDurable w.pDurable (List.replicate 84 0) (List.replicate 33 0) (· = sessionVerdict
        ⟨Sha256.hmac smallProver.kAttest.data (measuredBytes (fun _ => 0xFF) smallRanges), rfl⟩
        smallVerifier.referenceVs) := by
  have up := @up_reached referenceTinyCrypt smallVerifier smallProver smallRanges 1000 5 (by decide) rfl
  obtain ⟨inStep, session⟩ := never_desynchronised referenceTinyCrypt smallVerifier smallProver rfl 5
    _ _ up
  have verdict := session _ _ (fun _ => 0xFF) (List.replicate 84 0) (List.replicate 33 0)
    reference_computes rfl rfl rfl (by decide) ⟨by decide, by decide⟩ (by simp) (by simp)
  exact ⟨_, up, inStep, verdict⟩

end

end SimpleAttestation.Synchrony
