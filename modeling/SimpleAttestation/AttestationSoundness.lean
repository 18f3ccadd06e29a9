import SimpleAttestation.ProvisionedBoards

set_option autoImplicit false

/-!
# Soundness of the attestation

An honest session goes through the network of the two boards; whatever else goes through it,
a verdict is about the image that the factory flashed.
-/
namespace SimpleAttestation.AttestationSoundness
open ByteStrings Wire Crypto CallProgram Runs Platform ProverRequest VerifierSession VerifierRuns Session
open Hardware FlashDriver BoardStore BoardProtection BoardRefinement BoardNode BoardSession BoardLife
open CalmHardware BoardNetwork HardwareSession Network Agreement ProvisionHex Provisioned ProvisionedBoards
open VerifierLoop (AUTH_TIMEOUT_MS)
open Store hiding boardPlatform boardStoreLoad boardStoreSave

section
variable {tc : TinyCrypt} {sha256 : List UInt8 → Bytes 32} {hmac : List UInt8 → List UInt8 → Bytes 32}
  {cfg cfgV cfgP : Config} {inTime : UInt32 → Prop} {rom romV romP : ℕ → UInt8}
  {options optionsV optionsP : Options} {d e : UInt32} {n : Node} {α : Type} {w : Parties}

theorem calm_hardware (c : HalCall) (s : Chip) (r : c.Reply) (t : Chip)
    (h : (calmHardware cfg inTime).answers c s r t) : (hardware cfg).answers c s r t := h.1

theorem calmly_runs {prog : PlatformProg α} {Q : α → Node → Prop} (h : Calmly tc cfg inTime n prog Q) :
    ∃ a n', n.Runs tc cfg prog a n' ∧ Q a n' := by
  obtain ⟨⟨⟨a, st⟩, t, exec⟩, all⟩ := h
  exact ⟨a, ⟨st, t, true⟩, ⟨rfl, exec_mono calm_hardware _ _ _ _ exec⟩, all _ _ exec⟩

theorem up_runs (computes : tc.Computes sha256 hmac) (mapped : Mapped cfg) (protected_ : Protected cfg options)
    (clock : ∃ now, inTime now) (up : Up tc cfg rom options d n) {prog : PlatformProg α} {Q : α → UInt32 → Prop}
    (safe : Safe (calmStore cfg rom inTime) Forward (fun _ => True) prog Q d) :
    ∃ a d' n', n.Runs tc cfg prog a n' ∧ Q a d' ∧ Up tc cfg rom options d' n' := by
  obtain ⟨a, n', runs, d', q, up'⟩ := calmly_runs (Q := fun a n' => ∃ d', Q a d' ∧ Up tc cfg rom options d' n')
    (calmly_up computes mapped protected_ clock up safe fun _ d' _ q up' => ⟨d', q, up'⟩)
  exact ⟨a, d', n', runs, q, up'⟩

def worldOf (w : Parties) (released : List (List UInt8)) : BoardWorld :=
  ⟨w.verifier, w.vNode, w.prover, w.pNode, released⟩

theorem session_delivered (computes : tc.Computes sha256 hmac)
    (joined : Joined cfgV cfgP romV romP optionsV optionsP)
    (h : InStep tc cfgV cfgP romV romP optionsV optionsP d e w) (below : d ≠ UINT32_MAX) (key : Bytes 32)
    (released : List (List UInt8)) : ∃ msg w', Run (BoardStep tc cfgV cfgP key) (worldOf w released)
      [.challenged msg, .answered msg (resultFor (digestOf hmac cfgP romP) (referenceOf cfgV romV)),
        .accepted msg.counter msg.vs msg.nonce (resultFor (digestOf hmac cfgP romP) (referenceOf cfgV romV))]
      w' := by
  have clock : ∃ _ : UInt32, True := ⟨0, trivial⟩
  have answer := can_answer joined h
  have challenge : Safe (calmStore cfgV romV fun _ => True) Forward (fun _ => True)
      (runOp tc w.verifier (.challenge (List.replicate 84 0))) (fun x d' => ∃ msg now,
        Issues tc w.verifier (List.replicate 84 0) msg ∧ d' = msg.counter ∧
        x = (w.verifier.begin msg now, .request (msgBytes msg ++ []) 84)) d := by
    refine safe_then (calmStore_challenge computes (can_issue h below) (by simp)) ?_
    rintro _ _ ⟨msg, now, issues, same, rfl⟩ -
    exact ⟨trivial, msg, now, issues, same, rfl⟩
  obtain ⟨_, _, vNode, first, ⟨msg, now, issues, rfl, rfl⟩, vUp⟩ :=
    up_runs computes joined.mappedV joined.protectedV clock h.vUp challenge
  have accepted : Accepts tc w.prover (msgBytes msg) (List.replicate 33 0) msg :=
    issues_accepts answer issues (by simp)
  obtain ⟨_, _, pNode, second, ⟨result, tag, same, tagged, rfl, rfl⟩, -⟩ :=
    up_runs computes joined.mappedP joined.protectedP clock h.pUp
      (calmStore_handle computes accepted answer.follows answer.measurable (h.ranges ▸ joined.steady))
  have small : result ≤ 1 := same ▸ resultOf_le _ msg
  have genuine : Genuine tc (w.verifier.begin msg now) _ result := response_genuine answer.shared small tagged
  have verdicts : Safe (calmStore cfgV romV (w.verifier.begin msg now).early) Forward (fun _ => True)
      (runOp tc (w.verifier.begin msg now) (.verify (reportBytes ⟨result, tag⟩))) (fun x _ =>
        x = (verifierCancel (w.verifier.begin msg now), .result (verdict result))) msg.counter := by
    refine safe_then (calmStore_verify ⟨h.vReady, rfl⟩ genuine) ?_
    rintro _ _ ⟨rfl, -⟩ -
    exact ⟨trivial, rfl⟩
  obtain ⟨_, _, vNode', third, rfl, -⟩ := up_runs computes joined.mappedV joined.protectedV
    ⟨now, early_begin msg now h.timeout⟩ vUp verdicts
  -- The three calls, as the adversary delivers them.
  have starts : ∀ {n : Node} {op : VerifierOp}, n.on = true → Starts n op := by
    intro n op on off
    rw [on] at off
    cases off
  have issued := @BoardStep.verifier tc cfgV cfgP key (worldOf w released) (.challenge (List.replicate 84 0)) _ _ _
    (starts h.vUp.1) trivial first
  have event := event_issued w.verifier msg []
  change BoardStep _ _ _ _ _ (verifierEvent w.verifier (.request (msgBytes msg ++ []) 84))
    ⟨_, _, _, _, released ++ releases (verifierEvent w.verifier (.request (msgBytes msg ++ []) 84))⟩ at issued
  rw [event] at issued
  have canRequest : CanRequest tc key (released ++ [msgAuth msg]) (msgBytes msg) :=
    fun _ _ _ => List.mem_append_right _ (List.mem_singleton.mpr (take_msgBytes msg))
  have handled := @BoardStep.prover tc cfgV cfgP key ⟨w.verifier.begin msg now, vNode, w.prover,
    w.pNode, released ++ [msgAuth msg]⟩ (msgBytes msg) _ _ _ _ _ h.pUp.1 canRequest second
  rw [event_answered _ _ (parseMsg_msgBytes msg)] at handled
  have canRespond : CanRespond tc key ((released ++ [msgAuth msg]) ++ releases (.answered msg result))
      (w.verifier.begin msg now) (reportBytes ⟨result, tag⟩) := by
    intro report input parsed auth _
    have bytes := (parseReport_eq_some.mp parsed).1
    obtain rfl : result = report.result := (List.cons.inj bytes).1
    refine List.mem_append_right _ ?_
    change simpleReportAuth report.result msg.counter msg.nonce = some input at auth
    rw [releases, auth]
    exact List.mem_singleton.mpr rfl
  have closed := @BoardStep.verifier tc cfgV cfgP key ⟨w.verifier.begin msg now, vNode,
    w.prover.advance msg.counter, pNode, (released ++ [msgAuth msg]) ++ releases (.answered msg result)⟩
    (.verify (reportBytes ⟨result, tag⟩)) _ _ _ (starts vUp.1) canRespond third
  have event := event_verdict (w.verifier.begin msg now) small
  change _ = NetEvent.accepted msg.counter w.verifier.material.referenceVs msg.nonce result at event
  rw [← issues.vs] at event
  change BoardStep _ _ _ _ _ (verifierEvent (w.verifier.begin msg now) (.result (verdict result))) _ at closed
  rw [event] at closed
  have one : result = resultFor (digestOf hmac cfgP romP) (referenceOf cfgV romV) := by
    rw [same, h.ranges, h.pMaterial, resultOf, issues.vs, h.vMaterial]
    rfl
  rw [← one]
  exact ⟨msg, _, .next (.next (.next (.start _) issued) handled) closed⟩

theorem boots_delivered (computes : tc.Computes sha256 hmac)
    (joined : Joined cfgV cfgP romV romP optionsV optionsP)
    (loadableV : Loadable tc cfgV.toBoard (provisioned cfgV romV) d (blocksOf cfgV romV))
    (loadableP : Loadable tc cfgP.toBoard (provisioned cfgP romP) e (blocksOf cfgP romP)) (behind : e ≤ d)
    (key : Bytes 32) : ∃ w, InStep tc cfgV cfgP romV romP optionsV optionsP d e w ∧
      Run (BoardStep tc cfgV cfgP key) (.start romV optionsV romP optionsP) [.other, .other] (worldOf w []) := by
  have timeout : AUTH_TIMEOUT_MS ≠ 0 := by decide
  have init : runOp tc .zero (.init allCallbacks AUTH_TIMEOUT_MS) = loadAndReport fun loaded =>
      ((⟨allCallbacks, loaded.getD .zero, .fill 16 0, 0, AUTH_TIMEOUT_MS, loaded.isSome, false⟩ : Verifier),
        Answer.loaded loaded.isSome) := by
    rw [runOp, initVerifier_eq timeout (by decide)]
    exact loadAndReport_map _ _
  obtain ⟨_, vNode, first, rfl, vUp⟩ :=
    calmly_runs (calmly_boot computes joined.mappedV joined.protectedV loadableV _)
  rw [← init] at first
  obtain ⟨_, pNode, second, rfl, pUp⟩ := calmly_runs (calmly_boot computes joined.mappedP joined.protectedP
    loadableP fun loaded => ((⟨allCallbacks, loaded.getD .zero, Board.ranges cfgP.toBoard, loaded.isSome⟩ : Prover),
      loaded.isSome))
  have booted := @BoardStep.verifier tc cfgV cfgP key (.start romV optionsV romP optionsP)
    (.init allCallbacks AUTH_TIMEOUT_MS) _ _ _ (fun _ => rfl) trivial first
  have started := @BoardStep.proverBoot tc cfgV cfgP key
    ⟨bootedVerifier (materialOf (provisioned cfgV romV) d) AUTH_TIMEOUT_MS, vNode, .zero, .off romP optionsP, []⟩
    _ _ _ rfl second
  exact ⟨⟨_, vNode, _, pNode⟩, ⟨rfl, rfl, timeout, rfl, vUp, rfl, rfl, rfl, pUp, behind⟩,
    .next (.next (.start _) booted) started⟩

end

/-- Soundness of the attestation, down to the flash of both boards. Whatever the network delivers
    and wherever either board loses power, a verdict answers the newest challenge, is given once,
    and tells whether the image that the prover's factory flashed has the provisioned digest. -/
theorem attestation_sound (tc : TinyCrypt) (sha256 : List UInt8 → Bytes 32)
    (hmac : List UInt8 → List UInt8 → Bytes 32) (computes : tc.Computes sha256 hmac)
    (protectionV protectionP : Bool) (romV romP : ℕ → UInt8) (optionsV optionsP : Options)
    (shared : bytesAt 32 (provisioned (h743Config protectionP) romP) 16 =
      bytesAt 32 (provisioned (g431Config protectionV) romV) 16)
    (es : List NetEvent) (w : BoardWorld)
    (run : Run (BoardStep tc (g431Config protectionV) (h743Config protectionP)
      (bytesAt 32 (provisioned (g431Config protectionV) romV) 16)) (.start romV optionsV romP optionsP) es w) :
    Agreement es ∧ ∀ counter vs nonce r, .accepted counter vs nonce r ∈ es →
      (r = 1 ↔ hmac (bytesAt 32 (provisioned (h743Config protectionP) romP) 48).data
        (measuredBytes romP (Board.ranges h743)) = bytesAt 32 (provisioned (g431Config protectionV) romV) 80) := by
  obtain ⟨true_, net, inv, -⟩ := boards_run (mapped_g431 protectionV) (mapped_h743 protectionP)
    (steady_h743 protectionP) shared run
  refine ⟨inv.agreement, fun counter vs nonce r accepted => ?_⟩
  obtain rfl := true_ _ accepted
  obtain ⟨pre, post, split⟩ := List.append_of_mem accepted
  obtain ⟨before, msg, after, same, -, -, vs, -, answered, -⟩ := inv.agreement pre _ post split
  have there : NetEvent.answered msg r ∈ es := by
    rw [split, same]
    simp [answered]
  obtain ⟨digest, measured, rfl⟩ := true_ _ there
  rw [ProverLoop.measured_eq computes romP _ (measurable_h743 protectionP)] at measured
  obtain rfl := Option.some.inj measured
  rw [resultOf, vs]
  split
  · rename_i equal
    exact ⟨fun _ => equal, fun _ => rfl⟩
  · rename_i differ
    exact ⟨fun one => absurd one (by decide), fun equal => absurd equal differ⟩

theorem attestation_sound_small : ∃ (romV romP : ℕ → UInt8) (es : List NetEvent) (w : BoardWorld),
    Run (BoardStep referenceTinyCrypt (g431Config true) (h743Config true) (.fill 32 1))
      (.start romV verifierOptions romP smallOptions) es w ∧ Agreement es ∧
    (∃ counter vs nonce, .accepted counter vs nonce 1 ∈ es) ∧
    Sha256.hmac (bytesAt 32 (provisioned (h743Config true) romP) 48).data
      (measuredBytes romP (Board.ranges h743)) = (bytesAt 32 (provisioned (g431Config true) romV) 80).data := by
  obtain ⟨g, memory7, memory4, seed, -, -, -, made, flashed7, flashed4⟩ :=
    @generated_flashed referenceTinyCrypt _ _ (.fill 32 1) (.fill 32 2) 5 reference_computes smallImage smallImage
      _ _ (small_accepted (Or.inl rfl)) (small_accepted (Or.inr rfl)) (by decide) (by decide) (by decide)
  obtain ⟨loadableV, authV, -, referenceV⟩ := @flashed_provisions _ _ _ _ (g431Config true) _ _ _ _ _
      _ _ reference_computes layout_g431 (by decide) (by decide) made flashed4
  obtain ⟨loadableP, authP, attestP, -⟩ := @flashed_provisions _ _ _ _ (h743Config true) _ _ _ _ _
      _ _ reference_computes layout_h743 (by decide) (by decide) made flashed7
  have joined : Joined (g431Config true) (h743Config true) (overErased memory4) (overErased memory7)
      verifierOptions smallOptions :=
    ⟨mapped_g431 true, mapped_h743 true, verifier_protected, prover_protected, steady_h743 true,
      measurable_h743 true, authP.trans authV.symm⟩
  obtain ⟨w, inStep, booted⟩ := boots_delivered reference_computes joined loadableV loadableP
    (UInt32.le_refl _) (.fill 32 1)
  obtain ⟨msg, w', session⟩ := session_delivered reference_computes joined inStep (by decide) (.fill 32 1) []
  have run := run_append booted session
  have same : digestOf (fun key msg => ⟨Sha256.hmac key msg, rfl⟩) (h743Config true) (overErased memory7) =
      referenceOf (g431Config true) (overErased memory4) := by
    rw [digestOf, referenceOf, attestP, referenceV]
    exact congrArg (fun bytes => (⟨Sha256.hmac (Bytes.fill 32 2).data bytes, rfl⟩ : Bytes 32))
      (flashed_measured flashed7).2
  rw [resultFor, if_pos same] at run
  have shared := run
  rw [← authV] at shared
  obtain ⟨agreement, sound⟩ := attestation_sound referenceTinyCrypt _ _ reference_computes true true
    (overErased memory4) (overErased memory7) verifierOptions smallOptions joined.shared _ _ shared
  have accepted : NetEvent.accepted msg.counter msg.vs msg.nonce 1 ∈ [NetEvent.other, .other] ++
      [.challenged msg, .answered msg 1, .accepted msg.counter msg.vs msg.nonce 1] := by simp
  exact ⟨_, _, _, w', run, agreement, ⟨_, _, _, accepted⟩, congrArg Bytes.data ((sound _ _ _ 1 accepted).mp rfl)⟩

end SimpleAttestation.AttestationSoundness
