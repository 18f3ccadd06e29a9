import SimpleAttestation.HardwareSession
import SimpleAttestation.Provisioned

set_option autoImplicit false

/-!
# What the provisioning tool writes, on the hardware
-/
namespace SimpleAttestation.ProvisionedBoards
open ByteStrings Crypto CallProgram Platform Session Journal JournalScan JournalRegister Hardware FlashDriver
open BoardStore BoardProtection BoardRefinement BoardNode BoardSession BoardLife BoardNetwork HardwareSession
open ProvisionHex ProvisionRecord Provisioned
open Store hiding boardPlatform boardStoreLoad boardStoreSave

section
variable {tc : TinyCrypt} {sha256 : List UInt8 → Bytes 32} {hmac : List UInt8 → List UInt8 → Bytes 32}
  {config : Provision.BoardConfig} {cfg : Config} {rawImage record : List UInt8} {memory memory' : ℕ → UInt8}
  {kAuth kAttest reference seed : Bytes 32} {counter : ℕ}

theorem flashed_changed (layout : Layout config cfg.toBoard)
    (flashed : Flashed config cfg.toBoard rawImage record seed (installed cfg.toBoard memory))
    (same : ∀ a, Provision.MEASURE_START + config.imageLength ≤ a → memory' a = memory a) :
    Flashed config cfg.toBoard (readMemory memory' Provision.MEASURE_START config.imageLength).data record seed
      (installed cfg.toBoard memory') := by
  obtain ⟨positive, belowKeys, belowJournals⟩ := layout.image
  have blocks := layout.blocks
  refine ⟨rfl, ?_, ?_, fun k two => ?_⟩
  · change (readMemory memory' Provision.MEASURE_START config.imageLength).data = _
    rw [Provision.ljust, Bytes.length_data, Nat.sub_self, List.replicate_zero, List.append_nil]
  · rw [← flashed.record]
    exact List.map_congr_left fun i _ => same _ (by omega)
  · rw [← flashed.blocks k two]
    refine slots_congr fun o _ => same _ ?_
    split <;> omega

theorem flashed_provisions (computes : tc.Computes sha256 hmac) (layout : Layout config cfg.toBoard)
    (low : 1 ≤ counter) (high : counter ≤ 0xFFFFFFFE) (made : recordOf tc kAuth (UInt32.ofNat counter) = some seed)
    (flashed : Flashed config cfg.toBoard rawImage
      (recordBytes sha256 config.role kAuth kAttest reference counter) seed (installed cfg.toBoard memory)) :
    Loadable tc cfg.toBoard (provisioned cfg memory) (UInt32.ofNat counter) (blocksOf cfg memory) ∧
    bytesAt 32 (provisioned cfg memory) 16 = kAuth ∧ bytesAt 32 (provisioned cfg memory) 48 = kAttest ∧
    bytesAt 32 (provisioned cfg memory) 80 = reference := by
  have material := flashed_material flashed 0
  exact ⟨flashed_loadable computes layout (counter_inside low high).1 made flashed,
    congrArg AuthMaterial.kAuth material, congrArg AuthMaterial.kAttest material,
    congrArg AuthMaterial.referenceVs material⟩

theorem generated_flashed (computes : tc.Computes sha256 hmac) {h7 g4 image7 image4 : List UInt8}
    (accepted7 : Provision.padImage h7 Provision.h743.imageLength Provision.h743.ramEnd = .ok image7)
    (accepted4 : Provision.padImage g4 Provision.g431.imageLength Provision.g431.ramEnd = .ok image4)
    (distinct : kAuth ≠ kAttest) (low : 1 ≤ counter) (high : counter ≤ 0xFFFFFFFE) :
    ∃ g memory7 memory4 seed,
      Provision.generate sha256 hmac h7 g4 kAuth.data kAttest.data counter = .ok g ∧
      decodeHex g.h743.hex = some memory7 ∧ decodeHex g.g431.hex = some memory4 ∧
      recordOf tc kAuth (UInt32.ofNat counter) = some seed ∧
      Flashed Provision.h743 h743 h7 (recordBytes sha256 Provision.h743.role kAuth kAttest
        (hmac kAttest.data image7) counter) seed (installed h743 (overErased memory7)) ∧
      Flashed Provision.g431 g431 g4 (recordBytes sha256 Provision.g431.role kAuth kAttest
        (hmac kAttest.data image7) counter) seed (installed g431 (overErased memory4)) := by
  obtain ⟨seed, made, record⟩ := makeRecord_seed computes kAuth low high
  have keys : ¬ (kAuth.data.length ≠ 32 ∨ kAttest.data.length ≠ 32 ∨ kAuth.data = kAttest.data) := by
    simpa [Bytes.ext_iff] using distinct
  obtain ⟨files7, memory7, written7, decoded7, flashed7⟩ := @boardFiles_flashed sha256 Provision.h743
    h743 h7 kAuth kAttest (hmac kAttest.data image7) seed counter layout_h743 (padImage_ok accepted7).1 image7
  obtain ⟨files4, memory4, written4, decoded4, flashed4⟩ := @boardFiles_flashed sha256 Provision.g431
    g431 g4 kAuth kAttest (hmac kAttest.data image7) seed counter layout_g431 (padImage_ok accepted4).1 image4
  refine ⟨⟨(hmac kAttest.data image7).data, files7, files4⟩, memory7, memory4, seed, ?_, decoded7, decoded4,
    made, flashed7, flashed4⟩
  unfold Provision.generate
  simp only [accepted7, accepted4, if_neg keys, record, Int.toNat_natCast, written7, written4, bind,
    Except.bind]
  rfl

end

/-- The tool's files on both boards, and whatever image on the prover. As long as nothing fails
    and counters last, every session gets the verdict on that image. -/
theorem provisioned_sessions (tc : TinyCrypt) (sha256 : List UInt8 → Bytes 32)
    (hmac : List UInt8 → List UInt8 → Bytes 32) (computes : tc.Computes sha256 hmac)
    (h7 g4 image7 image4 : List UInt8)
    (accepted7 : Provision.padImage h7 Provision.h743.imageLength Provision.h743.ramEnd = .ok image7)
    (accepted4 : Provision.padImage g4 Provision.g431.imageLength Provision.g431.ramEnd = .ok image4)
    (kAuth kAttest : Bytes 32) (distinct : kAuth ≠ kAttest) (counter k : ℕ) (low : 1 ≤ counter)
    (last : counter + k ≤ 0xFFFFFFFE) (protectionV protectionP : Bool) (optionsV optionsP : Options)
    (protectedV : Protected (g431Config protectionV) optionsV)
    (protectedP : Protected (h743Config protectionP) optionsP) :
    ∃ g memory7 memory4,
      Provision.generate sha256 hmac h7 g4 kAuth.data kAttest.data counter = .ok g ∧
      decodeHex g.h743.hex = some memory7 ∧ decodeHex g.g431.hex = some memory4 ∧
      measuredBytes (overErased memory7) (Board.ranges h743) = image7 ∧
      ∀ romP : ℕ → UInt8, (∀ a, 0x08020000 ≤ a → romP a = overErased memory7 a) →
        Boots tc (g431Config protectionV) (h743Config protectionP) (overErased memory4) romP optionsV optionsP
          fun w => w.Concludes tc (g431Config protectionV) (h743Config protectionP)
            (resultFor (hmac kAttest.data (measuredBytes romP (Board.ranges h743))) (hmac kAttest.data image7))
            (sessionVerdict (hmac kAttest.data (measuredBytes romP (Board.ranges h743)))
              (hmac kAttest.data image7)) k := by
  obtain ⟨g, memory7, memory4, seed, generated, decoded7, decoded4, made, flashed7, flashed4⟩ :=
    generated_flashed computes accepted7 accepted4 distinct low (by omega)
  refine ⟨g, memory7, memory4, generated, decoded7, decoded4, ?_, fun romP same => ?_⟩
  · rw [(padImage_ok accepted7).2]
    exact (flashed_measured flashed7).2
  · have changed := @flashed_changed _ (h743Config protectionP) _ _ _ romP _ layout_h743 flashed7 same
    obtain ⟨loadableV, authV, -, referenceV⟩ := @flashed_provisions _ _ _ _ (g431Config protectionV) _ _ _ _ _
      _ _ computes layout_g431 low (by omega) made flashed4
    obtain ⟨loadableP, authP, attestP, -⟩ := @flashed_provisions _ _ _ _ (h743Config protectionP) _ _ _ _ _
      _ _ computes layout_h743 low (by omega) made changed
    have joined : Joined (g431Config protectionV) (h743Config protectionP) (overErased memory4) romP optionsV
        optionsP :=
      ⟨mapped_g431 protectionV, mapped_h743 protectionP, protectedV, protectedP, steady_h743 protectionP,
        measurable_h743 protectionP, authP.trans authV.symm⟩
    have value : (UInt32.ofNat counter).toNat = counter := by
      rw [UInt32.toNat_ofNat']
      exact Nat.mod_eq_of_lt (by omega)
    refine boots_mono (fun w inStep => ?_)
      (boots_in_step computes joined loadableV loadableP (UInt32.le_refl _))
    have concludes := sessions_conclude computes joined k inStep (by omega)
    rw [digestOf, referenceOf, attestP, referenceV] at concludes
    exact concludes

def verifierOptions : Options :=
  ⟨0x20000, fun area => if area = 0 then ⟨1, false, fun _ => false, 0, 55⟩ else ⟨1, false, fun _ => false, 63, 63⟩,
    false, false⟩

theorem verifier_protected : Protected (g431Config true) verifierOptions :=
  ⟨by decide, nofun, fun _ => ⟨rfl, ⟨rfl, rfl⟩, ⟨rfl, rfl⟩⟩⟩

theorem prover_protected : Protected (h743Config true) smallOptions :=
  ⟨by decide, rfl, fun _ => ⟨rfl, rfl, rfl⟩⟩

theorem provisioned_sessions_small : ∃ (g : Provision.Generated) (memory7 memory4 : HexMemory),
    Provision.generate (fun data => ⟨Sha256.sha256 data, rfl⟩) (fun key msg => ⟨Sha256.hmac key msg, rfl⟩)
      smallImage smallImage (Bytes.fill 32 1).data (Bytes.fill 32 2).data (5 : ℕ) = .ok g ∧
    decodeHex g.h743.hex = some memory7 ∧ decodeHex g.g431.hex = some memory4 ∧
    Boots referenceTinyCrypt (g431Config true) (h743Config true) (overErased memory4) (overErased memory7)
      verifierOptions smallOptions fun w =>
        w.Concludes referenceTinyCrypt (g431Config true) (h743Config true) 1 .pass 1000 := by
  obtain ⟨g, memory7, memory4, generated, decoded7, decoded4, image, sessions⟩ :=
    provisioned_sessions referenceTinyCrypt _ _ reference_computes smallImage smallImage _ _
      (small_accepted (Or.inl rfl)) (small_accepted (Or.inr rfl)) (.fill 32 1) (.fill 32 2) (by decide) 5 1000
      (by decide) (by decide) true true verifierOptions smallOptions verifier_protected prover_protected
  have unchanged := sessions (overErased memory7) fun _ _ => rfl
  rw [image, resultFor, sessionVerdict, if_pos rfl, if_pos rfl] at unchanged
  exact ⟨g, memory7, memory4, generated, decoded7, decoded4, unchanged⟩

end SimpleAttestation.ProvisionedBoards
