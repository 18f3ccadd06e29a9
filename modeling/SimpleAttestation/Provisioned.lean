import SimpleAttestation.BoardSession
import SimpleAttestation.ProvisionHex
import SimpleAttestation.ProvisionRecord

set_option autoImplicit false

/-!
# A provisioned pair of boards
-/
namespace SimpleAttestation.Provisioned
open ByteStrings Wire Crypto CallProgram Platform ProverRequest VerifierSession Session Journal
  JournalScan JournalLoad JournalCrash JournalRegister Store BoardSession ProvisionHex ProvisionRecord

def overErased (m : HexMemory) : ℕ → UInt8 := fun a => (m a).getD 0xFF

def installed (board : Board) (memory : ℕ → UInt8) : Installed where
  board := board
  record := (readMemory memory board.keyAddress 160).data
  flash := fun b o => memory ((if b = 0 then board.journalA else board.journalB) + o)
  memory := memory

/-- The addresses of the tool are those of the firmware, and no two segments meet. -/
structure Layout (config : Provision.BoardConfig) (board : Board) : Prop where
  role : UInt32.ofNat config.role = board.roleId
  keys : config.keys = board.keyAddress
  journals : config.journals = [board.journalA, board.journalB]
  start : board.measureStart = Provision.MEASURE_START
  length : board.measureLength = Provision.MEASURE_LENGTH
  image : 0 < config.imageLength ∧
    Provision.MEASURE_START + config.imageLength ≤ board.keyAddress ∧
    Provision.MEASURE_START + config.imageLength ≤ board.journalA
  blocks : board.journalA + board.journalBlockSize ≤ board.journalB
  apart : board.keyAddress + 160 ≤ board.journalA ∨
    board.journalB + board.journalBlockSize ≤ board.keyAddress
  whole : 32 ≤ board.journalBlockSize ∧ board.journalBlockSize % 32 = 0
  top : board.keyAddress + 160 ≤ 4294967296 ∧ board.journalB + board.journalBlockSize ≤ 4294967296

theorem layout_h743 : Layout Provision.h743 Store.h743 := by
  constructor <;> decide

theorem layout_g431 : Layout Provision.g431 Store.g431 := by
  constructor <;> decide

theorem read_segment {m : HexMemory} {start n : ℕ} {data : List UInt8}
    (held : ∀ i < data.length, m (start + i) = data[i]?)
    (none_ : ∀ i, data.length ≤ i → i < n → m (start + i) = none) (fits : data.length ≤ n) :
    (readMemory (overErased m) start n).data = Provision.ljust data n 0xFF := by
  apply List.ext_getElem
  · simp [Provision.ljust]
    omega
  · intro i hi _
    have hi' : i < n := by simpa using hi
    by_cases inside : i < data.length
    · simp [readMemory, overErased, Provision.ljust, held i inside, inside]
    · have out := none_ i (Nat.not_lt.mp inside) hi'
      simp [readMemory, overErased, Provision.ljust, out, List.getElem_append_right (Nat.not_lt.mp inside)]

def segmentsOf (board : Board) (rawImage record : List UInt8) (seed : Bytes 32) :
    List (ℕ × List UInt8) :=
  [(Provision.MEASURE_START, rawImage), (board.keyAddress, record), (board.journalA, seed.data),
    (board.journalB, seed.data)]

section
variable {config : Provision.BoardConfig} {board : Board} {rawImage record : List UInt8}
  {seed : Bytes 32}

theorem segments_ascend (layout : Layout config board) (fits : rawImage.length ≤ config.imageLength)
    (len : record.length = 160) :
    Ascending 0 ((segmentsOf board rawImage record seed).insertionSort Provision.segmentLe) := by
  have le : ∀ {a b : ℕ} (x y : List UInt8), a < b → Provision.segmentLe (a, x) (b, y) :=
    fun _ _ h => Or.inl h
  have gt : ∀ {a b : ℕ} (x y : List UInt8), b < a → ¬ Provision.segmentLe (a, x) (b, y) := by
    rintro a b x y h (h' | ⟨h', -⟩)
    · exact Nat.lt_asymm h h'
    · exact Nat.ne_of_gt h h'
  have seedLen := seed.length_data
  obtain ⟨positive, belowKeys, belowJournals⟩ := layout.image
  have blocks := layout.blocks
  have whole := layout.whole.1
  have ab := le seed.data seed.data (show board.journalA < board.journalB by omega)
  have rk := le rawImage record (show Provision.MEASURE_START < board.keyAddress by omega)
  have ra := le rawImage seed.data (show Provision.MEASURE_START < board.journalA by omega)
  rcases layout.apart with first | last
  · have ka := le record seed.data (show board.keyAddress < board.journalA by omega)
    simp only [segmentsOf, List.insertionSort_cons, List.insertionSort_nil, List.orderedInsert_nil,
      List.orderedInsert_cons, if_pos ab, if_pos ka, if_pos rk, Ascending,
      and_true]
    omega
  · have ka := gt record seed.data (show board.journalA < board.keyAddress by omega)
    have kb := gt record seed.data (show board.journalB < board.keyAddress by omega)
    simp only [segmentsOf, List.insertionSort_cons, List.insertionSort_nil, List.orderedInsert_nil,
      List.orderedInsert_cons, if_pos ab, if_neg ka, if_neg kb, if_pos ra, Ascending,
      and_true]
    omega

theorem segments_below (layout : Layout config board) (fits : rawImage.length ≤ config.imageLength)
    (len : record.length = 160) :
    ∀ seg ∈ segmentsOf board rawImage record seed, seg.1 + seg.2.length ≤ 4294967296 := by
  have seedLen := seed.length_data
  have image := layout.image
  have blocks := layout.blocks
  have whole := layout.whole.1
  have top := layout.top
  simp only [segmentsOf, List.forall_mem_cons, List.not_mem_nil, false_implies, implies_true,
    and_true]
  omega

structure Flashed (config : Provision.BoardConfig) (board : Board) (rawImage record : List UInt8)
    (seed : Bytes 32) (b : Installed) : Prop where
  same : b.board = board
  image : (readMemory b.memory Provision.MEASURE_START config.imageLength).data =
    Provision.ljust rawImage config.imageLength 0xFF
  record : b.record = record
  blocks : ∀ k, k < 2 → slots board.journalBlockSize b.flash k =
    seed :: List.replicate (board.journalBlockSize / 32 - 1) blank

theorem slots_congr {blockSize block : ℕ} {f g : Flash} (h : ∀ o < blockSize, f block o = g block o) :
    slots blockSize f block = slots blockSize g block := by
  refine List.map_congr_left fun k hk => ?_
  have hk' := List.mem_range.mp hk
  ext1
  refine List.map_congr_left fun i hi => h _ ?_
  have hi' := List.mem_range.mp hi
  omega

theorem file_flashed (layout : Layout config board) (fits : rawImage.length ≤ config.imageLength)
    (len : record.length = 160) {text : List Char}
    (written : Provision.ihex (segmentsOf board rawImage record seed) = .ok text) :
    ∃ m, decodeHex text = some m ∧
      Flashed config board rawImage record seed (installed board (overErased m)) := by
  have seedLen := seed.length_data
  obtain ⟨positive, belowKeys, belowJournals⟩ := layout.image
  have blocks := layout.blocks
  have whole := layout.whole.1
  have apart := layout.apart
  obtain ⟨m, decoded, held, none_⟩ := ihex_decodes written (segments_below layout fits len)
  simp only [segmentsOf, List.forall_mem_cons, List.not_mem_nil, false_implies, implies_true,
    and_true] at held none_
  obtain ⟨heldImage, heldRecord, heldA, heldB⟩ := held
  refine ⟨m, decoded, rfl, ?_, ?_, ?_⟩
  · exact read_segment heldImage (fun i _ _ => none_ _ (by omega)) fits
  · change (readMemory (overErased m) board.keyAddress 160).data = record
    rw [read_segment heldRecord (fun i _ _ => none_ _ (by omega)) (by omega), Provision.ljust, len]
    exact List.append_nil record
  · intro k hk
    rw [← slots_seed board.journalBlockSize seed hk whole]
    refine slots_congr fun o ho => ?_
    have block : ∀ start, (∀ i < seed.data.length, m (start + i) = seed.data[i]?) →
        (∀ i, seed.data.length ≤ i → i < board.journalBlockSize → m (start + i) = none) →
        overErased m (start + o) = seed.data.getD o 255 := by
      intro start held out
      by_cases inside : o < seed.data.length
      · rw [overErased, held o inside, List.getD_eq_getElem?_getD]
      · rw [overErased, out o (Nat.not_lt.mp inside) ho, List.getD_eq_getElem?_getD,
          List.getElem?_eq_none (Nat.not_lt.mp inside)]
    have two : k = 0 ∨ k = 1 := by omega
    rcases two with rfl | rfl
    · exact block board.journalA heldA fun i _ _ => none_ _ (by omega)
    · exact block board.journalB heldB fun i _ _ => none_ _ (by omega)

end

/-- A load returns `material` and a ready journal, whatever was in memory. -/
def Loads (tc : TinyCrypt) (b : Installed) (material : AuthMaterial) : Prop :=
  ∀ j, Ends (calmBoard b.board.journalBlockSize b.memory fun _ => True)
    (boardStoreLoad tc b.board b.record j) b.flash fun x t =>
      x.1 = some material ∧ x.2.ready = true ∧ t = b.flash

structure Working (tc : TinyCrypt) (bV bP : Installed) (kAuth kAttest reference : Bytes 32)
    (counter : UInt32) : Prop where
  prover : Loads tc bP ⟨kAuth, kAttest, reference, counter⟩
  verifier : Loads tc bV ⟨kAuth, kAttest, reference, counter⟩
  /-- The prover measures what is stored on the verifier. -/
  measured : ∀ base d, Ends (calmDevice base bP.memory fun _ => True)
    (attestationComputeValidState tc (materialOf bP.record 0).kAttest (Board.ranges bP.board)) d
      fun r _ => r = some (materialOf bV.record 0).referenceVs
  session : ∀ timeoutMs out resp, timeoutMs ≠ 0 → timeoutMs ≤ INT32_MAX → 84 ≤ out.length →
    33 ≤ resp.length → FirstSession tc bV bP timeoutMs out resp fun response r =>
      response.head? = some 1 ∧ r = .pass

section
variable {tc : TinyCrypt} {sha256 : List UInt8 → Bytes 32} {hmac : List UInt8 → List UInt8 → Bytes 32}
  {config : Provision.BoardConfig} {board : Board} {b : Installed} {rawImage image : List UInt8}
  {record : List UInt8} {kAuth kAttest reference seed : Bytes 32} {counter : ℕ}

theorem loads_of_loadable {d : UInt32} (h : Loadable tc b.board b.record d b.flash) :
    Loads tc b (materialOf b.record d) := by
  intro j
  refine ends_mono (safe_ends (fun c s _ => calmBoard_live ⟨0, trivial⟩ _ c s) _ _ _ (load_calm h j)) ?_
  rintro ⟨_, k⟩ t ⟨rfl, same, serving⟩
  exact ⟨rfl, serving.good.ready, same⟩

theorem padImage_ok {ramEnd imageLength : ℕ}
    (h : Provision.padImage rawImage imageLength ramEnd = .ok image) :
    rawImage.length ≤ imageLength ∧ image = Provision.ljust rawImage imageLength 0xFF := by
  unfold Provision.padImage at h
  by_cases size : rawImage.length < 8 ∨ imageLength < rawImage.length
  · rw [if_pos size] at h
    cases h
  · rw [if_neg size] at h
    refine ⟨Nat.not_lt.mp (not_or.mp size).2, ?_⟩
    dsimp only at h
    by_cases sp : ¬ (0x20000000 < Provision.unpackLe rawImage 0 ∧ Provision.unpackLe rawImage 0 ≤ ramEnd) ∨
        Provision.unpackLe rawImage 0 % 8 ≠ 0
    · rw [if_pos sp] at h
      cases h
    · rw [if_neg sp] at h
      split at h
      · cases h
      · exact (Except.ok.inj h).symm

theorem boardFiles_flashed (layout : Layout config board) (fits : rawImage.length ≤ config.imageLength)
    (image : List UInt8) :
    ∃ files m, Provision.boardFiles sha256 config rawImage image kAuth.data kAttest.data reference.data
        seed.data counter = .ok files ∧ decodeHex files.hex = some m ∧
      Flashed config board rawImage (recordBytes sha256 config.role kAuth kAttest reference counter) seed
        (installed board (overErased m)) := by
  have len := @length_recordBytes sha256 config.role counter kAuth kAttest reference
  obtain ⟨text, written⟩ := ihex_written (@segments_ascend config board rawImage _ seed layout fits len)
  obtain ⟨m, decoded, flashed⟩ := file_flashed layout fits len written
  have files : Provision.boardFiles sha256 config rawImage image kAuth.data kAttest.data reference.data
      seed.data counter = .ok ⟨text, recordBytes sha256 config.role kAuth kAttest reference counter,
        seed.data, seed.data, image⟩ := by
    rw [Provision.boardFiles, makeMaterial_record, layout.journals, layout.keys]
    change (Provision.ihex (segmentsOf board rawImage (recordBytes sha256 config.role kAuth kAttest
      reference counter) seed) >>= _) = _
    rw [written]
    rfl
  exact ⟨_, m, files, decoded, flashed⟩

theorem flashed_material (flashed : Flashed config board rawImage
    (recordBytes sha256 config.role kAuth kAttest reference counter) seed b) (c : UInt32) :
    materialOf b.record c = ⟨kAuth, kAttest, reference, c⟩ := by
  rw [flashed.record, record_material]

theorem flashed_loadable (computes : tc.Computes sha256 hmac) (layout : Layout config board)
    (pos : 0 < UInt32.ofNat counter) (made : recordOf tc kAuth (UInt32.ofNat counter) = some seed)
    (flashed : Flashed config board rawImage
      (recordBytes sha256 config.role kAuth kAttest reference counter) seed b) :
    Loadable tc b.board b.record (UInt32.ofNat counter) b.flash := by
  have nonzero : UInt32.ofNat counter ≠ 0 := fun zero => by
    rw [zero] at pos
    exact absurd pos (by decide)
  have valid : (journalOf board b.record).valid = true := by
    simp [journalOf, AuthJournal.valid, layout.whole]
  rw [flashed.same]
  have key : (journalOf board b.record).key = kAuth :=
    congrArg AuthMaterial.kAuth (flashed_material flashed 0)
  refine ⟨({ journalOf board b.record with ready := true } : AuthJournal).moveTo
    (UInt32.ofNat counter) 1 32, ?_, ⟨valid, rfl, ⟨rfl, rfl, rfl⟩, ?_⟩, rfl⟩
  · rw [flashed.record]
    exact record_valid computes layout.role layout.start layout.length nonzero
  · have initial : initialOf b.record = UInt32.ofNat counter := by
      rw [flashed.record, record_initial]
    rw [initial]
    refine seeded_matches flashed.blocks ?_ pos
    change recordOf tc (journalOf board b.record).key _ = _
    rw [key, made]

theorem flashed_measured (flashed : Flashed Provision.h743 Store.h743 rawImage record seed b) :
    Measurable (Board.ranges b.board) ∧ measuredBytes b.memory (Board.ranges b.board) =
      Provision.ljust rawImage Provision.h743.imageLength 0xFF := by
  have ranges : Board.ranges b.board = [⟨some 0x08000000, 0x20000⟩] := by
    rw [flashed.same]
    rfl
  rw [ranges]
  refine ⟨⟨List.cons_ne_nil _ _, by simp [AttestationRange.valid, UINT_MAX]⟩, ?_⟩
  rw [← flashed.image, measuredBytes, List.map_singleton, List.flatten_singleton]
  rfl

theorem flashed_working (computes : tc.Computes sha256 hmac) {rawImage7 rawImage4 : List UInt8}
    {bV bP : Installed} (pos : 0 < UInt32.ofNat counter) (below : UInt32.ofNat counter ≠ UINT32_MAX)
    (made : recordOf tc kAuth (UInt32.ofNat counter) = some seed)
    (measured : hmac kAttest.data (Provision.ljust rawImage7 Provision.h743.imageLength 0xFF) = reference)
    (flashedP : Flashed Provision.h743 Store.h743 rawImage7
      (recordBytes sha256 Provision.h743.role kAuth kAttest reference counter) seed bP)
    (flashedV : Flashed Provision.g431 Store.g431 rawImage4
      (recordBytes sha256 Provision.g431.role kAuth kAttest reference counter) seed bV) :
    Working tc bV bP kAuth kAttest reference (UInt32.ofNat counter) := by
  have loadP := flashed_loadable computes layout_h743 pos made flashedP
  have loadV := flashed_loadable computes layout_g431 pos made flashedV
  have materialP := flashed_material flashedP
  have materialV := flashed_material flashedV
  obtain ⟨measurable, bytes⟩ := flashed_measured flashedP
  refine ⟨?_, ?_, ?_, ?_⟩
  · rw [← materialP]
    exact loads_of_loadable loadP
  · rw [← materialV]
    exact loads_of_loadable loadV
  · intro base d
    refine ends_mono (calm_ends ⟨0, trivial⟩ (safe_measurement computes calm_quiet calm_reads d trivial
      (forward_quiet · d) (materialOf bP.record 0).kAttest measurable)) ?_
    rintro r t ⟨-, rfl⟩
    rw [bytes, materialP, materialV, measured]
  · intro timeoutMs out resp timeout small room room'
    have paired : Paired hmac bV bP := by
      refine ⟨?_, measurable, ?_⟩
      · rw [materialP, materialV]
      · rw [bytes, materialP, materialV]
        exact measured
    exact first_session computes loadV loadP paired (UInt32.le_refl _) below timeout small room room'

theorem counter_inside (low : 1 ≤ counter) (high : counter ≤ 0xFFFFFFFE) :
    0 < UInt32.ofNat counter ∧ UInt32.ofNat counter ≠ UINT32_MAX := by
  have value : (UInt32.ofNat counter).toNat = counter := by
    rw [UInt32.toNat_ofNat']
    omega
  constructor
  · rw [UInt32.lt_iff_toNat_lt, value]
    exact low
  · intro max
    have top : (UInt32.ofNat counter).toNat = 0xFFFFFFFF := congrArg UInt32.toNat max
    omega

/-- Everything the tool accepts makes a pair that works. -/
theorem provisioned_pair (tc : TinyCrypt) (sha256 : List UInt8 → Bytes 32)
    (hmac : List UInt8 → List UInt8 → Bytes 32) (computes : tc.Computes sha256 hmac)
    (h7 g4 image7 image4 : List UInt8)
    (accepted7 : Provision.padImage h7 Provision.h743.imageLength Provision.h743.ramEnd = .ok image7)
    (accepted4 : Provision.padImage g4 Provision.g431.imageLength Provision.g431.ramEnd = .ok image4)
    (kAuth kAttest : Bytes 32) (distinct : kAuth ≠ kAttest) (counter : ℕ) (low : 1 ≤ counter)
    (high : counter ≤ 0xFFFFFFFE) :
    ∃ g memory7 memory4,
      Provision.generate sha256 hmac h7 g4 kAuth.data kAttest.data counter = .ok g ∧
      decodeHex g.h743.hex = some memory7 ∧ decodeHex g.g431.hex = some memory4 ∧
      g.reference = (hmac kAttest.data image7).data ∧
      Working tc (installed Store.g431 (overErased memory4)) (installed Store.h743 (overErased memory7))
        kAuth kAttest (hmac kAttest.data image7) (UInt32.ofNat counter) := by
  obtain ⟨fits7, padded7⟩ := padImage_ok accepted7
  obtain ⟨fits4, -⟩ := padImage_ok accepted4
  obtain ⟨seed, made, record⟩ := makeRecord_seed computes kAuth low high
  obtain ⟨pos, below⟩ := counter_inside low high
  have keys : ¬ (kAuth.data.length ≠ 32 ∨ kAttest.data.length ≠ 32 ∨ kAuth.data = kAttest.data) := by
    simpa [Bytes.ext_iff] using distinct
  obtain ⟨files7, memory7, written7, decoded7, flashed7⟩ := @boardFiles_flashed sha256 Provision.h743
    Store.h743 h7 kAuth kAttest (hmac kAttest.data image7) seed counter layout_h743 fits7 image7
  obtain ⟨files4, memory4, written4, decoded4, flashed4⟩ := @boardFiles_flashed sha256 Provision.g431
    Store.g431 g4 kAuth kAttest (hmac kAttest.data image7) seed counter layout_g431 fits4 image4
  have generated : Provision.generate sha256 hmac h7 g4 kAuth.data kAttest.data counter =
      .ok ⟨(hmac kAttest.data image7).data, files7, files4⟩ := by
    unfold Provision.generate
    simp only [accepted7, accepted4, if_neg keys, record, Int.toNat_natCast, written7, written4, bind,
      Except.bind]
    rfl
  refine ⟨_, memory7, memory4, generated, decoded7, decoded4, rfl, ?_⟩
  exact flashed_working computes pos below made (padded7 ▸ rfl) flashed7 flashed4

def smallImage : List UInt8 := [0x00, 0x80, 0x00, 0x20, 0x01, 0x00, 0x00, 0x08]

theorem small_accepted {config : Provision.BoardConfig}
    (h : config = Provision.h743 ∨ config = Provision.g431) :
    Provision.padImage smallImage config.imageLength config.ramEnd =
      .ok (Provision.ljust smallImage config.imageLength 0xFF) := by
  rcases h with rfl | rfl <;> rfl

theorem provisioned_pair_small : ∃ (g : Provision.Generated) (memory7 memory4 : HexMemory)
    (reference : Bytes 32),
    Provision.generate (fun data => ⟨Sha256.sha256 data, rfl⟩) (fun key msg => ⟨Sha256.hmac key msg, rfl⟩)
      smallImage smallImage (Bytes.fill 32 1).data (Bytes.fill 32 2).data (5 : ℕ) = .ok g ∧
    decodeHex g.h743.hex = some memory7 ∧ decodeHex g.g431.hex = some memory4 ∧
    g.reference = reference.data ∧
    Working referenceTinyCrypt (installed Store.g431 (overErased memory4))
      (installed Store.h743 (overErased memory7)) (.fill 32 1) (.fill 32 2) reference 5 := by
  obtain ⟨g, memory7, memory4, generated, decoded7, decoded4, reference, working⟩ :=
    provisioned_pair referenceTinyCrypt _ _ reference_computes smallImage smallImage _ _
      (small_accepted (Or.inl rfl)) (small_accepted (Or.inr rfl)) (.fill 32 1) (.fill 32 2) (by decide) 5
      (by decide) (by decide)
  exact ⟨g, memory7, memory4, _, generated, decoded7, decoded4, reference, working⟩

theorem small_installed (layout : Layout config board)
    (h : config = Provision.h743 ∨ config = Provision.g431) : ∃ b : Installed, b.board = board ∧
      Loadable referenceTinyCrypt b.board b.record 5 b.flash := by
  obtain ⟨fits, -⟩ := padImage_ok (small_accepted h)
  obtain ⟨seed, made, -⟩ := @makeRecord_seed _ _ _ reference_computes (.fill 32 1) 5 (by decide) (by decide)
  obtain ⟨-, m, -, -, flashed⟩ := @boardFiles_flashed (fun data => ⟨Sha256.sha256 data, rfl⟩) config board
    smallImage (.fill 32 1) (.fill 32 2) (.fill 32 3) seed 5 layout fits []
  exact ⟨_, flashed.same, flashed_loadable reference_computes layout (by decide) made flashed⟩

end

end SimpleAttestation.Provisioned
