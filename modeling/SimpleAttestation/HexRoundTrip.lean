import SimpleAttestation.ProvisionRaises

set_option autoImplicit false

/-!
# A HEX file holds the union of its segments
-/
namespace SimpleAttestation.HexRoundTrip
open ByteStrings HexText ProvisionHex ProvisionRaises
open Provision (HexWriter chunkOffsets segmentLe)

def Covers (s : ℕ × List UInt8) (a : ℕ) : Prop := s.1 ≤ a ∧ a < s.1 + s.2.length

def Overlap (s t : ℕ × List UInt8) : Prop := ∃ a, Covers s a ∧ Covers t a

theorem insert_sorted (s : ℕ × List UInt8) {l : List (ℕ × List UInt8)}
    (h : l.Pairwise fun a b => a.1 ≤ b.1) :
    (l.orderedInsert segmentLe s).Pairwise fun a b => a.1 ≤ b.1 := by
  induction l with
  | nil => simp
  | cons t l ih =>
    obtain ⟨first, rest⟩ := List.pairwise_cons.mp h
    rw [List.orderedInsert_cons]
    by_cases le : segmentLe s t
    · have below : s.1 ≤ t.1 := by
        rcases le with lt | ⟨eq, -⟩
        · exact Nat.le_of_lt lt
        · exact Nat.le_of_eq eq
      rw [if_pos le]
      refine List.pairwise_cons.mpr ⟨List.forall_mem_cons.mpr ⟨below, fun u hu => ?_⟩, h⟩
      exact below.trans (first u hu)
    · have above : t.1 ≤ s.1 := Nat.not_lt.mp fun lt => le (Or.inl lt)
      rw [if_neg le]
      refine List.pairwise_cons.mpr ⟨fun u hu => ?_, ih rest⟩
      rcases (List.mem_orderedInsert segmentLe).mp hu with rfl | hu
      · exact above
      · exact first u hu

theorem sorted_addresses (l : List (ℕ × List UInt8)) :
    (l.insertionSort segmentLe).Pairwise fun a b => a.1 ≤ b.1 := by
  induction l with
  | nil => simp
  | cons s l ih => exact insert_sorted s ih

section
variable {previous : ℕ} {l : List (ℕ × List UInt8)}

theorem ascending_above (h : Ascending previous l) : ∀ s ∈ l, previous ≤ s.1 := by
  induction l generalizing previous with
  | nil => simp
  | cons t l ih =>
    obtain ⟨above, rest⟩ := h
    exact List.forall_mem_cons.mpr ⟨above, fun s hs => by
      have later := ih rest s hs
      omega⟩

theorem ascending_apart (h : Ascending previous l) : l.Pairwise fun s t => ¬ Overlap s t := by
  induction l generalizing previous with
  | nil => exact .nil
  | cons s l ih =>
    obtain ⟨-, rest⟩ := h
    refine List.pairwise_cons.mpr ⟨?_, ih rest⟩
    rintro t ht ⟨a, inS, inT⟩
    have later := ascending_above rest t ht
    obtain ⟨-, below⟩ := inS
    obtain ⟨above, -⟩ := inT
    omega

theorem apart_ascending (nonempty : ∀ s ∈ l, s.2 ≠ []) (sorted : l.Pairwise fun a b => a.1 ≤ b.1)
    (apart : l.Pairwise fun s t => ¬ Overlap s t) (above : ∀ s ∈ l, previous ≤ s.1) :
    Ascending previous l := by
  induction l generalizing previous with
  | nil => trivial
  | cons s l ih =>
    obtain ⟨-, nonempty⟩ := List.forall_mem_cons.mp nonempty
    obtain ⟨first, sorted⟩ := List.pairwise_cons.mp sorted
    obtain ⟨none_, apart⟩ := List.pairwise_cons.mp apart
    refine ⟨above s List.mem_cons_self, ih nonempty sorted apart fun t ht => ?_⟩
    have order := first t ht
    have some_ := List.length_pos_iff.mpr (nonempty t ht)
    by_contra early
    exact none_ t ht ⟨t.1, ⟨order, Nat.not_le.mp early⟩, Nat.le_refl _, by omega⟩

theorem overlap_refused (w : HexWriter) (h : ¬ Ascending previous l) :
    l.foldlM Provision.writeSegment (w, previous) = .error "Overlapping image segments" := by
  induction l generalizing previous w with
  | nil => exact absurd trivial h
  | cons s l ih =>
    rw [List.foldlM_cons, Provision.writeSegment]
    by_cases early : s.1 < previous
    · rw [if_pos early]
      rfl
    · rw [if_neg early]
      exact ih _ fun rest => h ⟨Nat.not_lt.mp early, rest⟩

end

structure HexRecord where
  address : ℕ
  kind : UInt8
  data : List UInt8

def HexRecord.line (r : HexRecord) : List Char := recordLine r.address r.kind r.data

structure HexRecord.Body (r : HexRecord) : Prop where
  low : r.address < 65536
  kind : r.kind = 0 ∨ r.kind = 4
  short : r.data.length < 256

def endRecord : HexRecord := ⟨0, 1, []⟩

def Written (w : HexWriter) : Prop :=
  ∃ records : List HexRecord, (∀ r ∈ records, r.Body) ∧ w.result = records.map fun r => r.line ++ ['\n']

theorem written_snoc {w : HexWriter} (h : Written w) {r : HexRecord} (body : r.Body)
    (upper : Option ℕ) : Written ⟨w.result ++ [Provision.ihexRecord r.address r.kind r.data], upper⟩ := by
  obtain ⟨records, bodies, result⟩ := h
  refine ⟨records ++ [r], List.forall_mem_append.mpr ⟨bodies, by simpa using body⟩, ?_⟩
  rw [List.map_append, List.map_singleton, result]
  rfl

theorem written_chunk {w : HexWriter} (h : Written w) (address offset : ℕ) (data : List UInt8) :
    Written (Provision.writeChunk address data w offset) := by
  have chunk : (⟨(address + offset) % 65536, 0, (data.drop offset).take 16⟩ : HexRecord).Body := by
    refine ⟨Nat.mod_lt _ (by decide), Or.inl rfl, ?_⟩
    rw [List.length_take]
    omega
  have upper : (⟨0, 4, Provision.pack16 ((address + offset) / 65536)⟩ : HexRecord).Body :=
    ⟨show 0 < 65536 by decide, Or.inr rfl, by simp [Provision.pack16]⟩
  rw [Provision.writeChunk]
  by_cases changed : some ((address + offset) / 65536) ≠ w.upper
  · rw [if_pos changed]
    exact written_snoc (written_snoc h upper _) chunk _
  · rw [if_neg changed]
    exact written_snoc h chunk _

theorem written_chunks {w : HexWriter} (h : Written w) (address : ℕ) (data : List UInt8)
    (offsets : List ℕ) : Written (offsets.foldl (Provision.writeChunk address data) w) := by
  induction offsets generalizing w with
  | nil => exact h
  | cons offset offsets ih => exact ih (written_chunk h address offset data)

theorem written_segments {l : List (ℕ × List UInt8)} {s r : HexWriter × ℕ} (h : Written s.1)
    (run : l.foldlM Provision.writeSegment s = .ok r) : Written r.1 := by
  induction l generalizing s with
  | nil =>
    obtain rfl := Except.ok.inj run
    exact h
  | cons t l ih =>
    rw [List.foldlM_cons, Provision.writeSegment] at run
    by_cases early : t.1 < s.2
    · rw [if_pos early] at run
      cases run
    · rw [if_neg early] at run
      exact ih (written_chunks h t.1 t.2 _) run

theorem lines_written {segments : List (ℕ × List UInt8)} {text : List Char}
    (written : Provision.ihex segments = .ok text) : ∃ records : List HexRecord,
      (∀ r ∈ records, r.Body) ∧ splitLines text = records.map HexRecord.line ++ [endRecord.line] := by
  unfold Provision.ihex at written
  cases run : (segments.insertionSort segmentLe).foldlM Provision.writeSegment (⟨[], none⟩, 0) with
  | error e =>
    rw [run] at written
    cases written
  | ok r =>
    rw [run] at written
    obtain rfl := Except.ok.inj written
    obtain ⟨records, bodies, result⟩ := written_segments ⟨[], by simp, rfl⟩ run
    refine ⟨records, bodies, ?_⟩
    have text : r.1.result ++ [Provision.ihexRecord 0 1 []] =
        (records.map HexRecord.line ++ [endRecord.line]).map (· ++ ['\n']) := by
      rw [result, List.map_append, List.map_map]
      rfl
    rw [text]
    refine splitLines_flatten _ fun line hline => ?_
    rcases List.mem_append.mp hline with hline | hline
    · obtain ⟨record, -, rfl⟩ := List.mem_map.mp hline
      exact recordLine_no_newline _ _ _
    · rw [List.mem_singleton.mp hline]
      exact recordLine_no_newline _ _ _

def kindOf (line : List Char) : Option UInt8 := (fromHex line.tail).map (·.getD 3 0)

/-- The reader of the tests, made to stop at the end record and to miss it. -/
def readToEnd : HexReader → List (List Char) → Option HexMemory
  | _, [] => none
  | s, line :: rest => do
    let s ← decodeLine s line
    if kindOf line = some 1 then pure s.memory else readToEnd s rest

/-- The bytes of a line sum to 0 modulo 256. -/
def Balanced (line : List Char) : Prop :=
  ∃ raw, line = ':' :: toHex raw ∧ (raw.map UInt8.toNat).sum % 256 = 0

theorem sum_toNat (raw : List UInt8) : (raw.map UInt8.toNat).sum % 256 = raw.sum.toNat := by
  induction raw with
  | nil => rfl
  | cons b raw ih => rw [List.map_cons, List.sum_cons, List.sum_cons, Nat.add_mod, ih, UInt8.toNat_add,
      Nat.mod_eq_of_lt b.toNat_lt]

theorem line_balanced (r : HexRecord) : Balanced r.line := by
  refine ⟨_, rfl, ?_⟩
  rw [sum_toNat, List.sum_append, List.sum_singleton]
  have zero := UInt8.add_right_neg
    ([UInt8.ofNat r.data.length] ++ Provision.pack16 r.address ++ [r.kind] ++ r.data).sum
  exact congrArg UInt8.toNat zero

theorem kindOf_line (r : HexRecord) : kindOf r.line = some r.kind := by
  rw [HexRecord.line, recordLine, kindOf, List.tail_cons, fromHex_toHex]
  rfl

theorem readToEnd_eq (records : List HexRecord) (bodies : ∀ r ∈ records, r.Body) (s : HexReader) :
    readToEnd s (records.map HexRecord.line ++ [endRecord.line]) =
      ((records.map HexRecord.line ++ [endRecord.line]).foldlM decodeLine s).map (·.memory) := by
  induction records generalizing s with
  | nil =>
    rw [List.map_nil, List.nil_append, readToEnd, kindOf_line, List.foldlM_cons]
    cases decodeLine s endRecord.line with
    | none => rfl
    | some s =>
      have last : some endRecord.kind = some 1 := rfl
      simp only [last]
      rfl
  | cons r records ih =>
    obtain ⟨body, bodies⟩ := List.forall_mem_cons.mp bodies
    have more : ¬ some r.kind = some (1 : UInt8) := by
      rcases body.kind with h | h <;> rw [h] <;> decide
    rw [List.map_cons, List.cons_append, readToEnd, kindOf_line, List.foldlM_cons]
    cases decodeLine s r.line with
    | none => rfl
    | some s => exact (if_neg more).trans (ih bodies s)

/-- Exactly the union: what the segments hold, each address once, and nothing else. -/
def Union (segments : List (ℕ × List UInt8)) (memory : HexMemory) : Prop :=
  ∀ a b, memory a = some b ↔ ∃ s ∈ segments, Covers s a ∧ s.2[a - s.1]? = some b

theorem union_of_held {segments : List (ℕ × List UInt8)} {memory : HexMemory}
    (held : ∀ s ∈ segments, ∀ i < s.2.length, memory (s.1 + i) = s.2[i]?)
    (none_ : ∀ a, (∀ s ∈ segments, ¬ Covers s a) → memory a = none) : Union segments memory := by
  have inside : ∀ s ∈ segments, ∀ a, Covers s a → memory a = s.2[a - s.1]? := by
    intro s hs a covers
    have here := held s hs (a - s.1) (Nat.sub_lt_left_of_lt_add covers.1 covers.2)
    rwa [Nat.add_sub_cancel' covers.1] at here
  intro a b
  constructor
  · intro some_
    by_contra outside
    have free := none_ a fun s hs covers =>
      outside ⟨s, hs, covers, (inside s hs a covers).symm.trans some_⟩
    rw [free] at some_
    cases some_
  · rintro ⟨s, hs, covers, byte⟩
    exact (inside s hs a covers).trans byte

theorem balanced_written {text : List Char} {records : List HexRecord}
    (lines : splitLines text = records.map HexRecord.line ++ [endRecord.line]) :
    ∀ line ∈ splitLines text, Balanced line := by
  intro line hline
  rw [lines] at hline
  rcases List.mem_append.mp hline with hline | hline
  · obtain ⟨r, -, rfl⟩ := List.mem_map.mp hline
    exact line_balanced r
  · rw [List.mem_singleton.mp hline]
    exact line_balanced endRecord

/-- The round trip, and the refusal of everything else. -/
theorem hex_round_trip (segments : List (ℕ × List UInt8)) (nonempty : ∀ s ∈ segments, s.2 ≠ [])
    (bounds : ∀ s ∈ segments, s.1 + s.2.length ≤ 4294967296) :
    ((segments.Pairwise fun s t => ¬ Overlap s t) → ∃ text memory, ihex segments = .ok text ∧
      (∀ line ∈ splitLines text, Balanced line) ∧ decodeHex text = some memory ∧
      readToEnd ⟨fun _ => none, 0⟩ (splitLines text) = some memory ∧ Union segments memory) ∧
    ((¬ segments.Pairwise fun s t => ¬ Overlap s t) →
      ihex segments = .error (.valueError "Overlapping image segments")) := by
  have perm := List.perm_insertionSort segmentLe segments
  have symm : ∀ {s t : ℕ × List UInt8}, ¬ Overlap s t → ¬ Overlap t s :=
    fun h ⟨a, inT, inS⟩ => h ⟨a, inS, inT⟩
  rw [ihex_eq bounds]
  constructor
  · intro apart
    have ascending := @apart_ascending 0 _ (fun s hs => nonempty s (perm.mem_iff.mp hs))
      (sorted_addresses segments) ((perm.pairwise_iff symm).mpr apart) fun s _ => Nat.zero_le s.1
    obtain ⟨text, written⟩ := ihex_written ascending
    obtain ⟨records, bodies, lines⟩ := lines_written written
    obtain ⟨memory, decoded, held, none_⟩ := ihex_decodes written bounds
    refine ⟨text, memory, by rw [written]; rfl, balanced_written lines, decoded, ?_,
      union_of_held held none_⟩
    rw [lines, readToEnd_eq records bodies, ← lines]
    exact decoded
  · intro overlap
    have unsorted : ¬ Ascending 0 (segments.insertionSort segmentLe) := fun ascending =>
      overlap ((perm.pairwise_iff symm).mp (ascending_apart ascending))
    rw [Provision.ihex, overlap_refused _ unsorted]
    rfl

def smallSegments : List (ℕ × List UInt8) :=
  [(0x20005, [9, 8]), (0x1FFFE, [1, 2, 3])]

theorem hex_round_trip_small : ∃ text memory, ihex smallSegments = .ok text ∧
    decodeHex text = some memory ∧ memory 0x20000 = some 3 ∧ memory 0x20006 = some 8 ∧
    memory 0x20002 = none := by
  have apart : smallSegments.Pairwise fun s t => ¬ Overlap s t := by
    refine List.pairwise_pair.mpr ?_
    rintro ⟨a, ⟨above, -⟩, -, below⟩
    change a < 0x1FFFE + 3 at below
    change 0x20005 ≤ a at above
    omega
  obtain ⟨accepts, -⟩ := hex_round_trip smallSegments (by decide) (by decide)
  obtain ⟨text, memory, written, -, decoded, -, union⟩ := accepts apart
  refine ⟨text, memory, written, decoded, ?_, ?_, ?_⟩
  · exact (union _ _).mpr ⟨_, List.mem_cons_of_mem _ List.mem_cons_self, ⟨by decide, by decide⟩, rfl⟩
  · exact (union _ _).mpr ⟨_, List.mem_cons_self, ⟨by decide, by decide⟩, rfl⟩
  · refine Option.eq_none_iff_forall_ne_some.mpr fun b held => ?_
    obtain ⟨s, hs, ⟨above, below⟩, -⟩ := (union _ _).mp held
    simp only [smallSegments, List.mem_cons, List.not_mem_nil, or_false] at hs
    rcases hs with rfl | rfl
    · exact absurd above (by decide)
    · exact absurd below (by decide)

end SimpleAttestation.HexRoundTrip
