import SimpleAttestation.JournalLoad

set_option autoImplicit false

/-!
# The journals a load accepts

`BlockHolds` is the format of a block as bytes. It says nothing of the scan.
-/
namespace SimpleAttestation.JournalGrammar
open ByteStrings Wire Crypto CallProgram Journal JournalScan JournalLoad

section
variable (hmac : List UInt8 → List UInt8 → Bytes 32) (key : Bytes 32)

/-- `BE32(c) || BE32(~c) || HMAC(key, "CTR1" || BE32(c))[0..24)` -/
def record (c : UInt32) : Bytes 32 :=
  ⟨simplePutU32 c ++ simplePutU32 (~~~c) ++
    (hmac key.data ([0x43, 0x54, 0x52, 0x31] ++ simplePutU32 c)).data.take 24, by simp⟩

structure BlockHolds (L : List (Bytes 32)) (cs : List UInt32) : Prop where
  slots_eq : ∃ n, L = cs.map (record hmac key) ++ List.replicate n blank
  nonzero : ∀ c ∈ cs, c ≠ 0
  increasing : cs.Pairwise (· < ·)

end

def Largest (c : UInt32) (cs : List UInt32) : Prop := c ∈ cs ∧ ∀ d ∈ cs, d ≤ c

/-- Both blocks hold records only, and the newest of them is not older than `initial`. -/
def WellFormed (hmac : List UInt8 → List UInt8 → Bytes 32) (key : Bytes 32) (blockSize : ℕ)
    (initial : UInt32) (f : Flash) : Prop :=
  ∃ cs ds c, BlockHolds hmac key (slots blockSize f 0) cs ∧
    BlockHolds hmac key (slots blockSize f 1) ds ∧ Largest c (cs ++ ds) ∧ initial ≤ c

/-- Where a journal in memory must stand on two blocks that hold `cs` and `ds`. -/
structure StandsOn (blockSize : ℕ) (f : Flash) (cs ds : List UInt32) (j : AuthJournal) : Prop where
  newest : Largest j.counter (cs ++ ds)
  active : j.active = if j.counter ∈ ds then 1 else 0
  held : j.counter ∈ if j.active = 0 then cs else ds
  /-- The first blank slot, or the end of the block. -/
  next : j.next = 32 * (slots blockSize f j.active).findIdx erased
  ready : j.ready = true

section
variable {tc : TinyCrypt} {sha256 : List UInt8 → Bytes 32} {hmac : List UInt8 → List UInt8 → Bytes 32}
  {key : Bytes 32} {L : List (Bytes 32)} {cs ds : List UInt32}

theorem recordOf_eq (computes : tc.Computes sha256 hmac) (c : UInt32) :
    recordOf tc key c = some (record hmac key c) := by
  have computed := hmacCompute_bytes computes key
    (show ([0x43, 0x54, 0x52, 0x31] ++ simplePutU32 c).length ≤ UINT_MAX by simp [UINT_MAX])
  rw [recordOf, recordMac, computed]
  rfl

theorem record_ne_blank (computes : tc.Computes sha256 hmac) (c : UInt32) :
    record hmac key c ≠ blank := fun same =>
  recordOf_ne_blank ((recordOf_eq computes c).trans (congrArg some same))

theorem pos_of_ne_zero {c : UInt32} (h : c ≠ 0) : 0 < c := by
  rw [UInt32.lt_iff_toNat_lt]
  have ne : c.toNat ≠ 0 := fun e => h (UInt32.toNat_inj.mp e)
  exact Nat.pos_of_ne_zero ne

theorem holds_format (computes : tc.Computes sha256 hmac) {gap : Bool} {last : UInt32}
    (h : Holds tc key gap last L cs) :
    ∃ n, L = cs.map (record hmac key) ++ List.replicate n blank := by
  induction h with
  | nil => exact ⟨0, rfl⟩
  | blank rest ih =>
    obtain ⟨n, hn⟩ := ih
    exact ⟨n + 1, congrArg (blank :: ·) hn⟩
  | @record last c r L cs made fresh rest ih =>
    obtain ⟨n, hn⟩ := ih
    have bytes : record hmac key c = r := Option.some.inj ((recordOf_eq computes c).symm.trans made)
    refine ⟨n, ?_⟩
    rw [List.map_cons, List.cons_append, bytes, hn]

theorem format_holds (computes : tc.Computes sha256 hmac) (n : ℕ) {last : UInt32}
    (above : ∀ c ∈ cs, last < c) (increasing : cs.Pairwise (· < ·)) :
    Holds tc key false last (cs.map (record hmac key) ++ List.replicate n blank) cs := by
  induction cs generalizing last with
  | nil => exact holds_replicate n
  | cons c cs ih =>
    obtain ⟨fresh, -⟩ := List.forall_mem_cons.mp above
    obtain ⟨next, rest⟩ := List.pairwise_cons.mp increasing
    exact .record (recordOf_eq computes c) fresh (ih next rest)

theorem blockHolds_iff (computes : tc.Computes sha256 hmac) :
    BlockHolds hmac key L cs ↔ Holds tc key false 0 L cs := by
  constructor
  · rintro ⟨⟨n, rfl⟩, nonzero, increasing⟩
    exact format_holds computes n (fun c hc => pos_of_ne_zero (nonzero c hc)) increasing
  · intro h
    obtain ⟨above, increasing⟩ := holds_above h
    refine ⟨holds_format computes h, fun c hc zero => ?_, increasing⟩
    have pos := above c hc
    rw [zero] at pos
    exact UInt32.lt_irrefl 0 pos

theorem blockHolds_unique (computes : tc.Computes sha256 hmac) (h : BlockHolds hmac key L cs)
    (g : BlockHolds hmac key L ds) : cs = ds :=
  holds_unique ((blockHolds_iff computes).mp h) ((blockHolds_iff computes).mp g)

theorem findIdx_erased (computes : tc.Computes sha256 hmac) (h : BlockHolds hmac key L cs) :
    L.findIdx erased = cs.length := by
  obtain ⟨⟨n, rfl⟩, -, -⟩ := h
  have records : ∀ r ∈ cs.map (record hmac key), erased r = false := by
    intro r hr
    obtain ⟨c, -, rfl⟩ := List.mem_map.mp hr
    rw [Bool.eq_false_iff]
    exact fun e => record_ne_blank computes c ((erased_iff _).mp e)
  have none_ : (cs.map (record hmac key)).findIdx erased = (cs.map (record hmac key)).length :=
    List.findIdx_eq_length.mpr records
  rw [List.findIdx_append, none_, if_neg (Nat.lt_irrefl _), List.length_map]
  have at_once : (List.replicate n blank).findIdx erased = 0 := by
    cases n with
    | zero => rfl
    | succ n => rw [List.replicate_succ, List.findIdx_cons, (erased_iff blank).mpr rfl, cond_true]
  rw [at_once, Nat.zero_add]

theorem largest_last (increasing : cs.Pairwise (· < ·)) {c : UInt32} (hc : c ∈ cs)
    (top : ∀ d ∈ cs, d ≤ c) : cs.getLast? = some c := by
  rcases List.eq_nil_or_concat cs with rfl | ⟨front, d, rfl⟩
  · cases hc
  · rw [List.concat_eq_append] at *
    rw [List.getLast?_concat]
    rcases List.mem_append.mp hc with hc | hc
    · have lt := (List.pairwise_append.mp increasing).2.2 c hc d (by simp)
      exact absurd (top d (by simp)) (UInt32.not_le.mpr lt)
    · rw [List.mem_singleton.mp hc]

def blockRecords (cs ds : List UInt32) (b : ℕ) : List UInt32 := if b = 0 then cs else ds

theorem position_of_largest {initial c : UInt32} {j : AuthJournal}
    (hcs : cs.Pairwise (· < ·)) (hds : ds.Pairwise (· < ·)) (newest : Largest c (cs ++ ds))
    (le : initial ≤ c) : ∃ b n, Position initial (j.moveTo c b n) (blockRecords cs ds) := by
  obtain ⟨hc, top⟩ := newest
  have top₀ : ∀ d ∈ cs, d ≤ c := fun d hd => top d (List.mem_append_left _ hd)
  have top₁ : ∀ d ∈ ds, d ≤ c := fun d hd => top d (List.mem_append_right _ hd)
  have bound : ∀ b, b < 2 → ∀ d ∈ blockRecords cs ds b, d ≤ c := by
    intro b _
    unfold blockRecords
    split
    · exact top₀
    · exact top₁
  by_cases second : c ∈ ds
  · exact ⟨1, 32 * ds.length, Nat.one_lt_two, largest_last hds second top₁, rfl, le, bound,
      fun zero => by cases zero⟩
  · have first : c ∈ cs := (List.mem_append.mp hc).resolve_right second
    have apart : ∀ d ∈ ds, d ≠ c := by
      rintro d hd rfl
      exact second hd
    exact ⟨0, 32 * cs.length, Nat.two_pos, largest_last hcs first top₀, rfl, le, bound,
      fun _ d hd => UInt32.lt_of_le_of_ne (top₁ d hd) (apart d hd)⟩

theorem stands_of_position {blockSize : ℕ} {initial : UInt32} {f : Flash} {j : AuthJournal}
    (computes : tc.Computes sha256 hmac) (first : BlockHolds hmac key (slots blockSize f 0) cs)
    (second : BlockHolds hmac key (slots blockSize f 1) ds)
    (h : Position initial j (blockRecords cs ds)) (ready : j.ready = true) :
    StandsOn blockSize f cs ds j ∧ initial ≤ j.counter := by
  obtain ⟨active_lt, newest, next, le, bound, tie⟩ := h
  have bound₀ : ∀ d ∈ cs, d ≤ j.counter := bound 0 Nat.two_pos
  have bound₁ : ∀ d ∈ ds, d ≤ j.counter := bound 1 Nat.one_lt_two
  have top : ∀ d ∈ cs ++ ds, d ≤ j.counter := fun d hd =>
    (List.mem_append.mp hd).elim (bound₀ d) (bound₁ d)
  have held := List.mem_of_getLast? newest
  have two : j.active = 0 ∨ j.active = 1 := by omega
  rcases two with zero | one
  · have inside : j.counter ∈ cs := by rwa [zero] at held
    have outside : j.counter ∉ ds := fun hd => UInt32.lt_irrefl _ (tie zero _ hd)
    refine ⟨⟨⟨List.mem_append_left _ inside, top⟩, ?_, ?_, ?_, ready⟩, le⟩
    · rw [zero, if_neg outside]
    · rw [zero, if_pos rfl]
      exact inside
    · rw [next, zero, findIdx_erased computes first]
      rfl
  · have inside : j.counter ∈ ds := by rwa [one] at held
    refine ⟨⟨⟨List.mem_append_right _ inside, top⟩, ?_, ?_, ?_, ready⟩, le⟩
    · rw [one, if_pos inside]
    · rw [one, if_neg Nat.one_ne_zero]
      exact inside
    · rw [next, one, findIdx_erased computes second]
      rfl

end

section
variable {tc : TinyCrypt} {sha256 : List UInt8 → Bytes 32} {hmac : List UInt8 → List UInt8 → Bytes 32}
  {initial : UInt32} {f : Flash} {j : AuthJournal} {cs ds : List UInt32}

theorem matches_wellFormed (computes : tc.Computes sha256 hmac) (h : Matches tc initial j f)
    (ready : j.ready = true) : ∃ cs ds, BlockHolds hmac j.key (slots j.blockSize f 0) cs ∧
      BlockHolds hmac j.key (slots j.blockSize f 1) ds ∧ StandsOn j.blockSize f cs ds j ∧
      initial ≤ j.counter := by
  obtain ⟨C, blocks, position⟩ := h
  have first := (blockHolds_iff computes).mpr (blocks 0 Nat.two_pos)
  have second := (blockHolds_iff computes).mpr (blocks 1 Nat.one_lt_two)
  have same : ∀ b, b < 2 → blockRecords (C 0) (C 1) b = C b := by
    intro b hb
    have two : b = 0 ∨ b = 1 := by omega
    rcases two with rfl | rfl <;> rfl
  have position' : Position initial j (blockRecords (C 0) (C 1)) := by
    obtain ⟨active, newest, next, le, bound, tie⟩ := position
    rw [← same _ active] at newest next
    exact ⟨active, newest, next, le, fun b hb => same b hb ▸ bound b hb, tie⟩
  exact ⟨C 0, C 1, first, second, stands_of_position computes first second position' ready⟩

theorem wellFormed_matches (computes : tc.Computes sha256 hmac)
    (h : WellFormed hmac j.key j.blockSize initial f) :
    ∃ c b n, Matches tc initial (j.moveTo c b n) f := by
  obtain ⟨cs, ds, c, first, second, newest, le⟩ := h
  obtain ⟨b, n, position⟩ := @position_of_largest cs ds initial c j first.increasing
    second.increasing newest le
  refine ⟨c, b, n, blockRecords cs ds, ?_, position⟩
  intro b hb
  have two : b = 0 ∨ b = 1 := by omega
  rcases two with rfl | rfl
  · exact (blockHolds_iff computes).mp first
  · exact (blockHolds_iff computes).mp second

theorem load_outcome (tc : TinyCrypt) (j : AuthJournal) (initial : UInt32) (f : Flash) :
    LoadOutcome tc initial j f ((authJournalLoad tc j initial).eval (flashEval j.blockSize) f).1 := by
  have ran := eval_exec (flashEval j.blockSize)
    (flashEval_answers j.blockSize (wholeTear j.blockSize)) (authJournalLoad tc j initial) f
  have safe := @safe_load j.blockSize (wholeTear j.blockSize) (fun _ _ => True) (fun _ => True) tc j
    initial f wholeTear_readOnly trivial (fun _ _ => trivial)
  exact (safe_exec _ _ _ _ _ safe ran).2

/-- A load returns one exactly on the well-formed journals, and says where the newest record
    of one is. -/
theorem load_accepts_wellFormed (computes : tc.Computes sha256 hmac) (j : AuthJournal)
    (initial : UInt32) (f : Flash) (callbacks : j.callbacks = true) (positive : 0 < j.blockSize)
    (whole : j.blockSize % 32 = 0) :
    let x := ((authJournalLoad tc j initial).eval (flashEval j.blockSize) f).1
    (x.2 = true ↔ WellFormed hmac j.key j.blockSize initial f) ∧
    (x.2 = true → ∀ cs ds, BlockHolds hmac j.key (slots j.blockSize f 0) cs →
      BlockHolds hmac j.key (slots j.blockSize f 1) ds → StandsOn j.blockSize f cs ds x.1) ∧
    (x.2 = false → x.1.ready = false) := by
  have valid : j.valid = true := by
    have size : 32 ≤ j.blockSize := by omega
    simp [AuthJournal.valid, callbacks, size, whole]
  have accepts : WellFormed hmac j.key j.blockSize initial f →
      ((authJournalLoad tc j initial).eval (flashEval j.blockSize) f).1.2 = true := by
    intro h
    obtain ⟨c, b, n, stands⟩ := wellFormed_matches computes h
    rw [load_complete tc j (j.moveTo c b n) initial f valid rfl rfl stands]
  have out := load_outcome tc j initial f
  dsimp only
  generalize ((authJournalLoad tc j initial).eval (flashEval j.blockSize) f).1 = x at accepts out ⊢
  cases out with
  | invalid h =>
    rw [valid] at h
    cases h
  | failed c b n =>
    refine ⟨⟨fun h => ?_, accepts⟩, fun h => ?_, fun _ => rfl⟩
    · cases h
    · cases h
  | found c b n _ stands =>
    obtain ⟨cs, ds, first, second, stands, le⟩ := matches_wellFormed computes stands rfl
    refine ⟨⟨fun _ => ⟨cs, ds, c, first, second, stands.newest, le⟩, fun _ => rfl⟩, ?_, fun h => ?_⟩
    · intro _ cs' ds' first' second'
      obtain rfl := blockHolds_unique computes first first'
      obtain rfl := blockHolds_unique computes second second'
      exact stands
    · cases h

theorem load_accepts_small : WellFormed (fun key msg => ⟨Sha256.hmac key msg, rfl⟩) smallJournal.key
    smallJournal.blockSize 5 (seedFlash (smallSeed 5)) := by
  obtain ⟨accepts, -, -⟩ := load_accepts_wellFormed reference_computes smallJournal 5
    (seedFlash (smallSeed 5)) rfl (by decide) (by decide)
  have loaded : ((authJournalLoad referenceTinyCrypt smallJournal 5).eval
      (flashEval smallJournal.blockSize) (seedFlash (smallSeed 5))).1.2 = true := by
    rw [show smallJournal.blockSize = 64 from rfl, small_load (by decide)]
  exact accepts.mp loaded

end

end SimpleAttestation.JournalGrammar
