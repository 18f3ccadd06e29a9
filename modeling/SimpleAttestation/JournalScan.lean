import SimpleAttestation.Journal

set_option autoImplicit false

/-!
# What the journal load accepts

`Holds` is the grammar of one block, `Position` says where a journal stands on its
two blocks. A load returns one exactly at such a position.
-/
namespace SimpleAttestation.JournalScan
open ByteStrings Wire Crypto CallProgram Journal

def recordOf (tc : TinyCrypt) (key : Bytes 32) (c : UInt32) : Option (Bytes 32) :=
  (recordMac tc key c).map (makeRecord c)

/-- A run of records with increasing counters above `last`, then blank slots only. After
    a blank slot (`gap`) no record may follow. -/
inductive Holds (tc : TinyCrypt) (key : Bytes 32) :
    Bool → UInt32 → List (Bytes 32) → List UInt32 → Prop where
  | nil {gap : Bool} {last : UInt32} : Holds tc key gap last [] []
  | blank {gap : Bool} {last : UInt32} {L : List (Bytes 32)} (rest : Holds tc key true last L []) :
      Holds tc key gap last (blank :: L) []
  | record {last c : UInt32} {r : Bytes 32} {L : List (Bytes 32)} {cs : List UInt32}
      (made : recordOf tc key c = some r) (fresh : last < c) (rest : Holds tc key false c L cs) :
      Holds tc key false last (r :: L) (c :: cs)

theorem makeRecord_data (c : UInt32) (mac : Bytes 32) : (makeRecord c mac).data =
    simplePutU32 c ++ (simplePutU32 (~~~c) ++ mac.data.take 24) :=
  List.append_assoc _ _ _

theorem get_makeRecord (c : UInt32) (mac : Bytes 32) :
    simpleGetU32 (makeRecord c mac).data = c := by
  rw [makeRecord_data]
  exact get_put c _

theorem recordOf_get {tc : TinyCrypt} {key : Bytes 32} {c : UInt32} {r : Bytes 32}
    (h : recordOf tc key c = some r) : simpleGetU32 r.data = c := by
  obtain ⟨mac, _, rfl⟩ := Option.map_eq_some_iff.mp h
  exact get_makeRecord c mac

theorem record_eq_iff (r mac : Bytes 32) : r = makeRecord (simpleGetU32 r.data) mac ↔
    simpleGetU32 (r.data.drop 4) = ~~~simpleGetU32 r.data ∧
      (r.data.drop 8).take 24 = mac.data.take 24 := by
  rw [Bytes.ext_iff, makeRecord_data]
  obtain ⟨d, len⟩ := r
  dsimp only
  generalize hc : simpleGetU32 d = c
  constructor
  · intro h
    have h4 : d.drop 4 = simplePutU32 (~~~c) ++ mac.data.take 24 := by
      rw [h]
      exact List.drop_left' (length_simplePutU32 c)
    have h8 : d.drop 8 = mac.data.take 24 := by
      have e := congrArg (List.drop 4) h4
      rwa [List.drop_drop, List.drop_left' (length_simplePutU32 _)] at e
    rw [h4, h8]
    exact ⟨get_put _ _, List.take_of_length_le (by simp)⟩
  · rintro ⟨comp, tail⟩
    have h1 := put_get_take d (by omega)
    have h2 := put_get_take (d.drop 4) (by simp [len])
    have h3 := List.take_append_drop 4 (d.drop 4)
    rw [List.drop_drop] at h3
    rw [List.take_of_length_le (show (d.drop 8).length ≤ 24 by simp [len])] at tail
    rw [← comp, ← hc, h1, h2, ← tail, h3, List.take_append_drop]

/-- A record is never blank: its counter and the complement cannot both be all ones. -/
theorem recordOf_ne_blank {tc : TinyCrypt} {key : Bytes 32} {c : UInt32} :
    recordOf tc key c ≠ some blank := by
  intro h
  obtain ⟨mac, _, hm⟩ := Option.map_eq_some_iff.mp h
  have e := (record_eq_iff blank mac).mp (by rw [← hm, get_makeRecord])
  exact absurd e.1 (by decide)

section
variable {tc : TinyCrypt} {block off : ℕ} {s : Scan} {r : Bytes 32}

theorem scanSlot_blank : scanSlot tc block off s blank = some { s with gap := true } := by
  rw [scanSlot, if_pos ((erased_iff _).mpr rfl)]

theorem scanSlot_record (block off : ℕ) {c : UInt32} (h : recordOf tc s.journal.key c = some r)
    (gap : s.gap = false) (fresh : s.last < c) :
    scanSlot tc block off s r = some (s.note block off c) := by
  have nonblank : ¬ erased r = true := fun e => recordOf_ne_blank ((erased_iff r).mp e ▸ h)
  obtain ⟨mac, hmac, rfl⟩ := Option.map_eq_some_iff.mp h
  obtain ⟨comp, tail⟩ := (record_eq_iff (makeRecord c mac) mac).mp (by rw [get_makeRecord])
  have nonzero : c ≠ 0 := by
    rintro rfl
    exact absurd fresh (UInt32.not_lt.mpr UInt32.zero_le)
  have compare : simpleCtCompare ((makeRecord c mac).data.drop 8) mac.data 24 = true :=
    (ctCompare_iff _ _ _ (by simp) (by simp)).mpr tail
  rw [scanSlot, if_neg nonblank]
  simp only [get_makeRecord] at comp ⊢
  simp [comp, gap, hmac, compare, nonzero, UInt32.not_le.mpr fresh]

theorem scanSlot_some {s' : Scan} (h : scanSlot tc block off s r = some s') :
    (r = blank ∧ s' = { s with gap := true }) ∨
      ∃ c, recordOf tc s.journal.key c = some r ∧ s.gap = false ∧ s.last < c ∧
        s' = s.note block off c := by
  by_cases e : erased r = true
  · obtain rfl := (erased_iff r).mp e
    rw [scanSlot_blank] at h
    exact Or.inl ⟨rfl, (Option.some.inj h).symm⟩
  · right
    rw [scanSlot, if_neg e] at h
    dsimp only at h
    split at h
    · cases h
    · rename_i checks
      simp only [Bool.or_eq_true, decide_eq_true_eq, bne_iff_ne, not_or, not_not,
        Bool.not_eq_true] at checks
      obtain ⟨⟨⟨gap, -⟩, fresh⟩, comp⟩ := checks
      cases hmac : recordMac tc s.journal.key (simpleGetU32 r.data) with
      | none => simp [hmac] at h
      | some mac =>
        simp only [hmac] at h
        split at h
        · cases h
        · rename_i compare
          have tail := (ctCompare_iff (r.data.drop 8) mac.data 24 (by simp) (by simp)).mp
            (by simpa using compare)
          have same := (record_eq_iff r mac).mpr ⟨comp, tail⟩
          refine ⟨_, ?_, gap, UInt32.not_le.mp fresh, (Option.some.inj h).symm⟩
          rw [recordOf, hmac, Option.map_some, ← same]

@[simp] theorem note_last (s : Scan) (block off : ℕ) (c : UInt32) :
    (s.note block off c).last = c := by
  unfold Scan.note
  split <;> rfl

@[simp] theorem note_gap (s : Scan) (block off : ℕ) (c : UInt32) :
    (s.note block off c).gap = s.gap := by
  unfold Scan.note
  split <;> rfl

@[simp] theorem note_key (s : Scan) (block off : ℕ) (c : UInt32) :
    (s.note block off c).journal.key = s.journal.key := by
  unfold Scan.note
  split <;> rfl

end

def scanList (tc : TinyCrypt) (block : ℕ) : ℕ → Scan → List (Bytes 32) → Option Scan
  | _, s, [] => some s
  | off, s, r :: rest => (scanSlot tc block off s r).bind fun s => scanList tc block (off + 32) s rest

/-- The journal and the flag `found` after a block that starts at `off` and holds `cs`. -/
def settle (block off : ℕ) (j : AuthJournal) (found : Bool) (cs : List UInt32) :
    AuthJournal × Bool :=
  match cs.getLast? with
  | none => (j, found)
  | some c =>
    if j.counter ≤ c then (j.moveTo c block (off + 32 * cs.length), true) else (j, found)

theorem settle_nil (block off : ℕ) (j : AuthJournal) (found : Bool) :
    settle block off j found [] = (j, found) := rfl

theorem settle_take {block off : ℕ} {j : AuthJournal} {found : Bool} {cs : List UInt32} {c : UInt32}
    (last : cs.getLast? = some c) (le : j.counter ≤ c) :
    settle block off j found cs = (j.moveTo c block (off + 32 * cs.length), true) := by
  rw [settle, last]
  exact if_pos le

theorem settle_skip {block off : ℕ} {j : AuthJournal} {found : Bool} {cs : List UInt32}
    (h : ∀ c, cs.getLast? = some c → c < j.counter) :
    settle block off j found cs = (j, found) := by
  unfold settle
  cases last : cs.getLast? with
  | none => rfl
  | some c => exact if_neg (UInt32.not_le.mpr (h c last))

theorem settle_cases (block off : ℕ) (j : AuthJournal) (found : Bool) (cs : List UInt32) :
    (∃ c, cs.getLast? = some c ∧ j.counter ≤ c ∧
      settle block off j found cs = (j.moveTo c block (off + 32 * cs.length), true)) ∨
    ((∀ c, cs.getLast? = some c → c < j.counter) ∧ settle block off j found cs = (j, found)) := by
  cases last : cs.getLast? with
  | none =>
    refine Or.inr ⟨by simp, settle_skip fun c hc => ?_⟩
    rw [last] at hc
    cases hc
  | some c =>
    by_cases le : j.counter ≤ c
    · exact Or.inl ⟨c, rfl, le, settle_take last le⟩
    · have lt := UInt32.not_le.mp le
      have skip : ∀ d, cs.getLast? = some d → d < j.counter := by
        intro d hd
        obtain rfl : c = d := Option.some.inj (last.symm.trans hd)
        exact lt
      exact Or.inr ⟨fun d hd => skip d (last.trans hd), settle_skip skip⟩

/-- Noting the first record and settling on the rest is settling on all of them, because
    the counters increase. -/
theorem settle_cons (block off : ℕ) (s : Scan) (c : UInt32) (cs : List UInt32)
    (h : ∀ d ∈ cs, c < d) :
    settle block (off + 32) (s.note block off c).journal (s.note block off c).found cs =
      settle block off s.journal s.found (c :: cs) := by
  cases last : cs.getLast? with
  | none =>
    obtain rfl := List.getLast?_eq_none_iff.mp last
    rw [settle_nil]
    by_cases le : s.journal.counter ≤ c <;> simp [Scan.note, settle, le]
  | some d =>
    have fresh := h d (List.mem_of_getLast? last)
    have whole : (c :: cs).getLast? = some d := by
      rw [List.getLast?_cons, last]
      rfl
    have offs : off + 32 + 32 * cs.length = off + 32 * (c :: cs).length := by
      rw [List.length_cons]
      omega
    unfold settle
    rw [last, whole, offs]
    dsimp only
    by_cases le : s.journal.counter ≤ c
    · have through : s.journal.counter ≤ d := UInt32.le_trans le (UInt32.le_of_lt fresh)
      rw [Scan.note, if_pos le, if_pos through]
      exact if_pos (UInt32.le_of_lt fresh)
    · rw [Scan.note, if_neg le]

theorem holds_above {tc : TinyCrypt} {key : Bytes 32} {gap : Bool} {last : UInt32}
    {L : List (Bytes 32)} {cs : List UInt32} (h : Holds tc key gap last L cs) :
    (∀ c ∈ cs, last < c) ∧ cs.Pairwise (· < ·) := by
  induction h with
  | nil => simp
  | blank => simp
  | record made fresh rest ih =>
    obtain ⟨above, sorted⟩ := ih
    refine ⟨List.forall_mem_cons.mpr ⟨fresh, fun d hd => UInt32.lt_trans fresh (above d hd)⟩, ?_⟩
    exact List.pairwise_cons.mpr ⟨above, sorted⟩

theorem scanList_complete {tc : TinyCrypt} (block off : ℕ) (s : Scan) {L : List (Bytes 32)}
    {cs : List UInt32} (h : Holds tc s.journal.key s.gap s.last L cs) :
    ∃ s', scanList tc block off s L = some s' ∧
      (s'.journal, s'.found) = settle block off s.journal s.found cs := by
  generalize hkey : s.journal.key = key at h
  generalize hgap : s.gap = gap at h
  generalize hlast : s.last = last at h
  induction h generalizing off s with
  | nil => exact ⟨s, rfl, rfl⟩
  | blank rest ih =>
    obtain ⟨s', hs, he⟩ := ih (off + 32) { s with gap := true } hkey rfl hlast
    refine ⟨s', ?_, he⟩
    rw [scanList, scanSlot_blank]
    exact hs
  | @record last c r L cs made fresh rest ih =>
    have step := scanSlot_record block off (hkey ▸ made) hgap (hlast ▸ fresh)
    obtain ⟨s', hs, he⟩ := ih (off + 32) (s.note block off c)
      (by simp [hkey]) (by simp [hgap]) (by simp)
    refine ⟨s', ?_, ?_⟩
    · rw [scanList, step]
      exact hs
    · rw [he, settle_cons block off s c cs (holds_above rest).1]

theorem scanList_sound {tc : TinyCrypt} {block off : ℕ} {s s' : Scan} {L : List (Bytes 32)}
    (h : scanList tc block off s L = some s') :
    ∃ cs, Holds tc s.journal.key s.gap s.last L cs := by
  induction L generalizing off s with
  | nil => exact ⟨[], .nil⟩
  | cons r L ih =>
    rw [scanList] at h
    obtain ⟨s₁, first, rest⟩ := Option.bind_eq_some_iff.mp h
    rcases scanSlot_some first with ⟨rfl, rfl⟩ | ⟨c, made, gap, fresh, rfl⟩
    · obtain ⟨cs, hcs⟩ := ih rest
      have none : cs = [] := by
        cases hcs <;> rfl
      subst none
      exact ⟨[], .blank hcs⟩
    · obtain ⟨cs, hcs⟩ := ih rest
      rw [note_key, note_gap, note_last, gap] at hcs
      rw [gap]
      exact ⟨c :: cs, .record made fresh hcs⟩

theorem holds_length {tc : TinyCrypt} {key : Bytes 32} {gap : Bool} {last : UInt32} {L : List (Bytes 32)}
    {cs : List UInt32} (h : Holds tc key gap last L cs) : cs.length ≤ L.length := by
  induction h with
  | nil => exact Nat.le_refl _
  | blank => exact Nat.zero_le _
  | record made fresh rest ih => exact Nat.succ_le_succ ih

theorem holds_replicate {tc : TinyCrypt} {key : Bytes 32} {gap : Bool} {last : UInt32} (n : ℕ) :
    Holds tc key gap last (List.replicate n blank) [] := by
  induction n generalizing gap with
  | zero => exact .nil
  | succ n ih => exact .blank ih

theorem holds_unique {tc : TinyCrypt} {key : Bytes 32} {gap : Bool} {last : UInt32}
    {L : List (Bytes 32)} {cs ds : List UInt32} (h : Holds tc key gap last L cs)
    (g : Holds tc key gap last L ds) : cs = ds := by
  induction h generalizing ds with
  | nil => cases g; rfl
  | blank rest ih =>
    cases g with
    | blank => rfl
    | record made => exact absurd made recordOf_ne_blank
  | record made fresh rest ih =>
    cases g with
    | blank => exact absurd made recordOf_ne_blank
    | record made' _ rest' =>
      obtain rfl := (recordOf_get made).symm.trans (recordOf_get made')
      rw [ih rest']

end SimpleAttestation.JournalScan
