import SimpleAttestation.JournalScan

set_option autoImplicit false

/-!
# A successful load and the position it finds

`Matches j f` is the representation invariant: both blocks of the flash parse, and the
journal in memory stands behind the newest record.
-/
namespace SimpleAttestation.JournalLoad
open ByteStrings Wire Crypto CallProgram Journal JournalScan

def Blocks (tc : TinyCrypt) (key : Bytes 32) (blockSize : ℕ) (f : Flash)
    (C : ℕ → List UInt32) : Prop :=
  ∀ b, b < 2 → Holds tc key false 0 (slots blockSize f b) (C b)

structure Position (initial : UInt32) (j : AuthJournal) (C : ℕ → List UInt32) : Prop where
  active_lt : j.active < 2
  newest : (C j.active).getLast? = some j.counter
  next_eq : j.next = 32 * (C j.active).length
  initial_le : initial ≤ j.counter
  bound : ∀ b, b < 2 → ∀ d ∈ C b, d ≤ j.counter
  /-- Equal newest counters are resolved to block 1. -/
  tie : j.active = 0 → ∀ d ∈ C 1, d < j.counter

def Matches (tc : TinyCrypt) (initial : UInt32) (j : AuthJournal) (f : Flash) : Prop :=
  ∃ C, Blocks tc j.key j.blockSize f C ∧ Position initial j C

theorem blocks_unique {tc : TinyCrypt} {key : Bytes 32} {blockSize : ℕ} {f : Flash}
    {C D : ℕ → List UInt32} (h : Blocks tc key blockSize f C) (g : Blocks tc key blockSize f D)
    {b : ℕ} (hb : b < 2) : C b = D b :=
  holds_unique (h b hb) (g b hb)

theorem blocks_sorted {tc : TinyCrypt} {key : Bytes 32} {blockSize : ℕ} {f : Flash}
    {C : ℕ → List UInt32} (h : Blocks tc key blockSize f C) {b : ℕ} (hb : b < 2) :
    (C b).Pairwise (· < ·) :=
  (holds_above (h b hb)).2

theorem le_of_last {cs : List UInt32} (sorted : cs.Pairwise (· < ·)) {m : UInt32}
    (h : ∀ c, cs.getLast? = some c → c ≤ m) : ∀ d ∈ cs, d ≤ m := by
  intro d hd
  rcases List.eq_nil_or_concat cs with rfl | ⟨ds, c, rfl⟩
  · cases hd
  · rw [List.concat_eq_append] at *
    have hc := h c List.getLast?_concat
    rcases List.mem_append.mp hd with hd | hd
    · have lt := (List.pairwise_append.mp sorted).2.2 d hd c (by simp)
      exact UInt32.le_trans (UInt32.le_of_lt lt) hc
    · rw [List.mem_singleton.mp hd]
      exact hc

theorem lt_of_last {cs : List UInt32} (sorted : cs.Pairwise (· < ·)) {m : UInt32}
    (h : ∀ c, cs.getLast? = some c → c < m) : ∀ d ∈ cs, d < m := by
  intro d hd
  cases last : cs.getLast? with
  | none =>
    rw [List.getLast?_eq_none_iff.mp last] at hd
    cases hd
  | some c =>
    have le : d ≤ c := le_of_last sorted (by simp [last]) d hd
    exact UInt32.lt_of_le_of_lt le (h c last)

@[simp] theorem moveTo_moveTo (j : AuthJournal) (c d : UInt32) (b n b' n' : ℕ) :
    (j.moveTo c b n).moveTo d b' n' = j.moveTo d b' n' := rfl

theorem position_settle {initial : UInt32} {j j₀ : AuthJournal} {C : ℕ → List UInt32}
    (h : Position initial j C) (hj : j₀.counter = initial) :
    settle 1 0 (settle 0 0 j₀ false (C 0)).1 (settle 0 0 j₀ false (C 0)).2 (C 1) =
      (j₀.moveTo j.counter j.active j.next, true) := by
  obtain ⟨active, newest, next, le, bound, tie⟩ := h
  have two : j.active = 0 ∨ j.active = 1 := by omega
  rw [← hj] at le
  rcases two with ha | ha
  · rw [ha] at newest next ⊢
    have skip : ∀ d, (C 1).getLast? = some d → d < (j₀.moveTo j.counter 0 j.next).counter :=
      fun d hd => tie ha d (List.mem_of_getLast? hd)
    rw [settle_take newest le, Nat.zero_add, ← next]
    exact settle_skip skip
  · rw [ha] at newest next ⊢
    rcases settle_cases 0 0 j₀ false (C 0) with ⟨d, last, _, first⟩ | ⟨_, first⟩
    · have hd := bound 0 (by omega) d (List.mem_of_getLast? last)
      rw [first, settle_take newest hd, moveTo_moveTo, Nat.zero_add, ← next]
    · rw [first, settle_take newest le, Nat.zero_add, ← next]

theorem settle_position {j j₀ : AuthJournal} {C : ℕ → List UInt32}
    (sorted : ∀ b, b < 2 → (C b).Pairwise (· < ·))
    (h : settle 1 0 (settle 0 0 j₀ false (C 0)).1 (settle 0 0 j₀ false (C 0)).2 (C 1) = (j, true)) :
    Position j₀.counter j C := by
  have s0 := sorted 0 (by omega)
  have s1 := sorted 1 (by omega)
  have two : ∀ m : UInt32, (∀ d ∈ C 0, d ≤ m) → (∀ d ∈ C 1, d ≤ m) →
      ∀ b, b < 2 → ∀ d ∈ C b, d ≤ m := by
    intro m h0 h1 b hb
    have : b = 0 ∨ b = 1 := by omega
    rcases this with rfl | rfl
    · exact h0
    · exact h1
  -- The last move was to block 1 exactly when it reaches what block 0 left.
  rcases settle_cases 0 0 j₀ false (C 0) with ⟨c, last₀, le₀, first⟩ | ⟨skip₀, first⟩
  · rw [first] at h
    have top : ∀ m, (C 0).getLast? = some m → m ≤ c := fun m hm =>
      Option.some.inj (last₀.symm.trans hm) ▸ UInt32.le_refl _
    rcases settle_cases 1 0 (j₀.moveTo c 0 (0 + 32 * (C 0).length)) true (C 1) with
      ⟨d, last, le, second⟩ | ⟨skip, second⟩
    · obtain ⟨rfl, -⟩ := Prod.mk.inj (second.symm.trans h)
      refine ⟨Nat.one_lt_two, last, by simp [AuthJournal.moveTo], UInt32.le_trans le₀ le, ?_, ?_⟩
      · refine two d (le_of_last s0 fun m hm => UInt32.le_trans (top m hm) le) (le_of_last s1 ?_)
        exact fun m hm => Option.some.inj (last.symm.trans hm) ▸ UInt32.le_refl _
      · intro zero
        cases zero
    · obtain ⟨rfl, -⟩ := Prod.mk.inj (second.symm.trans h)
      have lt := lt_of_last s1 skip
      exact ⟨Nat.two_pos, last₀, by simp [AuthJournal.moveTo], le₀,
        two c (le_of_last s0 top) (fun d hd => UInt32.le_of_lt (lt d hd)), fun _ => lt⟩
  · rw [first] at h
    rcases settle_cases 1 0 j₀ false (C 1) with ⟨d, last, le, second⟩ | ⟨skip, second⟩
    · obtain ⟨rfl, -⟩ := Prod.mk.inj (second.symm.trans h)
      refine ⟨Nat.one_lt_two, last, by simp [AuthJournal.moveTo], le, ?_, ?_⟩
      · refine two d (le_of_last s0 fun m hm => ?_) (le_of_last s1 ?_)
        · exact UInt32.le_trans (UInt32.le_of_lt (skip₀ m hm)) le
        · exact fun m hm => Option.some.inj (last.symm.trans hm) ▸ UInt32.le_refl _
      · intro zero
        cases zero
    · rw [second] at h
      cases h

theorem slots_shift (f : Flash) (block off n : ℕ) :
    ((List.range (n + 1)).map fun k => slotAt f block (off + 32 * k)) =
      slotAt f block off :: (List.range n).map fun k => slotAt f block (off + 32 + 32 * k) := by
  rw [List.range_succ_eq_map, List.map_cons, List.map_map]
  refine congrArg₂ _ (by rw [Nat.mul_zero, Nat.add_zero]) (List.map_congr_left fun k _ => ?_)
  exact congrArg (slotAt f block) (by omega)

theorem matches_of_scan {tc : TinyCrypt} {blockSize : ℕ} {f : Flash} {j₀ : AuthJournal}
    {s₁ s₂ : Scan}
    (first : scanList tc 0 0 ⟨j₀, false, false, 0⟩ (slots blockSize f 0) = some s₁)
    (second : scanList tc 1 0 { s₁ with gap := false, last := 0 } (slots blockSize f 1) = some s₂)
    (key : s₁.journal.key = j₀.key) (found : s₂.found = true) :
    ∃ C, Blocks tc j₀.key blockSize f C ∧ Position j₀.counter s₂.journal C := by
  obtain ⟨cs, hcs⟩ := scanList_sound first
  obtain ⟨ds, hds⟩ := scanList_sound second
  dsimp only at hcs hds
  rw [key] at hds
  obtain ⟨t₁, ht₁, e₁⟩ := scanList_complete 0 0 ⟨j₀, false, false, 0⟩ hcs
  obtain rfl := Option.some.inj (ht₁.symm.trans first)
  obtain ⟨t₂, ht₂, e₂⟩ := scanList_complete 1 0 { t₁ with gap := false, last := 0 } (key ▸ hds)
  obtain rfl := Option.some.inj (ht₂.symm.trans second)
  have blocks : Blocks tc j₀.key blockSize f (fun b => if b = 0 then cs else ds) := by
    intro b hb
    have : b = 0 ∨ b = 1 := by omega
    rcases this with rfl | rfl
    · exact hcs
    · exact hds
  refine ⟨_, blocks, settle_position (fun b hb => blocks_sorted blocks hb) ?_⟩
  dsimp only at e₁ e₂ ⊢
  rw [if_pos rfl, ← e₁, if_neg Nat.one_ne_zero, ← e₂, found]

theorem scan_of_matches {tc : TinyCrypt} {initial : UInt32} {f : Flash} {j j₀ : AuthJournal}
    (h : Matches tc initial j f) (hj : j₀.counter = initial) (key : j₀.key = j.key) :
    ∃ s₁ s₂, scanList tc 0 0 ⟨j₀, false, false, 0⟩ (slots j.blockSize f 0) = some s₁ ∧
      scanList tc 1 0 { s₁ with gap := false, last := 0 } (slots j.blockSize f 1) = some s₂ ∧
      s₂.found = true ∧ s₂.journal = j₀.moveTo j.counter j.active j.next := by
  obtain ⟨C, blocks, position⟩ := h
  rw [← key] at blocks
  obtain ⟨s₁, h₁, e₁⟩ := scanList_complete 0 0 ⟨j₀, false, false, 0⟩ (blocks 0 (by omega))
  have journal₁ : s₁.journal = (settle 0 0 j₀ false (C 0)).1 := congrArg Prod.fst e₁
  have found₁ : s₁.found = (settle 0 0 j₀ false (C 0)).2 := congrArg Prod.snd e₁
  have key₁ : s₁.journal.key = j₀.key := by
    rw [journal₁]
    rcases settle_cases 0 0 j₀ false (C 0) with ⟨c, _, _, e⟩ | ⟨_, e⟩
    · rw [e]
      rfl
    · rw [e]
  obtain ⟨s₂, h₂, e₂⟩ := scanList_complete 1 0 { s₁ with gap := false, last := 0 }
    (key₁ ▸ blocks 1 (by omega))
  change (s₂.journal, s₂.found) = settle 1 0 s₁.journal s₁.found (C 1) at e₂
  rw [journal₁, found₁, position_settle position hj] at e₂
  exact ⟨s₁, s₂, h₁, h₂, congrArg Prod.snd e₂, congrArg Prod.fst e₂⟩

theorem scanSlot_moved {tc : TinyCrypt} {block off : ℕ} {s s' : Scan} {r : Bytes 32}
    (h : scanSlot tc block off s r = some s') : ∃ c b n, s'.journal = s.journal.moveTo c b n := by
  rcases scanSlot_some h with ⟨-, rfl⟩ | ⟨c, -, -, -, rfl⟩
  · exact ⟨s.journal.counter, s.journal.active, s.journal.next, rfl⟩
  · unfold Scan.note
    split
    · exact ⟨c, block, off + 32, rfl⟩
    · exact ⟨s.journal.counter, s.journal.active, s.journal.next, rfl⟩

section
variable {blockSize : ℕ} {tear : FlashCall → Flash → Flash → Prop} {G : FlashCall → Flash → Prop}
  {K : Flash → Prop}

def ReadOnly (tear : FlashCall → Flash → Flash → Prop) : Prop :=
  ∀ block off s t, tear (.read block off) s t → t = s

theorem bitTear_readOnly : ReadOnly (bitTear blockSize) := fun _ _ _ _ h => h

theorem wholeTear_readOnly : ReadOnly (wholeTear blockSize) := fun _ _ _ _ h => h

theorem safe_scanBlock (tc : TinyCrypt) (block n off : ℕ) (s : Scan) (f : Flash)
    (hr : ReadOnly tear) (hK : K f) (hG : ∀ b o, G (.read b o) f) :
    Safe (flashDevice blockSize tear) G K (scanBlock tc block n off s)
      (fun r t => t = f ∧ (∃ c b m, r.1.journal = s.journal.moveTo c b m) ∧
        (r.2 = true → scanList tc block off s
          ((List.range n).map fun k => slotAt f block (off + 32 * k)) = some r.1)) f := by
  induction n generalizing off s with
  | zero => exact ⟨hK, rfl, ⟨s.journal.counter, s.journal.active, s.journal.next, rfl⟩, fun _ => rfl⟩
  | succ n ih =>
    rw [scanBlock, Prog.ask_bind]
    refine ⟨hK, hG block off, fun t ht => hr block off f t ht ▸ hK, ?_⟩
    rintro record t ⟨rfl, read⟩
    rw [slots_shift]
    dsimp only
    cases slot : record.bind (scanSlot tc block off s) with
    | none =>
      exact ⟨hK, rfl, ⟨s.journal.counter, s.journal.active, s.journal.next, rfl⟩, fun h => by cases h⟩
    | some s₁ =>
      obtain ⟨r, hrecord, accepted⟩ := Option.bind_eq_some_iff.mp slot
      have faithful : r = slotAt t block off := by
        rcases read with rfl | rfl
        · cases hrecord
        · exact (Option.some.inj hrecord).symm
      obtain ⟨c, b, m, moved⟩ := scanSlot_moved accepted
      refine safe_post ?_ (ih (off + 32) s₁)
      rintro r' t' ⟨ht, ⟨c', b', m', moved'⟩, through⟩
      refine ⟨ht, ⟨c', b', m', by rw [moved', moved, moveTo_moveTo]⟩, fun ok => ?_⟩
      rw [scanList, ← faithful, accepted]
      exact through ok

theorem scanBlock_eval (tc : TinyCrypt) (block n off : ℕ) (s s' : Scan) (f : Flash)
    (h : scanList tc block off s ((List.range n).map fun k => slotAt f block (off + 32 * k)) =
      some s') :
    (scanBlock tc block n off s).eval (flashEval blockSize) f = ((s', true), f) := by
  induction n generalizing off s with
  | zero =>
    obtain rfl := Option.some.inj h
    rfl
  | succ n ih =>
    rw [slots_shift, scanList] at h
    obtain ⟨s₁, first, rest⟩ := Option.bind_eq_some_iff.mp h
    rw [scanBlock, Prog.ask_bind, Prog.eval_call]
    dsimp only [flashEval]
    rw [Option.bind_some, first]
    exact ih (off + 32) s₁ rest

theorem slots_eq (f : Flash) (block : ℕ) :
    ((List.range (blockSize / 32)).map fun k => slotAt f block (0 + 32 * k)) =
      slots blockSize f block :=
  List.map_congr_left fun _ _ => congrArg (slotAt f block) (Nat.zero_add _)

inductive LoadOutcome (tc : TinyCrypt) (initial : UInt32) (j : AuthJournal) (f : Flash) :
    AuthJournal × Bool → Prop where
  | invalid (h : j.valid = false) : LoadOutcome tc initial j f (j, false)
  | failed (c : UInt32) (b n : ℕ) :
      LoadOutcome tc initial j f (({ j with ready := false } : AuthJournal).moveTo c b n, false)
  | found (c : UInt32) (b n : ℕ) (valid : j.valid = true)
      (h : Matches tc initial (({ j with ready := true } : AuthJournal).moveTo c b n) f) :
      LoadOutcome tc initial j f (({ j with ready := true } : AuthJournal).moveTo c b n, true)

/-- Whatever read fails and wherever power is lost, a load keeps the flash, and when it
    returns one the journal matches it. -/
theorem safe_load (tc : TinyCrypt) (j : AuthJournal) (initial : UInt32) (f : Flash)
    (hr : ReadOnly tear) (hK : K f) (hG : ∀ b o, G (.read b o) f) :
    Safe (flashDevice blockSize tear) G K (authJournalLoad tc j initial)
      (fun r t => t = f ∧ LoadOutcome tc initial j f r) f := by
  unfold authJournalLoad
  split
  · rename_i invalid
    exact ⟨hK, rfl, .invalid (by simpa using invalid)⟩
  · rename_i valid
    have hvalid : j.valid = true := by simpa using valid
    dsimp only
    generalize hj₀ : ({ j with ready := false } : AuthJournal).moveTo initial 0 0 = j₀
    have fails : ∀ (s : Scan) t, t = f → (∃ c b n, s.journal = j₀.moveTo c b n) →
        t = f ∧ LoadOutcome tc initial j f (s.journal, false) := by
      rintro s t ht ⟨c, b, n, hs⟩
      rw [hs, ← hj₀]
      exact ⟨ht, .failed c b n⟩
    refine safe_then (safe_scanBlock tc 0 _ 0 ⟨j₀, false, false, 0⟩ f hr hK hG) ?_
    rintro ⟨s₁, ok₁⟩ t ⟨rfl, moved₁, through₁⟩ -
    cases ok₁ with
    | false => exact ⟨hK, fails s₁ t rfl moved₁⟩
    | true =>
      change Safe _ G K (scanBlock tc 1 (j₀.blockSize / 32) 0 { s₁ with gap := false, last := 0 } >>= _)
        _ t
      refine safe_then (safe_scanBlock tc 1 _ 0 { s₁ with gap := false, last := 0 } t hr hK hG) ?_
      rintro ⟨s₂, ok₂⟩ u ⟨rfl, moved₂, through₂⟩ -
      obtain ⟨c₁, b₁, n₁, e₁⟩ := moved₁
      have moved : ∃ c b n, s₂.journal = j₀.moveTo c b n := by
        obtain ⟨c₂, b₂, n₂, e₂⟩ := moved₂
        exact ⟨c₂, b₂, n₂, e₂.trans (congrArg (·.moveTo c₂ b₂ n₂) e₁)⟩
      dsimp only
      split
      · exact ⟨hK, fails s₂ u rfl moved⟩
      · rename_i complete
        simp only [Bool.or_eq_true, Bool.not_eq_true', not_or, Bool.not_eq_false] at complete
        obtain ⟨rfl, found⟩ := complete
        obtain ⟨c, b, n, e⟩ := moved
        have first := through₁ rfl
        have second := through₂ rfl
        rw [slots_eq] at first second
        obtain ⟨C, blocks, position⟩ := matches_of_scan first second (by rw [e₁]; rfl) found
        rw [e, ← hj₀] at position ⊢
        rw [← hj₀] at blocks
        refine ⟨hK, rfl, .found c b n hvalid ⟨C, blocks, ?_⟩⟩
        exact ⟨position.1, position.2, position.3, position.4, position.5, position.6⟩

theorem matches_moved {tc : TinyCrypt} {initial : UInt32} {j j' : AuthJournal} {f : Flash}
    {ready : Bool} (h : Matches tc initial j' f) (key : j.key = j'.key)
    (size : j.blockSize = j'.blockSize) :
    Matches tc initial
      (({ j with ready := ready } : AuthJournal).moveTo j'.counter j'.active j'.next) f := by
  obtain ⟨C, blocks, position⟩ := h
  rw [← key, ← size] at blocks
  exact ⟨C, blocks, position.1, position.2, position.3, position.4, position.5, position.6⟩

theorem load_complete (tc : TinyCrypt) (j j' : AuthJournal) (initial : UInt32) (f : Flash)
    (valid : j.valid = true) (key : j.key = j'.key) (size : j.blockSize = j'.blockSize)
    (h : Matches tc initial j' f) :
    (authJournalLoad tc j initial).eval (flashEval blockSize) f =
      ((({ j with ready := true } : AuthJournal).moveTo j'.counter j'.active j'.next, true), f) := by
  rw [authJournalLoad, if_neg (by simp [valid])]
  dsimp only
  generalize hj₀ : ({ j with ready := false } : AuthJournal).moveTo initial 0 0 = j₀
  have start : j₀.counter = initial ∧ j₀.key = j'.key ∧ j₀.blockSize = j'.blockSize := by
    rw [← hj₀, ← key, ← size]
    exact ⟨rfl, rfl, rfl⟩
  obtain ⟨s₁, s₂, first, second, found, moved⟩ := scan_of_matches h start.1 start.2.1
  rw [Prog.eval_bind, start.2.2]
  rw [scanBlock_eval tc 0 _ 0 _ s₁ f (by rw [slots_eq]; exact first)]
  change Prog.eval _ (scanBlock tc 1 (j'.blockSize / 32) 0 { s₁ with gap := false, last := 0 } >>= _)
    f = _
  rw [Prog.eval_bind, scanBlock_eval tc 1 _ 0 _ s₂ f (by rw [slots_eq]; exact second)]
  simp only [found, moved, ← hj₀]
  rfl

end

/-- A first record at the start of both blocks, everything behind it blank. -/
def seedFlash (record : Bytes 32) : Flash := fun b o => if b < 2 then record.data.getD o 255 else 255

theorem slots_seed (blockSize : ℕ) (r : Bytes 32) {b : ℕ} (hb : b < 2) (size : 32 ≤ blockSize) :
    slots blockSize (seedFlash r) b = r :: List.replicate (blockSize / 32 - 1) blank := by
  have pos : 0 < blockSize / 32 := by omega
  apply List.ext_getElem
  · rw [length_slots, List.length_cons, List.length_replicate]
    omega
  · intro k hk _
    cases k with
    | zero =>
      ext1
      apply List.ext_getElem
      · simp [slots]
      · intro i hi _
        have hi' : i < r.data.length := by simpa [slots] using hi
        simp [slots, slotAt, seedFlash, hb, List.getElem?_eq_getElem hi']
    | succ k =>
      rw [List.getElem_cons_succ, List.getElem_replicate]
      ext1
      apply List.ext_getElem
      · simp [slots]
      · intro i hi _
        have out : r.data.length ≤ 32 * (k + 1) + i := by
          rw [r.length_data]
          omega
        have full : blank.data[i] = 255 := List.getElem_replicate _
        rw [full]
        simp [slots, slotAt, seedFlash, hb, List.getElem?_eq_none out]

theorem seeded_matches {tc : TinyCrypt} {j : AuthJournal} {f : Flash} {r : Bytes 32} {c : UInt32}
    (h : ∀ b, b < 2 → slots j.blockSize f b = r :: List.replicate (j.blockSize / 32 - 1) blank)
    (made : recordOf tc j.key c = some r) (pos : 0 < c) : Matches tc c (j.moveTo c 1 32) f := by
  refine ⟨fun _ => [c], ?_, Nat.one_lt_two, rfl, rfl, UInt32.le_refl c, ?_, fun h => by cases h⟩
  · intro b hb
    change Holds tc j.key false 0 (slots j.blockSize f b) [c]
    rw [h b hb]
    exact .record made pos (holds_replicate _)
  · intro b _ d hd
    rw [List.mem_singleton.mp hd]
    exact UInt32.le_refl c

theorem flashEval_answers (blockSize : ℕ) (tear : FlashCall → Flash → Flash → Prop) (c : FlashCall)
    (s : Flash) : (flashDevice blockSize tear).answers c s (flashEval blockSize c s).1
      (flashEval blockSize c s).2 := by
  cases c with
  | read block off => exact ⟨rfl, Or.inr rfl⟩
  | program block off data => rfl
  | erase block => rfl

def smallJournal : AuthJournal := { AuthJournal.zero with blockSize := 64, callbacks := true }

def smallSeed (c : UInt32) : Bytes 32 :=
  makeRecord c ⟨Sha256.hmac smallJournal.key.data ([0x43, 0x54, 0x52, 0x31] ++ simplePutU32 c), rfl⟩

theorem small_record (c : UInt32) :
    recordOf referenceTinyCrypt smallJournal.key c = some (smallSeed c) := by
  have computed := @hmacCompute_bytes _ _ _ reference_computes smallJournal.key
    ([0x43, 0x54, 0x52, 0x31] ++ simplePutU32 c) (by simp [UINT_MAX])
  rw [recordOf, recordMac, computed]
  rfl

theorem small_matches {c : UInt32} (pos : 0 < c) :
    Matches referenceTinyCrypt c (smallJournal.moveTo c 1 32) (seedFlash (smallSeed c)) :=
  seeded_matches (fun _ hb => slots_seed 64 (smallSeed c) hb (by decide)) (small_record c) pos

theorem small_load {c : UInt32} (pos : 0 < c) :
    (authJournalLoad referenceTinyCrypt smallJournal c).eval (flashEval 64) (seedFlash (smallSeed c)) =
      ((({ smallJournal with ready := true } : AuthJournal).moveTo c 1 32, true),
        seedFlash (smallSeed c)) :=
  load_complete referenceTinyCrypt smallJournal (smallJournal.moveTo c 1 32) c _ rfl rfl rfl
    (small_matches pos)

end SimpleAttestation.JournalLoad
