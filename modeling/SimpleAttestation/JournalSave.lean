import SimpleAttestation.JournalLoad
import SimpleAttestation.JournalTorn

set_option autoImplicit false

/-!
# The save: where it writes, and what it leaves
-/
namespace SimpleAttestation.JournalSave
open ByteStrings Wire Crypto CallProgram Journal JournalScan JournalLoad JournalTorn

/-- The slot a save goes to. A full block sends it to the start of the other one. -/
def saveBlock (j : AuthJournal) : ℕ := if j.next = j.blockSize then j.active ^^^ 1 else j.active

def saveOff (j : AuthJournal) : ℕ := if j.next = j.blockSize then 0 else j.next

def saveBase (j : AuthJournal) (f : Flash) : Flash :=
  if j.next = j.blockSize then eraseBlock j.blockSize f (j.active ^^^ 1) else f

def saved (j : AuthJournal) (c : UInt32) : AuthJournal :=
  { j.moveTo c (saveBlock j) (saveOff j + 32) with ready := true }

section
variable {blockSize : ℕ} {tear : FlashCall → Flash → Flash → Prop} {G : FlashCall → Flash → Prop}
  {K : Flash → Prop}

theorem safe_append (tc : TinyCrypt) (j : AuthJournal) (c : UInt32) (block off : ℕ) (f : Flash)
    (hr : ReadOnly tear) (hK : K f)
    (hG : ∀ r, recordOf tc j.key c = some r → G (.program block off r) f ∧
      (∀ t, tear (.program block off r) f t → K t) ∧ K (writeSlot f block off r) ∧
      G (.read block off) (writeSlot f block off r)) :
    Safe (flashDevice blockSize tear) G K (appendRecord tc j c block off)
      (fun x t => (∃ r, recordOf tc j.key c = some r ∧ t = writeSlot f block off r ∧
          x = ({ j.moveTo c block (off + 32) with ready := true }, true)) ∨ x = (j, false)) f := by
  unfold appendRecord
  cases hmac : recordMac tc j.key c with
  | none => exact ⟨hK, Or.inr rfl⟩
  | some mac =>
    have made : recordOf tc j.key c = some (makeRecord c mac) := by rw [recordOf, hmac, Option.map_some]
    obtain ⟨guard, torn, written, readable⟩ := hG _ made
    refine ⟨hK, guard, torn, ?_⟩
    rintro programmed t outcome
    cases programmed with
    | false => exact ⟨torn t outcome, Or.inr rfl⟩
    | true =>
      obtain rfl : t = writeSlot f block off (makeRecord c mac) := outcome
      refine ⟨written, readable, fun u hu => hr block off _ u hu ▸ written, ?_⟩
      rintro check u ⟨rfl, -⟩
      cases check with
      | none => exact ⟨written, Or.inr rfl⟩
      | some check =>
        change Safe _ G K (if !simpleCtCompare (makeRecord c mac).data check.data 32 then
          pure (j, false) else pure (_, true)) _ _
        split
        · exact ⟨written, Or.inr rfl⟩
        · exact ⟨written, Or.inl ⟨_, made, rfl, rfl⟩⟩

/-- A save that is not refused at once. The hypotheses name every flash it can leave. -/
theorem safe_save (tc : TinyCrypt) (j : AuthJournal) (c : UInt32) (f : Flash)
    (size : j.blockSize = blockSize) (hr : ReadOnly tear) (ready : j.ready = true)
    (fresh : j.counter < c) (hK : K f)
    (herase : j.next = j.blockSize → G (.erase (j.active ^^^ 1)) f ∧
      (∀ t, tear (.erase (j.active ^^^ 1)) f t → K t) ∧ K (saveBase j f))
    (hprogram : ∀ r, recordOf tc j.key c = some r →
      G (.program (saveBlock j) (saveOff j) r) (saveBase j f) ∧
      (∀ t, tear (.program (saveBlock j) (saveOff j) r) (saveBase j f) t → K t) ∧
      K (writeSlot (saveBase j f) (saveBlock j) (saveOff j) r) ∧
      G (.read (saveBlock j) (saveOff j)) (writeSlot (saveBase j f) (saveBlock j) (saveOff j) r)) :
    Safe (flashDevice blockSize tear) G K (authJournalSave tc j c)
      (fun x t => (∃ r, recordOf tc j.key c = some r ∧
          t = writeSlot (saveBase j f) (saveBlock j) (saveOff j) r ∧ x = (saved j c, true)) ∨
        x = ({ j with ready := false }, false)) f := by
  have opened : ¬ (!j.ready || decide (c ≤ j.counter)) = true := by
    simp [ready, UInt32.not_le.mpr fresh]
  rw [authJournalSave, if_neg opened]
  by_cases full : j.next = j.blockSize
  · have hblock : saveBlock j = j.active ^^^ 1 := if_pos full
    have hoff : saveOff j = 0 := if_pos full
    have hbase : saveBase j f = eraseBlock j.blockSize f (j.active ^^^ 1) := if_pos full
    obtain ⟨guard, torn, clean⟩ := herase full
    rw [hblock, hoff, hbase] at hprogram
    rw [hbase] at clean
    rw [hblock, hoff, hbase, if_pos full]
    refine ⟨hK, guard, torn, ?_⟩
    rintro done t outcome
    cases done with
    | false => exact ⟨torn t outcome, Or.inr rfl⟩
    | true =>
      obtain rfl : t = eraseBlock j.blockSize f (j.active ^^^ 1) := size ▸ outcome
      refine safe_post ?_
        (safe_append tc { j with ready := false } c (j.active ^^^ 1) 0 _ hr clean hprogram)
      rintro x u (⟨r, made, hu, hx⟩ | hx)
      · refine Or.inl ⟨r, made, hu, ?_⟩
        rw [hx, saved, hblock, hoff]
        rfl
      · exact Or.inr hx
  · have hblock : saveBlock j = j.active := if_neg full
    have hoff : saveOff j = j.next := if_neg full
    have hbase : saveBase j f = f := if_neg full
    rw [hblock, hoff, hbase] at hprogram
    rw [hblock, hoff, hbase, if_neg full]
    refine safe_post ?_
      (safe_append tc { j with ready := false } c j.active j.next _ hr hK hprogram)
    rintro x u (⟨r, made, hu, hx⟩ | hx)
    · refine Or.inl ⟨r, made, hu, ?_⟩
      rw [hx, saved, hblock, hoff]
      rfl
    · exact Or.inr hx

theorem save_refused (tc : TinyCrypt) (j : AuthJournal) (c : UInt32)
    (h : j.ready = false ∨ c ≤ j.counter) : authJournalSave tc j c = .done (j, false) := by
  have closed : (!j.ready || decide (c ≤ j.counter)) = true := by
    rcases h with h | h <;> simp [h]
  rw [authJournalSave, if_pos closed]
  rfl

end

structure Same (j j' : AuthJournal) : Prop where
  counter : j'.counter = j.counter
  active : j'.active = j.active
  next : j'.next = j.next

/-- `j` stands on the flash, and the record that starts at `off` is the first blank one of
    its block. -/
def Room (tc : TinyCrypt) (initial : UInt32) (j : AuthJournal) (f : Flash) (block off : ℕ) : Prop :=
  ∃ C, Blocks tc j.key j.blockSize f C ∧ Position initial j C ∧ block < 2 ∧
    off = 32 * (C block).length ∧ (C block).length < j.blockSize / 32

theorem xor_one {a : ℕ} (h : a < 2) : a ^^^ 1 < 2 ∧ a ^^^ 1 ≠ a := by
  have two : a = 0 ∨ a = 1 := by omega
  rcases two with rfl | rfl <;> decide

theorem position_unique {initial : UInt32} {j j' : AuthJournal} {C D : ℕ → List UInt32}
    (h : Position initial j C) (g : Position initial j' D) (same : ∀ b, b < 2 → C b = D b) :
    Same j j' := by
  have first := @position_settle initial j { j with counter := initial } C h rfl
  have second := @position_settle initial j' { j with counter := initial } D g rfl
  rw [same 0 (by omega), same 1 (by omega)] at first
  have moved := congrArg Prod.fst (first.symm.trans second)
  exact ⟨(congrArg AuthJournal.counter moved).symm, (congrArg AuthJournal.active moved).symm,
    (congrArg AuthJournal.next moved).symm⟩

theorem position_prefix {initial : UInt32} {j : AuthJournal} {C D : ℕ → List UInt32}
    (h : Position initial j C) (same : D j.active = C j.active)
    (less : ∀ b, b < 2 → ∀ d ∈ D b, d ∈ C b) : Position initial j D where
  active_lt := h.active_lt
  newest := same ▸ h.newest
  next_eq := same ▸ h.next_eq
  initial_le := h.initial_le
  bound := fun b hb d hd => h.bound b hb d (less b hb d hd)
  tie := fun zero d hd => h.tie zero d (less 1 Nat.one_lt_two d hd)

section
variable {tc : TinyCrypt} {initial : UInt32} {j j' : AuthJournal} {f : Flash} {block off : ℕ}

theorem base_room (h : Matches tc initial j f) (size : j.valid = true) :
    Room tc initial j (saveBase j f) (saveBlock j) (saveOff j) := by
  obtain ⟨C, blocks, position⟩ := h
  obtain ⟨other, different⟩ := xor_one position.active_lt
  simp only [AuthJournal.valid, Bool.and_eq_true, decide_eq_true_eq, beq_iff_eq] at size
  obtain ⟨⟨-, least⟩, aligned⟩ := size
  by_cases full : j.next = j.blockSize
  · have hblock : saveBlock j = j.active ^^^ 1 := if_pos full
    have hoff : saveOff j = 0 := if_pos full
    have hbase : saveBase j f = eraseBlock j.blockSize f (j.active ^^^ 1) := if_pos full
    rw [hblock, hoff, hbase]
    refine ⟨fun b => if b = j.active ^^^ 1 then [] else C b, ?_, ?_, other, by simp, ?_⟩
    · intro b hb
      dsimp only
      split
      · rename_i e
        rw [e, slots_erase]
        exact holds_replicate _
      · rename_i ne
        rw [eraseBlock, slots_setBlock_other _ _ _ _ _ ne]
        exact blocks b hb
    · refine position_prefix position (if_neg different.symm) ?_
      intro b hb d hd
      split at hd
      · cases hd
      · exact hd
    · simp only [if_pos, List.length_nil]
      omega
  · have hblock : saveBlock j = j.active := if_neg full
    have hoff : saveOff j = j.next := if_neg full
    have hbase : saveBase j f = f := if_neg full
    rw [hblock, hoff, hbase]
    have len := holds_length (blocks j.active position.active_lt)
    have next := position.next_eq
    rw [length_slots] at len
    exact ⟨C, blocks, position, position.active_lt, next, by omega⟩

theorem room_slot (h : Room tc initial j f block off) :
    slotAt f block off = blank ∧ off % 32 = 0 ∧ off + 32 ≤ j.blockSize ∧ block < 2 := by
  obtain ⟨C, blocks, -, hb, rfl, room⟩ := h
  have free := holds_room (blocks block hb) (by rw [length_slots]; exact room)
  rw [slots_get _ _ _ _ room] at free
  exact ⟨Option.some.inj free, by omega, by omega, hb⟩

theorem room_write {c : UInt32} {r : Bytes 32} (h : Room tc initial j f block off)
    (made : recordOf tc j.key c = some r) (fresh : j.counter < c) :
    Matches tc initial (j.moveTo c block (off + 32)) (writeSlot f block off r) := by
  obtain ⟨C, blocks, position, hb, rfl, room⟩ := h
  have below : ∀ b, b < 2 → ∀ d ∈ C b, d < c := fun b hb d hd =>
    UInt32.lt_of_le_of_lt (position.bound b hb d hd) fresh
  have above : 0 < c := UInt32.lt_of_le_of_lt UInt32.zero_le fresh
  refine ⟨fun b => if b = block then C block ++ [c] else C b, ?_, ?_⟩
  · intro b hb'
    change Holds tc j.key false 0 (slots j.blockSize _ b) _
    dsimp only
    split
    · rename_i e
      rw [e, slots_write]
      exact holds_append (blocks block hb) rfl made above (below block hb) (by rw [length_slots]; exact room)
    · rename_i ne
      rw [slots_write_other _ _ _ _ _ _ ne]
      exact blocks b hb'
  · refine ⟨hb, ?_, ?_, ?_, ?_, ?_⟩
    · change (if block = block then C block ++ [c] else C block).getLast? = some c
      rw [if_pos rfl, List.getLast?_concat]
    · change 32 * (C block).length + 32 = 32 * (if block = block then C block ++ [c] else C block).length
      rw [if_pos rfl, List.length_append, List.length_singleton]
      omega
    · exact UInt32.le_trans position.initial_le (UInt32.le_of_lt fresh)
    · intro b hb' d hd
      change d ≤ c
      split at hd
      · rcases List.mem_append.mp hd with hd | hd
        · exact UInt32.le_of_lt (below block hb d hd)
        · rw [List.mem_singleton.mp hd]
          exact UInt32.le_refl c
      · exact UInt32.le_of_lt (below b hb' d hd)
    · intro zero d hd
      change block = 0 at zero
      subst zero
      exact below 1 Nat.one_lt_two d (by simpa using hd)

/-- After a torn program a load finds the old place or the new one. -/
theorem torn_program {c : UInt32} {r d : Bytes 32} (h : Room tc initial j f block off)
    (made : recordOf tc j.key c = some r) (fresh : j.counter < c) (torn : RaisedBytes r d)
    (key : j'.key = j.key) (size : j'.blockSize = j.blockSize)
    (g : Matches tc initial j' (writeSlot f block off d)) :
    Same j j' ∨ Same (j.moveTo c block (off + 32)) j' := by
  obtain ⟨D, blocks', position'⟩ := g
  rw [key, size] at blocks'
  have kept := h
  obtain ⟨C, blocks, position, hb, rfl, room⟩ := kept
  have others : ∀ b, b < 2 → b ≠ block → C b = D b := by
    intro b hb' ne
    have g := blocks' b hb'
    rw [slots_write_other _ _ _ _ _ _ ne] at g
    exact holds_unique (blocks b hb') g
  have written := blocks' block hb
  rw [slots_write] at written
  rcases holds_written (blocks block hb) (by rw [length_slots]; exact room) written with
    ⟨-, same⟩ | ⟨e, valid, -⟩
  · left
    refine position_unique position position' fun b hb' => ?_
    by_cases e : b = block
    · rw [e, same]
    · exact others b hb' e
  · right
    obtain ⟨rfl, rfl⟩ := torn_record torn made valid
    obtain ⟨E, blocks₁, position₁⟩ := room_write h made fresh
    exact position_unique position₁ position' fun b hb' => blocks_unique blocks₁ blocks' hb'

theorem torn_erase {bytes : ℕ → UInt8} (h : Matches tc initial j f)
    (torn : ∀ o, Raised (f (j.active ^^^ 1) o) (bytes o)) (key : j'.key = j.key)
    (size : j'.blockSize = j.blockSize)
    (g : Matches tc initial j' (setBlock j.blockSize f (j.active ^^^ 1) bytes)) : Same j j' := by
  obtain ⟨C, blocks, position⟩ := h
  obtain ⟨D, blocks', position'⟩ := g
  rw [key, size] at blocks'
  obtain ⟨other, different⟩ := xor_one position.active_lt
  have others : ∀ b, b < 2 → b ≠ j.active ^^^ 1 → D b = C b := by
    intro b hb ne
    have g := blocks' b hb
    rw [slots_setBlock_other _ _ _ _ _ ne] at g
    exact holds_unique g (blocks b hb)
  have shrunk := holds_torn_erase (blocks _ other) (slots_torn_erase j.blockSize f _ bytes torn)
    (blocks' _ other)
  have kept : Position initial j D := by
    refine position_prefix position (others _ position.active_lt different.symm) ?_
    intro b hb d hd
    by_cases e : b = j.active ^^^ 1
    · subst e
      exact shrunk.subset hd
    · exact others b hb e ▸ hd
  exact position_unique kept position' fun _ _ => rfl

end

end SimpleAttestation.JournalSave
