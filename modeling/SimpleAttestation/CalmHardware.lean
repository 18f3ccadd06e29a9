import SimpleAttestation.BoardNode

set_option autoImplicit false

/-!
# Hardware on which nothing fails

The controller does what it is asked, the generator and the clock answer, and power stays on.
Then the driver is the flash of the journal without its failures.
-/
namespace SimpleAttestation.CalmHardware
open ByteStrings Wire Crypto CallProgram Platform MemoryProtection Journal JournalLoad JournalSave
open JournalCrash Session Hardware FlashDriver FlashRefinement

def CalmReply (inTime : UInt32 → Prop) : (c : HalCall) → Chip → c.Reply → Chip → Prop
  | .flashUnlock, _, ok, _ | .flashErase _ _, _, ok, _ => ok = true
  | .flashProgram n address data, s, ok, t => readMemory s.flash address n = .fill n 255 →
      ok = true ∧ t.flash = put s.flash address data.data
  | .rngGenerate, _, word, _ => word ≠ none
  | .outside .nowMs, _, now, _ => inTime now
  | _, _, _, _ => True

def calmHardware (cfg : Config) (inTime : UInt32 → Prop) : Device HalCall HalCall.Reply Chip where
  answers c s r t := (hardware cfg).answers c s r t ∧ CalmReply inTime c s r t
  tears _ _ _ := False

section
variable {cfg : Config} {inTime : UInt32 → Prop} {α : Type} {s : Chip}

theorem lowered_blank (b : UInt8) : Lowered 255 b b := by
  have all : (255 : UInt8) &&& b = b := by
    apply UInt8.toBitVec_inj.mp
    exact BitVec.allOnes_and
  rw [Lowered, all]
  exact ⟨fun _ _ => Or.inr rfl, raised_to_full b⟩

theorem blank_byte {flash : ℕ → UInt8} {address n : ℕ} (h : readMemory flash address n = .fill n 255) {k : ℕ}
    (inside : k < n) : flash (address + k) = 255 := by
  have there := @peek_get flash address n k inside
  rw [← there, h]
  exact List.getD_replicate _ inside

theorem calm_live (clock : ∃ now, inTime now) (c : HalCall) (s : Chip) :
    ∃ r t, (calmHardware cfg inTime).answers c s r t := by
  obtain ⟨r, t, answered⟩ := hardware_live cfg c s
  cases c with
  | flashUnlock => exact ⟨true, _, ⟨true, fun _ => rfl, rfl⟩, rfl⟩
  | flashErase bank unit =>
    refine ⟨true, _, ⟨fun a => if cfg.family.unitAddress bank unit ≤ a ∧
      a < cfg.family.unitAddress bank unit + cfg.family.unitSize then 255 else s.flash a, rfl, ?_⟩, rfl⟩
    exact ⟨fun a lo hi => if_pos ⟨lo, hi⟩, fun a out => if_neg out⟩
  | flashProgram n address data =>
    by_cases blank : readMemory s.flash address n = .fill n 255
    · refine ⟨true, _, ⟨put s.flash address data.data, ⟨data.data, rfl, rfl, fun i hi => ?_⟩, rfl⟩,
        fun _ => ⟨rfl, rfl⟩⟩
      rw [Bytes.length_data] at hi
      rw [blank_byte blank hi]
      exact lowered_blank _
    · exact ⟨r, t, answered, fun there => absurd there blank⟩
  | rngGenerate => exact ⟨some 0, s, rfl, nofun⟩
  | outside c =>
    cases c with
    | nowMs =>
      obtain ⟨now, hnow⟩ := clock
      exact ⟨now, s, rfl, hnow⟩
    | _ => exact ⟨r, t, answered, trivial⟩
  | _ => exact ⟨r, t, answered, trivial⟩

abbrev Calms (cfg : Config) (inTime : UInt32 → Prop) (p : HalProg α) (Q : α → Chip → Prop) (s : Chip) : Prop :=
  Safe (calmHardware cfg inTime) (fun _ _ => True) (fun _ => True) p Q s

theorem calms_call {c : HalCall} {k : c.Reply → HalProg α} {Q : α → Chip → Prop}
    (rest : ∀ r t, (hardware cfg).answers c s r t → CalmReply inTime c s r t → Calms cfg inTime (k r) Q t) :
    Calms cfg inTime (.call c k) Q s :=
  ⟨trivial, trivial, fun _ torn => torn.elim, fun r t answered => rest r t answered.1 answered.2⟩

theorem calms_drives {Kf : (ℕ → UInt8) → Prop} {p : HalProg α} {Q : α → Chip → Prop}
    (h : Drives cfg Kf p Q s) : Calms cfg inTime p Q s := by
  refine safe_mono _ _ _ s (fun _ _ _ => trivial) (fun _ _ => trivial) (fun _ _ q => q) (safe_narrow ?_ ?_ h)
  · exact fun _ _ _ _ answered => answered.1
  · exact fun _ _ _ torn => torn.elim

theorem calms_flashAccess (writable : Bool) {k : Unit → HalProg α} {Q : α → Chip → Prop}
    (rest : ∀ t : Chip, t.flash = s.flash → Calms cfg inTime (k ()) Q t) :
    Calms cfg inTime (boardFlashAccess cfg writable >>= k) Q s := by
  unfold boardFlashAccess
  refine calms_call fun _ _ h _ => calms_call fun _ _ h' _ => ?_
  obtain rfl := h
  obtain rfl := h'
  cases cfg.journalSecondRegion with
  | true =>
    refine calms_call fun _ _ h _ => calms_call fun _ _ h' _ => ?_
    obtain rfl := h
    obtain rfl := h'
    exact rest _ rfl
  | false =>
    refine calms_call fun _ _ h _ => ?_
    obtain rfl := h
    exact rest _ rfl

theorem calms_withFlash {work : Bool → AuthError → HalProg (Bool × AuthError)} {e : AuthError}
    {P : Bool × AuthError → Prop}
    (hwork : ∀ t : Chip, t.flash = s.flash → Calms cfg inTime (work true e) (fun x _ => P x) t) :
    Calms cfg inTime (withFlash cfg e work) (fun x _ => P x) s := by
  unfold withFlash
  refine calms_call fun saved t h _ => calms_call fun _ u h' _ => ?_
  obtain ⟨-, rfl⟩ := h
  obtain rfl := h'
  refine calms_flashAccess true fun t same => calms_call fun ok u h opened => ?_
  obtain rfl : ok = true := opened
  obtain ⟨unlocked, -, rfl⟩ := h
  have rest : ∀ v : Chip, v.flash = t.flash → Calms cfg inTime (do
      let x ← work true e
      Prog.ask HalCall.flashLock
      boardFlashAccess cfg false
      Prog.ask (HalCall.setPrimask saved)
      pure x) (fun x _ => P x) v := by
    intro v still
    refine safe_then (hwork v (still.trans same)) ?_
    rintro x w hP -
    refine calms_call fun _ _ _ _ => calms_flashAccess false fun _ _ => calms_call fun _ _ _ _ => ?_
    exact ⟨trivial, hP⟩
  change Calms cfg inTime (clearFlags cfg true >>= fun _ => _) _ _
  unfold clearFlags
  split
  · refine calms_call fun _ _ h _ => ?_
    obtain rfl := h
    exact rest _ rfl
  · exact rest _ rfl

structure Written (address : ℕ) (bytes : Bytes 32) (i : ℕ) (g : ℕ → UInt8) : Prop where
  done : ∀ k, k < i → g (address + k) = bytes.data.getD k 0
  rest : ∀ k, i ≤ k → k < 32 → g (address + k) = 255

theorem written_program {address i n : ℕ} {bytes : Bytes 32} {g : ℕ → UInt8}
    (h : Written address bytes i g) (room : i + n ≤ 32) :
    readMemory g (address + i) n = .fill n 255 ∧
      Written address bytes (i + n) (put g (address + i) (bytesAt n bytes.data i).data) := by
  constructor
  · ext1
    refine List.ext_getElem (by simp) fun k hk _ => ?_
    have inside : k < n := by simpa using hk
    have there := h.rest (i + k) (by omega) (by omega)
    simpa [readMemory, Bytes.fill, Nat.add_assoc] using there
  · have length : (bytesAt n bytes.data i).data.length = n := Bytes.length_data _
    constructor
    · intro k hk
      unfold put
      rw [length]
      split
      · rename_i there
        have index : address + k - (address + i) = k - i := by omega
        rw [index, bytesAt_data (by rw [Bytes.length_data]; omega)]
        rw [List.getD_eq_getElem?_getD, List.getD_eq_getElem?_getD, List.getElem?_take_of_lt (by omega),
          List.getElem?_drop, show i + (k - i) = k by omega]
      · rename_i elsewhere
        exact h.done k (by omega)
    · intro k lo hi
      unfold put
      rw [length, if_neg (by omega)]
      exact h.rest k (by omega) hi

theorem calms_programWords {address : ℕ} {bytes : Bytes 32} (words i : ℕ)
    (room : i + words * cfg.family.word = 32) (so_far : Written address bytes i s.flash) :
    Calms cfg inTime (programWords cfg address bytes words i)
      (fun ok t => ok = true ∧ Written address bytes 32 t.flash) s := by
  induction words generalizing i s with
  | zero =>
    obtain rfl : i = 32 := by omega
    exact ⟨trivial, rfl, so_far⟩
  | succ words ih =>
    rw [Nat.succ_mul] at room
    obtain ⟨blank, next⟩ := @written_program _ i cfg.family.word _ _ so_far (by omega)
    refine calms_call fun ok t _ calm => ?_
    obtain ⟨rfl, flash⟩ := calm blank
    refine ih (i + cfg.family.word) (by omega) ?_
    rw [flash]
    exact next

theorem calms_journalProgram {block off : ℕ} {bytes : Bytes 32} {e : AuthError} (two : block < 2)
    (aligned : off % 32 = 0) (room : off + 32 ≤ cfg.journalBlockSize)
    (blank : readMemory s.flash (blockAddress cfg block + off) 32 = blank) :
    Calms cfg inTime (journalProgram cfg block off bytes e) (fun x _ => x.1 = true) s := by
  unfold journalProgram
  rw [if_neg (by omega)]
  refine calms_withFlash fun t same => ?_
  have whole : 0 + 32 / cfg.family.word * cfg.family.word = 32 := by
    cases cfg.family <;> simp [Family.word]
  have start : Written (blockAddress cfg block + off) bytes 0 t.flash := by
    refine ⟨fun k none_ => absurd none_ (Nat.not_lt_zero k), fun k _ inside => ?_⟩
    rw [same]
    exact blank_byte blank inside
  refine safe_then (calms_programWords (32 / cfg.family.word) 0 whole start) ?_
  rintro ok u ⟨rfl, written⟩ -
  refine calms_call fun there v h _ => ?_
  obtain ⟨rfl, rfl⟩ := h
  have equal : readMemory v.flash (blockAddress cfg block + off) 32 = bytes := by
    ext1
    refine List.ext_getElem (by simp) fun k hk _ => ?_
    have inside : k < 32 := by simpa using hk
    have byte := written.done k inside
    rw [List.getD_eq_getElem _ _ (by simpa using inside)] at byte
    simpa [readMemory] using byte
  change Calms cfg inTime (if readMemory v.flash (blockAddress cfg block + off) 32 ≠ bytes then
    pure (false, .flashVerify) else pure (true, e)) _ _
  rw [if_neg (not_not.mpr equal)]
  exact ⟨trivial, rfl⟩

theorem calms_journalErase {block : ℕ} {e : AuthError} (two : block < 2) :
    Calms cfg inTime (journalErase cfg block e) (fun x _ => x.1 = true) s := by
  unfold journalErase
  rw [if_neg (by omega)]
  refine calms_withFlash fun t _ => calms_call fun erased u _ calm => ?_
  obtain rfl : erased = true := calm
  exact ⟨trivial, rfl⟩

end

def Inside (blockSize : ℕ) : FlashCall → Flash → Prop
  | .read block off, _ => block < 2 ∧ off + 32 ≤ blockSize
  | c, f => Guarded blockSize c f

abbrev Kept {α : Type} (blockSize : ℕ) (p : FlashProg α) (f : Flash) : Prop :=
  Safe (functionDevice (flashEval blockSize)) (Inside blockSize) (fun _ => True) p (fun _ _ => True) f

section
variable {tc : TinyCrypt} {blockSize block off : ℕ} {f : Flash} {j : AuthJournal} {c initial : UInt32}

theorem kept_scan (k : ℕ) (two : block < 2) (room : off + 32 * k ≤ blockSize) (s : Scan) :
    Kept blockSize (scanBlock tc block k off s) f := by
  induction k generalizing off s f with
  | zero => exact ⟨trivial, trivial⟩
  | succ k ih =>
    rw [scanBlock, Prog.ask_bind]
    refine ⟨trivial, ⟨two, by omega⟩, fun _ torn => torn.elim, fun record t _ => ?_⟩
    dsimp only
    cases record.bind (scanSlot tc block off s) with
    | none => exact ⟨trivial, trivial⟩
    | some s => exact ih (by omega) s

theorem kept_load (size : j.blockSize = blockSize) : Kept blockSize (authJournalLoad tc j initial) f := by
  have whole : 0 + 32 * (j.blockSize / 32) ≤ blockSize := by omega
  unfold authJournalLoad
  split
  · exact ⟨trivial, trivial⟩
  · refine safe_then (kept_scan _ Nat.zero_lt_two whole _) ?_
    rintro ⟨s, scanned⟩ t - -
    change Kept blockSize (if !scanned then pure (s.journal, false) else _) t
    split
    · exact ⟨trivial, trivial⟩
    · refine safe_then (kept_scan _ Nat.one_lt_two whole _) ?_
      rintro ⟨s, scanned⟩ t - -
      change Kept blockSize (if !scanned || !s.found then pure (s.journal, false) else _) t
      split <;> exact ⟨trivial, trivial⟩

theorem kept_append (two : block < 2) (aligned : off % 32 = 0) (room : off + 32 ≤ blockSize)
    (free : slotAt f block off = blank) : Kept blockSize (appendRecord tc j c block off) f := by
  unfold appendRecord
  cases recordMac tc j.key c with
  | none => exact ⟨trivial, trivial⟩
  | some mac =>
    refine ⟨trivial, ⟨two, aligned, room, free⟩, fun _ torn => torn.elim, fun programmed t _ => ?_⟩
    change Kept blockSize (if !programmed then pure (j, false) else _) t
    split
    · exact ⟨trivial, trivial⟩
    · refine ⟨trivial, ⟨two, room⟩, fun _ torn => torn.elim, fun check u _ => ?_⟩
      cases check with
      | none => exact ⟨trivial, trivial⟩
      | some check =>
        change Kept blockSize (if !simpleCtCompare _ check.data 32 then pure (j, false) else _) u
        split <;> exact ⟨trivial, trivial⟩

theorem kept_save (h : Matches tc initial j f) (valid : j.valid = true) (size : j.blockSize = blockSize) :
    Kept blockSize (authJournalSave tc j c) f := by
  obtain ⟨free, aligned, room, two⟩ := room_slot (base_room h valid)
  rw [size] at room
  unfold authJournalSave
  split
  · exact ⟨trivial, trivial⟩
  · dsimp only
    by_cases full : j.next = j.blockSize
    · rw [saveBlock, if_pos full] at two free
      rw [saveOff, if_pos full] at aligned room free
      rw [saveBase, if_pos full, size] at free
      rw [if_pos full]
      refine ⟨trivial, two, fun _ torn => torn.elim, fun done t answered => ?_⟩
      obtain ⟨rfl, rfl⟩ := Prod.mk.inj answered
      exact kept_append two aligned room free
    · rw [saveBlock, if_neg full] at two free
      rw [saveOff, if_neg full] at aligned room free
      rw [saveBase, if_neg full] at free
      rw [if_neg full]
      exact kept_append two aligned room free

end

section
variable {cfg : Config} {inTime : UInt32 → Prop} {rom : ℕ → UInt8} {mask : ℕ} {options : Options} {f : Flash}
  {s : Chip}

theorem calms_callbacks (mapped : Mapped cfg) (h : Holds cfg rom mask options f s) (c : FlashCall)
    (inside : Inside cfg.journalBlockSize c f) (e : AuthError) :
    Calms cfg inTime (journalCallbacks cfg c e) (fun x t => ∃ f',
      flashEval cfg.journalBlockSize c f = (x.1, f') ∧ Holds cfg rom mask options f' t) s := by
  cases c with
  | read block off =>
    obtain ⟨two, room⟩ := inside
    change Calms cfg inTime (journalRead cfg block off >>= fun out => pure (out, e)) _ s
    unfold journalRead
    rw [if_neg (by omega)]
    refine calms_call fun out t answered _ => ?_
    obtain ⟨rfl, rfl⟩ := answered
    refine ⟨trivial, f, ?_, h⟩
    rw [← mirrors_slot h.mirrors two room]
    rfl
  | program block off bytes =>
    obtain ⟨two, aligned, room, free⟩ := id inside
    have blank := free
    rw [mirrors_slot h.mirrors two room] at blank
    refine safe_post ?_ (safe_and (calms_journalProgram two aligned room blank)
      (calms_drives (drives_program mapped h inside e)))
    rintro ⟨ok, e'⟩ t ⟨rfl, f', answered, holds, -⟩
    exact ⟨f', congrArg (Prod.mk true) answered.symm, holds⟩
  | erase block =>
    refine safe_post ?_ (safe_and (calms_journalErase inside)
      (calms_drives (drives_erase mapped h inside e)))
    rintro ⟨ok, e'⟩ t ⟨rfl, f', answered, holds, -⟩
    exact ⟨f', congrArg (Prod.mk true) answered.symm, holds⟩

theorem calms_interp (mapped : Mapped cfg) {α : Type} {prog : FlashProg α} (e : AuthError)
    (h : Holds cfg rom mask options f s) (kept : Kept cfg.journalBlockSize prog f) :
    Calms cfg inTime (prog.interp (journalCallbacks cfg) e) (fun x t => ∃ f',
      prog.eval (flashEval cfg.journalBlockSize) f = (x.1, f') ∧ Holds cfg rom mask options f' t) s := by
  refine safe_mono _ _ _ s (fun _ _ g => g) (fun _ _ => trivial) (fun _ _ q => q)
    (safe_interp (functionDevice (flashEval cfg.journalBlockSize)) (calmHardware cfg inTime)
      (Inside cfg.journalBlockSize) (fun _ _ => True) (fun _ => True) (journalCallbacks cfg)
      (fun f _ t => Holds cfg rom mask options f t) (fun _ _ => True) (fun _ _ _ _ => trivial) ?_ prog
      (fun a f' => prog.eval (flashEval cfg.journalBlockSize) f = (a, f')) f e s h (safe_eval _ kept))
  intro c f e t h inside
  exact safe_mono _ _ _ t (fun _ _ g => g) (fun _ _ => ⟨f, Or.inl rfl, trivial⟩) (fun _ _ q => q)
    (calms_callbacks mapped h c inside e)

end

end SimpleAttestation.CalmHardware
