import SimpleAttestation.BoardNode
import SimpleAttestation.JournalWear

set_option autoImplicit false

/-!
# How often a board erases

The counts are those of the flash controller: every erase it was asked to begin.
-/
namespace SimpleAttestation.BoardWear
open ByteStrings Crypto CallProgram Platform MemoryProtection Session Journal JournalLoad JournalSave
open JournalCrash JournalWear Hardware FlashDriver FlashRefinement StoreRegister BoardStore
open BoardProtection BoardRefinement BoardNode
open Store hiding boardPlatform boardStoreLoad boardStoreSave

def erases : HalCall → Prop
  | .flashErase _ _ => True
  | _ => False

def writes : HalCall → Prop
  | .flashErase _ _ | .flashProgram _ _ _ => True
  | _ => False

def journalWrites : FlashCall → Prop
  | .read _ _ => False
  | .program _ _ _ | .erase _ => True

section
variable {bad : HalCall → Prop} {cfg : Config} {α : Type}

theorem erases_writes (c : HalCall) (h : erases c) : writes c := by
  cases c with
  | flashErase => trivial
  | _ => cases h

theorem avoids_flashAccess (cfg : Config) (writable : Bool) : Avoids writes (boardFlashAccess cfg writable) := by
  refine ⟨id, fun _ => ⟨id, fun _ => ?_⟩⟩
  dsimp only
  split
  · exact ⟨id, fun _ => ⟨id, fun _ => trivial⟩⟩
  · exact ⟨id, fun _ => trivial⟩

theorem avoids_memoryProtection (cfg : Config) : Avoids writes (memoryProtection cfg) :=
  ⟨id, fun _ => ⟨id, fun _ => ⟨id, fun _ => ⟨id, fun _ => avoids_flashAccess cfg false⟩⟩⟩⟩

theorem avoids_refuse (error : AuthError) : Avoids writes (refuse error) := ⟨id, fun _ => trivial⟩

theorem avoids_if {c : Prop} [Decidable c] {p q : HalProg α} (yes : Avoids bad p) (no : Avoids bad q) :
    Avoids bad (if c then p else q) := by
  split
  · exact yes
  · exact no

theorem avoids_protectionValid (cfg : Config) : Avoids writes (protectionValid cfg) := by
  have no := avoids_refuse
  have yes : Avoids writes (pure true : HalProg Bool) := trivial
  unfold protectionValid
  split
  · refine ⟨id, fun size => avoids_if (no _) ⟨id, fun ob => ?_⟩⟩
    refine avoids_if (no _) (avoids_if yes (avoids_if (no _) (avoids_if (no _) ⟨id, fun ob => ?_⟩)))
    exact avoids_if (no _) yes
  · rename_i requireDbank codeWrp keyWrp _
    refine ⟨id, fun size => avoids_if (no _) (avoids_bind ?_ fun mapped => ?_)⟩
    · refine avoids_if yes ⟨id, fun dbank => ?_⟩
      exact avoids_if (trivial : Avoids writes (pure false)) ⟨id, fun fbMode => trivial⟩
    · refine avoids_if (no _) (avoids_if yes ⟨id, fun ob => ?_⟩)
      refine avoids_if (no _) (avoids_if (no _) ⟨id, fun ob => ?_⟩)
      exact avoids_if (no _) yes

theorem avoids_scanBlock (tc : TinyCrypt) (block slots off : ℕ) (s : Scan) :
    Avoids journalWrites (scanBlock tc block slots off s) := by
  induction slots generalizing off s with
  | zero => trivial
  | succ slots ih =>
    rw [scanBlock, Prog.ask_bind]
    refine ⟨id, fun record => ?_⟩
    dsimp only
    cases record.bind (scanSlot tc block off s) with
    | none => trivial
    | some s => exact ih (off + 32) s

theorem avoids_load (tc : TinyCrypt) (j : AuthJournal) (initial : UInt32) :
    Avoids journalWrites (authJournalLoad tc j initial) := by
  unfold authJournalLoad
  split
  · trivial
  · refine avoids_bind (avoids_scanBlock _ _ _ _ _) fun x => ?_
    obtain ⟨s, scanned⟩ := x
    dsimp only
    split
    · trivial
    · refine avoids_bind (avoids_scanBlock _ _ _ _ _) fun x => ?_
      obtain ⟨s, scanned⟩ := x
      dsimp only
      split <;> trivial

theorem avoids_callbacks (cfg : Config) (c : FlashCall) (e : AuthError) (reads : ¬ journalWrites c) :
    Avoids writes (journalCallbacks cfg c e) := by
  cases c with
  | read block off =>
    refine avoids_bind ?_ fun _ => trivial
    exact avoids_if (trivial : Avoids writes (pure none)) ⟨id, fun _ => trivial⟩
  | program | erase => exact absurd trivial reads

theorem avoids_storeLoad (tc : TinyCrypt) (cfg : Config) (st : Statics) :
    Avoids writes (boardStoreLoad tc cfg st) := by
  refine avoids_bind (avoids_protectionValid cfg) fun valid => avoids_if trivial ⟨id, fun p => ?_⟩
  refine avoids_if ⟨id, fun _ => trivial⟩ (avoids_bind
    (avoids_interp (fun c e => avoids_callbacks cfg c e) (avoids_load _ _ _) _) fun x => ?_)
  obtain ⟨⟨journal, loaded⟩, e⟩ := x
  exact avoids_if ⟨id, fun _ => trivial⟩ trivial

theorem avoids_randomWords (words len : ℕ) : Avoids writes (randomWords words len) := by
  induction words generalizing len with
  | zero => trivial
  | succ words ih =>
    refine ⟨id, fun word => ?_⟩
    cases word with
    | none => trivial
    | some word =>
      change Avoids writes (randomWords words (len - 4) >>= fun rest =>
        pure (rest.map ((Wire.simplePutU32 word).take len ++ ·)))
      exact avoids_bind (ih (len - 4)) fun _ => trivial

def isSave : PlatformCall → Prop
  | .saveCounter _ => True
  | _ => False

theorem avoids_platform (tc : TinyCrypt) (cfg : Config) (c : PlatformCall) (st : Statics)
    (other : ¬ isSave c) : Avoids writes (boardPlatform tc cfg c st) := by
  cases c with
  | load => exact avoids_storeLoad tc cfg st
  | saveCounter => exact absurd trivial other
  | random len =>
    exact avoids_bind (avoids_bind (avoids_randomWords _ _) fun _ => trivial) fun _ => trivial
  | enterAtomic => exact ⟨id, fun _ => ⟨id, fun _ => trivial⟩⟩
  | leaveAtomic | readRange | nowMs | ui | error | writeResponse => exact ⟨id, fun _ => trivial⟩

end

def begun (w : ℕ → ℕ → ℕ) (bank unit : ℕ) : ℕ → ℕ → ℕ := fun b u =>
  if b = bank ∧ u = unit then w b u + 1 else w b u

def sectorCounter : Device HalCall HalCall.Reply (ℕ → ℕ → ℕ) where
  answers
    | .flashErase bank unit, w, _, w' => w' = begun w bank unit
    | _, w, _, w' => w' = w
  tears
    | .flashErase bank unit, w, w' => w' = begun w bank unit ∨ w' = w
    | _, w, w' => w' = w

/-- The counts of the two blocks; nothing else is ever erased. -/
structure Counts (cfg : Config) (e : ℕ → ℕ) (w : ℕ → ℕ → ℕ) : Prop where
  journals : ∀ b, b < 2 → w cfg.journalBank (cfg.journalUnit b) = e b
  others : ∀ bank unit, (∀ b, b < 2 → bank = cfg.journalBank → unit ≠ cfg.journalUnit b) → w bank unit = 0

section
variable {cfg : Config} {w : ℕ → ℕ → ℕ} {e : ℕ → ℕ} {K : (ℕ → ℕ → ℕ) → Prop} {α : Type}

theorem units_differ (mapped : Mapped cfg) {a b : ℕ} (ha : a < 2) (hb : b < 2)
    (same : cfg.journalUnit a = cfg.journalUnit b) : a = b := by
  have address := congrArg (cfg.family.unitAddress cfg.journalBank) same
  rw [mapped.unit a ha, mapped.unit b hb] at address
  have room := mapped.room
  have apart := cfg.apart
  unfold blockAddress at address
  split at address <;> split at address <;> omega

theorem counts_begun (mapped : Mapped cfg) (h : Counts cfg e w) {block : ℕ} (two : block < 2) :
    Counts cfg (erasedOnce e block) (begun w cfg.journalBank (cfg.journalUnit block)) := by
  refine ⟨fun b hb => ?_, fun bank unit out => ?_⟩
  · rw [begun, erasedOnce, h.journals b hb]
    refine if_congr ⟨fun same => units_differ mapped hb two same.2, fun same => ?_⟩ rfl rfl
    rw [same]
    exact ⟨rfl, rfl⟩
  · rw [begun, if_neg fun same => out block two same.1 same.2]
    exact h.others bank unit out

theorem counter_call {c : HalCall} {k : c.Reply → HalProg α} {Q : α → (ℕ → ℕ → ℕ) → Prop} (calm : ¬ erases c)
    (here : K w) (rest : ∀ r, Safe sectorCounter (fun _ _ => True) K (k r) Q w) :
    Safe sectorCounter (fun _ _ => True) K (.call c k) Q w := by
  refine ⟨here, trivial, fun t torn => ?_, fun r t answered => ?_⟩ <;> cases c with
  | flashErase => exact absurd trivial calm
  | _ =>
    first
    | obtain rfl : t = w := torn
      exact here
    | obtain rfl : t = w := answered
      exact rest r

theorem counter_avoids {p : HalProg α} (h : Avoids erases p) (here : K w) :
    Safe sectorCounter (fun _ _ => True) K p (fun _ w' => w' = w) w := by
  induction p with
  | done a => exact ⟨here, rfl⟩
  | call c k ih => exact counter_call h.1 here fun r => ih r (h.2 r)

theorem avoids_accessed {writable : Bool} {k : Unit → HalProg α} (rest : ∀ b, Avoids erases (k b)) :
    Avoids erases (boardFlashAccess cfg writable >>= k) :=
  avoids_bind (avoids_mono erases_writes (avoids_flashAccess cfg writable)) rest

theorem counter_accessed {writable : Bool} {k : Unit → HalProg α} {Q : α → (ℕ → ℕ → ℕ) → Prop} (here : K w)
    (rest : ∀ b, Safe sectorCounter (fun _ _ => True) K (k b) Q w) :
    Safe sectorCounter (fun _ _ => True) K (boardFlashAccess cfg writable >>= k) Q w := by
  refine safe_then (counter_avoids (avoids_mono erases_writes (avoids_flashAccess cfg writable)) here) ?_
  rintro b _ rfl -
  exact rest b

theorem counter_withFlash {work : Bool → AuthError → HalProg (Bool × AuthError)} {error : AuthError}
    {P : Bool × AuthError → (ℕ → ℕ → ℕ) → Prop} (here : K w)
    (hwork : ∀ ok error, Safe sectorCounter (fun _ _ => True) K (work ok error) P w) :
    Safe sectorCounter (fun _ _ => True) K (withFlash cfg error work) P w := by
  unfold withFlash
  refine counter_call id here fun saved => counter_call id here fun _ => ?_
  refine counter_accessed here fun _ => counter_call id here fun ok => ?_
  have rest : Safe sectorCounter (fun _ _ => True) K (do
      let x ← work ok (if ok then error else .flashUnlock)
      Prog.ask HalCall.flashLock
      boardFlashAccess cfg false
      Prog.ask (HalCall.setPrimask saved)
      pure x) P w := by
    refine safe_then (hwork ok _) ?_
    intro x t hP crash
    refine counter_call id crash fun _ => counter_accessed crash fun _ => ?_
    exact counter_call id crash fun _ => ⟨crash, hP⟩
  change Safe _ _ K (clearFlags cfg ok >>= fun _ => _) P w
  unfold clearFlags
  split
  · exact counter_call id here fun _ => rest
  · exact rest

theorem avoids_withFlash {work : Bool → AuthError → HalProg (Bool × AuthError)} {error : AuthError}
    (hwork : ∀ ok error, Avoids erases (work ok error)) : Avoids erases (withFlash cfg error work) := by
  refine ⟨id, fun saved => ⟨id, fun _ => ?_⟩⟩
  refine avoids_accessed fun _ => ⟨id, fun ok => ?_⟩
  have rest : Avoids erases (do
      let x ← work ok (if ok then error else .flashUnlock)
      Prog.ask HalCall.flashLock
      boardFlashAccess cfg false
      Prog.ask (HalCall.setPrimask saved)
      pure x) := by
    refine avoids_bind (hwork ok _) fun x => ⟨id, fun _ => ?_⟩
    exact avoids_accessed fun _ => ⟨id, fun _ => trivial⟩
  change Avoids erases (clearFlags cfg ok >>= fun _ => _)
  unfold clearFlags
  split
  · exact ⟨id, fun _ => rest⟩
  · exact rest

theorem avoids_programWords (address : ℕ) (bytes : Bytes 32) (words i : ℕ) :
    Avoids erases (programWords cfg address bytes words i) := by
  induction words generalizing i with
  | zero => trivial
  | succ words ih => exact ⟨id, fun ok => avoids_if (ih _) trivial⟩

theorem avoids_journalProgram (block off : ℕ) (bytes : Bytes 32) (error : AuthError) :
    Avoids erases (journalProgram cfg block off bytes error) := by
  refine avoids_if trivial (avoids_withFlash fun ok error => ?_)
  have checks : ∀ ok, Avoids erases (classify cfg ok error >>= fun error =>
      checkWritten (blockAddress cfg block + off) bytes ok error) := by
    intro ok
    refine avoids_bind (avoids_if ⟨id, fun _ => trivial⟩ trivial) fun error => ?_
    exact avoids_if ⟨id, fun there => avoids_if trivial trivial⟩ trivial
  exact avoids_if (avoids_bind (avoids_programWords _ _ _ _) checks) (checks false)

theorem counter_journalErase (block : ℕ) (error : AuthError) (none_ : K w)
    (once : K (begun w cfg.journalBank (cfg.journalUnit block))) :
    Safe sectorCounter (fun _ _ => True) K (journalErase cfg block error)
      (fun x w' => x.1 = false ∧ w' = w ∨
        block < 2 ∧ w' = begun w cfg.journalBank (cfg.journalUnit block)) w := by
  unfold journalErase
  split
  · exact ⟨none_, Or.inl ⟨rfl, rfl⟩⟩
  · rename_i two
    refine counter_withFlash none_ fun ok error => ?_
    cases ok with
    | false => exact ⟨none_, Or.inl ⟨rfl, rfl⟩⟩
    | true =>
      refine ⟨none_, trivial, fun t torn => ?_, ?_⟩
      · rcases torn with rfl | rfl
        · exact once
        · exact none_
      · rintro erased _ rfl
        cases erased with
        | true => exact ⟨once, Or.inr ⟨by omega, rfl⟩⟩
        | false => exact counter_call id once fun error => ⟨once, Or.inr ⟨by omega, rfl⟩⟩

theorem counter_callbacks (mapped : Mapped cfg) (c : FlashCall) (error : AuthError) (h : Counts cfg e w) :
    Safe sectorCounter (fun _ _ => True) (fun w' => ∃ e', (e' = e ∨ eraseCounter.tears c e e' ∨
        ∃ r, eraseCounter.answers c e r e') ∧ Counts cfg e' w') (journalCallbacks cfg c error)
      (fun x w' => ∃ e', eraseCounter.answers c e x.1 e' ∧ Counts cfg e' w') w := by
  have same : ∃ e', (e' = e ∨ eraseCounter.tears c e e' ∨ ∃ r, eraseCounter.answers c e r e') ∧
      Counts cfg e' w := ⟨e, Or.inl rfl, h⟩
  cases c with
  | read block off =>
    refine safe_post ?_ (counter_avoids (avoids_mono erases_writes (avoids_callbacks cfg _ _ id)) same)
    rintro x _ rfl
    exact ⟨e, rfl, h⟩
  | program block off bytes =>
    refine safe_post ?_ (counter_avoids (avoids_journalProgram block off bytes error) same)
    rintro x _ rfl
    exact ⟨e, rfl, h⟩
  | erase block =>
    by_cases two : block < 2
    · have once := counts_begun mapped h two
      refine safe_post ?_ (counter_journalErase block error same
        ⟨_, Or.inr (Or.inr ⟨true, Or.inl rfl⟩), once⟩)
      rintro x _ (⟨no, rfl⟩ | ⟨-, rfl⟩)
      · exact ⟨e, Or.inr ⟨no, rfl⟩, h⟩
      · exact ⟨_, Or.inl rfl, once⟩
    · have out : 1 < block := by omega
      change Safe _ _ _ (if 1 < block then pure (false, error) else _) _ _
      rw [if_pos out]
      exact ⟨same, e, Or.inr ⟨rfl, rfl⟩, h⟩

theorem counter_save (mapped : Mapped cfg) (tc : TinyCrypt) (st : Statics) (c : UInt32) (h : Counts cfg e w) :
    Safe sectorCounter (fun _ _ => True)
      (fun w' => ∃ e', (e' = e ∨ e' = worn st.journal e) ∧ Counts cfg e' w') (boardStoreSave tc cfg st c)
      (fun x w' => ∃ e', (x.1 = 1 ∧ e' = worn st.journal e ∨
        x.1 ≤ 0 ∧ (e' = e ∨ e' = worn st.journal e)) ∧ Counts cfg e' w') w := by
  unfold boardStoreSave
  refine safe_then (safe_interp eraseCounter sectorCounter (fun _ _ => True) (fun _ _ => True) _
    (journalCallbacks cfg) (fun e _ w => Counts cfg e w) (fun e w => Counts cfg e w) (fun _ _ _ h => h)
    (fun c e error w h _ => counter_callbacks mapped c error h) _ _ e AuthError.counterSave w h
    (wears_save tc st.journal c e)) ?_
  rintro ⟨⟨j, ok⟩, error⟩ w' ⟨e', moved, counts⟩ crash
  cases ok with
  | true => exact ⟨crash, e', Or.inl ⟨rfl, moved⟩, counts⟩
  | false =>
    have negative : -(error.code : ℤ) ≤ 0 := by omega
    exact ⟨crash, e', Or.inr ⟨negative, moved⟩, counts⟩

end

/-- The erases are accounted for `y.1` saves, and `y.2` that broke off. -/
def WornAt (tc : TinyCrypt) (cfg : Config) (rom : ℕ → UInt8) (start : ℕ → ℕ) (y : ℕ × ℕ)
    (flash : ℕ → UInt8) (w : ℕ → ℕ → ℕ) : Prop :=
  ∃ e, Counts cfg e w ∧ ∀ f, Mirrors cfg f flash → Levelled tc (initialOf (provisioned cfg rom)) start
    y.1 y.2 (journalOf cfg.toBoard (provisioned cfg rom)) f e

def tallyDevice : Device PlatformCall PlatformCall.Reply (ℕ × ℕ) where
  answers
    | .saveCounter _, y, r, z => 0 < r ∧ z = (y.1 + 1, y.2) ∨ r ≤ 0 ∧ (z = y ∨ z = (y.1, y.2 + 1))
    | _, y, _, z => z = y
  tears
    | .saveCounter _, y, z => z = y ∨ z = (y.1, y.2 + 1)
    | _, y, z => z = y

abbrev wornPlatform (tc : TinyCrypt) (cfg : Config) (rom : ℕ → UInt8) (options : Options) :
    Device PlatformCall PlatformCall.Reply ((UInt32 × ℕ) × (ℕ × ℕ)) :=
  (platformDevice tc cfg rom options).prod tallyDevice

abbrev wornHardware (cfg : Config) : Device HalCall HalCall.Reply (Chip × (ℕ → ℕ → ℕ)) :=
  (hardware cfg).prod sectorCounter

section
variable {tc : TinyCrypt} {cfg : Config} {rom flash : ℕ → UInt8} {options : Options} {start : ℕ → ℕ}
  {f f' : Flash} {initial d c : UInt32} {mask : ℕ} {y : ℕ × ℕ} {w : ℕ → ℕ → ℕ} {e : ℕ → ℕ} {s : Chip}
  {st : Statics} {j : AuthJournal}

theorem mirrors_slots (h : Mirrors cfg f flash) (g : Mirrors cfg f' flash) {b : ℕ} (two : b < 2) :
    slots cfg.journalBlockSize f b = slots cfg.journalBlockSize f' b := by
  apply List.map_congr_left
  intro k hk
  have inside := List.mem_range.mp hk
  rw [mirrors_slot h two (by omega), mirrors_slot g two (by omega)]

theorem mirrors_matches (h : Mirrors cfg f flash) (g : Mirrors cfg f' flash)
    (size : j.blockSize = cfg.journalBlockSize) (m : Matches tc initial j f) : Matches tc initial j f' := by
  obtain ⟨C, blocks, position⟩ := m
  refine ⟨C, fun b hb => ?_, position⟩
  rw [size, ← mirrors_slots h g hb, ← size]
  exact blocks b hb

theorem levelled_mirrors (h : Mirrors cfg f flash) (g : Mirrors cfg f' flash)
    (size : j.blockSize = cfg.journalBlockSize) {n x : ℕ} (levelled : Levelled tc initial start n x j f e) :
    Levelled tc initial start n x j f' e :=
  ⟨levelled.bounded, fun j' key size' m =>
    levelled.accounts j' key size' (mirrors_matches g h (size'.trans size) m)⟩

theorem worn_intro (counts : Counts cfg e w) (mirrors : Mirrors cfg f flash)
    (setUp : SetUp (journalOf cfg.toBoard (provisioned cfg rom)) j) {n x : ℕ}
    (levelled : Levelled tc (initialOf (provisioned cfg rom)) start n x j f e) :
    WornAt tc cfg rom start (n, x) flash w :=
  ⟨e, counts, fun _ g => levelled_mirrors mirrors g rfl
    (levelled_kept levelled setUp.key.symm setUp.blockSize.symm)⟩

theorem drives_begun (mapped : Mapped cfg) (h : Stands tc cfg rom options (d, mask) st s)
    (ready : st.journal.ready = true) (fresh : st.journal.counter < c) :
    ∃ f, st.journal.valid = true ∧ SetUp (journalOf cfg.toBoard (provisioned cfg rom)) st.journal ∧
      Matches tc (initialOf (provisioned cfg rom)) st.journal f ∧ Mirrors cfg f s.flash ∧
      Drives cfg (fun flash => ∃ f', OldOrNew tc (initialOf (provisioned cfg rom)) st.journal c f' ∧
          Mirrors cfg f' flash) (boardStoreSave tc cfg st c)
        (fun x t => ∃ f', (x.1 = 1 → Matches tc (initialOf (provisioned cfg rom)) (saved st.journal c) f') ∧
          OldOrNew tc (initialOf (provisioned cfg rom)) st.journal c f' ∧ Mirrors cfg f' t.flash) s := by
  obtain ⟨f, backed, holds⟩ := h
  obtain ⟨valid, setUp, m, same⟩ := backed.ready ready
  refine ⟨f, valid, setUp, m, holds.mirrors, ?_⟩
  have save := safe_save_guarded m valid ready fresh
  rw [setUp.blockSize] at save
  unfold boardStoreSave
  refine safe_then (safe_mono _ _ _ s (fun _ _ g => g) (fun t k => ?_) (fun _ _ q => q)
    (drives_interp mapped _ _ .counterSave holds (safe_and_crash save))) ?_
  · obtain ⟨f', torn, keeps⟩ := k
    exact ⟨f', torn, keeps.1⟩
  · rintro ⟨⟨k, ok⟩, error⟩ t ⟨f', ⟨outcome, torn⟩, holds', -⟩ crash
    rcases outcome with ⟨same', m'⟩ | same'
    · obtain ⟨rfl, rfl⟩ := Prod.mk.inj same'
      exact ⟨crash, f', fun _ => m', torn, holds'.mirrors⟩
    · obtain ⟨rfl, rfl⟩ := Prod.mk.inj same'
      refine ⟨crash, f', fun one => ?_, torn, holds'.mirrors⟩
      have negative : -(error.code : ℤ) = 1 := one
      omega

def WornDown (tc : TinyCrypt) (cfg : Config) (rom : ℕ → UInt8) (options : Options) (start : ℕ → ℕ)
    (call : PlatformCall) (x : UInt32 × ℕ) (y : ℕ × ℕ) (t : Chip × (ℕ → ℕ → ℕ)) : Prop :=
  ∃ z, (z = (x, y) ∨ (wornPlatform tc cfg rom options).tears call (x, y) z ∨
      ∃ r, (wornPlatform tc cfg rom options).answers call (x, y) r z) ∧
    Remains tc cfg rom z.1.1 t.1.flash ∧ WornAt tc cfg rom start z.2 t.1.flash t.2

def WornUp (tc : TinyCrypt) (cfg : Config) (rom : ℕ → UInt8) (options : Options) (start : ℕ → ℕ)
    (z : (UInt32 × ℕ) × (ℕ × ℕ)) (st : Statics) (t : Chip × (ℕ → ℕ → ℕ)) : Prop :=
  Stands tc cfg rom options z.1 st t.1 ∧ WornAt tc cfg rom start z.2 t.1.flash t.2

theorem flash_kept {α : Type} {p : HalProg α} (h : Avoids writes p) (s : Chip) :
    Safe (hardware cfg) (fun _ _ => True) (fun t => t.flash = s.flash) p (fun _ t => t.flash = s.flash) s := by
  refine safe_avoids h (fun c t calm same => ?_) rfl
  cases c with
  | flashErase | flashProgram => exact absurd trivial calm
  | flashUnlock =>
    refine ⟨fun u torn => Eq.trans torn same, fun r u answered => ?_⟩
    obtain ⟨unlocked, -, rfl⟩ := answered
    exact same
  | getPrimask | peek | flashSize | obGetConfig | optrDbank | memrmpFbMode =>
    refine ⟨fun u torn => Eq.trans torn same, fun r u answered => ?_⟩
    obtain ⟨-, rfl⟩ := answered
    exact same
  | _ =>
    refine ⟨fun u torn => Eq.trans torn same, fun r u answered => ?_⟩
    obtain rfl := answered
    exact same

theorem worn_other (mapped : Mapped cfg) {call : PlatformCall} (other : ¬ isSave call) {x : UInt32 × ℕ}
    (up : WornUp tc cfg rom options start (x, y) st (s, w)) :
    Safe (wornHardware cfg) (fun _ _ => True) (WornDown tc cfg rom options start call x y)
      (boardPlatform tc cfg call st)
      (fun a t => ∃ z, (wornPlatform tc cfg rom options).answers call (x, y) a.1 z ∧
        WornUp tc cfg rom options start z a.2 t) (s, w) := by
  obtain ⟨h, worn⟩ := up
  have avoids := avoids_platform tc cfg call st other
  have torn_ : tallyDevice.tears call y y := by
    cases call with
    | saveCounter => exact absurd trivial other
    | _ => rfl
  have answered_ : ∀ r, tallyDevice.answers call y r y := by
    intro r
    cases call with
    | saveCounter => exact absurd trivial other
    | _ => rfl
  have chip := safe_both (drives_platform mapped call h) (@flash_kept cfg _ _ avoids s)
  have count := @counter_avoids w (· = w) _ _ (avoids_mono erases_writes avoids) rfl
  refine safe_mono _ _ _ _ (fun _ _ _ => trivial) ?_ ?_ (safe_prod chip count)
  · rintro ⟨t, w'⟩ ⟨⟨⟨x', moved, remains⟩, same⟩, rfl⟩
    refine ⟨(x', y), ?_, remains, by rwa [same]⟩
    rcases moved with rfl | torn | ⟨r, answered⟩
    · exact Or.inl rfl
    · exact Or.inr (Or.inl ⟨torn, torn_⟩)
    · exact Or.inr (Or.inr ⟨r, answered, answered_ r⟩)
  · rintro a ⟨t, w'⟩ ⟨⟨⟨x', answered, stands⟩, same⟩, rfl⟩
    exact ⟨(x', y), ⟨answered, answered_ a.1⟩, stands, by rwa [same]⟩

theorem worn_save (mapped : Mapped cfg) {x : UInt32 × ℕ}
    (up : WornUp tc cfg rom options start (x, y) st (s, w)) :
    Safe (wornHardware cfg) (fun _ _ => True) (WornDown tc cfg rom options start (.saveCounter c) x y)
      (boardPlatform tc cfg (.saveCounter c) st)
      (fun a t => ∃ z, (wornPlatform tc cfg rom options).answers (.saveCounter c) (x, y) a.1 z ∧
        WornUp tc cfg rom options start z a.2 t) (s, w) := by
  obtain ⟨h, worn⟩ := up
  have chip := drives_platform mapped (.saveCounter c) h
  obtain ⟨d, mask⟩ := x
  by_cases go : st.journal.ready = true ∧ st.journal.counter < c
  · obtain ⟨f, valid, setUp, m, mirrors, effect⟩ := drives_begun mapped h go.1 go.2
    obtain ⟨e, counts, levelled⟩ := worn
    have here := levelled_kept (levelled f mirrors) setUp.key setUp.blockSize
    have broken : ∀ {t : Chip} {w' e' f'}, OldOrNew tc (initialOf (provisioned cfg rom)) st.journal c f' →
        Mirrors cfg f' t.flash → (e' = e ∨ e' = JournalWear.worn st.journal e) → Counts cfg e' w' →
        WornAt tc cfg rom start (y.1, y.2 + 1) t.flash w' := fun torn mirrors' moved counts' =>
      worn_intro counts' mirrors' setUp (levelled_broken here m valid torn moved)
    refine safe_mono _ _ _ _ (fun _ _ _ => trivial) ?_ ?_
      (safe_prod (safe_both chip effect) (counter_save mapped tc st c counts))
    · rintro ⟨t, w'⟩ ⟨⟨⟨x', moved, remains⟩, f', torn, mirrors'⟩, e', counted, counts'⟩
      refine ⟨(x', y.1, y.2 + 1), Or.inr (Or.inl ⟨⟨?_, trivial⟩, Or.inr rfl⟩), remains,
        broken torn mirrors' counted counts'⟩
      rcases moved with rfl | ⟨torn', -⟩ | ⟨r, ⟨-, either, -⟩, -⟩
      · exact Or.inl rfl
      · exact torn'
      · exact either
    · rintro a ⟨t, w'⟩ ⟨⟨⟨x', answered, stands⟩, f', done, torn, mirrors'⟩, e', counted, counts'⟩
      rcases counted with ⟨one, rfl⟩ | ⟨negative, counted⟩
      · refine ⟨(x', y.1 + 1, y.2), ⟨answered, Or.inl ⟨by rw [one]; exact Int.one_pos, rfl⟩⟩, stands, ?_⟩
        exact worn_intro counts' mirrors' setUp (levelled_kept (levelled_saved here m valid (done one)) rfl rfl)
      · exact ⟨(x', y.1, y.2 + 1), ⟨answered, Or.inr ⟨negative, Or.inr rfl⟩⟩, stands,
          broken torn mirrors' counted counts'⟩
  · change Drives cfg _ (boardStoreSave tc cfg st c) _ s at chip
    change Safe _ _ _ (boardStoreSave tc cfg st c) _ _
    unfold boardStoreSave at chip ⊢
    rw [save_refused tc st.journal c (save_closed go)] at chip ⊢
    obtain ⟨-, x', answered, stands⟩ := chip
    have negative : -((AuthError.counterSave.code : ℕ) : ℤ) ≤ 0 := by decide
    exact ⟨⟨((d, mask), y), Or.inl rfl, stands_remains h, worn⟩, (x', y),
      ⟨answered, Or.inr ⟨negative, Or.inl rfl⟩⟩, stands, worn⟩

/-- What is safe on the durable counter, the mask and the tally is safe on a counted board. -/
theorem worn_board (mapped : Mapped cfg) {α : Type} (prog : PlatformProg α)
    (K : (UInt32 × ℕ) × (ℕ × ℕ) → Prop) (Q : α → (UInt32 × ℕ) × (ℕ × ℕ) → Prop)
    {z : (UInt32 × ℕ) × (ℕ × ℕ)} (up : WornUp tc cfg rom options start z st (s, w))
    (safe : Safe (wornPlatform tc cfg rom options) (fun _ _ => True) K prog Q z) :
    Safe (wornHardware cfg) (fun _ _ => True)
      (fun t => ∃ z, K z ∧ Remains tc cfg rom z.1.1 t.1.flash ∧ WornAt tc cfg rom start z.2 t.1.flash t.2)
      (prog.interp (boardPlatform tc cfg) st)
      (fun a t => ∃ z, Q a.1 z ∧ WornUp tc cfg rom options start z a.2 t) (s, w) := by
  refine safe_interp (wornPlatform tc cfg rom options) (wornHardware cfg) (fun _ _ => True)
    (fun _ _ => True) K (boardPlatform tc cfg) (WornUp tc cfg rom options start)
    (fun z t => Remains tc cfg rom z.1.1 t.1.flash ∧ WornAt tc cfg rom start z.2 t.1.flash t.2)
    (fun z st t h => ⟨stands_remains h.1, h.2⟩) (fun call z st t h _ => ?_) prog Q z st (s, w) up safe
  by_cases save : isSave call
  · cases call with
    | saveCounter c => exact worn_save mapped h
    | _ => cases save
  · exact worn_other mapped save h

end

structure WornNode where
  node : Node
  erases : ℕ → ℕ → ℕ

structure WornNode.Runs {α : Type} (tc : TinyCrypt) (cfg : Config) (n : WornNode) (prog : PlatformProg α)
    (a : α) (n' : WornNode) : Prop where
  on : n'.node.on = true
  exec : Exec (wornHardware cfg) (n.node.program tc cfg prog) (n.node.chip, n.erases) (a, n'.node.statics)
    (n'.node.chip, n'.erases)

def WornNode.Loses {α : Type} (tc : TinyCrypt) (cfg : Config) (n : WornNode) (prog : PlatformProg α)
    (n' : WornNode) : Prop :=
  ∃ t w, Cut (wornHardware cfg) (n.node.program tc cfg prog) (n.node.chip, n.erases) (t, w) ∧
    n' = ⟨.off t.flash n.node.chip.options, w⟩

structure WornShows (tc : TinyCrypt) (cfg : Config) (rom : ℕ → UInt8) (options : Options) (start : ℕ → ℕ)
    (z : (UInt32 × ℕ) × (ℕ × ℕ)) (n : WornNode) : Prop where
  shows_ : Shows tc cfg rom options z.1 n.node
  worn : WornAt tc cfg rom start z.2 n.node.chip.flash n.erases

section
variable {tc : TinyCrypt} {cfg : Config} {rom : ℕ → UInt8} {options : Options} {start : ℕ → ℕ}
  {n n' : WornNode} {z : (UInt32 × ℕ) × (ℕ × ℕ)} {α : Type} {prog : PlatformProg α} {s : Chip}

theorem worn_runs {a : α} (run : n.Runs tc cfg prog a n') : n.node.Runs tc cfg prog a n'.node :=
  ⟨run.on, (exec_prod _ run.exec).1⟩

theorem worn_loses (lost : n.Loses tc cfg prog n') : n.node.Loses tc cfg prog n'.node := by
  obtain ⟨t, w, cut, rfl⟩ := lost
  exact ⟨t, (cut_prod _ cut).1, rfl⟩

theorem protection_done (reset : s.mpu = .reset) :
    Safe (hardware cfg) (fun _ _ => True) (fun t => t.flash = s.flash) (memoryProtection cfg)
      (fun _ t => t = { s with mpu := guarded cfg false }) s := by
  have done := @drives_memoryProtection cfg s Unit pure (fun _ t => t = { s with mpu := guarded cfg false })
    (· = s.flash) reset rfl ⟨rfl, rfl⟩
  exact safe_mono _ _ _ s (fun _ _ _ => trivial) (fun _ k => k) (fun _ _ q => q.2)
    ((safe_bind _ _ _ _).mp done)

theorem worn_node (mapped : Mapped cfg) (K : (UInt32 × ℕ) × (ℕ × ℕ) → Prop)
    (Q : α → (UInt32 × ℕ) × (ℕ × ℕ) → Prop) (h : WornShows tc cfg rom options start z n)
    (safe : Safe (wornPlatform tc cfg rom options) (fun _ _ => True) K prog Q z) :
    Safe (wornHardware cfg) (fun _ _ => True)
      (fun t => ∃ z, K z ∧ Remains tc cfg rom z.1.1 t.1.flash ∧ WornAt tc cfg rom start z.2 t.1.flash t.2)
      (n.node.program tc cfg prog)
      (fun a t => ∃ z, Q a.1 z ∧ WornUp tc cfg rom options start z a.2 t) (n.node.chip, n.erases) := by
  obtain ⟨node, w⟩ := n
  obtain ⟨x, y⟩ := z
  obtain ⟨shows_, worn⟩ := h
  cases shows_ with
  | up on stands =>
    rw [Node.program, if_pos on]
    exact worn_board mapped prog K Q ⟨stands, worn⟩ safe
  | @down d flash remains =>
    have first := safe_prod (@protection_done cfg (.reset flash options) rfl)
      (@counter_avoids w (· = w) _ _ (avoids_mono erases_writes (avoids_memoryProtection cfg)) rfl)
    refine safe_then (safe_mono _ _ _ _ (fun _ _ _ => trivial) ?_ (fun _ _ q => q) first) ?_
    · rintro ⟨t, _⟩ ⟨same, rfl⟩
      change t.flash = flash at same
      exact ⟨((d, 0), y), safe_here _ _ _ safe, by rwa [same], by rwa [same]⟩
    · rintro _ ⟨_, _⟩ ⟨rfl, rfl⟩ -
      exact worn_board mapped prog K Q ⟨stands_booted remains, worn⟩ safe

theorem worn_node_runs (mapped : Mapped cfg) {a : α} (h : WornShows tc cfg rom options start z n)
    (run : n.Runs tc cfg prog a n') : ∃ z', Exec (wornPlatform tc cfg rom options) prog z a z' ∧
      WornShows tc cfg rom options start z' n' := by
  obtain ⟨z', exec, stands, worn⟩ := safe_exec _ _ _ _ _ (worn_node mapped (fun _ => True)
    (fun a z' => Exec (wornPlatform tc cfg rom options) prog z a z') h
    (safe_of_runs _ _ _ (fun _ _ run => run) fun _ _ => trivial)) run.exec
  exact ⟨z', exec, .up run.on stands, worn⟩

theorem worn_node_loses (mapped : Mapped cfg) (h : WornShows tc cfg rom options start z n)
    (lost : n.Loses tc cfg prog n') : ∃ z', Cut (wornPlatform tc cfg rom options) prog z z' ∧
      n'.node.on = false ∧ WornShows tc cfg rom options start ((z'.1.1, 0), z'.2) n' := by
  obtain ⟨t, w, cut, rfl⟩ := lost
  have left := safe_cut _ _ _ _ (worn_node mapped (fun z' => Cut (wornPlatform tc cfg rom options) prog z z')
    (fun _ _ => True) h (safe_of_runs _ _ _ (fun _ _ _ => trivial) fun _ cut => cut)) cut
  obtain ⟨z', cut, remains, worn⟩ := left
  rw [shows_options h.shows_]
  exact ⟨z', cut, rfl, .down remains, worn⟩

def boardPeriod (cfg : Config) : ℕ := 2 * (cfg.journalBlockSize / 32)

theorem period_pos (mapped : Mapped cfg) : 0 < boardPeriod cfg := by
  have room := mapped.room
  unfold boardPeriod
  omega

theorem worn_factory (mapped : Mapped cfg) (tc : TinyCrypt) (rom : ℕ → UInt8) :
    ∃ start, (∀ b, start b < boardPeriod cfg) ∧ WornAt tc cfg rom start (0, 0) rom fun _ _ => 0 := by
  let f : Flash := fun block off => rom (blockAddress cfg block + off)
  have mirrors : Mirrors cfg f rom := fun _ _ _ _ => rfl
  have setUp : SetUp (journalOf cfg.toBoard (provisioned cfg rom)) (journalOf cfg.toBoard (provisioned cfg rom)) :=
    ⟨rfl, rfl, rfl⟩
  have counts : Counts cfg (fun _ => 0) fun _ _ => 0 := ⟨fun _ _ => rfl, fun _ _ _ => rfl⟩
  by_cases there : ∃ j, j.key = bytesAt 32 (provisioned cfg rom) 16 ∧ j.blockSize = cfg.journalBlockSize ∧
      Matches tc (initialOf (provisioned cfg rom)) j f
  · obtain ⟨j, key, size, C, blocks, position⟩ := there
    let k : AuthJournal := { j with callbacks := true }
    have valid : k.valid = true := by
      simp only [AuthJournal.valid, Bool.and_eq_true, decide_eq_true_eq, beq_iff_eq]
      exact ⟨⟨rfl, size ▸ mapped.room⟩, size ▸ mapped.slots⟩
    have m : Matches tc (initialOf (provisioned cfg rom)) k f :=
      ⟨C, blocks, position.1, position.2, position.3, position.4, position.5, position.6⟩
    refine ⟨age k, fun b => ?_, worn_intro counts mirrors setUp
      (levelled_kept (levelled_start m valid) key.symm size.symm)⟩
    have young := @age_lt tc k f b (matches_stands m valid)
    rwa [JournalWear.period, size] at young
  · refine ⟨fun _ => 0, fun _ => period_pos mapped, worn_intro counts mirrors setUp
      ⟨fun b _ => ⟨?_, Nat.le_refl _⟩, fun j key size m => absurd ⟨j, key, size, m⟩ there⟩⟩
    have pos := period_pos mapped
    change 0 < boardPeriod cfg * 1
    omega

theorem worn_bound (young : ∀ b, start b < boardPeriod cfg) {y : ℕ × ℕ} {flash : ℕ → UInt8} {w : ℕ → ℕ → ℕ}
    (mapped : Mapped cfg) (h : WornAt tc cfg rom start y flash w) (bank unit : ℕ) :
    boardPeriod cfg * w bank unit < y.1 + boardPeriod cfg * (y.2 + 1) := by
  obtain ⟨e, counts, levelled⟩ := h
  have pos := period_pos mapped
  have spare : boardPeriod cfg * (y.2 + 1) = boardPeriod cfg * y.2 + boardPeriod cfg := by ring
  by_cases journal : ∃ b, b < 2 ∧ bank = cfg.journalBank ∧ unit = cfg.journalUnit b
  · obtain ⟨b, two, rfl, rfl⟩ := journal
    rw [counts.journals b two]
    have bound : boardPeriod cfg * e b ≤ y.1 + start b + boardPeriod cfg * y.2 :=
      ((levelled (fun block off => flash (blockAddress cfg block + off)) fun _ _ _ _ => rfl).bounded b two).most
    have := young b
    omega
  · rw [counts.others bank unit fun b two same there => journal ⟨b, two, same, there⟩]
    omega

end

end SimpleAttestation.BoardWear
