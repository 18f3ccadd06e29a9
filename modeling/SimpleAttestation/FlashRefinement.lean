import SimpleAttestation.FlashDriver
import Mathlib.Data.List.GetD

set_option autoImplicit false

/-!
# The driver implements the journal's flash

A slot is programmed word by word and read back, a block erased in one request. Whatever
the controller answers and wherever power is lost, the journal sees one of its own tears.
-/
namespace SimpleAttestation.FlashRefinement
open ByteStrings CallProgram Platform MemoryProtection Journal Session Store Hardware FlashDriver

structure Programmed (base : ℕ → UInt8) (address : ℕ) (bytes : Bytes 32) (i : ℕ) (g : ℕ → UInt8) : Prop where
  raised : ∀ k, k < 32 → Raised (bytes.data.getD k 0) (g (address + k))
  rest : ∀ k, i ≤ k → k < 32 → g (address + k) = 255
  frame : ∀ a, ¬ (address ≤ a ∧ a < address + 32) → g a = base a

section
variable {base g g' : ℕ → UInt8} {address i n : ℕ} {bytes : Bytes 32}

theorem bit_full {i : ℕ} (hi : i < 8) : bit 255 i = true := by
  have all : ∀ i, i < 8 → bit 255 i = true := by decide
  exact all i hi

theorem raised_to_full (b : UInt8) : Raised b 255 := fun _ hi => Or.inl (bit_full hi)

theorem lowered_full {b new : UInt8} (h : Lowered 255 b new) : Raised b new := by
  have all : (255 : UInt8) &&& b = b := by
    apply UInt8.toBitVec_inj.mp
    exact BitVec.allOnes_and
  rw [← all]
  exact h.1

theorem peek_get (k : ℕ) (h : k < n) : (readMemory g address n).data.getD k 0 = g (address + k) := by
  simp [readMemory, h]

theorem programmed_blank (blank : readMemory base address 32 = blank) : Programmed base address bytes 0 base := by
  have full : ∀ k, k < 32 → base (address + k) = 255 := by
    intro k hk
    have there := @peek_get base address 32 k hk
    rw [← there, blank]
    exact List.getD_replicate _ hk
  exact ⟨fun k hk => by rw [full k hk]; exact raised_to_full _, fun k _ hk => full k hk, fun _ _ => rfl⟩

theorem programmed_mono (h : Programmed base address bytes i g) {k : ℕ} (le : i ≤ k) :
    Programmed base address bytes k g :=
  ⟨h.raised, fun j hj => h.rest j (le.trans hj), h.frame⟩

theorem programmed_program (h : Programmed base address bytes i g) (room : i + n ≤ 32)
    (programs : Programs g (address + i) (bytesAt n bytes.data i).data g') :
    Programmed base address bytes (i + n) g' := by
  obtain ⟨new, length, rfl, lowered⟩ := programs
  rw [Bytes.length_data] at length lowered
  have inside : ∀ k, i ≤ k → k < i + n → put g (address + i) new (address + k) = new.getD (k - i) 0 := by
    intro k lo hi
    rw [put, if_pos (by omega), show address + k - (address + i) = k - i by omega]
  have outside : ∀ a, ¬ (address + i ≤ a ∧ a < address + i + n) → put g (address + i) new a = g a := by
    intro a out
    rw [put, length, if_neg out]
  refine ⟨fun k hk => ?_, fun k lo hk => ?_, fun a out => ?_⟩
  · by_cases there : i ≤ k ∧ k < i + n
    · have step := lowered (k - i) (by omega)
      have at_k : address + i + (k - i) = address + k := by omega
      have byte : (bytesAt n bytes.data i).data.getD (k - i) 0 = bytes.data.getD k 0 := by
        have : k - i < n := by omega
        have : i + (k - i) = k := by omega
        simp [bytesAt, *]
      rw [at_k, h.rest k there.1 hk, byte] at step
      rw [inside k there.1 there.2]
      exact lowered_full step
    · rw [outside _ (by omega)]
      exact h.raised k hk
  · rw [outside _ (by omega)]
    exact h.rest k (by omega) hk
  · rw [outside _ (by omega)]
    exact h.frame a out

end

def flashErrors : List AuthError :=
  [.flashUnlock, .flashWrp, .flashAlignment, .flashProgram, .flashVerify, .flashErase, .flashSizeWrite,
    .flashSequence]

/-- What a driver leaves in `store_error`: nothing new, or why it failed. -/
def Noted (e : AuthError) (x : Bool × AuthError) : Prop :=
  x.1 = true ∧ x.2 = e ∨ x.1 = false ∧ (x.2 ∈ flashErrors ∨ x.2 = e ∧ e ≠ .counterSave)

theorem programError_mem (family : Family) (error : FlashErrors) :
    programError family error ∈ flashErrors := by
  unfold programError
  split
  · decide
  · cases family with
    | h7 =>
      dsimp only
      split <;> decide
    | g4 =>
      dsimp only
      split
      · decide
      · split
        · decide
        · split <;> decide

section
variable {cfg : Config} {Kf : (ℕ → UInt8) → Prop} {s : Chip} {base g : ℕ → UInt8} {address : ℕ}
  {bytes : Bytes 32}

theorem program_requested (mapped : Mapped cfg) (g : ℕ → UInt8) {i : ℕ} (data : Bytes cfg.family.word)
    (slot : ∀ a, address ≤ a → a < address + 32 → cfg.inJournal a) (aligned : address % 32 = 0)
    (step : i % cfg.family.word = 0) (room : i + cfg.family.word ≤ 32) :
    Requested cfg (.flashProgram cfg.family.word (address + i) data) (opened cfg s true g) := by
  refine ⟨rfl, rfl, ?_, fun a lo hi => ?_⟩
  · have divides : cfg.family.word ∣ 32 := by
      cases cfg.family with
      | h7 => exact Nat.dvd_refl 32
      | g4 => exact ⟨4, rfl⟩
    have multiple := Nat.dvd_trans divides (Nat.dvd_of_mod_eq_zero aligned)
    exact Nat.mod_eq_zero_of_dvd ((Nat.dvd_add_right multiple).mpr (Nat.dvd_of_mod_eq_zero step))
  · have inside := slot a (by omega) (by omega)
    exact ⟨inside, mapped.opens a inside⟩

theorem drives_programWords (mapped : Mapped cfg) (slot : ∀ a, address ≤ a → a < address + 32 → cfg.inJournal a)
    (aligned : address % 32 = 0) (crash : ∀ g, Programmed base address bytes 32 g → Kf g) (words i : ℕ)
    (step : i % cfg.family.word = 0) (room : i + words * cfg.family.word = 32)
    (so_far : Programmed base address bytes i g) :
    Drives cfg Kf (programWords cfg address bytes words i)
      (fun _ t => ∃ g', t = opened cfg s true g' ∧ Programmed base address bytes 32 g')
      (opened cfg s true g) := by
  have kept : ∀ {g i}, i ≤ 32 → Programmed base address bytes i g → Kf g :=
    fun le h => crash _ (programmed_mono h le)
  induction words generalizing i g with
  | zero => exact ⟨kept (by omega) so_far, g, rfl, programmed_mono so_far (by omega)⟩
  | succ words ih =>
    rw [Nat.succ_mul] at room
    have fits : i + cfg.family.word ≤ 32 := by omega
    refine ⟨kept (by omega) so_far, program_requested mapped g _ slot aligned step fits, ?_, ?_⟩
    · intro t torn
      exact kept fits (programmed_program so_far fits torn)
    · rintro ok t ⟨g', programs, rfl⟩
      have more := programmed_program so_far fits programs
      cases ok with
      | true => exact ih (i + cfg.family.word) (by rw [Nat.add_mod_right]; exact step) (by omega) more
      | false => exact ⟨kept fits more, g', rfl, programmed_mono more fits⟩

theorem drives_written {u ok : Bool} {e : AuthError} {P : (ℕ → UInt8) → Prop} (here : Kf g) (hP : P g) :
    Drives cfg Kf (classify cfg ok e >>= fun e => checkWritten address bytes ok e)
      (fun x t => t = opened cfg s u g ∧ P g ∧ (x.1 = true → readMemory g address 32 = bytes) ∧ Noted e x)
      (opened cfg s u g) := by
  cases ok with
  | true =>
    refine ⟨here, trivial, fun t torn => ?_, ?_⟩
    · change Kf t.flash
      rw [show t.flash = g from torn]
      exact here
    · rintro there t ⟨rfl, rfl⟩
      change Drives cfg Kf (if readMemory g address 32 ≠ bytes then pure (false, .flashVerify)
        else pure (true, e)) _ _
      split
      · exact ⟨here, rfl, hP, nofun, Or.inr ⟨rfl, Or.inl (by decide : AuthError.flashVerify ∈ flashErrors)⟩⟩
      · rename_i same
        exact ⟨here, rfl, hP, fun _ => not_not.mp same, Or.inl ⟨rfl, rfl⟩⟩
  | false =>
    unfold classify
    split
    · rename_i open_
      refine drives_set _ here trivial (fun _ h => h) (fun _ _ h => h) fun error => ?_
      exact ⟨here, rfl, hP, nofun, Or.inr ⟨rfl, Or.inl (programError_mem _ _)⟩⟩
    · rename_i noted
      refine ⟨here, rfl, hP, nofun, Or.inr ⟨rfl, Or.inr ⟨rfl, fun unset => noted ?_⟩⟩⟩
      rw [unset]
      rfl

theorem block_inJournal {block off : ℕ} (two : block < 2) (room : off + 32 ≤ cfg.journalBlockSize) (a : ℕ)
    (lo : blockAddress cfg block + off ≤ a) (hi : a < blockAddress cfg block + off + 32) :
    cfg.inJournal a :=
  ⟨block, two, by omega, by omega⟩

theorem block_aligned (mapped : Mapped cfg) (block : ℕ) : blockAddress cfg block % 32 = 0 := by
  have start : blockAddress cfg block % cfg.journalBlockSize = 0 := by
    unfold blockAddress
    split
    · exact cfg.aligned_A
    · exact cfg.aligned_B
  exact Nat.mod_eq_zero_of_dvd (Nat.dvd_trans (Nat.dvd_of_mod_eq_zero mapped.slots)
    (Nat.dvd_of_mod_eq_zero start))

theorem drives_journalProgram (mapped : Mapped cfg) {block off : ℕ} {e : AuthError} (idle : Idle cfg s)
    (two : block < 2) (aligned : off % 32 = 0) (room : off + 32 ≤ cfg.journalBlockSize)
    (blank : readMemory s.flash (blockAddress cfg block + off) 32 = blank)
    (crash : ∀ g, Programmed s.flash (blockAddress cfg block + off) bytes 32 g → Kf g) :
    Drives cfg Kf (journalProgram cfg block off bytes e)
      (fun x t => ∃ g, t = { s with flash := g } ∧ Programmed s.flash (blockAddress cfg block + off) bytes 32 g ∧
        (x.1 = true → readMemory g (blockAddress cfg block + off) 32 = bytes) ∧ Noted e x) s := by
  have start := @programmed_blank _ _ bytes blank
  have here := crash _ (programmed_mono start (Nat.zero_le 32))
  unfold journalProgram
  rw [if_neg (by omega)]
  refine drives_withFlash idle here fun ok unlocked opens => ?_
  cases ok with
  | false =>
    exact ⟨here, s.flash, rfl, programmed_mono start (Nat.zero_le 32), nofun,
      Or.inr ⟨rfl, Or.inl (by decide : AuthError.flashUnlock ∈ flashErrors)⟩⟩
  | true =>
    obtain rfl := opens rfl
    have slot := fun a => @block_inJournal cfg block off two room a
    have whole : 0 + 32 / cfg.family.word * cfg.family.word = 32 := by
      cases cfg.family <;> simp [Family.word]
    have start_aligned : (blockAddress cfg block + off) % 32 = 0 := by
      have := block_aligned mapped block
      omega
    refine safe_then (drives_programWords mapped slot start_aligned crash _ 0 (Nat.zero_mod _) whole start) ?_
    rintro written t ⟨g, rfl, so_far⟩ here
    refine safe_post ?_ (drives_written (P := Programmed _ _ bytes 32) here so_far)
    rintro x t ⟨rfl, so_far, same, noted⟩
    exact ⟨g, rfl, so_far, same, noted⟩

theorem drives_journalErase (mapped : Mapped cfg) {block : ℕ} {e : AuthError} (idle : Idle cfg s)
    (two : block < 2) (here : Kf s.flash)
    (crash : ∀ g, Erases s.flash (blockAddress cfg block) cfg.journalBlockSize g → Kf g)
    (done : ∀ g, ErasesWhole s.flash (blockAddress cfg block) cfg.journalBlockSize g → Kf g) :
    Drives cfg Kf (journalErase cfg block e)
      (fun x t => ∃ g, t = { s with flash := g } ∧ Noted e x ∧
        if x.1 then ErasesWhole s.flash (blockAddress cfg block) cfg.journalBlockSize g
        else g = s.flash ∨ Erases s.flash (blockAddress cfg block) cfg.journalBlockSize g) s := by
  unfold journalErase
  rw [if_neg (by omega)]
  refine safe_post ?_ (drives_withFlash (P := fun x g => Noted e x ∧
    if x.1 then ErasesWhole s.flash (blockAddress cfg block) cfg.journalBlockSize g
    else g = s.flash ∨ Erases s.flash (blockAddress cfg block) cfg.journalBlockSize g) idle here
    fun ok unlocked opens => ?_)
  · rintro x t ⟨g, rfl, hP⟩
    exact ⟨g, rfl, hP⟩
  cases ok with
  | false =>
    exact ⟨here, s.flash, rfl, Or.inr ⟨rfl, Or.inl (by decide : AuthError.flashUnlock ∈ flashErrors)⟩,
      Or.inl rfl⟩
  | true =>
    obtain rfl := opens rfl
    have unit := mapped.unit block two
    have size := mapped.size
    refine ⟨here, ⟨rfl, rfl, fun a lo hi => ?_⟩, fun t torn => ?_, ?_⟩
    · rw [unit] at lo hi
      rw [size] at hi
      exact ⟨block, two, lo, hi⟩
    · change Erases _ _ _ t.flash at torn
      rw [unit, size] at torn
      exact crash _ torn
    · rintro erased t ⟨g, rfl, left⟩
      rw [unit, size] at left
      cases erased with
      | true =>
        exact ⟨done g left, g, rfl, Or.inl ⟨rfl, rfl⟩, left⟩
      | false =>
        have after := crash g left
        refine drives_set _ after trivial (fun _ h => h) (fun _ _ h => h) fun error => ?_
        refine ⟨after, g, rfl, Or.inr ⟨rfl, Or.inl ?_⟩, Or.inr left⟩
        dsimp only
        split <;> decide
end

def Guarded (blockSize : ℕ) : FlashCall → Flash → Prop
  | .read _ _, _ => True
  | .program block off _, f =>
    block < 2 ∧ off % 32 = 0 ∧ off + 32 ≤ blockSize ∧ slotAt f block off = blank
  | .erase block, _ => block < 2

section
variable {cfg : Config} {f : Flash} {flash g rom : ℕ → UInt8} {block off : ℕ} {bytes : Bytes 32}

theorem blocks_apart {block' : ℕ} (two : block < 2) (two' : block' < 2) (ne : block' ≠ block) {o : ℕ}
    (inside : o < cfg.journalBlockSize) : ¬ (blockAddress cfg block ≤ blockAddress cfg block' + o ∧
      blockAddress cfg block' + o < blockAddress cfg block + cfg.journalBlockSize) := by
  have apart := cfg.apart
  have cases_ : block = 0 ∧ block' = 1 ∨ block = 1 ∧ block' = 0 := by omega
  rcases cases_ with ⟨rfl, rfl⟩ | ⟨rfl, rfl⟩ <;>
    simp only [blockAddress, if_true, if_neg Nat.one_ne_zero] <;> omega

theorem mirrors_slot (h : Mirrors cfg f flash) (two : block < 2) (room : off + 32 ≤ cfg.journalBlockSize) :
    slotAt f block off = readMemory flash (blockAddress cfg block + off) 32 := by
  ext1
  simp only [slotAt, readMemory]
  apply List.map_congr_left
  intro i hi
  have hi' := List.mem_range.mp hi
  rw [h block (off + i) two (by omega), Nat.add_assoc]

theorem mirrors_programmed (h : Mirrors cfg f flash) (two : block < 2)
    (room : off + 32 ≤ cfg.journalBlockSize)
    (left : Programmed flash (blockAddress cfg block + off) bytes 32 g) :
    Mirrors cfg (writeSlot f block off (readMemory g (blockAddress cfg block + off) 32)) g := by
  intro b o hb ho
  unfold writeSlot
  split
  · rename_i there
    obtain ⟨rfl, lo, hi⟩ := there
    rw [peek_get _ (by omega), show blockAddress cfg b + off + (o - off) = blockAddress cfg b + o by omega]
  · rename_i elsewhere
    rw [left.frame, h b o hb ho]
    intro inside
    by_cases same : b = block
    · subst same
      exact elsewhere ⟨rfl, by omega, by omega⟩
    · exact blocks_apart two hb same ho ⟨by omega, by omega⟩

theorem programmed_raised (left : Programmed flash (blockAddress cfg block + off) bytes 32 g) :
    RaisedBytes bytes (readMemory g (blockAddress cfg block + off) 32) := by
  rw [RaisedBytes, List.forall₂_iff_get]
  refine ⟨by simp, fun i hi hi' => ?_⟩
  have inside : i < 32 := by simpa using hi
  have byte := left.raised i inside
  rw [List.getD_eq_getElem _ _ (by simpa using inside)] at byte
  simpa [readMemory] using byte

theorem mirrors_erases (h : Mirrors cfg f flash) (two : block < 2)
    (left : Erases flash (blockAddress cfg block) cfg.journalBlockSize g) :
    ∃ bytes : ℕ → UInt8, (∀ o, Raised (f block o) (bytes o)) ∧
      Mirrors cfg (setBlock cfg.journalBlockSize f block bytes) g := by
  refine ⟨fun o => if o < cfg.journalBlockSize then g (blockAddress cfg block + o) else f block o, ?_, ?_⟩
  · intro o
    dsimp only
    split
    · rename_i inside
      rw [h block o two inside]
      exact left.1 _ (by omega) (by omega)
    · exact fun _ _ => Or.inr rfl
  · intro b o hb ho
    unfold setBlock
    split
    · rename_i there
      obtain ⟨rfl, -⟩ := there
      exact if_pos ho
    · rename_i elsewhere
      have other : b ≠ block := fun same => elsewhere ⟨same, ho⟩
      rw [left.2 _ (blocks_apart two hb other ho), h b o hb ho]

theorem mirrors_erased (h : Mirrors cfg f flash) (two : block < 2)
    (left : ErasesWhole flash (blockAddress cfg block) cfg.journalBlockSize g) :
    Mirrors cfg (eraseBlock cfg.journalBlockSize f block) g := by
  intro b o hb ho
  unfold eraseBlock setBlock
  split
  · rename_i there
    obtain ⟨rfl, -⟩ := there
    exact (left.1 _ (by omega) (by omega)).symm
  · rename_i elsewhere
    have other : b ≠ block := fun same => elsewhere ⟨same, ho⟩
    rw [left.2 _ (blocks_apart two hb other ho), h b o hb ho]

theorem outside_frame {address n : ℕ} (h : Outside cfg rom flash)
    (inside : ∀ a, address ≤ a → a < address + n → cfg.inJournal a)
    (frame : ∀ a, ¬ (address ≤ a ∧ a < address + n) → g a = flash a) : Outside cfg rom g := by
  intro a out
  rw [frame a fun there => out (inside a there.1 there.2), h a out]

end

/-- What the hardware holds of the journal's flash `f`; `mask` and `options` do not change. -/
structure Holds (cfg : Config) (rom : ℕ → UInt8) (mask : ℕ) (options : Options) (f : Flash) (s : Chip) :
    Prop where
  idle : Idle cfg s
  mirrors : Mirrors cfg f s.flash
  outside : Outside cfg rom s.flash
  mask : s.primask = mask
  options : s.options = options

def Keeps (cfg : Config) (rom : ℕ → UInt8) (f : Flash) (flash : ℕ → UInt8) : Prop :=
  Mirrors cfg f flash ∧ Outside cfg rom flash

section
variable {cfg : Config} {rom : ℕ → UInt8} {mask : ℕ} {options : Options} {f : Flash} {s : Chip}

/-- Where a power loss inside `c` may leave the flash. -/
def Interrupted (cfg : Config) (rom : ℕ → UInt8) (c : FlashCall) (f : Flash) (flash : ℕ → UInt8) : Prop :=
  ∃ f', (f' = f ∨ (flashDevice cfg.journalBlockSize (bitTear cfg.journalBlockSize)).tears c f f' ∨
    ∃ r, (flashDevice cfg.journalBlockSize (bitTear cfg.journalBlockSize)).answers c f r f') ∧
      Keeps cfg rom f' flash

def Answered (cfg : Config) (rom : ℕ → UInt8) (mask : ℕ) (options : Options) (c : FlashCall) (f : Flash)
    (e : AuthError) (x : c.Reply × AuthError) (t : Chip) : Prop :=
  ∃ f', (flashDevice cfg.journalBlockSize (bitTear cfg.journalBlockSize)).answers c f x.1 f' ∧
    Holds cfg rom mask options f' t ∧ (x.2 = e ∨ x.2 ∈ flashErrors)

theorem holds_moved (h : Holds cfg rom mask options f s) {f' : Flash} {g : ℕ → UInt8}
    (keeps : Keeps cfg rom f' g) : Holds cfg rom mask options f' { s with flash := g } :=
  ⟨⟨h.idle.locked, h.idle.closed⟩, keeps.1, keeps.2, h.mask, h.options⟩

theorem noted_error {e : AuthError} {x : Bool × AuthError} (h : Noted e x) :
    x.2 = e ∨ x.2 ∈ flashErrors := by
  rcases h with ⟨-, same⟩ | ⟨-, error | ⟨same, -⟩⟩
  · exact Or.inl same
  · exact Or.inr error
  · exact Or.inl same

theorem drives_read (mapped : Mapped cfg) (h : Holds cfg rom mask options f s) (block off : ℕ)
    (e : AuthError) : Drives cfg (Interrupted cfg rom (.read block off) f)
      (journalCallbacks cfg (.read block off) e) (Answered cfg rom mask options (.read block off) f e) s := by
  have here : Interrupted cfg rom (.read block off) f s.flash := ⟨f, Or.inl rfl, h.mirrors, h.outside⟩
  change Drives cfg _ (journalRead cfg block off >>= fun out => pure (out, e)) _ s
  unfold journalRead
  split
  · exact ⟨here, f, ⟨rfl, Or.inl rfl⟩, h, Or.inl rfl⟩
  · rename_i inside
    have size := mapped.room
    refine ⟨here, trivial, fun t torn => ?_, ?_⟩
    · change Interrupted cfg rom (.read block off) f t.flash
      rw [show t.flash = s.flash from torn]
      exact here
    · rintro out t ⟨rfl, rfl⟩
      have found := @mirrors_slot cfg f t.flash block off h.mirrors (by omega) (by omega)
      exact ⟨here, f, ⟨rfl, Or.inr (congrArg some found.symm)⟩, h, Or.inl rfl⟩

theorem drives_program (mapped : Mapped cfg) (h : Holds cfg rom mask options f s) {block off : ℕ}
    {bytes : Bytes 32} (guarded : Guarded cfg.journalBlockSize (.program block off bytes) f)
    (e : AuthError) : Drives cfg (Interrupted cfg rom (.program block off bytes) f)
      (journalCallbacks cfg (.program block off bytes) e)
      (Answered cfg rom mask options (.program block off bytes) f e) s := by
  obtain ⟨two, aligned, room, blank⟩ := guarded
  rw [mirrors_slot h.mirrors two room] at blank
  have keeps : ∀ g, Programmed s.flash (blockAddress cfg block + off) bytes 32 g → Keeps cfg rom
      (writeSlot f block off (readMemory g (blockAddress cfg block + off) 32)) g := fun g left =>
    ⟨mirrors_programmed h.mirrors two room left,
      outside_frame h.outside (fun a => block_inJournal two room a) left.frame⟩
  refine safe_post ?_ (drives_journalProgram mapped h.idle two aligned room blank fun g left =>
    ⟨_, Or.inr (Or.inl ⟨_, programmed_raised left, rfl⟩), keeps g left⟩)
  rintro ⟨ok, e'⟩ t ⟨g, rfl, left, same, note⟩
  refine ⟨_, ?_, holds_moved h (keeps g left), noted_error note⟩
  cases ok with
  | true => exact congrArg (writeSlot f block off) (same rfl)
  | false => exact ⟨_, programmed_raised left, rfl⟩

theorem drives_erase (mapped : Mapped cfg) (h : Holds cfg rom mask options f s) {block : ℕ} (two : block < 2)
    (e : AuthError) : Drives cfg (Interrupted cfg rom (.erase block) f)
      (journalCallbacks cfg (.erase block) e) (Answered cfg rom mask options (.erase block) f e) s := by
  have inside : ∀ a, blockAddress cfg block ≤ a → a < blockAddress cfg block + cfg.journalBlockSize →
      cfg.inJournal a := fun a lo hi => ⟨block, two, lo, hi⟩
  have torn : ∀ g, Erases s.flash (blockAddress cfg block) cfg.journalBlockSize g →
      ∃ f', bitTear cfg.journalBlockSize (.erase block) f f' ∧ Keeps cfg rom f' g := by
    intro g left
    obtain ⟨bytes, raised, mirrors⟩ := mirrors_erases h.mirrors two left
    exact ⟨_, ⟨bytes, raised, rfl⟩, mirrors, outside_frame h.outside inside left.2⟩
  have whole : ∀ g, ErasesWhole s.flash (blockAddress cfg block) cfg.journalBlockSize g →
      Keeps cfg rom (eraseBlock cfg.journalBlockSize f block) g := fun g left =>
    ⟨mirrors_erased h.mirrors two left, outside_frame h.outside inside left.2⟩
  have untouched : Erases s.flash (blockAddress cfg block) cfg.journalBlockSize s.flash :=
    ⟨fun _ _ _ _ _ => Or.inr rfl, fun _ _ => rfl⟩
  refine safe_post ?_ (drives_journalErase mapped h.idle two ⟨f, Or.inl rfl, h.mirrors, h.outside⟩
    (fun g left => ?_) fun g left => ⟨_, Or.inr (Or.inr ⟨true, rfl⟩), whole g left⟩)
  · rintro ⟨ok, e'⟩ t ⟨g, rfl, note, left⟩
    cases ok with
    | true => exact ⟨_, rfl, holds_moved h (whole g left), noted_error note⟩
    | false =>
      have left : Erases s.flash (blockAddress cfg block) cfg.journalBlockSize g := by
        rcases left with rfl | left
        · exact untouched
        · exact left
      obtain ⟨f', step, keeps⟩ := torn g left
      exact ⟨f', step, holds_moved h keeps, noted_error note⟩
  · obtain ⟨f', step, keeps⟩ := torn g left
    exact ⟨f', Or.inr (Or.inl step), keeps⟩

theorem drives_callbacks (mapped : Mapped cfg) (h : Holds cfg rom mask options f s) (c : FlashCall)
    (guarded : Guarded cfg.journalBlockSize c f) (e : AuthError) :
    Drives cfg (Interrupted cfg rom c f) (journalCallbacks cfg c e) (Answered cfg rom mask options c f e)
      s := by
  cases c with
  | read block off => exact drives_read mapped h block off e
  | program block off bytes => exact drives_program mapped h guarded e
  | erase block => exact drives_erase mapped h guarded e

/-- What is safe on the journal's flash is safe through the driver. -/
theorem drives_interp (mapped : Mapped cfg) {α : Type} {K : Flash → Prop} (prog : FlashProg α)
    (Q : α → Flash → Prop) (e : AuthError) (h : Holds cfg rom mask options f s)
    (safe : Safe (flashDevice cfg.journalBlockSize (bitTear cfg.journalBlockSize))
      (Guarded cfg.journalBlockSize) K prog Q f) :
    Drives cfg (fun flash => ∃ f', K f' ∧ Keeps cfg rom f' flash) (prog.interp (journalCallbacks cfg) e)
      (fun x t => ∃ f', Q x.1 f' ∧ Holds cfg rom mask options f' t ∧ (x.2 = e ∨ x.2 ∈ flashErrors)) s :=
  safe_interp (flashDevice cfg.journalBlockSize (bitTear cfg.journalBlockSize)) (hardware cfg)
    (Guarded cfg.journalBlockSize) (Requested cfg) K (journalCallbacks cfg)
    (fun f e' t => Holds cfg rom mask options f t ∧ (e' = e ∨ e' ∈ flashErrors))
    (fun f t => Keeps cfg rom f t.flash) (fun _ _ _ h => ⟨h.1.mirrors, h.1.outside⟩)
    (fun c f e' t h guarded => safe_post (by
      rintro x u ⟨f', answered, holds, note⟩
      refine ⟨f', answered, holds, ?_⟩
      rcases note with same | error
      · exact same ▸ h.2
      · exact Or.inr error) (drives_callbacks mapped h.1 c guarded e')) prog Q f e s ⟨h, Or.inl rfl⟩ safe

end

end SimpleAttestation.FlashRefinement
