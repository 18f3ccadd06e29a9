import SimpleAttestation.FlashDriver

set_option autoImplicit false

/-!
# What the protection unit of a board allows (board.c)
-/
namespace SimpleAttestation.BoardProtection
open CallProgram MemoryProtection Store Hardware FlashDriver

def sramRegion : Region := ⟨0x20000000, 0x20000000, 0, PRIV_RW_XN⟩

def flashRegion : Region := ⟨0x08000000, 0x1000000, 0, PRIV_RO_XN⟩

def codeRegion (cfg : Config) : Region :=
  ⟨0x08000000, cfg.codeMpuSize, cfg.codeMpuSubregions, PRIV_RO_X⟩

def memoryProtection (cfg : Config) : HalProg Unit := do
  Prog.ask HalCall.mpuDisable
  Prog.ask (HalCall.mpuConfigRegion 0 sramRegion)
  Prog.ask (HalCall.mpuConfigRegion 1 flashRegion)
  Prog.ask (HalCall.mpuConfigRegion 2 (codeRegion cfg))
  boardFlashAccess cfg false

def flashAccesses (cfg : Config) : List Bool → HalProg Unit
  | [] => pure ()
  | writable :: rest => do
    boardFlashAccess cfg writable
    flashAccesses cfg rest

def InFlash (a : ℕ) : Prop := 0x08000000 ≤ a ∧ a < 0x09000000

def InSram (a : ℕ) : Prop := 0x20000000 ≤ a ∧ a < 0x40000000

def InCode (cfg : Config) (a : ℕ) : Prop := (codeRegion cfg).covers a = true

def InRecord (cfg : Config) (a : ℕ) : Prop := cfg.keyAddress ≤ a ∧ a < cfg.keyAddress + 160

def Measured (cfg : Config) (a : ℕ) : Prop :=
  cfg.measureStart ≤ a ∧ a < cfg.measureStart + cfg.measureLength

/-- What the constants of a board must say for its regions to fit. -/
structure Laid (cfg : Config) : Prop where
  journals : ∀ writable a, (cfg.journalSecondRegion && (journalRegion cfg writable 1).covers a) = true ∨
    (journalRegion cfg writable 0).covers a = true ↔ cfg.inJournal a
  flash : ∀ a, cfg.inJournal a → InFlash a
  code : ∀ a, InCode cfg a → InFlash a ∧ ¬ cfg.inJournal a ∧ ¬ InRecord cfg a ∧ Measured cfg a
  numbers : 5 ≤ cfg.family.mpuRegions

section
variable {cfg : Config} {writable : Bool} {a : ℕ}

theorem find_guarded {count : ℕ} (le : 5 ≤ count) :
    (guarded cfg writable).find a count = (guarded cfg writable).find a 5 := by
  refine find_unused le fun k lo _ => ?_
  simp only [guarded]
  rw [if_neg (by omega), if_neg (by omega), if_neg (by omega), if_neg (by omega), if_neg (by omega)]

theorem find_five : (guarded cfg writable).find a 5 =
    if (cfg.journalSecondRegion && (journalRegion cfg writable 1).covers a) = true then
      some (journalRegion cfg writable 1)
    else if (journalRegion cfg writable 0).covers a = true then some (journalRegion cfg writable 0)
    else if (codeRegion cfg).covers a = true then some (codeRegion cfg)
    else if flashRegion.covers a = true then some flashRegion
    else if sramRegion.covers a = true then some sramRegion
    else none := by
  simp only [Mpu.find, guarded]
  cases cfg.journalSecondRegion <;> rfl

theorem rights_five {r : Region} (numbers : 5 ≤ cfg.family.mpuRegions)
    (found : (guarded cfg writable).find a 5 = some r) :
    (guarded cfg writable).rights defaultMap cfg.family.mpuRegions a = r.rights :=
  rights_found rfl ((find_guarded numbers).trans found)

theorem rights_journal (laid : Laid cfg) (there : cfg.inJournal a) :
    (guarded cfg writable).rights defaultMap cfg.family.mpuRegions a =
      if writable then PRIV_RW_XN else PRIV_RO_XN := by
  have region := (laid.journals writable a).mpr there
  by_cases second : (cfg.journalSecondRegion && (journalRegion cfg writable 1).covers a) = true
  · exact rights_five laid.numbers (find_five.trans (if_pos second))
  · have first := region.resolve_left second
    exact rights_five laid.numbers (find_five.trans ((if_neg second).trans (if_pos first)))

theorem find_elsewhere (laid : Laid cfg) (out : ¬ cfg.inJournal a) :
    (guarded cfg writable).find a 5 =
      if (codeRegion cfg).covers a = true then some (codeRegion cfg)
      else if flashRegion.covers a = true then some flashRegion
      else if sramRegion.covers a = true then some sramRegion
      else none := by
  have neither := mt (laid.journals writable a).mp out
  rw [not_or] at neither
  rw [find_five, if_neg neither.1, if_neg neither.2]

theorem rights_flash (laid : Laid cfg) (flash : InFlash a) (out : ¬ cfg.inJournal a) :
    (guarded cfg writable).rights defaultMap cfg.family.mpuRegions a =
      if (codeRegion cfg).covers a = true then PRIV_RO_X else PRIV_RO_XN := by
  have covered : flashRegion.covers a = true := (covers_interval rfl (by decide) rfl).mpr flash
  have found := @find_elsewhere cfg writable a laid out
  rw [if_pos covered] at found
  by_cases code : (codeRegion cfg).covers a = true
  · rw [if_pos code] at found ⊢
    exact rights_five laid.numbers found
  · rw [if_neg code] at found ⊢
    exact rights_five laid.numbers found

theorem rights_sram (laid : Laid cfg) (sram : InSram a) :
    (guarded cfg writable).rights defaultMap cfg.family.mpuRegions a = PRIV_RW_XN := by
  have elsewhere : ¬ InFlash a := fun flash => by
    have := sram.1
    have := flash.2
    omega
  have covered : sramRegion.covers a = true := (covers_interval rfl (by decide) rfl).mpr sram
  have missed : ¬ flashRegion.covers a = true := mt (covers_interval rfl (by decide) rfl).mp elsewhere
  have code : ¬ (codeRegion cfg).covers a = true := fun there => elsewhere (laid.code a there).1
  have found := @find_elsewhere cfg writable a laid (fun there => elsewhere (laid.flash a there))
  rw [if_neg code, if_neg missed, if_pos covered] at found
  exact rights_five laid.numbers found

end

theorem journal_cases (cfg : Config) (a : ℕ) : cfg.inJournal a ↔
    (cfg.journalA ≤ a ∧ a < cfg.journalA + cfg.journalBlockSize) ∨
      cfg.journalB ≤ a ∧ a < cfg.journalB + cfg.journalBlockSize := by
  constructor
  · rintro ⟨block, two, there⟩
    have cases_ : block = 0 ∨ block = 1 := by omega
    rcases cases_ with rfl | rfl
    · exact Or.inl there
    · exact Or.inr there
  · rintro (there | there)
    · exact ⟨0, Nat.zero_lt_two, there⟩
    · exact ⟨1, Nat.one_lt_two, there⟩

theorem laid_h743 (requireProtection : Bool) : Laid (h743Config requireProtection) where
  journals writable a := by
    rw [journal_cases, covers_interval rfl (show 0 < 0x40000 by decide)
      (show 0x081C0000 % 0x40000 = 0 by decide)]
    simp only [h743Config, h743, journalRegion, blockAddress, Bool.false_and, Bool.false_eq_true, false_or,
      if_true]
    omega
  flash a there := by
    rw [journal_cases] at there
    simp only [h743Config, h743] at there
    unfold InFlash
    omega
  code a there := by
    rw [InCode, covers_interval rfl (show 0 < 0x20000 by decide)
      (show 0x08000000 % 0x20000 = 0 by decide)] at there
    rw [journal_cases]
    simp only [h743Config, h743, codeRegion, InFlash, InRecord, Measured] at there ⊢
    omega
  numbers := Nat.le_add_left 5 11

theorem code_g431 (requireProtection : Bool) (a : ℕ) :
    InCode (g431Config requireProtection) a ↔ 0x08000000 ≤ a ∧ a < 0x0801C000 := by
  have last : ∀ i, i < 8 → ((!Nat.testBit 0x80 i) = true ↔ i < 7) := by decide
  have eighth : a % 0x20000 / 0x4000 < 8 := by omega
  have whole : 0x20000 / 8 = 0x4000 := by decide
  have region : codeRegion (g431Config requireProtection) = ⟨0x08000000, 0x20000, 0x80, PRIV_RO_X⟩ := rfl
  rw [InCode, region]
  simp only [Region.covers]
  rw [Bool.and_eq_true, beq_iff_eq, whole, last _ eighth]
  omega

theorem laid_g431 (requireProtection : Bool) : Laid (g431Config requireProtection) where
  journals writable a := by
    rw [journal_cases, Bool.and_eq_true,
      covers_interval rfl (show 0 < 0x800 by decide) (show 0x0801C800 % 0x800 = 0 by decide),
      covers_interval rfl (show 0 < 0x800 by decide) (show 0x0801C000 % 0x800 = 0 by decide)]
    simp only [g431Config, g431, journalRegion, blockAddress, if_true, if_neg Nat.one_ne_zero, true_and]
    omega
  flash a there := by
    rw [journal_cases] at there
    simp only [g431Config, g431] at there
    unfold InFlash
    omega
  code a there := by
    rw [code_g431] at there
    rw [journal_cases]
    simp only [g431Config, g431, InFlash, InRecord, Measured]
    omega
  numbers := Nat.le_add_left 5 3

theorem laid_boards {requireProtection : Bool} {cfg : Config}
    (board : cfg = h743Config requireProtection ∨ cfg = g431Config requireProtection) : Laid cfg := by
  rcases board with rfl | rfl
  · exact laid_h743 requireProtection
  · exact laid_g431 requireProtection

theorem mapped_h743 (requireProtection : Bool) : Mapped (h743Config requireProtection) where
  unit
    | 0, _ => show 0x08000000 + (2 - 1) * 0x100000 + 6 * 0x20000 = 0x081C0000 by decide
    | 1, _ => show 0x08000000 + (2 - 1) * 0x100000 + 7 * 0x20000 = 0x081E0000 by decide
  size := rfl
  slots := show 0x20000 % 32 = 0 by decide
  room := show 32 ≤ 0x20000 by decide
  opens _ there := congrArg Rights.write (rights_journal (laid_h743 requireProtection) there)

theorem mapped_g431 (requireProtection : Bool) : Mapped (g431Config requireProtection) where
  unit
    | 0, _ => show 0x08000000 + 56 * 0x800 = 0x0801C000 by decide
    | 1, _ => show 0x08000000 + 57 * 0x800 = 0x0801C800 by decide
  size := rfl
  slots := show 0x800 % 32 = 0 by decide
  room := show 32 ≤ 0x800 by decide
  opens _ there := congrArg Rights.write (rights_journal (laid_g431 requireProtection) there)

theorem mapped_boards {requireProtection : Bool} {cfg : Config}
    (board : cfg = h743Config requireProtection ∨ cfg = g431Config requireProtection) : Mapped cfg := by
  rcases board with rfl | rfl
  · exact mapped_h743 requireProtection
  · exact mapped_g431 requireProtection

section
variable {cfg : Config} {s t : Chip}

theorem protection_guarded (cfg : Config) :
    flashAccess cfg false (((Mpu.reset.disable.configure 0 sramRegion).configure 1 flashRegion).configure 2
      (codeRegion cfg)) = guarded cfg false := by
  ext1
  · rfl
  · funext n
    unfold flashAccess guarded Mpu.enable Mpu.configure Mpu.disable Mpu.reset
    match n with
    | 0 | 1 | 2 | 3 | 4 => cases cfg.journalSecondRegion <;> rfl
    | n + 5 => cases cfg.journalSecondRegion <;> simp

theorem drives_memoryProtection {α : Type} {k : Unit → HalProg α} {Q : α → Chip → Prop}
    {Kf : (ℕ → UInt8) → Prop} (reset : s.mpu = .reset) (here : Kf s.flash)
    (rest : Drives cfg Kf (k ()) Q { s with mpu := guarded cfg false }) :
    Drives cfg Kf (memoryProtection cfg >>= k) Q s := by
  rw [← protection_guarded, ← reset] at rest
  unfold memoryProtection
  refine drives_set _ here trivial (fun _ h => h) (fun _ _ h => h) fun _ => ?_
  refine drives_set _ here trivial (fun _ h => h) (fun _ _ h => h) fun _ => ?_
  refine drives_set _ here trivial (fun _ h => h) (fun _ _ h => h) fun _ => ?_
  refine drives_set _ here trivial (fun _ h => h) (fun _ _ h => h) fun _ => ?_
  exact drives_flashAccess false here rest

theorem drives_flashAccesses (writables : List Bool) (before : Bool) (s : Chip)
    (h : s.mpu = guarded cfg before) : Drives cfg (fun _ => True) (flashAccesses cfg writables)
      (fun _ t => t.mpu = guarded cfg (writables.getLastD before)) s := by
  induction writables generalizing before s with
  | nil => exact ⟨trivial, h⟩
  | cons writable rest ih =>
    refine drives_flashAccess writable trivial ?_
    rw [List.getLastD_cons]
    refine ih writable _ ?_
    rw [h, flashAccess_guarded]

end

/-- After boot, however often the journals are opened and closed: nothing in flash or SRAM is
    both writable and executable, only open journals are writable flash, and the flash that
    runs is measured and holds no keys. -/
theorem write_xor_execute (requireProtection : Bool) (cfg : Config)
    (board : cfg = h743Config requireProtection ∨ cfg = g431Config requireProtection) (s t : Chip)
    (writables : List Bool) (reset : s.mpu = .reset)
    (run : Exec (hardware cfg) (memoryProtection cfg >>= fun _ => flashAccesses cfg writables) s () t)
    (a : ℕ) :
    (InFlash a ∨ InSram a → ¬ ((t.rights cfg a).write = true ∧ (t.rights cfg a).execute = true)) ∧
    (InFlash a → ((t.rights cfg a).write = true ↔ writables.getLastD false = true ∧ cfg.inJournal a)) ∧
    (InFlash a → (t.rights cfg a).execute = true → Measured cfg a ∧ ¬ InRecord cfg a) := by
  have laid := laid_boards board
  have spec := @drives_memoryProtection cfg s _ (fun _ => flashAccesses cfg writables) _ (fun _ => True)
    reset trivial (drives_flashAccesses writables false _ rfl)
  have mpu := safe_exec _ _ _ _ _ spec run
  unfold Chip.rights
  rw [mpu]
  by_cases journal : cfg.inJournal a
  · rw [rights_journal laid journal]
    cases writables.getLastD false with
    | true => exact ⟨fun _ both => (nomatch both.2), fun _ => ⟨fun _ => ⟨rfl, journal⟩, fun _ => rfl⟩, nofun⟩
    | false => exact ⟨fun _ both => (nomatch both.1), fun _ => ⟨nofun, fun open_ => (nomatch open_.1)⟩, nofun⟩
  · refine ⟨?_, fun flash => ?_, fun flash => ?_⟩
    · rintro (flash | sram) ⟨write, execute⟩
      · rw [rights_flash laid flash journal] at write
        split at write <;> cases write
      · rw [rights_sram laid sram] at execute
        cases execute
    · rw [rights_flash laid flash journal]
      refine ⟨fun write => ?_, fun open_ => absurd open_.2 journal⟩
      split at write <;> cases write
    · rw [rights_flash laid flash journal]
      split
      · rename_i code
        obtain ⟨-, -, record, measured⟩ := laid.code a code
        exact fun _ => ⟨measured, record⟩
      · nofun

theorem write_xor_execute_boot : ∃ s t : Chip, s.mpu = .reset ∧
    Exec (hardware (h743Config true)) (memoryProtection (h743Config true) >>= fun _ =>
      flashAccesses (h743Config true) [true]) s () t ∧
    (t.rights (h743Config true) 0x081C0000).write = true ∧
    ¬ ((t.rights (h743Config true) 0x081C0000).write = true ∧
      (t.rights (h743Config true) 0x081C0000).execute = true) := by
  obtain ⟨_, t, run⟩ := exec_exists (hardware_live (h743Config true))
    (memoryProtection (h743Config true) >>= fun _ => flashAccesses (h743Config true) [true])
    (Chip.reset (fun _ => 255) ⟨0x200000, fun _ => ⟨1, false, fun _ => true, 0, 0⟩, false, false⟩)
  have inside : InFlash 0x081C0000 := ⟨by decide, by decide⟩
  obtain ⟨never, write, -⟩ := write_xor_execute true (h743Config true) (Or.inl rfl) _ t [true] rfl run 0x081C0000
  exact ⟨_, t, rfl, run, (write inside).mpr ⟨rfl, (journal_cases _ _).mpr (Or.inl (by decide))⟩,
    never (Or.inl inside)⟩

end SimpleAttestation.BoardProtection
