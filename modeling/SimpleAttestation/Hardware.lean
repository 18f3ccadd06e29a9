import SimpleAttestation.MemoryProtection
import SimpleAttestation.Session
import SimpleAttestation.Store

set_option autoImplicit false

/-!
# The microcontroller under a board

What store.c and board.c ask of the hardware abstraction layer, and what that does to the
flash, the interrupt mask and the protection unit. Programming only lowers bits and erasing
only raises them; both may stop at any point, and only an erase is trusted to report it.
-/
namespace SimpleAttestation.Hardware
open ByteStrings CallProgram Platform MemoryProtection Journal Session Store

structure WrpArea where
  area : ℕ
  first : ℕ
  last : ℕ

/-- `AUTH_STM32_H7`, with the constants only one of the two families has. -/
inductive Family where
  | h7 (codeWrp keyWrp : ℕ)
  | g4 (requireDbank : Bool) (codeWrp keyWrp : WrpArea)

/-- board_config.h and the build option. The proofs are the static assertions of store.c. -/
structure Config extends Board where
  family : Family
  requireProtection : Bool
  flashKib : ℕ
  journalBank : ℕ
  journalUnitA : ℕ
  journalUnitB : ℕ
  journalMpuSize : ℕ
  journalSecondRegion : Bool
  codeMpuSize : ℕ
  codeMpuSubregions : ℕ
  aligned_A : journalA % journalBlockSize = 0
  aligned_B : journalB % journalBlockSize = 0
  apart : journalA + journalBlockSize ≤ journalB ∨ journalB + journalBlockSize ≤ journalA
  key_A : keyAddress + 160 ≤ journalA ∨ journalA + journalBlockSize ≤ keyAddress
  key_B : keyAddress + 160 ≤ journalB ∨ journalB + journalBlockSize ≤ keyAddress

def h743Config (requireProtection : Bool) : Config where
  toBoard := h743
  family := .h7 0 5
  requireProtection := requireProtection
  flashKib := 2048
  journalBank := 2
  journalUnitA := 6
  journalUnitB := 7
  journalMpuSize := 0x40000
  journalSecondRegion := false
  codeMpuSize := 0x20000
  codeMpuSubregions := 0
  aligned_A := by decide
  aligned_B := by decide
  apart := by decide
  key_A := by decide
  key_B := by decide

def g431Config (requireProtection : Bool) : Config where
  toBoard := g431
  family := .g4 false ⟨0, 0, 55⟩ ⟨1, 63, 63⟩
  requireProtection := requireProtection
  flashKib := 128
  journalBank := 1
  journalUnitA := 56
  journalUnitB := 57
  journalMpuSize := 0x800
  journalSecondRegion := true
  codeMpuSize := 0x20000
  codeMpuSubregions := 0x80
  aligned_A := by decide
  aligned_B := by decide
  apart := by decide
  key_A := by decide
  key_B := by decide

def Family.isH7 : Family → Bool
  | h7 _ _ => true
  | g4 _ _ _ => false

/-- The sector or page that `HAL_FLASHEx_Erase` erases. -/
def Family.unitAddress : Family → (bank unit : ℕ) → ℕ
  | h7 _ _, bank, unit => 0x08000000 + (bank - 1) * 0x100000 + unit * 0x20000
  | g4 _ _ _, _, unit => 0x08000000 + unit * 0x800

def Family.unitSize : Family → ℕ
  | h7 _ _ => 0x20000
  | g4 _ _ _ => 0x800

/-- What one `HAL_FLASH_Program` writes: a flash word or a double word. -/
def Family.word : Family → ℕ
  | h7 _ _ => 32
  | g4 _ _ _ => 8

def Family.mpuRegions : Family → ℕ
  | h7 _ _ => 16
  | g4 _ _ _ => 8

def blockAddress (cfg : Config) (block : ℕ) : ℕ := if block = 0 then cfg.journalA else cfg.journalB

def Config.journalUnit (cfg : Config) (block : ℕ) : ℕ :=
  if block = 0 then cfg.journalUnitA else cfg.journalUnitB

def Config.inJournal (cfg : Config) (a : ℕ) : Prop :=
  ∃ block, block < 2 ∧ blockAddress cfg block ≤ a ∧ a < blockAddress cfg block + cfg.journalBlockSize

/-- The bits of `HAL_FLASH_GetError` that the drivers look at. -/
structure FlashErrors where
  wrp : Bool
  pga : Bool
  siz : Bool
  pgs : Bool
  strb : Bool
  inc : Bool

/-- What `HAL_FLASHEx_OBGetConfig` reads for a bank or an area. -/
structure OptionBytes where
  rdpLevel : ℕ
  swapBank : Bool
  wrpSector : ℕ → Bool
  wrpStartOffset : ℕ
  wrpEndOffset : ℕ

inductive HalCall where
  | getPrimask
  | disableIrq
  | setPrimask (primask : ℕ)
  | mpuDisable
  | mpuConfigRegion (number : ℕ) (region : Region)
  | mpuEnable
  | flashUnlock
  | flashClearFlags
  | flashProgram (n address : ℕ) (data : Bytes n)
  | flashErase (bank unit : ℕ)
  | flashGetError
  | flashLock
  | peek (address n : ℕ)
  | flashSize
  | obGetConfig (select : ℕ)
  | optrDbank
  | memrmpFbMode
  | rngGenerate
  | outside (c : PlatformCall)

@[reducible] def HalCall.Reply : HalCall → Type
  | getPrimask | flashSize => ℕ
  | flashUnlock | flashProgram _ _ _ | flashErase _ _ | optrDbank | memrmpFbMode => Bool
  | flashGetError => FlashErrors
  | peek _ n => Bytes n
  | obGetConfig _ => OptionBytes
  | rngGenerate => Option UInt32
  | outside c => c.Reply
  | disableIrq | setPrimask _ | mpuDisable | mpuConfigRegion _ _ | mpuEnable | flashClearFlags
  | flashLock => Unit

abbrev HalProg := Prog HalCall HalCall.Reply

/-- What no call of the program changes. -/
structure Options where
  flashSize : ℕ
  optionBytes : ℕ → OptionBytes
  dbank : Bool
  fbMode : Bool

structure Chip where
  flash : ℕ → UInt8
  primask : ℕ
  mpu : Mpu
  unlocked : Bool
  options : Options

def Chip.reset (flash : ℕ → UInt8) (options : Options) : Chip := ⟨flash, 0, .reset, false, options⟩

/-- The default memory map of the architecture for privileged code. -/
def defaultMap (a : ℕ) : Rights :=
  ⟨true, decide (a < 0x40000000 ∨ 0x60000000 ≤ a ∧ a < 0xA0000000)⟩

def Chip.rights (cfg : Config) (s : Chip) (a : ℕ) : Rights :=
  s.mpu.rights defaultMap cfg.family.mpuRegions a

def put (f : ℕ → UInt8) (address : ℕ) (data : List UInt8) : ℕ → UInt8 := fun a =>
  if address ≤ a ∧ a < address + data.length then data.getD (a - address) 0 else f a

/-- What programming `data` over `old` may leave: bits of `old`, and all those of both. -/
def Lowered (old data new : UInt8) : Prop := Raised (old &&& data) new ∧ Raised new old

def Programs (f : ℕ → UInt8) (address : ℕ) (data : List UInt8) (g : ℕ → UInt8) : Prop :=
  ∃ new : List UInt8, new.length = data.length ∧ g = put f address new ∧
    ∀ i, i < data.length → Lowered (f (address + i)) (data.getD i 0) (new.getD i 0)

/-- Erasing `n` bytes, stopped anywhere. -/
def Erases (f : ℕ → UInt8) (address n : ℕ) (g : ℕ → UInt8) : Prop :=
  (∀ a, address ≤ a → a < address + n → Raised (f a) (g a)) ∧
    ∀ a, ¬ (address ≤ a ∧ a < address + n) → g a = f a

def ErasesWhole (f : ℕ → UInt8) (address n : ℕ) (g : ℕ → UInt8) : Prop :=
  (∀ a, address ≤ a → a < address + n → g a = 255) ∧
    ∀ a, ¬ (address ≤ a ∧ a < address + n) → g a = f a

def hardware (cfg : Config) : Device HalCall HalCall.Reply Chip where
  answers
    | .getPrimask, s, r, t => r = s.primask ∧ t = s
    | .disableIrq, s, _, t => t = { s with primask := 1 }
    | .setPrimask primask, s, _, t => t = { s with primask := primask }
    | .mpuDisable, s, _, t => t = { s with mpu := s.mpu.disable }
    | .mpuConfigRegion number region, s, _, t => t = { s with mpu := s.mpu.configure number region }
    | .mpuEnable, s, _, t => t = { s with mpu := s.mpu.enable }
    | .flashUnlock, s, ok, t => ∃ unlocked, (ok = true → unlocked = true) ∧
        t = { s with unlocked := unlocked }
    | .flashProgram _ address data, s, _, t => ∃ g, Programs s.flash address data.data g ∧
        t = { s with flash := g }
    | .flashErase bank unit, s, ok, t => ∃ g, t = { s with flash := g } ∧
        if ok then ErasesWhole s.flash (cfg.family.unitAddress bank unit) cfg.family.unitSize g
        else Erases s.flash (cfg.family.unitAddress bank unit) cfg.family.unitSize g
    | .flashLock, s, _, t => t = { s with unlocked := false }
    | .peek address n, s, r, t => r = readMemory s.flash address n ∧ t = s
    | .flashSize, s, r, t => r = s.options.flashSize ∧ t = s
    | .obGetConfig select, s, r, t => r = s.options.optionBytes select ∧ t = s
    | .optrDbank, s, r, t => r = s.options.dbank ∧ t = s
    | .memrmpFbMode, s, r, t => r = s.options.fbMode ∧ t = s
    | .flashClearFlags, s, _, t | .flashGetError, s, _, t | .rngGenerate, s, _, t
    | .outside _, s, _, t => t = s
  tears
    | .flashProgram _ address data, s, t => Programs s.flash address data.data t.flash
    | .flashErase bank unit, s, t =>
      Erases s.flash (cfg.family.unitAddress bank unit) cfg.family.unitSize t.flash
    | _, s, t => t.flash = s.flash

theorem reply_exists (c : PlatformCall) : Nonempty c.Reply := by
  cases c with
  | load | random => exact ⟨none⟩
  | saveCounter | enterAtomic => exact ⟨(0 : ℕ)⟩
  | nowMs => exact ⟨(0 : UInt32)⟩
  | readRange _ n => exact ⟨.fill n 0⟩
  | leaveAtomic | ui | error | writeResponse => exact ⟨()⟩

theorem lowered_none (old data : UInt8) : Lowered old data old := by
  refine ⟨fun i hi => ?_, fun i _ => Or.inr rfl⟩
  have both : bit (old &&& data) i = (bit old i && bit data i) := by
    rw [bit, UInt8.toBitVec_and, BitVec.getLsbD_and]
    rfl
  cases here : bit old i with
  | true => exact Or.inl rfl
  | false => exact Or.inr (by rw [both, here, Bool.false_and])

theorem hardware_live (cfg : Config) (c : HalCall) (s : Chip) :
    ∃ r t, (hardware cfg).answers c s r t := by
  cases c with
  | flashUnlock => exact ⟨true, _, true, fun _ => rfl, rfl⟩
  | flashProgram n address data =>
    refine ⟨false, _, put s.flash address ((List.range n).map fun i => s.flash (address + i)),
      ⟨_, by simp, rfl, fun i hi => ?_⟩, rfl⟩
    rw [Bytes.length_data] at hi
    have same : ((List.range n).map fun i => s.flash (address + i)).getD i 0 = s.flash (address + i) := by
      simp [hi]
    rw [same]
    exact lowered_none _ _
  | flashErase bank unit =>
    exact ⟨false, _, s.flash, rfl, fun _ _ _ _ _ => Or.inr rfl, fun _ _ => rfl⟩
  | flashGetError => exact ⟨⟨false, false, false, false, false, false⟩, s, rfl⟩
  | rngGenerate => exact ⟨none, s, rfl⟩
  | outside c =>
    obtain ⟨r⟩ := reply_exists c
    exact ⟨r, s, rfl⟩
  | disableIrq | setPrimask | mpuDisable | mpuConfigRegion | mpuEnable | flashClearFlags | flashLock =>
    exact ⟨(), _, rfl⟩
  | getPrimask | peek | flashSize | obGetConfig | optrDbank | memrmpFbMode => exact ⟨_, s, rfl, rfl⟩

end SimpleAttestation.Hardware
