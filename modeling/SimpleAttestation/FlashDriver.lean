import SimpleAttestation.Hardware

set_option autoImplicit false

/-!
# The flash driver (store.c, board.c)

The three callbacks of the journal on the hardware. Both that change the flash do so inside
`withFlash`, with interrupts masked, the journals writable and the controller unlocked.
-/
namespace SimpleAttestation.FlashDriver
open ByteStrings CallProgram Platform MemoryProtection Journal Session Store Hardware

def PRIV_RO_XN : Rights := ⟨false, false⟩
def PRIV_RW_XN : Rights := ⟨true, false⟩
def PRIV_RO_X : Rights := ⟨false, true⟩

def journalRegion (cfg : Config) (writable : Bool) (block : ℕ) : Region :=
  ⟨blockAddress cfg block, cfg.journalMpuSize, 0, if writable then PRIV_RW_XN else PRIV_RO_XN⟩

def boardFlashAccess (cfg : Config) (writable : Bool) : HalProg Unit := do
  Prog.ask HalCall.mpuDisable
  Prog.ask (HalCall.mpuConfigRegion 3 (journalRegion cfg writable 0))
  if cfg.journalSecondRegion then do
    Prog.ask (HalCall.mpuConfigRegion 4 (journalRegion cfg writable 1))
    Prog.ask HalCall.mpuEnable
  else Prog.ask HalCall.mpuEnable

def journalRead (cfg : Config) (block off : ℕ) : HalProg (Option (Bytes 32)) :=
  if 1 < block ∨ cfg.journalBlockSize - 32 < off then pure none
  else do
    let out ← Prog.ask (HalCall.peek (blockAddress cfg block + off) 32)
    pure (some out)

/-- The H7 does without. -/
def clearFlags (cfg : Config) (ok : Bool) : HalProg Unit :=
  if ok && !cfg.family.isH7 then Prog.ask HalCall.flashClearFlags else pure ()

/-- What `journal_program` and `journal_erase` have around their work. -/
def withFlash (cfg : Config) (storeError : AuthError)
    (work : Bool → AuthError → HalProg (Bool × AuthError)) : HalProg (Bool × AuthError) := do
  let saved ← Prog.ask HalCall.getPrimask
  Prog.ask HalCall.disableIrq
  boardFlashAccess cfg true
  let ok ← Prog.ask HalCall.flashUnlock
  clearFlags cfg ok
  let x ← work ok (if ok then storeError else .flashUnlock)
  Prog.ask HalCall.flashLock
  boardFlashAccess cfg false
  Prog.ask (HalCall.setPrimask saved)
  pure x

/-- `HAL_FLASH_Program` until one fails: once on the H7, four double words on the G4. -/
def programWords (cfg : Config) (address : ℕ) (bytes : Bytes 32) : ℕ → ℕ → HalProg Bool
  | 0, _ => pure true
  | words + 1, i => do
    let ok ← Prog.ask (HalCall.flashProgram cfg.family.word (address + i)
      (bytesAt cfg.family.word bytes.data i))
    if ok then programWords cfg address bytes words (i + cfg.family.word) else pure false

def programError (family : Family) (error : FlashErrors) : AuthError :=
  if error.wrp then .flashWrp
  else match family with
    | .h7 _ _ => if error.pgs || error.strb || error.inc then .flashAlignment else .flashProgram
    | .g4 _ _ _ =>
      if error.pga then .flashAlignment
      else if error.siz then .flashSizeWrite
      else if error.pgs then .flashSequence
      else .flashProgram

def classify (cfg : Config) (ok : Bool) (storeError : AuthError) : HalProg AuthError :=
  if !ok && decide (storeError = .counterSave) then do
    let error ← Prog.ask HalCall.flashGetError
    pure (programError cfg.family error)
  else pure storeError

def checkWritten (address : ℕ) (bytes : Bytes 32) (ok : Bool) (storeError : AuthError) :
    HalProg (Bool × AuthError) :=
  if ok then do
    let there ← Prog.ask (HalCall.peek address 32)
    if there ≠ bytes then pure (false, .flashVerify) else pure (true, storeError)
  else pure (false, storeError)

def journalProgram (cfg : Config) (block off : ℕ) (bytes : Bytes 32) (storeError : AuthError) :
    HalProg (Bool × AuthError) :=
  if 1 < block ∨ cfg.journalBlockSize - 32 < off ∨ off % 32 ≠ 0 then pure (false, storeError)
  else withFlash cfg storeError fun ok storeError => do
    let ok ← if ok then programWords cfg (blockAddress cfg block + off) bytes (32 / cfg.family.word) 0
      else pure false
    let storeError ← classify cfg ok storeError
    checkWritten (blockAddress cfg block + off) bytes ok storeError

def journalErase (cfg : Config) (block : ℕ) (storeError : AuthError) : HalProg (Bool × AuthError) :=
  if 1 < block then pure (false, storeError)
  else withFlash cfg storeError fun ok storeError =>
    if ok then do
      let erased ← Prog.ask (HalCall.flashErase cfg.journalBank (cfg.journalUnit block))
      if erased then pure (true, storeError)
      else do
        let error ← Prog.ask HalCall.flashGetError
        pure (false, if error.wrp then .flashWrp else .flashErase)
    else pure (false, storeError)

/-- The callbacks of the journal, with the static `store_error`. -/
def journalCallbacks (cfg : Config) : (c : FlashCall) → AuthError → HalProg (c.Reply × AuthError)
  | .read block off, storeError => do
    let out ← journalRead cfg block off
    pure (out, storeError)
  | .program block off bytes, storeError => journalProgram cfg block off bytes storeError
  | .erase block, storeError => journalErase cfg block storeError

/-- The regions `memory_protection` and `board_flash_access` set up, from reset. -/
def guarded (cfg : Config) (writable : Bool) : Mpu where
  enabled := true
  regions n :=
    if n = 0 then some ⟨0x20000000, 0x20000000, 0, PRIV_RW_XN⟩
    else if n = 1 then some ⟨0x08000000, 0x1000000, 0, PRIV_RO_XN⟩
    else if n = 2 then some ⟨0x08000000, cfg.codeMpuSize, cfg.codeMpuSubregions, PRIV_RO_X⟩
    else if n = 3 then some (journalRegion cfg writable 0)
    else if n = 4 ∧ cfg.journalSecondRegion then some (journalRegion cfg writable 1)
    else none

/-- Between two flash accesses: locked, and nothing of the flash writable. -/
structure Idle (cfg : Config) (s : Chip) : Prop where
  locked : s.unlocked = false
  closed : s.mpu = guarded cfg false

def Requested (cfg : Config) : HalCall → Chip → Prop
  | .flashProgram n address _, s => s.primask = 1 ∧ s.unlocked = true ∧ address % n = 0 ∧
      ∀ a, address ≤ a → a < address + n → cfg.inJournal a ∧ (s.rights cfg a).write = true
  | .flashErase bank unit, s => s.primask = 1 ∧ s.unlocked = true ∧
      ∀ a, cfg.family.unitAddress bank unit ≤ a →
        a < cfg.family.unitAddress bank unit + cfg.family.unitSize → cfg.inJournal a
  | _, _ => True

def Mirrors (cfg : Config) (f : Flash) (flash : ℕ → UInt8) : Prop :=
  ∀ block off, block < 2 → off < cfg.journalBlockSize → f block off = flash (blockAddress cfg block + off)

def Outside (cfg : Config) (rom flash : ℕ → UInt8) : Prop := ∀ a, ¬ cfg.inJournal a → flash a = rom a

structure Mapped (cfg : Config) : Prop where
  unit : ∀ block, block < 2 →
    cfg.family.unitAddress cfg.journalBank (cfg.journalUnit block) = blockAddress cfg block
  size : cfg.family.unitSize = cfg.journalBlockSize
  slots : cfg.journalBlockSize % 32 = 0
  room : 32 ≤ cfg.journalBlockSize
  /-- With the journals open, all of both may be written. -/
  opens : ∀ a, cfg.inJournal a →
    ((guarded cfg true).rights defaultMap cfg.family.mpuRegions a).write = true

def flashAccess (cfg : Config) (writable : Bool) (m : Mpu) : Mpu :=
  let first := m.disable.configure 3 (journalRegion cfg writable 0)
  (if cfg.journalSecondRegion then first.configure 4 (journalRegion cfg writable 1) else first).enable

theorem flashAccess_guarded (cfg : Config) (before writable : Bool) :
    flashAccess cfg writable (guarded cfg before) = guarded cfg writable := by
  ext1
  · rfl
  · funext n
    unfold flashAccess guarded Mpu.enable Mpu.configure Mpu.disable
    by_cases three : n = 3
    · subst three
      cases cfg.journalSecondRegion <;> rfl
    · by_cases four : n = 4
      · subst four
        cases cfg.journalSecondRegion <;> rfl
      · cases cfg.journalSecondRegion <;> simp [three, four]

section
variable {cfg : Config} {Kf : (ℕ → UInt8) → Prop} {α β : Type}

abbrev Drives (cfg : Config) (Kf : (ℕ → UInt8) → Prop) (p : HalProg α) (Q : α → Chip → Prop) (s : Chip) :
    Prop :=
  Safe (hardware cfg) (Requested cfg) (fun t => Kf t.flash) p Q s

theorem drives_set {c : HalCall} {k : c.Reply → HalProg α} {Q : α → Chip → Prop} {s : Chip} (t : Chip)
    (here : Kf s.flash) (free : Requested cfg c s)
    (calm : ∀ u, (hardware cfg).tears c s u → u.flash = s.flash)
    (moves : ∀ r u, (hardware cfg).answers c s r u → u = t) (rest : ∀ r, Drives cfg Kf (k r) Q t) :
    Drives cfg Kf (.call c k) Q s := by
  refine ⟨here, free, fun u torn => ?_, fun r u answered => ?_⟩
  · change Kf u.flash
    rw [calm u torn]
    exact here
  · obtain rfl := moves r u answered
    exact rest r

theorem drives_flashAccess (writable : Bool) {k : Unit → HalProg α} {Q : α → Chip → Prop} {s : Chip}
    (here : Kf s.flash)
    (rest : Drives cfg Kf (k ()) Q { s with mpu := flashAccess cfg writable s.mpu }) :
    Drives cfg Kf (boardFlashAccess cfg writable >>= k) Q s := by
  unfold boardFlashAccess
  refine drives_set _ here trivial (fun _ h => h) (fun _ _ h => h) fun _ => ?_
  refine drives_set _ here trivial (fun _ h => h) (fun _ _ h => h) fun _ => ?_
  unfold flashAccess at rest
  cases second : cfg.journalSecondRegion with
  | true =>
    rw [second] at rest
    refine drives_set _ here trivial (fun _ h => h) (fun _ _ h => h) fun _ => ?_
    exact drives_set _ here trivial (fun _ h => h) (fun _ _ h => h) fun _ => rest
  | false =>
    rw [second] at rest
    exact drives_set _ here trivial (fun _ h => h) (fun _ _ h => h) fun _ => rest

def opened (cfg : Config) (s : Chip) (unlocked : Bool) (flash : ℕ → UInt8) : Chip :=
  ⟨flash, 1, guarded cfg true, unlocked, s.options⟩

theorem drives_withFlash {work : Bool → AuthError → HalProg (Bool × AuthError)} {e : AuthError}
    {P : Bool × AuthError → (ℕ → UInt8) → Prop} {s : Chip} (idle : Idle cfg s) (here : Kf s.flash)
    (hwork : ∀ ok unlocked, (ok = true → unlocked = true) →
      Drives cfg Kf (work ok (if ok then e else .flashUnlock))
        (fun x t => ∃ f, t = opened cfg s unlocked f ∧ P x f) (opened cfg s unlocked s.flash)) :
    Drives cfg Kf (withFlash cfg e work) (fun x t => ∃ f, t = { s with flash := f } ∧ P x f) s := by
  unfold withFlash
  refine ⟨here, trivial, fun u torn => ?_, ?_⟩
  · change Kf u.flash
    rw [show u.flash = s.flash from torn]
    exact here
  rintro saved u ⟨rfl, rfl⟩
  refine drives_set _ here trivial (fun _ h => h) (fun _ _ h => h) fun _ => ?_
  refine drives_flashAccess true here ?_
  have access : flashAccess cfg true u.mpu = guarded cfg true := by
    rw [idle.closed, flashAccess_guarded]
  refine ⟨here, trivial, fun v torn => ?_, ?_⟩
  · change Kf v.flash
    rw [show v.flash = u.flash from torn]
    exact here
  rintro ok v ⟨unlocked, opens, rfl⟩
  have close : ∀ x f, Kf f → P x f → Drives cfg Kf (do
      Prog.ask HalCall.flashLock
      boardFlashAccess cfg false
      Prog.ask (HalCall.setPrimask u.primask)
      pure x) (fun x t => ∃ f, t = { u with flash := f } ∧ P x f) (opened cfg u unlocked f) := by
    intro x f crash hP
    refine drives_set _ crash trivial (fun _ h => h) (fun _ _ h => h) fun _ => ?_
    refine drives_flashAccess false crash ?_
    refine drives_set _ crash trivial (fun _ h => h) (fun _ _ h => h) fun _ => ?_
    refine ⟨crash, f, ?_, hP⟩
    rw [opened, flashAccess_guarded, ← idle.closed, ← idle.locked]
  have rest : Drives cfg Kf (do
      let x ← work ok (if ok then e else .flashUnlock)
      Prog.ask HalCall.flashLock
      boardFlashAccess cfg false
      Prog.ask (HalCall.setPrimask u.primask)
      pure x) (fun x t => ∃ f, t = { u with flash := f } ∧ P x f) (opened cfg u unlocked u.flash) := by
    refine safe_then (hwork ok unlocked opens) ?_
    rintro x t ⟨f, rfl, hP⟩ crash
    exact close x f crash hP
  change Drives cfg Kf (clearFlags cfg ok >>= fun _ => _) _ ⟨u.flash, 1, flashAccess cfg true u.mpu, unlocked, u.options⟩
  rw [access]
  unfold clearFlags
  split
  · exact drives_set _ here trivial (fun _ h => h) (fun _ _ h => h) fun _ => rest
  · exact rest
end

end SimpleAttestation.FlashDriver
