import SimpleAttestation.JournalCrash
import SimpleAttestation.Platform

set_option autoImplicit false

/-!
# The protected store of a board (store.c) and the flash it runs on
-/
namespace SimpleAttestation.Store
open ByteStrings Wire Crypto CallProgram Platform Journal JournalLoad JournalSave JournalCrash

/-- The constants of a board's configuration that the store and the measurement use. -/
structure Board where
  roleId : UInt32
  measureStart : ℕ
  measureLength : ℕ
  keyAddress : ℕ
  journalA : ℕ
  journalB : ℕ
  journalBlockSize : ℕ
deriving DecidableEq

/-- The stm32h743vit6 instance, the prover. -/
def h743 : Board := ⟨1, 0x08000000, 0x20000, 0x081A0000, 0x081C0000, 0x081E0000, 0x20000⟩

/-- The stm32g431cbu6 instance, the verifier. -/
def g431 : Board := ⟨2, 0x08000000, 0x20000, 0x0801F800, 0x0801C000, 0x0801C800, 0x800⟩

/-- The journal's callbacks, the option bytes `protection_valid` inspects, the static
    `store_error` as the failed callback left it, and the other platform callbacks. -/
inductive BoardCall where
  | flash (c : FlashCall)
  | protectionValid
  | storeError
  | platform (c : PlatformCall)

@[reducible] def BoardCall.Reply : BoardCall → Type
  | flash c => c.Reply
  | protectionValid => Bool
  | storeError => ℕ
  | platform c => c.Reply

abbrev BoardProg := Prog BoardCall BoardCall.Reply

def onFlash {α : Type} : FlashProg α → BoardProg α
  | .done a => .done a
  | .call c k => .call (.flash c) fun r => onFlash (k r)

def magic : List UInt8 := [0x53, 0x49, 0x4D, 0x50, 0x4C, 0x45, 0x30, 0x31]

/-- The checks on the provisioning record `p`, the bytes at `AUTH_KEY_ADDRESS`. -/
def recordValid (tc : TinyCrypt) (board : Board) (p : List UInt8) : Bool :=
  p.take 8 == magic && simpleGetU32 (p.drop 8) == 1 && simpleGetU32 (p.drop 12) == board.roleId &&
    simpleGetU32 (p.drop 112) == UInt32.ofNat board.measureStart &&
    simpleGetU32 (p.drop 116) == UInt32.ofNat board.measureLength &&
    simpleGetU32 (p.drop 120) != 0 &&
    match cryptoSha256 tc (p.take 124) with
    | none => false
    | some digest => simpleCtCompare digest.data (p.drop 124) 32

def materialOf (p : List UInt8) (counter : UInt32) : AuthMaterial :=
  ⟨bytesAt 32 p 16, bytesAt 32 p 48, bytesAt 32 p 80, counter⟩

def journalOf (board : Board) (p : List UInt8) : AuthJournal :=
  { AuthJournal.zero with
    blockSize := board.journalBlockSize, callbacks := true, key := bytesAt 32 p 16 }

def initialOf (p : List UInt8) : UInt32 := simpleGetU32 (p.drop 120)

def boardStoreLoad (tc : TinyCrypt) (board : Board) (p : List UInt8) (journal : AuthJournal) :
    BoardProg (Option AuthMaterial × AuthJournal) := do
  let valid ← Prog.ask BoardCall.protectionValid
  if !valid then pure (none, journal)
  else if !recordValid tc board p then do
    Prog.ask (BoardCall.platform (.error AuthError.provisioning.code))
    pure (none, journal)
  else do
    let (journal, loaded) ← onFlash (authJournalLoad tc (journalOf board p) (initialOf p))
    if !loaded then do
      Prog.ask (BoardCall.platform (.error AuthError.journal.code))
      pure (none, .zero)
    else pure (some (materialOf p journal.counter), journal)

def boardStoreSave (tc : TinyCrypt) (journal : AuthJournal) (counter : UInt32) :
    BoardProg (ℤ × AuthJournal) := do
  let (journal, ok) ← onFlash (authJournalSave tc journal counter)
  if ok then pure (1, journal)
  else do
    let storeError ← Prog.ask BoardCall.storeError
    pure (-(storeError : ℤ), journal)

/-- The platform of a board: `load` and `save_counter` are the store's. -/
def boardPlatform (tc : TinyCrypt) (board : Board) (p : List UInt8) :
    (c : PlatformCall) → AuthJournal → BoardProg (c.Reply × AuthJournal)
  | .load, j => boardStoreLoad tc board p j
  | .saveCounter c, j => boardStoreSave tc j c
  | .random n, j => Prog.ask (BoardCall.platform (.random n)) >>= fun r => pure (r, j)
  | .nowMs, j => Prog.ask (BoardCall.platform .nowMs) >>= fun r => pure (r, j)
  | .enterAtomic, j => Prog.ask (BoardCall.platform .enterAtomic) >>= fun r => pure (r, j)
  | .leaveAtomic n, j => Prog.ask (BoardCall.platform (.leaveAtomic n)) >>= fun r => pure (r, j)
  | .ui phase, j => Prog.ask (BoardCall.platform (.ui phase)) >>= fun r => pure (r, j)
  | .error code, j => Prog.ask (BoardCall.platform (.error code)) >>= fun r => pure (r, j)
  | .readRange a n, j => Prog.ask (BoardCall.platform (.readRange a n)) >>= fun r => pure (r, j)
  | .writeResponse b, j => Prog.ask (BoardCall.platform (.writeResponse b)) >>= fun r => pure (r, j)

/-- Only the flash has a state; every other call may answer anything. -/
def boardDevice (blockSize : ℕ) : Device BoardCall BoardCall.Reply Flash where
  answers
    | .flash c, s, r, t => (flashDevice blockSize (bitTear blockSize)).answers c s r t
    | .protectionValid, s, _, t => t = s
    | .storeError, s, _, t => t = s
    | .platform _, s, _, t => t = s
  tears
    | .flash c, s, t => bitTear blockSize c s t
    | _, s, t => t = s

/-- What a party may rely on: a positive commit is durable, any other leaves the old value
    or the new one, and a load finds it. `base` is the provisioned material. -/
def registerDevice (base : AuthMaterial) : Device PlatformCall PlatformCall.Reply UInt32 where
  answers
    | .load, s, r, t => t = s ∧ (r = none ∨ r = some { base with counter := s })
    | .saveCounter c, s, r, t => (0 < r → t = c) ∧ (t = s ∨ t = c)
    | _, s, _, t => t = s
  tears
    | .saveCounter c, s, t => t = s ∨ t = c
    | _, s, t => t = s

theorem registerDevice_quiet (base : AuthMaterial) : Quiet (registerDevice base) := by
  intro c s hc
  cases c with
  | load | saveCounter _ | nowMs => cases hc
  | _ => exact ⟨fun _ h => h, fun _ _ h => h⟩

end SimpleAttestation.Store
