import SimpleAttestation.CallProgram
import SimpleAttestation.Crypto
import SimpleAttestation.TrueTime
import Mathlib.Data.Int.Notation

set_option autoImplicit false

/-!
# The platform callbacks (auth_platform.h)

Every callback is a call of the program, so its outcome is whatever the platform
answers. Two memory effects are calls as well: reading a measured range and
storing into the response buffer.
-/
namespace SimpleAttestation.Platform
open ByteStrings CallProgram TrueTime

inductive AuthPhase where
  | ready | request | measuring | pass | mismatch | rejected | timeout | error
deriving DecidableEq

inductive AuthError where
  | none | clock | uartInit | rng | lcd | provisioning | journal | uartRx | frame | frameType
  | requestLength | staleCounter | requestAuth | counterSave | measurement | response | challenge
  | uartTx | internal | flashSize | bankMapping | rdp | codeWrp | keyWrp | flashUnlock | flashWrp
  | flashAlignment | flashProgram | flashVerify | flashErase | flashSizeWrite | flashSequence
deriving DecidableEq

/-- The enumerators skip 5. -/
def AuthError.code : AuthError → ℕ
  | none => 0 | clock => 1 | uartInit => 2 | rng => 3 | lcd => 4 | provisioning => 6
  | journal => 7 | uartRx => 8 | frame => 9 | frameType => 10 | requestLength => 11
  | staleCounter => 12 | requestAuth => 13 | counterSave => 14 | measurement => 15
  | response => 16 | challenge => 17 | uartTx => 18 | internal => 19 | flashSize => 20
  | bankMapping => 21 | rdp => 22 | codeWrp => 23 | keyWrp => 24 | flashUnlock => 25
  | flashWrp => 26 | flashAlignment => 27 | flashProgram => 28 | flashVerify => 29
  | flashErase => 30 | flashSizeWrite => 31 | flashSequence => 32

structure AuthMaterial where
  kAuth : Bytes 32
  kAttest : Bytes 32
  referenceVs : Bytes 32
  counter : UInt32
deriving DecidableEq

def AuthMaterial.zero : AuthMaterial := ⟨.fill 32 0, .fill 32 0, .fill 32 0, 0⟩

/-- Which callback pointers are set. -/
structure AuthPlatform where
  load : Bool
  saveCounter : Bool
  random : Bool
  nowMs : Bool
  enterAtomic : Bool
  leaveAtomic : Bool
  ui : Bool
  error : Bool
deriving DecidableEq

def allCallbacks : AuthPlatform := ⟨true, true, true, true, true, true, true, true⟩

inductive PlatformCall where
  | load
  | saveCounter (counter : UInt32)
  | random (len : ℕ)
  | nowMs
  | enterAtomic
  | leaveAtomic (previous : ℕ)
  | ui (phase : AuthPhase)
  | error (code : ℕ)
  | readRange (start length : ℕ)
  | writeResponse (bytes : List UInt8)

/-- `load` and `random` answer `none` for their zero return. -/
@[reducible] def PlatformCall.Reply : PlatformCall → Type
  | load => Option AuthMaterial
  | saveCounter _ => ℤ
  | random len => Option (Bytes len)
  | nowMs => UInt32
  | enterAtomic => ℕ
  | leaveAtomic _ | ui _ | error _ | writeResponse _ => Unit
  | readRange _ length => Bytes length

abbrev PlatformProg := Prog PlatformCall PlatformCall.Reply

def authExpired (now start duration : UInt32) : Bool := decide (duration ≤ now - start)

theorem authExpired_ofNat (start now : ℕ) (duration : UInt32) :
    authExpired (.ofNat now) (.ofNat start) duration = true ↔
      duration.toNat ≤ elapsed 4294967296 start now := by
  rw [authExpired, decide_eq_true_eq, UInt32.le_iff_toNat_le, UInt32.toNat_sub, UInt32.toNat_ofNat',
    UInt32.toNat_ofNat']
  rfl

def authUi (p : AuthPlatform) (phase : AuthPhase) : PlatformProg Unit :=
  if p.ui then Prog.ask (PlatformCall.ui phase) else pure ()

def authError (p : AuthPlatform) (code : ℕ) : PlatformProg Unit :=
  if p.error then Prog.ask (PlatformCall.error code) else authUi p .error

def authLoaded (p : AuthPlatform) (ready : Bool) : PlatformProg Unit :=
  if ready then authUi p .ready else if !p.error then authUi p .error else pure ()

/-- What a refused commit is reported as: a negative answer is itself an error code. -/
def saveError (saved : ℤ) : ℕ :=
  if saved < 0 then (-saved).toNat else AuthError.counterSave.code

/-- All calls but the clock and the two that touch what a party keeps over a reset. -/
def PlatformCall.quiet : PlatformCall → Bool
  | load | saveCounter _ | nowMs => false
  | _ => true

section
variable {σ : Type} {dev : Device PlatformCall PlatformCall.Reply σ}
  {G : PlatformCall → σ → Prop} {K : σ → Prop}

def Quiet (dev : Device PlatformCall PlatformCall.Reply σ) : Prop :=
  ∀ c s, c.quiet = true → (∀ t, dev.tears c s t → t = s) ∧ ∀ r t, dev.answers c s r t → t = s

theorem safe_quiet {α : Type} (c : PlatformCall) (hc : c.quiet = true)
    (f : c.Reply → PlatformProg α) (Q : α → σ → Prop) (s : σ) (hq : Quiet dev) (hK : K s)
    (hG : G c s) (hf : ∀ r, dev.answers c s r s → Safe dev G K (f r) Q s) :
    Safe dev G K (Prog.ask c >>= f) Q s := by
  obtain ⟨torn, answered⟩ := hq c s hc
  refine ⟨hK, hG, fun t ht => torn t ht ▸ hK, ?_⟩
  intro r t hr
  obtain rfl := answered r t hr
  exact hf r hr

variable {α : Type} {Q : α → σ → Prop} {s : σ}

theorem safe_authUi (p : AuthPlatform) (phase : AuthPhase) (f : Unit → PlatformProg α)
    (hq : Quiet dev) (hG : ∀ c, c.quiet = true → G c s) (h : Safe dev G K (f ()) Q s) :
    Safe dev G K (authUi p phase >>= f) Q s := by
  unfold authUi
  split
  · exact safe_quiet _ rfl _ Q s hq (safe_here _ _ _ h) (hG _ rfl) (fun _ _ => h)
  · exact h

theorem safe_authError (p : AuthPlatform) (code : ℕ) (f : Unit → PlatformProg α)
    (hq : Quiet dev) (hG : ∀ c, c.quiet = true → G c s) (h : Safe dev G K (f ()) Q s) :
    Safe dev G K (authError p code >>= f) Q s := by
  unfold authError
  split
  · exact safe_quiet _ rfl _ Q s hq (safe_here _ _ _ h) (hG _ rfl) (fun _ _ => h)
  · exact safe_authUi p .error f hq hG h

theorem safe_authLoaded (p : AuthPlatform) (ready : Bool) (f : Unit → PlatformProg α)
    (hq : Quiet dev) (hG : ∀ c, c.quiet = true → G c s) (h : Safe dev G K (f ()) Q s) :
    Safe dev G K (authLoaded p ready >>= f) Q s := by
  unfold authLoaded
  split
  · exact safe_authUi p .ready f hq hG h
  · split
    · exact safe_authUi p .error f hq hG h
    · exact h

end

end SimpleAttestation.Platform
