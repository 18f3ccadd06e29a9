import SimpleAttestation.VerifierRuns

set_option autoImplicit false

/-!
# The verifier's deadline in true time
-/
namespace SimpleAttestation.VerifierDeadline
open ByteStrings Wire Crypto CallProgram Runs TrueTime Platform VerifierSession VerifierRuns

structure TimedEvent where
  event : VerifierEvent
  times : List ℕ

def timesOf (es : List TimedEvent) : List ℕ := es.flatMap TimedEvent.times

def Accepted (v : Verifier) : Prop := v.ready = true → initAccepts v.platform v.timeoutMs = true

section
variable {tc : TinyCrypt} {v v' w w' : Verifier} {e : TimedEvent} {start last : ℕ} {timeoutMs : UInt32}

variable {op : VerifierOp} {readings : List UInt32} {r : VerifyResult}

end

end SimpleAttestation.VerifierDeadline
