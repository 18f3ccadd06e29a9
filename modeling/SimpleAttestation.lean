import SimpleAttestation.ChallengeSpec
import SimpleAttestation.FrameBounds
import SimpleAttestation.FrameDeadline
import SimpleAttestation.HexRoundTrip
import SimpleAttestation.JournalGrammar
import SimpleAttestation.JournalRegister
import SimpleAttestation.MacInputs
import SimpleAttestation.ProverLoop
import SimpleAttestation.ProverRuns
import SimpleAttestation.ProvisionFiles
import SimpleAttestation.Synchrony
import SimpleAttestation.VerifierCounters
import SimpleAttestation.VerifierDeadline
import SimpleAttestation.VerifierLoop
import SimpleAttestation.AttestationSoundness
import SimpleAttestation.ProverWear
import SimpleAttestation.LineDelivery
import SimpleAttestation.ProverScreen
