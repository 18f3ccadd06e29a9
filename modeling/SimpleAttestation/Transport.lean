import SimpleAttestation.Cobs
import SimpleAttestation.Platform

set_option autoImplicit false

/-!
# Typed frames on a byte stream (auth_transport.c)
-/
namespace SimpleAttestation.Transport
open ByteStrings Wire CallProgram Platform Cobs

abbrev AUTH_FRAME_MAX : ℕ := 88
def AUTH_FRAME_REQUEST : UInt8 := 1
def AUTH_FRAME_RESPONSE : UInt8 := 2
def AUTH_FRAME_DIAGNOSTIC : UInt8 := 3

abbrev RAW_MAX : ℕ := 86

def legalFrame (type : UInt8) (len : ℕ) : Bool :=
  type == AUTH_FRAME_REQUEST && len == SIMPLE_REQUEST_LEN ||
    type == AUTH_FRAME_RESPONSE && len == SIMPLE_REPORT_LEN ||
    type == AUTH_FRAME_DIAGNOSTIC && len == 1

structure EncodeState where
  out : List UInt8
  pos : ℕ
  codePos : ℕ
  code : UInt8

def encodeByte (s : EncodeState) (b : UInt8) : EncodeState :=
  if b = 0 then
    { out := s.out.set s.codePos s.code, codePos := s.pos, pos := s.pos + 1, code := 1 }
  else { s with out := s.out.set s.pos b, pos := s.pos + 1, code := s.code + 1 }

def authFrameEncode (type : UInt8) (payload out : List UInt8) : List UInt8 × ℕ :=
  if !legalFrame type payload.length || decide (out.length < payload.length + 4) then (out, 0)
  else
    let raw := type :: UInt8.ofNat payload.length :: payload
    let s := raw.foldl encodeByte ⟨out, 1, 0, 1⟩
    let out := s.out.set s.codePos s.code
    (out.set s.pos 0, s.pos + 1)

/-- Copy a block; `none` when `raw` is full. -/
def copyBlock : ℕ → List UInt8 → List UInt8 → Option (List UInt8 × List UInt8)
  | 0, encoded, raw => some (encoded, raw)
  | _ + 1, [], _ => none
  | j + 1, b :: encoded, raw =>
    if RAW_MAX ≤ raw.length then none else copyBlock j encoded (raw ++ [b])

/-- The loop of the decoder on what is left of the frame. Every iteration reads a code, so as
    many as there are bytes are enough. -/
def decodeBlocks : ℕ → List UInt8 → List UInt8 → Option (List UInt8)
  | _, [], raw => some raw
  | 0, _ :: _, _ => none
  | fuel + 1, code :: encoded, raw =>
    if code = 0 || decide (encoded.length < code.toNat - 1) then none
    else match copyBlock (code.toNat - 1) encoded raw with
      | none => none
      | some (encoded, raw) =>
        if code ≠ 255 && !encoded.isEmpty then
          if RAW_MAX ≤ raw.length then none else decodeBlocks fuel encoded (raw ++ [0])
        else decodeBlocks fuel encoded raw

def acceptsRaw (raw : List UInt8) (capacity : ℕ) : Bool :=
  !(decide (raw.length < 2) || (raw.getD 1 0).toNat != raw.length - 2 ||
    decide (capacity < raw.length - 2) || !legalFrame (raw.getD 0 0) (raw.getD 1 0).toNat)

structure AuthReceiver where
  encoded : Bytes AUTH_FRAME_MAX
  used : ℕ
  startedMs : UInt32
  discard : Bool
  used_le : used ≤ AUTH_FRAME_MAX

def AuthReceiver.zero : AuthReceiver := ⟨.fill AUTH_FRAME_MAX 0, 0, 0, false, Nat.zero_le _⟩

def AuthReceiver.push (r : AuthReceiver) (byte : UInt8) (room : r.used < AUTH_FRAME_MAX) :
    AuthReceiver :=
  { r with
    encoded := ⟨r.encoded.data.set r.used byte, by simp⟩
    used := r.used + 1
    used_le := room }

/-- What the caller's `type`, `payload` and `length` point to. -/
structure FrameOut where
  type : UInt8
  payload : List UInt8
  length : ℕ
deriving DecidableEq

def endFrame (r : AuthReceiver) (out : FrameOut) : AuthReceiver × ℤ × FrameOut :=
  let frame := r.encoded.data.take r.used
  let r := { r with used := 0, used_le := Nat.zero_le _ }
  if r.discard then ({ r with discard := false }, -1, out)
  else if frame.isEmpty then (r, 0, out)
  else match decodeBlocks frame.length frame [] with
    | none => (r, -1, out)
    | some raw =>
      if acceptsRaw raw out.payload.length then
        (r, 1, ⟨raw.getD 0 0, overwrite out.payload 0 (raw.drop 2), raw.length - 2⟩)
      else (r, -1, out)

def takeByte (r : AuthReceiver) (byte : UInt8) (nowMs : UInt32) : AuthReceiver :=
  let r := if r.used = 0 && !r.discard then { r with startedMs := nowMs } else r
  if r.discard then r
  else if room : r.used < AUTH_FRAME_MAX then r.push byte room
  else { r with discard := true }

def authFrameFeed (r : AuthReceiver) (byte : UInt8) (nowMs frameTimeoutMs : UInt32)
    (out : FrameOut) : AuthReceiver × ℤ × FrameOut :=
  if frameTimeoutMs = 0 then (r, -1, out)
  else
    let out := { out with length := 0 }
    let late := r.used ≠ 0 && authExpired nowMs r.startedMs frameTimeoutMs
    let r := { r with discard := r.discard || late }
    if byte ≠ 0 then (takeByte r byte nowMs, 0, out) else endFrame r out

structure FeedCall where
  byte : UInt8
  nowMs : UInt32
  out : FrameOut

/-- What reaches a receiver: a byte, or a UART error, on which the caller sets `discard`. -/
inductive StreamInput where
  | feed (x : FeedCall)
  | uartError

def streamStep (frameTimeoutMs : UInt32) (r : AuthReceiver) :
    StreamInput → AuthReceiver × List (ℤ × FrameOut)
  | .feed x =>
    let (r, result) := authFrameFeed r x.byte x.nowMs frameTimeoutMs x.out
    (r, [result])
  | .uartError => ({ r with discard := true }, [])

def streamRun (frameTimeoutMs : UInt32) : AuthReceiver → List StreamInput →
    AuthReceiver × List (ℤ × FrameOut)
  | r, [] => (r, [])
  | r, x :: xs =>
    let (r, first) := streamStep frameTimeoutMs r x
    let (r, rest) := streamRun frameTimeoutMs r xs
    (r, first ++ rest)

/-- What `link.read` answers: a negative value, zero, or one byte. -/
inductive ReadOutcome where
  | error | none
  | byte (b : UInt8)

inductive LinkCall where
  | write (data : List UInt8) (timeoutMs : UInt32)

@[reducible] def LinkCall.Reply : LinkCall → Type
  | write _ _ => ℤ

/-- `hasWrite` says that the link and its callback are there; `stack` is what the frame buffer
    holds behind its leading delimiter at entry. -/
def authFrameSend (hasWrite : Bool) (type : UInt8) (payload : List UInt8) (timeoutMs : UInt32)
    (stack : Bytes AUTH_FRAME_MAX) : Prog LinkCall LinkCall.Reply Bool :=
  if !hasWrite || timeoutMs == 0 then pure false
  else
    let (frame, n) := authFrameEncode type payload stack.data
    if n = 0 then pure false
    else do
      let sent ← Prog.ask (LinkCall.write ((0 :: frame).take (n + 1)) timeoutMs)
      pure (sent != 0)

end SimpleAttestation.Transport
