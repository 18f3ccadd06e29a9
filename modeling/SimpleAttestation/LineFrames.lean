import SimpleAttestation.TransportStream
import SimpleAttestation.UartLink

set_option autoImplicit false

/-!
# The frames on a line

What the loop delivers is a sublist of the frames on its line, and what the sender puts on
the line holds no frames but its own.
-/
namespace SimpleAttestation.LineFrames
open ByteStrings Wire CallProgram Runs Cobs Transport TransportFrames TransportStream UartLink

/-- A type and a payload. -/
abbrev Frame := UInt8 × List UInt8

/-- The segments that a zero byte ends; `current` is what the first already has. -/
def segments : List UInt8 → List UInt8 → List (List UInt8)
  | _, [] => []
  | current, b :: rest => if b = 0 then current :: segments [] rest else segments (current ++ [b]) rest

def frameOf (segment : List UInt8) : Option Frame :=
  match decodeBlocks segment.length segment [] with
  | none => none
  | some raw =>
    if acceptsRaw raw SIMPLE_REQUEST_LEN then some (raw.getD 0 0, raw.drop 2) else none

def framesOn (line : List UInt8) : List Frame := (segments [] line).filterMap frameOf

def Closed (line : List UInt8) : Prop := line = [] ∨ ∃ before, line = before ++ [0]

section
variable {line more w current : List UInt8}

theorem segments_nonzero (nonzero : ∀ b ∈ w, b ≠ 0) :
    segments current (w ++ more) = segments (current ++ w) more := by
  induction w generalizing current with
  | nil => rw [List.nil_append, List.append_nil]
  | cons b w ih =>
    obtain ⟨first, rest⟩ := List.forall_mem_cons.mp nonzero
    rw [List.cons_append, segments, if_neg first, ih rest, List.append_assoc]
    rfl

theorem segments_zero : segments current (line ++ 0 :: more) =
    segments current (line ++ [0]) ++ segments [] more := by
  induction line generalizing current with
  | nil => rfl
  | cons b line ih =>
    simp only [List.cons_append, segments]
    split
    · rw [ih]
      rfl
    · exact ih

theorem framesOn_closed (closed : Closed line) : framesOn (line ++ more) = framesOn line ++ framesOn more := by
  rcases closed with rfl | ⟨before, rfl⟩
  · rfl
  · rw [framesOn, List.append_assoc, List.singleton_append, segments_zero, List.filterMap_append]
    rfl

theorem framesOn_segment (nonzero : ∀ b ∈ w, b ≠ 0) : framesOn (w ++ [0]) = (frameOf w).toList := by
  rw [framesOn, segments_nonzero nonzero]
  cases h : frameOf w <;> simp [segments, h]

theorem framesOn_open (nonzero : ∀ b ∈ w, b ≠ 0) : framesOn w = [] := by
  have none_ : segments [] (w ++ []) = segments ([] ++ w) [] := segments_nonzero nonzero
  rw [List.append_nil] at none_
  rw [framesOn, none_]
  rfl

theorem frameOf_stuff {type : UInt8} {payload : List UInt8} (legal : legalFrame type payload.length = true) :
    frameOf (stuff (rawFrame type payload)) = some (type, payload) := by
  have small := legal_length legal
  have len : (rawFrame type payload).length = payload.length + 2 := rfl
  have fits : ([] : List UInt8).length + (rawFrame type payload).length ≤ 86 := by
    rw [List.length_nil]
    omega
  have accepted : acceptsRaw (rawFrame type payload) SIMPLE_REQUEST_LEN = true :=
    accepts_iff.mpr ⟨type, payload, rfl, legal, small⟩
  rw [frameOf, decode_complete _ _ [] (by rw [length_stuff]; omega) fits]
  simp only [List.nil_append, accepted, if_true]
  rfl

theorem frameOf_some {f : Frame} (nonzero : ∀ b ∈ w, b ≠ 0) (short : w.length ≤ 254)
    (h : frameOf w = some f) : legalFrame f.1 f.2.length = true ∧ w = stuff (rawFrame f.1 f.2) := by
  unfold frameOf at h
  cases decoded : decodeBlocks w.length w [] with
  | none =>
    rw [decoded] at h
    cases h
  | some raw =>
    rw [decoded] at h
    dsimp only at h
    split at h
    · rename_i accepted
      obtain ⟨type, payload, rfl, legal, -⟩ := accepts_iff.mp accepted
      have some_ : w ≠ [] := by
        rintro rfl
        cases decoded
      obtain ⟨raw, same, stuffed⟩ := decode_sound _ [] some_ nonzero short (by simp) decoded
      obtain rfl : rawFrame type payload = raw := same
      cases Option.some.inj h
      exact ⟨legal, stuffed.symm⟩
    · cases h

end

/-- What a call of `auth_frame_feed` delivers. -/
def delivered (result : ℤ × FrameOut) : Option Frame :=
  if 0 < result.1 then some (result.2.type, result.2.payload.take result.2.length) else none

def Keeping (r : AuthReceiver) (w : List UInt8) : Prop :=
  r.discard = false → r.encoded.data.take r.used = w ∧ ∀ b ∈ w, b ≠ 0

section
variable {timeout now : UInt32} {r : AuthReceiver} {w : List UInt8} {b : UInt8} {out : FrameOut}

theorem result_delivered (room : out.payload.length = SIMPLE_REQUEST_LEN) :
    delivered (frameResult w false out) = frameOf w ∧ delivered (frameResult w true out) = none := by
  refine ⟨?_, rfl⟩
  unfold frameResult frameOf
  cases w with
  | nil => rfl
  | cons c w =>
    simp only [List.isEmpty_cons, Bool.false_eq_true, if_false]
    cases decodeBlocks (c :: w).length (c :: w) [] with
    | none => rfl
    | some raw =>
      dsimp only
      rw [room]
      split
      · have whole : (overwrite out.payload 0 (raw.drop 2)).take (raw.length - 2) = raw.drop 2 := by
          rw [overwrite, List.take_zero, List.nil_append, ← List.length_drop, List.take_left]
        simp [delivered, whole]
      · rfl

theorem keeping_expire (h : Keeping r w) : Keeping (expire r now timeout) w := by
  intro open_
  have still : r.discard = false := by
    rw [expire, Bool.or_eq_false_iff] at open_
    exact open_.1
  exact h still

theorem keeping_take (h : Keeping r w) (nonzero : b ≠ 0) : Keeping (takeByte r b now) (w ++ [b]) := by
  intro open_
  have still : r.discard = false := by
    cases gone : r.discard with
    | false => rfl
    | true =>
      rw [takeByte, gone] at open_
      simp [gone] at open_
  obtain ⟨held, others⟩ := h still
  refine ⟨?_, List.forall_mem_append.mpr ⟨others, List.forall_mem_singleton.mpr nonzero⟩⟩
  rw [takeByte_open still] at open_ ⊢
  dsimp only at open_ ⊢
  split at open_
  · rename_i room
    rw [dif_pos room]
    exact (take_push room).trans (congrArg (· ++ [b]) held)
  · cases open_

theorem feed_nonzero (positive : timeout ≠ 0) (h : Keeping r w) (nonzero : b ≠ 0) :
    delivered (authFrameFeed r b now timeout out).2 = none ∧
      Keeping (authFrameFeed r b now timeout out).1 (w ++ [b]) := by
  rw [feed_eq positive, if_pos nonzero]
  exact ⟨rfl, keeping_take (keeping_expire h) nonzero⟩

theorem feed_end (positive : timeout ≠ 0) (room : out.payload.length = SIMPLE_REQUEST_LEN) (h : Keeping r w) :
    (delivered (authFrameFeed r 0 now timeout out).2 = none ∨ (∀ b ∈ w, b ≠ 0) ∧
      delivered (authFrameFeed r 0 now timeout out).2 = frameOf w) ∧
    Keeping (authFrameFeed r 0 now timeout out).1 [] := by
  have kept := @keeping_expire timeout now r w h
  have cleared : ({ out with length := 0 } : FrameOut).payload.length = SIMPLE_REQUEST_LEN := room
  obtain ⟨used, -⟩ := @feed_delimiter r timeout positive now out
  refine ⟨?_, fun _ => ⟨by rw [used, List.take_zero], by simp⟩⟩
  rw [feed_eq positive, if_neg (by simp), endFrame_eq]
  dsimp only
  cases gone : (expire r now timeout).discard with
  | true => exact Or.inl (result_delivered cleared).2
  | false =>
    obtain ⟨held, nonzero⟩ := kept gone
    rw [held]
    exact Or.inr ⟨nonzero, (result_delivered cleared).1⟩

end

inductive LinkStep (timeout : UInt32) : AuthReceiver × Usart → Option Frame → AuthReceiver × Usart → Prop where
  | failed {r : AuthReceiver} {s t : Usart} (h : Exec uartDevice linkRead s .error t) :
      LinkStep timeout (r, s) none ({ r with discard := true }, t)
  | idle {r : AuthReceiver} {s t : Usart} (h : Exec uartDevice linkRead s .none t) :
      LinkStep timeout (r, s) none (r, t)
  | fed {r : AuthReceiver} {s t : Usart} {b : UInt8} (h : Exec uartDevice linkRead s (.byte b) t) (now : UInt32)
      (out : FrameOut) (room : out.payload.length = SIMPLE_REQUEST_LEN) :
      LinkStep timeout (r, s) (delivered (authFrameFeed r b now timeout out).2)
        ((authFrameFeed r b now timeout out).1, t)

/-- The line is whole frames, of which `frames` were delivered, and what the receiver is in. -/
def Linked (frames : List Frame) (x : AuthReceiver × Usart) : Prop :=
  ∃ whole w, Taken (whole ++ w) x.2 ∧ Closed whole ∧ frames.Sublist (framesOn whole) ∧ Keeping x.1 w

section
variable {timeout : UInt32} {frames : List Frame} {x y : AuthReceiver × Usart} {e : Option Frame}

theorem linked_step (positive : timeout ≠ 0) (h : Linked frames x) (step : LinkStep timeout x e y) :
    Linked (frames ++ e.toList) y := by
  obtain ⟨whole, w, taken, closed, sub, keeping⟩ := h
  cases step with
  | failed read =>
    obtain ⟨more, taken'⟩ := linkRead_takes taken read
    refine ⟨whole, w ++ more, ?_, closed, ?_, nofun⟩
    · rw [← List.append_assoc]
      exact taken'
    · rw [Option.toList_none, List.append_nil]
      exact sub
  | idle read =>
    refine ⟨whole, w, linkRead_takes taken read, closed, ?_, keeping⟩
    rw [Option.toList_none, List.append_nil]
    exact sub
  | @fed r s t b read now out room =>
    have taken' : Taken (whole ++ w ++ [b]) t := linkRead_takes taken read
    rw [List.append_assoc] at taken'
    by_cases zero : b = 0
    · subst zero
      obtain ⟨result, empty⟩ := @feed_end timeout now r w out positive room keeping
      refine ⟨whole ++ (w ++ [0]), [], by rw [List.append_nil]; exact taken', Or.inr ⟨whole ++ w, by simp⟩, ?_,
        empty⟩
      rw [framesOn_closed closed]
      rcases result with none_ | ⟨nonzero, some_⟩
      · rw [none_, Option.toList_none, List.append_nil]
        exact sub.trans (List.sublist_append_left _ _)
      · rw [some_, framesOn_segment nonzero]
        exact sub.append (List.Sublist.refl _)
    · obtain ⟨none_, keeping'⟩ := @feed_nonzero timeout now r w b out positive keeping zero
      refine ⟨whole, w ++ [b], taken', closed, ?_, keeping'⟩
      rw [none_, Option.toList_none, List.append_nil]
      exact sub

end

def UINT16_MAX : ℕ := 65535

/-- `HAL_UART_Transmit`; the answer is whether it returned `HAL_OK`. -/
inductive TransmitCall where
  | uartTransmit (data : List UInt8) (timeoutMs : UInt32)

@[reducible] def TransmitCall.Reply : TransmitCall → Type
  | uartTransmit _ _ => Bool

abbrev TransmitProg := Prog TransmitCall TransmitCall.Reply

def linkWrite (data : List UInt8) (timeoutMs : UInt32) : TransmitProg ℤ :=
  if data.length ≤ UINT16_MAX then do
    let ok ← Prog.ask (TransmitCall.uartTransmit data timeoutMs)
    pure (if ok then 1 else 0)
  else pure 0

def linkCallbacks : (c : LinkCall) → Unit → TransmitProg (c.Reply × Unit)
  | .write data timeoutMs, _ => do
    let sent ← linkWrite data timeoutMs
    pure (sent, ())

/-- A transmission that fails has put some first part on the line. -/
def transmitter : Device TransmitCall TransmitCall.Reply (List UInt8) where
  answers
    | .uartTransmit data _, line, ok, line' =>
      ∃ sent, sent <+: data ∧ line' = line ++ sent ∧ (ok = true → sent = data)
  tears _ _ _ := False

/-- What `board_fatal` sends again and again. -/
def fatalFrame (code : UInt8) : List UInt8 := [0, 4, AUTH_FRAME_DIAGNOSTIC, 1, code, 0]

/-- `auth_frame_send`, or `board_fatal` on a board without a display. -/
inductive SendStep : List UInt8 → Frame → List UInt8 → Prop where
  | send {line line' : List UInt8} {type : UInt8} {payload : List UInt8} {ok : Bool} (timeoutMs : UInt32)
      (stack : Bytes AUTH_FRAME_MAX) (h : Exec transmitter
        ((authFrameSend true type payload timeoutMs stack).interp linkCallbacks ()) line (ok, ()) line') :
      SendStep line (type, payload) line'
  | fatal {line line' : List UInt8} {code : UInt8} {ok : Bool} (some_ : code ≠ 0)
      (h : Exec transmitter (Prog.ask (TransmitCall.uartTransmit (fatalFrame code) 100)) line ok line') :
      SendStep line (AUTH_FRAME_DIAGNOSTIC, [code]) line'

def wireOf (f : Frame) : List UInt8 := 0 :: (stuff (rawFrame f.1 f.2) ++ [0])

section
variable {line line' w : List UInt8} {f : Frame} {frames : List Frame}

theorem fatal_wire {code : UInt8} (some_ : code ≠ 0) :
    fatalFrame code = wireOf (AUTH_FRAME_DIAGNOSTIC, [code]) := by
  have nonzero : ∀ b ∈ rawFrame AUTH_FRAME_DIAGNOSTIC [code], b ≠ 0 := by
    simp [rawFrame, AUTH_FRAME_DIAGNOSTIC, some_]
  rw [wireOf, stuff_block nonzero]
  rfl

theorem send_puts (step : SendStep line f line') : ∃ sent, line' = line ++ sent ∧
    (sent = [] ∨ legalFrame f.1 f.2.length = true ∧ sent <+: wireOf f) := by
  cases step with
  | @fatal _ code ok some_ h =>
    obtain ⟨_, _, ⟨sent, part, rfl, -⟩, -, rfl⟩ := h
    rw [fatal_wire some_] at part
    exact ⟨sent, rfl, Or.inr ⟨(by decide : legalFrame AUTH_FRAME_DIAGNOSTIC 1 = true), part⟩⟩
  | @send _ type payload ok timeoutMs stack h =>
    by_cases legal : legalFrame type payload.length = true
    · by_cases positive : timeoutMs = 0
      · have nothing : authFrameSend true type payload timeoutMs stack = pure false := by
          rw [authFrameSend, positive]
          rfl
        rw [nothing] at h
        exact ⟨[], by rw [List.append_nil]; exact h.2, Or.inl rfl⟩
      · have small := legal_length legal
        have size : (wireOf (type, payload)).length ≤ UINT16_MAX := by
          simp [wireOf, rawFrame, length_stuff, UINT16_MAX]
          omega
        rw [send_eq stack legal positive] at h
        change Exec transmitter ((linkWrite (wireOf (type, payload)) timeoutMs >>= fun sent => pure (sent, ())) >>=
          fun x => pure (x.1 != 0, x.2)) line _ _ at h
        rw [linkWrite, if_pos size] at h
        obtain ⟨_, _, ⟨sent, part, rfl, -⟩, -, rfl⟩ := h
        exact ⟨sent, rfl, Or.inr ⟨legal, part⟩⟩
    · have nothing : authFrameSend true type payload timeoutMs stack = pure false := by
        rw [Bool.not_eq_true] at legal
        simp [authFrameSend, authFrameEncode, legal]
      rw [nothing] at h
      exact ⟨[], by rw [List.append_nil]; exact h.2, Or.inl rfl⟩

theorem send_whole (line : List UInt8) (legal : legalFrame f.1 f.2.length = true) :
    SendStep line f (line ++ wireOf f) := by
  have small := legal_length legal
  have size : (wireOf f).length ≤ UINT16_MAX := by
    simp [wireOf, rawFrame, length_stuff, UINT16_MAX]
    omega
  refine @SendStep.send _ _ _ _ true 100 (.fill AUTH_FRAME_MAX 0) ?_
  rw [send_eq _ legal (by decide)]
  change Exec transmitter ((linkWrite (wireOf f) 100 >>= fun sent => pure (sent, ())) >>=
    fun x => pure (x.1 != 0, x.2)) line _ _
  rw [linkWrite, if_pos size]
  exact ⟨true, _, ⟨wireOf f, List.prefix_rfl, rfl, fun _ => rfl⟩, rfl, rfl⟩

theorem legal_bytes {type : UInt8} {len : ℕ} (legal : legalFrame type len = true) :
    type ≠ 0 ∧ UInt8.ofNat len ≠ 0 := by
  simp only [legalFrame, Bool.or_eq_true, Bool.and_eq_true, beq_iff_eq] at legal
  rcases legal with (⟨rfl, rfl⟩ | ⟨rfl, rfl⟩) | ⟨rfl, rfl⟩ <;> decide

theorem stuff_heads (legal : legalFrame f.1 f.2.length = true) :
    ∃ c tail, stuff (rawFrame f.1 f.2) = c :: f.1 :: UInt8.ofNat f.2.length :: tail := by
  obtain ⟨type, length⟩ := legal_bytes legal
  have nonzero : ∀ b ∈ [f.1, UInt8.ofNat f.2.length], b ≠ 0 := by simp [type, length]
  exact ⟨_, _, stuffFrom_append [] [f.1, UInt8.ofNat f.2.length] nonzero f.2⟩

theorem prefix_frame (legal : legalFrame f.1 f.2.length = true) (part : w <+: stuff (rawFrame f.1 f.2)) :
    frameOf w = none ∨ w = stuff (rawFrame f.1 f.2) := by
  have small := legal_length legal
  have size : (stuff (rawFrame f.1 f.2)).length = f.2.length + 3 := by rw [length_stuff]; rfl
  have nonzero : ∀ b ∈ w, b ≠ 0 := fun b hb =>
    stuff_nonzero (by simp [rawFrame]; omega) b (part.subset hb)
  have short := part.length_le
  cases found : frameOf w with
  | none => exact Or.inl rfl
  | some g =>
    obtain ⟨legal', rfl⟩ := frameOf_some nonzero (by omega) found
    have small' := legal_length legal'
    have size' : (stuff (rawFrame g.1 g.2)).length = g.2.length + 3 := by rw [length_stuff]; rfl
    refine Or.inr (part.eq_of_length ?_)
    obtain ⟨c, tail, heads⟩ := stuff_heads legal
    obtain ⟨c', tail', heads'⟩ := stuff_heads legal'
    rw [heads, heads'] at part
    obtain ⟨more, bytes⟩ := part
    have lengths : UInt8.ofNat g.2.length = UInt8.ofNat f.2.length :=
      (List.cons.inj (List.cons.inj (List.cons.inj bytes).2).2).1
    have same := congrArg UInt8.toNat lengths
    rw [UInt8.toNat_ofNat', UInt8.toNat_ofNat'] at same
    omega

/-- The line holds frames that were sent, and the first part of one more. -/
def Carries (frames : List Frame) (line : List UInt8) : Prop :=
  ∃ whole w, line = whole ++ w ∧ Closed whole ∧ (framesOn whole).Sublist frames ∧
    (w = [] ∨ ∃ f, legalFrame f.1 f.2.length = true ∧ w <+: stuff (rawFrame f.1 f.2) ∧
      (framesOn whole ++ [f]).Sublist frames)

theorem part_nonzero (legal : legalFrame f.1 f.2.length = true) (part : w <+: stuff (rawFrame f.1 f.2)) :
    ∀ b ∈ w, b ≠ 0 := by
  have small := legal_length legal
  exact fun b hb => stuff_nonzero (by simp [rawFrame]; omega) b (part.subset hb)

theorem carries_zero (h : Carries frames line) :
    Closed (line ++ [0]) ∧ (framesOn (line ++ [0])).Sublist frames := by
  refine ⟨Or.inr ⟨line, rfl⟩, ?_⟩
  obtain ⟨whole, w, rfl, closed, sub, broken⟩ := h
  rw [List.append_assoc, framesOn_closed closed]
  rcases broken with rfl | ⟨f, legal, part, sub'⟩
  · rw [List.nil_append]
    exact (List.append_nil (framesOn whole)).symm ▸ sub
  · rw [framesOn_segment (part_nonzero legal part)]
    rcases prefix_frame legal part with none_ | rfl
    · rw [none_, Option.toList_none, List.append_nil]
      exact sub
    · rw [frameOf_stuff legal]
      exact sub'

theorem carries_more (h : Carries frames line) (f : Frame) : Carries (frames ++ [f]) line := by
  obtain ⟨whole, w, same, closed, sub, broken⟩ := h
  have longer : frames.Sublist (frames ++ [f]) := List.sublist_append_left _ _
  refine ⟨whole, w, same, closed, sub.trans longer, broken.imp_right ?_⟩
  rintro ⟨g, legal, part, sub'⟩
  exact ⟨g, legal, part, sub'.trans longer⟩

theorem carries_step (h : Carries frames line) (step : SendStep line f line') :
    Carries (frames ++ [f]) line' := by
  obtain ⟨sent, rfl, rfl | ⟨legal, part⟩⟩ := send_puts step
  · rw [List.append_nil]
    exact carries_more h f
  · cases sent with
    | nil =>
      rw [List.append_nil]
      exact carries_more h f
    | cons b sent =>
      obtain ⟨closed, sub⟩ := carries_zero h
      obtain ⟨more, whole⟩ := part
      obtain ⟨rfl, bytes⟩ := List.cons.inj whole
      change sent ++ more = stuff (rawFrame f.1 f.2) ++ [0] at bytes
      have both := sub.append (List.Sublist.refl [f])
      rw [List.append_cons line 0 sent]
      rcases List.eq_nil_or_concat more with rfl | ⟨more, z, rfl⟩
      · rw [List.append_nil] at bytes
        subst bytes
        refine ⟨_, [], (List.append_nil _).symm, Or.inr ⟨line ++ [0] ++ stuff (rawFrame f.1 f.2), ?_⟩, ?_, Or.inl rfl⟩
        · rw [List.append_assoc (line ++ [0])]
        · rw [framesOn_closed closed, framesOn_segment (part_nonzero legal List.prefix_rfl), frameOf_stuff legal]
          exact both
      · rw [List.concat_eq_append, ← List.append_assoc] at bytes
        obtain ⟨part, -⟩ := List.append_inj' bytes rfl
        exact ⟨_, sent, rfl, closed, sub.trans (List.sublist_append_left _ _),
          Or.inr ⟨f, legal, ⟨more, part⟩, both⟩⟩

theorem carries_frames (h : Carries frames line) : (framesOn line).Sublist frames := by
  obtain ⟨whole, w, rfl, closed, sub, broken⟩ := h
  have open_ : framesOn w = [] := by
    rcases broken with rfl | ⟨f, legal, part, -⟩
    · rfl
    · exact framesOn_open (part_nonzero legal part)
  rw [framesOn_closed closed, open_, List.append_nil]
  exact sub

/-- Nothing but what was sent is on the line. -/
theorem sent_frames (sends : Run SendStep [] frames line) : (framesOn line).Sublist frames := by
  refine carries_frames (?_ : Carries frames line)
  generalize start : ([] : List UInt8) = first at sends
  induction sends with
  | start =>
    subst start
    exact ⟨[], [], rfl, Or.inl rfl, List.nil_sublist _, Or.inl rfl⟩
  | next before last ih =>
    subst start
    exact carries_step ih last

theorem segments_grow {current more : List UInt8} :
    segments current line <+: segments current (line ++ more) := by
  induction line generalizing current with
  | nil => exact List.nil_prefix
  | cons b line ih =>
    rw [List.cons_append, segments, segments]
    split
    · exact List.cons_prefix_cons.mpr ⟨rfl, ih⟩
    · exact ih

theorem framesOn_grow (part : line <+: line') : (framesOn line).Sublist (framesOn line') := by
  obtain ⟨more, rfl⟩ := part
  exact segments_grow.sublist.filterMap _

/-- What was delivered was on the line, in this order. -/
theorem linked_frames {x : AuthReceiver × Usart} (h : Linked frames x) :
    frames.Sublist (framesOn x.2.line) := by
  obtain ⟨whole, w, ⟨post, line, -⟩, -, sub, -⟩ := h
  refine sub.trans (framesOn_grow ⟨w ++ post, ?_⟩)
  rw [line, List.append_assoc]

end

end SimpleAttestation.LineFrames
