import SimpleAttestation.TransportFrames

set_option autoImplicit false

/-!
# Every delimiter resynchronises the receiver
-/
namespace SimpleAttestation.TransportStream
open ByteStrings Wire CallProgram Platform Cobs Transport TransportFrames

/-- What the next calls can see of a receiver. The start time of an empty frame and what lies
    behind the used part of the buffer are not among it. -/
structure Agree (r r' : AuthReceiver) : Prop where
  used : r.used = r'.used
  discard : r.discard = r'.discard
  started : r.used ≠ 0 → r.startedMs = r'.startedMs
  held : r.encoded.data.take r.used = r'.encoded.data.take r'.used

section
variable {r r' : AuthReceiver} {timeout : UInt32}

theorem agree_expire (h : Agree r r') (now : UInt32) :
    Agree (expire r now timeout) (expire r' now timeout) := by
  refine ⟨h.used, ?_, h.started, h.held⟩
  by_cases empty : r.used = 0
  · have empty' : r'.used = 0 := h.used ▸ empty
    simp [expire, empty, empty', h.discard]
  · simp only [expire, h.discard, h.started empty, h.used]

theorem takeByte_open (keeps : r.discard = false) (b : UInt8) (now : UInt32) : takeByte r b now =
    let s : AuthReceiver := { r with startedMs := if r.used = 0 then now else r.startedMs }
    if room : s.used < AUTH_FRAME_MAX then s.push b room else { s with discard := true } := by
  obtain ⟨encoded, used, startedMs, discard, used_le⟩ := r
  obtain rfl : discard = false := keeps
  by_cases empty : used = 0 <;> simp [takeByte, empty]

theorem agree_take (h : Agree r r') (b : UInt8) (now : UInt32) :
    Agree (takeByte r b now) (takeByte r' b now) := by
  by_cases gone : r.discard = true
  · have gone' : r'.discard = true := h.discard ▸ gone
    have e : takeByte r b now = r := by simp [takeByte, gone]
    have e' : takeByte r' b now = r' := by simp [takeByte, gone']
    rw [e, e']
    exact h
  · rw [Bool.not_eq_true] at gone
    have start : (if r.used = 0 then now else r.startedMs) = if r'.used = 0 then now else r'.startedMs := by
      rw [h.used]
      split
      · rfl
      · rename_i some_
        exact h.started (h.used ▸ some_)
    rw [takeByte_open gone, takeByte_open (h.discard ▸ gone)]
    by_cases room : r.used < AUTH_FRAME_MAX
    · have room' : r'.used < AUTH_FRAME_MAX := h.used ▸ room
      simp only [room, room', dite_true]
      refine ⟨congrArg (· + 1) h.used, h.discard, fun _ => start, ?_⟩
      exact (take_push room).trans ((congrArg (· ++ [b]) h.held).trans (take_push room').symm)
    · have room' : ¬ r'.used < AUTH_FRAME_MAX := h.used ▸ room
      simp only [room, room', dite_false]
      exact ⟨h.used, rfl, fun _ => start, h.held⟩

theorem agree_end (r r' : AuthReceiver) (out out' : FrameOut) :
    Agree (endFrame r out).1 (endFrame r' out').1 := by
  rw [endFrame_eq, endFrame_eq]
  exact ⟨rfl, rfl, fun some_ => absurd rfl some_, rfl⟩

theorem end_same (h : Agree r r') (out : FrameOut) : (endFrame r out).2 = (endFrame r' out).2 := by
  rw [endFrame_eq, endFrame_eq, h.held, h.discard]

theorem agree_feed (h : Agree r r') (b : UInt8) (now : UInt32) (out : FrameOut) :
    (authFrameFeed r b now timeout out).2 = (authFrameFeed r' b now timeout out).2 ∧
      Agree (authFrameFeed r b now timeout out).1 (authFrameFeed r' b now timeout out).1 := by
  by_cases dead : timeout = 0
  · rw [authFrameFeed, authFrameFeed, if_pos dead, if_pos dead]
    exact ⟨rfl, h⟩
  · have expired := @agree_expire r r' timeout h now
    rw [feed_eq dead, feed_eq dead]
    by_cases zero : b ≠ 0
    · rw [if_pos zero, if_pos zero]
      exact ⟨rfl, agree_take expired b now⟩
    · rw [if_neg zero, if_neg zero]
      exact ⟨end_same expired _, agree_end _ _ _ _⟩

/-- What a caller sees of a result: the return value and, if it is one, the frame. -/
def SameFrame (x y : ℤ × FrameOut) : Prop :=
  x.1 = y.1 ∧ (0 < x.1 → x.2.type = y.2.type ∧
    x.2.payload.take x.2.length = y.2.payload.take y.2.length)

theorem frameResult_out {out out' : FrameOut} (capacity : out.payload.length = out'.payload.length)
    (frame : List UInt8) (discard : Bool) :
    SameFrame (frameResult frame discard out) (frameResult frame discard out') := by
  unfold frameResult
  split
  · exact ⟨rfl, fun h => by cases h⟩
  · split
    · exact ⟨rfl, fun h => by cases h⟩
    · cases decodeBlocks frame.length frame [] with
      | none => exact ⟨rfl, fun h => by cases h⟩
      | some raw =>
        dsimp only
        rw [← capacity]
        split
        · refine ⟨rfl, fun _ => ⟨rfl, ?_⟩⟩
          have whole : ∀ buf : List UInt8, (overwrite buf 0 (raw.drop 2)).take (raw.length - 2) =
              raw.drop 2 := by
            intro buf
            rw [overwrite, List.take_zero, List.nil_append, ← List.length_drop, List.take_left]
          exact (whole _).trans (whole _).symm
        · exact ⟨rfl, fun h => by cases h⟩

theorem feed_out {out out' : FrameOut} (capacity : out.payload.length = out'.payload.length)
    (positive : timeout ≠ 0) (b : UInt8) (now : UInt32) :
    (authFrameFeed r b now timeout out).1 = (authFrameFeed r b now timeout out').1 ∧
      SameFrame (authFrameFeed r b now timeout out).2 (authFrameFeed r b now timeout out').2 := by
  rw [feed_eq positive, feed_eq positive]
  by_cases zero : b ≠ 0
  · rw [if_pos zero, if_pos zero]
    exact ⟨rfl, rfl, fun h => by cases h⟩
  · rw [if_neg zero, if_neg zero, endFrame_eq, endFrame_eq]
    have cleared : ({ out with length := 0 } : FrameOut).payload.length =
        ({ out' with length := 0 } : FrameOut).payload.length := capacity
    exact ⟨rfl, frameResult_out cleared _ _⟩

theorem agree_step (h : Agree r r') (x : StreamInput) :
    (streamStep timeout r x).2 = (streamStep timeout r' x).2 ∧
      Agree (streamStep timeout r x).1 (streamStep timeout r' x).1 := by
  cases x with
  | uartError => exact ⟨rfl, h.used, rfl, h.started, h.held⟩
  | feed x =>
    obtain ⟨same, agree⟩ := @agree_feed r r' timeout h x.byte x.nowMs x.out
    exact ⟨congrArg (fun result => [result]) same, agree⟩

theorem agree_run (h : Agree r r') (xs : List StreamInput) :
    (streamRun timeout r xs).2 = (streamRun timeout r' xs).2 := by
  induction xs generalizing r r' with
  | nil => rfl
  | cons x xs ih =>
    obtain ⟨same, agree⟩ := @agree_step r r' timeout h x
    simp only [streamRun, same, ih agree]

theorem run_dead (xs : List StreamInput) :
    (streamRun 0 r xs).2 = (streamRun 0 r' xs).2 := by
  induction xs generalizing r r' with
  | nil => rfl
  | cons x xs ih =>
    have first : (streamStep 0 r x).2 = (streamStep 0 r' x).2 := by cases x <;> rfl
    have rest := @ih (streamStep 0 r x).1 (streamStep 0 r' x).1
    simp only [streamRun, first, rest]

theorem feed_delimiter (positive : timeout ≠ 0) (now : UInt32) (out : FrameOut) :
    (authFrameFeed r 0 now timeout out).1.used = 0 ∧
      (authFrameFeed r 0 now timeout out).1.discard = false := by
  rw [feed_eq positive, if_neg (by simp), endFrame_eq]
  exact ⟨rfl, rfl⟩

theorem after_delimiter {x : FeedCall} (zero : x.byte = 0) (xs : List StreamInput) :
    (streamRun timeout (streamStep timeout r (.feed x)).1 xs).2 = (streamRun timeout .zero xs).2 := by
  by_cases dead : timeout = 0
  · rw [dead]
    exact run_dead xs
  · obtain ⟨used, discard⟩ := @feed_delimiter r timeout dead x.nowMs x.out
    rw [← zero] at used discard
    have empty : ∀ frame : List UInt8, frame.take
        (authFrameFeed r x.byte x.nowMs timeout x.out).1.used = [] := by
      intro frame
      rw [used, List.take_zero]
    exact agree_run ⟨used, discard, fun some_ => absurd used some_, empty _⟩ xs

def Delimited (segment : List StreamInput) : Prop :=
  ∃ body x, segment = body ++ [.feed x] ∧ x.byte = 0

theorem after_segment {segment : List StreamInput} (h : Delimited segment) (xs : List StreamInput) :
    (streamRun timeout (streamRun timeout r segment).1 xs).2 = (streamRun timeout .zero xs).2 := by
  obtain ⟨body, x, rfl, zero⟩ := h
  rw [streamRun_append]
  exact after_delimiter zero xs

theorem outputs_segments (segments : List (List StreamInput)) (tail : List StreamInput)
    (h : ∀ s ∈ segments, Delimited s) : (streamRun timeout .zero (segments.flatten ++ tail)).2 =
      (segments.map fun s => (streamRun timeout .zero s).2).flatten ++
        (streamRun timeout .zero tail).2 := by
  induction segments with
  | nil => rfl
  | cons s segments ih =>
    obtain ⟨hs, rest⟩ := List.forall_mem_cons.mp h
    rw [List.flatten_cons, List.append_assoc, streamRun_append, after_segment hs, ih rest,
      List.map_cons, List.flatten_cons, List.append_assoc]

theorem send_eq {type : UInt8} {payload : List UInt8} {sendTimeout : UInt32}
    (stack : Bytes AUTH_FRAME_MAX) (legal : legalFrame type payload.length = true)
    (positive : sendTimeout ≠ 0) : authFrameSend true type payload sendTimeout stack =
      .call (.write (0 :: (stuff (rawFrame type payload) ++ [0])) sendTimeout)
        fun sent => .done (sent != 0) := by
  have small := legal_length legal
  have room : payload.length + 4 ≤ stack.data.length := by
    rw [stack.length_data]
    change payload.length + 4 ≤ 88
    omega
  have bytes := encodedBytes_eq stack legal
  have n : (authFrameEncode type payload stack.data).2 = payload.length + 4 := by
    rw [encode_eq legal room]
  have some_ : ¬ (authFrameEncode type payload stack.data).2 = 0 := by omega
  have open_ : ¬ (!true || sendTimeout == 0) = true := by simpa using positive
  rw [← bytes, encodedBytes, authFrameSend, if_neg open_]
  dsimp only
  rw [if_neg some_, List.take_succ_cons]
  rfl

theorem sent_delivered {type : UInt8} {payload : List UInt8}
    (legal : legalFrame type payload.length = true) (d x z : FeedCall) (xs : List FeedCall)
    (bytes : (d :: x :: xs ++ [z]).map (·.byte) = 0 :: (stuff (rawFrame type payload) ++ [0]))
    (inTime : ∀ y ∈ xs ++ [z], authExpired y.nowMs x.nowMs timeout = false)
    (fits : payload.length ≤ z.out.payload.length) :
    ∃ first last, (streamRun timeout r ((d :: x :: xs ++ [z]).map .feed)).2 =
        first :: (x :: xs).map (fun y => (0, { y.out with length := 0 })) ++ [last] ∧
      Delivers last type payload := by
  have positive := positive_of_punctual (inTime z (by simp))
  obtain ⟨(hd : d.byte = 0), wire⟩ := List.cons.inj bytes
  rw [← encodedBytes_eq (.fill AUTH_FRAME_MAX 0) legal] at wire
  obtain ⟨used, discard⟩ := @feed_delimiter r timeout positive d.nowMs d.out
  obtain ⟨-, -, last, run, delivers⟩ := decode_encode legal _ timeout _ used discard x z xs wire inTime fits
  refine ⟨(authFrameFeed r 0 d.nowMs timeout d.out).2, last, ?_, delivers⟩
  rw [List.cons_append, List.map_cons, streamRun, streamStep, hd]
  exact congrArg _ run

end

/-- Nothing of a receiver's past is seen behind a delimiter; a stream is its segments; and
    what the sender writes is delivered once. -/
theorem resynchronises (timeout : UInt32) :
    (∀ r r' x x' xs, x.byte = 0 → x'.byte = 0 →
      (streamRun timeout (streamStep timeout r (.feed x)).1 xs).2 =
        (streamRun timeout (streamStep timeout r' (.feed x')).1 xs).2) ∧
    (∀ r segment segments tail, (∀ s ∈ segment :: segments, Delimited s) →
      (streamRun timeout r (segment ++ (segments.flatten ++ tail))).2 =
        (streamRun timeout r segment).2 ++
          ((segments.map fun s => (streamRun timeout .zero s).2).flatten ++
            (streamRun timeout .zero tail).2)) ∧
    ∀ type payload sendTimeout stack, legalFrame type payload.length = true → sendTimeout ≠ 0 →
      ∃ bytes k, authFrameSend true type payload sendTimeout stack = .call (.write bytes sendTimeout) k ∧
        ∀ r d x z xs, (d :: x :: xs ++ [z]).map (·.byte) = bytes →
          (∀ y ∈ xs ++ [z], authExpired y.nowMs x.nowMs timeout = false) →
          payload.length ≤ z.out.payload.length →
          ∃ first last, (streamRun timeout r ((d :: x :: xs ++ [z]).map .feed)).2 =
              first :: (x :: xs).map (fun y => (0, { y.out with length := 0 })) ++ [last] ∧
            Delivers last type payload := by
  refine ⟨?_, ?_, ?_⟩
  · intro r r' x x' xs zero zero'
    rw [after_delimiter zero, after_delimiter zero']
  · intro r segment segments tail h
    obtain ⟨first, rest⟩ := List.forall_mem_cons.mp h
    rw [streamRun_append, after_segment first, outputs_segments segments tail rest]
  · intro type payload sendTimeout stack legal positive
    exact ⟨_, _, send_eq stack legal positive, fun r d x z xs bytes inTime fits =>
      sent_delivered legal d x z xs bytes inTime fits⟩

theorem resynchronises_diagnostic : ∃ first last,
    (streamRun 100 (streamRun 100 .zero ([9, 9].map fun b => .feed ⟨b, 0, smallOut⟩)).1
      ([0, 4, 3, 1, 12, 0].map fun b => .feed ⟨b, 7, smallOut⟩)).2 =
        first :: List.replicate 4 (0, smallOut) ++ [last] ∧ Delivers last 3 [12] := by
  obtain ⟨-, -, sends⟩ := resynchronises 100
  obtain ⟨bytes, k, sent, delivered⟩ := sends 3 [12] 50 (.fill 88 0) (by decide) (by decide)
  have written : [0, 4, 3, 1, 12, 0] = bytes := by
    injection sent with call
    injection call
  exact delivered _ ⟨0, 7, smallOut⟩ ⟨4, 7, smallOut⟩ ⟨0, 7, smallOut⟩
    ([3, 1, 12].map fun b => ⟨b, 7, smallOut⟩) written (by decide) (by decide)

end SimpleAttestation.TransportStream
