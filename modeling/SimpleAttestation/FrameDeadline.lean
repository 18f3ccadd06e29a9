import SimpleAttestation.TransportStream

set_option autoImplicit false

/-!
# The frame deadline in true time
-/
namespace SimpleAttestation.FrameDeadline
open ByteStrings CallProgram TrueTime Platform Transport TransportFrames TransportStream

structure TimedCall where
  byte : UInt8
  time : ℕ
  out : FrameOut

inductive TimedInput where
  | feed (x : TimedCall)
  | discard

/-- The clock shows the true time modulo 2^32. -/
def TimedInput.input : TimedInput → StreamInput
  | feed x => .feed ⟨x.byte, .ofNat x.time, x.out⟩
  | discard => .uartError

def TimedInput.time? : TimedInput → Option ℕ
  | feed x => some x.time
  | discard => none

def timesOf (xs : List TimedInput) : List ℕ := xs.filterMap TimedInput.time?

def receiver (timeout : UInt32) (xs : List TimedInput) : AuthReceiver :=
  (streamRun timeout .zero (xs.map TimedInput.input)).1

def resultAfter (timeout : UInt32) (xs : List TimedInput) (z : TimedCall) : ℤ × FrameOut :=
  (authFrameFeed (receiver timeout xs) z.byte (.ofNat z.time) timeout z.out).2

def Delimits (xs : List TimedInput) : Prop :=
  xs = [] ∨ ∃ ys y, xs = ys ++ [.feed y] ∧ y.byte = 0

/-- All of `ys` come before the deadline of the first of them. -/
def InTime (timeout : UInt32) (ys : List TimedCall) : Prop :=
  ∀ x ∈ ys.head?, ∀ y ∈ ys, y.time < x.time + timeout.toNat

structure Arrived (timeout : UInt32) (before : List TimedInput) (frame : List TimedCall)
    (r : AuthReceiver) : Prop where
  delimits : Delimits before
  nonzero : ∀ y ∈ frame, y.byte ≠ 0
  kept : r.discard = false
  used : r.used = frame.length
  held : r.encoded.data.take r.used = frame.map TimedCall.byte
  started : ∀ x ∈ frame.head?, r.startedMs = .ofNat x.time
  inTime : InTime timeout frame

section
variable {timeout : UInt32} {xs before : List TimedInput} {frame : List TimedCall} {r : AuthReceiver}
  {z : TimedCall} {out : FrameOut}

theorem receiver_snoc (xs : List TimedInput) (x : TimedInput) :
    receiver timeout (xs ++ [x]) = (streamStep timeout (receiver timeout xs) x.input).1 := by
  rw [receiver, List.map_append, streamRun_append]
  rfl

theorem timesOf_feeds (before : List TimedInput) (frame : List TimedCall) :
    timesOf (before ++ frame.map .feed) = timesOf before ++ frame.map TimedCall.time := by
  have feeds : timesOf (frame.map .feed) = frame.map TimedCall.time := by
    rw [timesOf, List.filterMap_map]
    exact congrFun List.filterMap_eq_map frame
  rw [timesOf, List.filterMap_append]
  exact congrArg (timesOf before ++ ·) feeds

/-- The comparison of the two words is the comparison with the first byte's true time. -/
theorem late_iff (h : Arrived timeout before frame r)
    (spaced : Spaced (4294967296 - timeout.toNat) (timesOf (before ++ (frame ++ [z]).map .feed))) :
    (expire r (.ofNat z.time) timeout).discard = true ↔
      ∃ x ∈ frame.head?, x.time + timeout.toNat ≤ z.time := by
  have shown : (expire r (.ofNat z.time) timeout).discard =
      (decide (r.used ≠ 0) && authExpired (.ofNat z.time) r.startedMs timeout) := by
    rw [expire, h.kept, Bool.false_or]
  rw [shown]
  cases frame with
  | nil =>
    have none : r.used = 0 := h.used
    simp [none]
  | cons x rest =>
    have some_ : r.used ≠ 0 := by
      rw [h.used]
      exact Nat.succ_ne_zero _
    obtain ⟨y, newest⟩ : ∃ y, (x :: rest).getLast? = some y := by
      exact ⟨_, List.getLast?_cons⟩
    have member : y ∈ x :: rest := List.mem_of_getLast? newest
    rw [timesOf_feeds, List.map_append, List.map_singleton, ← List.append_assoc, spaced_snoc] at spaced
    obtain ⟨spaced, next⟩ := spaced
    have order : x.time ≤ y.time :=
      spaced_le spaced.right_of_append _ (List.mem_map_of_mem member)
    have close : Soon (4294967296 - timeout.toNat) y.time z.time := by
      refine next y.time ?_
      rw [List.getLast?_append, List.getLast?_map, newest]
      rfl
    have bound := timeout.toNat_lt
    have iff := elapsed_iff (M := 4294967296) (by decide) (by omega) order
      (h.inTime x rfl y member) close
    rw [h.started x rfl, decide_eq_true some_, Bool.true_and, authExpired_ofNat, iff]
    simp

theorem arrived_start (positive : timeout ≠ 0) (h : Delimits before) :
    Arrived timeout before [] (receiver timeout before) := by
  have empty : (receiver timeout before).used = 0 ∧ (receiver timeout before).discard = false := by
    rcases h with rfl | ⟨ys, y, rfl, zero⟩
    · exact ⟨rfl, rfl⟩
    · rw [receiver_snoc]
      have ends := @feed_delimiter (receiver timeout ys) timeout positive (.ofNat y.time) y.out
      rw [← zero] at ends
      exact ends
  refine ⟨h, by simp, empty.2, empty.1, ?_, by simp, fun x hx => by cases hx⟩
  rw [empty.1]
  rfl

theorem inTime_snoc (positive : timeout ≠ 0) (h : InTime timeout frame) :
    InTime timeout (frame ++ [z]) ↔ ¬ ∃ x ∈ frame.head?, x.time + timeout.toNat ≤ z.time := by
  have pos : 0 < timeout.toNat := Nat.pos_of_ne_zero fun e => positive (UInt32.toNat_inj.mp e)
  cases frame with
  | nil => simpa [InTime] using pos
  | cons x rest =>
    have first : ∀ y ∈ x :: rest, y.time < x.time + timeout.toNat := h x rfl
    constructor
    · rintro inTime ⟨x', hx, late⟩
      exact absurd (inTime x' hx z (by simp)) (Nat.not_lt.mpr late)
    · intro punctual x' hx y hy
      obtain rfl : x = x' := Option.some.inj hx
      rcases List.mem_append.mp hy with hy | hy
      · exact first y hy
      · obtain rfl := List.mem_singleton.mp hy
        exact Nat.not_le.mp fun late => punctual ⟨x, rfl, late⟩

theorem punctual_iff (positive : timeout ≠ 0) (h : Arrived timeout before frame r)
    (spaced : Spaced (4294967296 - timeout.toNat) (timesOf (before ++ (frame ++ [z]).map .feed))) :
    (expire r (.ofNat z.time) timeout).discard = false ↔ InTime timeout (frame ++ [z]) := by
  rw [inTime_snoc positive h.inTime, ← late_iff h spaced, Bool.not_eq_true]

def fed (timeout : UInt32) (r : AuthReceiver) (z : TimedCall) : AuthReceiver :=
  (authFrameFeed r z.byte (.ofNat z.time) timeout z.out).1

theorem arrived_next (positive : timeout ≠ 0) (h : Arrived timeout before frame r)
    (nonzero : z.byte ≠ 0)
    (spaced : Spaced (4294967296 - timeout.toNat) (timesOf (before ++ (frame ++ [z]).map .feed))) :
    (frame.length < AUTH_FRAME_MAX ∧ InTime timeout (frame ++ [z]) ∧
      Arrived timeout before (frame ++ [z]) (fed timeout r z)) ∨
    (AUTH_FRAME_MAX ≤ frame.length ∨ ¬ InTime timeout (frame ++ [z])) ∧
      (fed timeout r z).discard = true := by
  have punctual := punctual_iff positive h spaced
  have step : fed timeout r z = takeByte (expire r (.ofNat z.time) timeout) z.byte (.ofNat z.time) := by
    rw [fed, feed_eq positive, if_pos nonzero]
  rw [step]
  cases expired : (expire r (.ofNat z.time) timeout).discard with
  | true =>
    refine Or.inr ⟨Or.inr fun inTime => ?_, by simp [takeByte, expired]⟩
    rw [punctual.mpr inTime] at expired
    cases expired
  | false =>
    have inTime := punctual.mp expired
    rw [takeByte_open expired]
    dsimp only
    by_cases room : r.used < AUTH_FRAME_MAX
    · have short : frame.length < AUTH_FRAME_MAX := h.used ▸ room
      have room' : (expire r (.ofNat z.time) timeout).used < AUTH_FRAME_MAX := room
      rw [dif_pos room']
      refine Or.inl ⟨short, inTime, h.delimits, ?_, expired, ?_, ?_, ?_, inTime⟩
      · exact List.forall_mem_append.mpr ⟨h.nonzero, by simpa using nonzero⟩
      · change r.used + 1 = _
        rw [h.used, List.length_append, List.length_singleton]
      · rw [List.map_append, ← h.held]
        exact take_push room
      · intro x hx
        change (if r.used = 0 then _ else r.startedMs) = _
        rw [h.used]
        cases frame with
        | nil =>
          obtain rfl : z = x := by simpa using hx
          rfl
        | cons y rest => exact (if_neg (Nat.succ_ne_zero _)).trans (h.started x hx)
    · have full : AUTH_FRAME_MAX ≤ frame.length := h.used ▸ Nat.not_lt.mp room
      have full' : ¬ (expire r (.ofNat z.time) timeout).used < AUTH_FRAME_MAX := room
      rw [dif_neg full']
      exact Or.inr ⟨Or.inl full, rfl⟩

theorem arrived_end (positive : timeout ≠ 0) (h : Arrived timeout before frame r) (zero : z.byte = 0) :
    (authFrameFeed r z.byte (.ofNat z.time) timeout z.out).2 =
      frameResult (frame.map TimedCall.byte) (expire r (.ofNat z.time) timeout).discard
        { z.out with length := 0 } := by
  rw [feed_eq positive, if_neg (by simp [zero]), endFrame_eq, ← h.held]
  rfl

theorem fed_latched (positive : timeout ≠ 0) (nonzero : z.byte ≠ 0) (gone : r.discard = true) :
    (fed timeout r z).discard = true := by
  have expired : (expire r (.ofNat z.time) timeout).discard = true := by
    rw [expire, gone, Bool.true_or]
  rw [fed, feed_eq positive, if_pos nonzero]
  simp [takeByte, expired]

/-- A receiver that has not given up holds the bytes since the last delimiter. -/
theorem arrived_run (positive : timeout ≠ 0) (xs : List TimedInput)
    (spaced : Spaced (4294967296 - timeout.toNat) (timesOf xs))
    (kept : (receiver timeout xs).discard = false) : ∃ before frame,
      xs = before ++ frame.map .feed ∧ Arrived timeout before frame (receiver timeout xs) := by
  induction xs using List.reverseRecOn with
  | nil => exact ⟨[], [], rfl, arrived_start positive (Or.inl rfl)⟩
  | append_singleton xs i ih =>
    rw [receiver_snoc] at kept
    cases i with
    | discard => cases kept
    | feed z =>
      have started : Spaced (4294967296 - timeout.toNat) (timesOf xs) := by
        rw [timesOf, List.filterMap_append] at spaced
        exact spaced.left_of_append
      by_cases zero : z.byte = 0
      · refine ⟨xs ++ [.feed z], [], (List.append_nil _).symm, arrived_start positive ?_⟩
        exact Or.inr ⟨xs, z, rfl, zero⟩
      · have going : (receiver timeout xs).discard = false := by
          rw [← Bool.not_eq_true]
          exact fun gone => absurd ((fed_latched positive zero gone).symm.trans kept) (by decide)
        obtain ⟨before, frame, rfl, arrived⟩ := ih started going
        have shape : before ++ frame.map .feed ++ [.feed z] = before ++ (frame ++ [z]).map .feed := by
          simp
        rw [shape] at spaced ⊢
        refine ⟨before, frame ++ [z], rfl, ?_⟩
        rw [← shape, receiver_snoc]
        rcases arrived_next positive arrived zero spaced with ⟨-, -, next⟩ | ⟨-, gone⟩
        · exact next
        · exact absurd (gone.symm.trans kept) (by decide)

theorem inTime_part {part whole : List TimedCall} (le : part <+: whole) (h : InTime timeout whole) :
    InTime timeout part := by
  obtain ⟨rest, rfl⟩ := le
  cases part with
  | nil => simp [InTime]
  | cons x part =>
    intro x' hx y hy
    exact h x' hx y (List.mem_append_left _ hy)

theorem spaced_part {gap : ℕ} {part whole : List TimedCall} (le : part <+: whole)
    (spaced : Spaced gap (timesOf (before ++ whole.map .feed))) :
    Spaced gap (timesOf (before ++ part.map .feed)) := by
  obtain ⟨rest, rfl⟩ := le
  rw [timesOf_feeds, List.map_append, ← List.append_assoc, ← timesOf_feeds] at spaced
  exact spaced.left_of_append

theorem arrived_part (positive : timeout ≠ 0) (h : Delimits before) (nonzero : ∀ y ∈ frame, y.byte ≠ 0)
    (fits : frame.length ≤ AUTH_FRAME_MAX) (inTime : InTime timeout frame)
    (spaced : Spaced (4294967296 - timeout.toNat) (timesOf (before ++ frame.map .feed)))
    (part : List TimedCall) (le : part <+: frame) :
    Arrived timeout before part (receiver timeout (before ++ part.map .feed)) := by
  induction part using List.reverseRecOn with
  | nil =>
    rw [List.map_nil, List.append_nil]
    exact arrived_start positive h
  | append_singleton part y ih =>
    have arrived := ih ((List.prefix_append part [y]).trans le)
    have next := arrived_next positive arrived (nonzero y (le.subset (by simp)))
      (spaced_part le spaced)
    have short : part.length < AUTH_FRAME_MAX := by
      have length := le.length_le
      rw [List.length_append, List.length_singleton] at length
      omega
    rw [List.map_append, ← List.append_assoc, List.map_singleton, receiver_snoc]
    rcases next with ⟨-, -, next⟩ | ⟨full | late, -⟩
    · exact next
    · exact absurd short (Nat.not_lt.mpr full)
    · exact absurd (inTime_part le inTime) late

theorem accepted_inTime (positive : timeout ≠ 0) {xs : List TimedInput} {z : TimedCall}
    (spaced : Spaced (4294967296 - timeout.toNat) (timesOf (xs ++ [.feed z])))
    (one : (resultAfter timeout xs z).1 = 1) : z.byte = 0 ∧ ∃ before x rest,
      xs = before ++ (x :: rest).map .feed ∧ Delimits before ∧ (∀ y ∈ x :: rest, y.byte ≠ 0) ∧
      z.time < x.time + timeout.toNat := by
  have zero : z.byte = 0 := by
    by_contra nonzero
    rw [resultAfter, feed_eq positive, if_pos nonzero] at one
    cases one
  have ended : resultAfter timeout xs z = frameResult
      ((receiver timeout xs).encoded.data.take (receiver timeout xs).used)
      (expire (receiver timeout xs) (.ofNat z.time) timeout).discard { z.out with length := 0 } := by
    rw [resultAfter, feed_eq positive, if_neg (by simp [zero]), endFrame_eq]
    rfl
  have kept : (expire (receiver timeout xs) (.ofNat z.time) timeout).discard = false := by
    rw [← Bool.not_eq_true]
    intro gone
    rw [ended, gone] at one
    cases one
  obtain ⟨kept', -⟩ := Bool.or_eq_false_iff.mp kept
  have started : Spaced (4294967296 - timeout.toNat) (timesOf xs) := by
    rw [timesOf, List.filterMap_append] at spaced
    exact spaced.left_of_append
  obtain ⟨before, frame, rfl, arrived⟩ := arrived_run positive xs started kept'
  have shape : before ++ frame.map .feed ++ [.feed z] = before ++ (frame ++ [z]).map .feed := by simp
  rw [shape] at spaced
  have inTime := (punctual_iff positive arrived spaced).mp kept
  cases frame with
  | nil =>
    rw [ended, kept, arrived.held] at one
    cases one
  | cons x rest =>
    exact ⟨zero, before, x, rest, rfl, arrived.delimits, arrived.nonzero, inTime x rfl z (by simp)⟩

theorem judged_by_bytes (positive : timeout ≠ 0) {before : List TimedInput} {frame : List TimedCall}
    {z : TimedCall} (delimits : Delimits before) (nonzero : ∀ y ∈ frame, y.byte ≠ 0)
    (fits : frame.length ≤ 88) (zero : z.byte = 0) (inTime : InTime timeout (frame ++ [z]))
    (spaced : Spaced (4294967296 - timeout.toNat) (timesOf (before ++ frame.map .feed ++ [.feed z]))) :
    (∀ part, part <+: frame → (receiver timeout (before ++ part.map .feed)).discard = false) ∧
      resultAfter timeout (before ++ frame.map .feed) z =
        frameResult (frame.map TimedCall.byte) false { z.out with length := 0 } := by
  have shape : before ++ frame.map .feed ++ [.feed z] = before ++ (frame ++ [z]).map .feed := by simp
  rw [shape] at spaced
  have arrived := arrived_part positive delimits nonzero fits
    (inTime_part (List.prefix_append frame [z]) inTime)
    (spaced_part (List.prefix_append frame [z]) spaced)
  have held := arrived frame (List.prefix_refl frame)
  refine ⟨fun part le => (arrived part le).kept, ?_⟩
  rw [resultAfter, arrived_end positive held zero, (punctual_iff positive held spaced).mpr inTime]

end

/-- What is accepted came in time, and what comes in time is judged by its bytes alone. -/
theorem frame_deadline (timeout : UInt32) (positive : timeout ≠ 0) (xs : List TimedInput)
    (z : TimedCall)
    (spaced : Spaced (4294967296 - timeout.toNat) (timesOf (xs ++ [.feed z]))) :
    ((resultAfter timeout xs z).1 = 1 → z.byte = 0 ∧ ∃ before x rest,
      xs = before ++ (x :: rest).map .feed ∧ Delimits before ∧ (∀ y ∈ x :: rest, y.byte ≠ 0) ∧
      z.time < x.time + timeout.toNat) ∧
    ∀ before frame, xs = before ++ frame.map .feed → Delimits before → (∀ y ∈ frame, y.byte ≠ 0) →
      frame.length ≤ 88 → z.byte = 0 → InTime timeout (frame ++ [z]) →
      (∀ part, part <+: frame → (receiver timeout (before ++ part.map .feed)).discard = false) ∧
      resultAfter timeout xs z =
        frameResult (frame.map TimedCall.byte) false { z.out with length := 0 } := by
  refine ⟨fun one => accepted_inTime positive spaced one, ?_⟩
  rintro before frame rfl delimits nonzero fits zero inTime
  exact judged_by_bytes positive delimits nonzero fits zero inTime spaced

def wrapFrame : List TimedCall :=
  [⟨4, 4294967290, smallOut⟩, ⟨3, 4294967294, smallOut⟩, ⟨1, 4294967296, smallOut⟩,
    ⟨12, 4294967300, smallOut⟩]

theorem frame_deadline_wrap :
    resultAfter 100 (wrapFrame.map .feed) ⟨0, 4294967389, smallOut⟩ =
      frameResult [4, 3, 1, 12] false { smallOut with length := 0 } ∧
    (resultAfter 100 (wrapFrame.map .feed) ⟨0, 4294967389, smallOut⟩).1 = 1 := by
  obtain ⟨-, alone⟩ := frame_deadline 100 (by decide) (wrapFrame.map .feed) ⟨0, 4294967389, smallOut⟩
    (by decide)
  obtain ⟨-, same⟩ := alone [] wrapFrame rfl (Or.inl rfl) (by decide) (by decide) rfl (by
    intro x hx
    obtain rfl := Option.some.inj hx
    decide)
  exact ⟨same, by rw [same]; decide⟩

end SimpleAttestation.FrameDeadline
