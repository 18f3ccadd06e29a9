import SimpleAttestation.LineFrames
import SimpleAttestation.ProverLoop

set_option autoImplicit false

/-!
# The prover's loop on its UART
-/
namespace SimpleAttestation.ProverLine
open ByteStrings Wire Crypto CallProgram Runs Platform Transport TransportFrames ProverLoop UartLink LineFrames

def requestOf (f : Frame) : Option (List UInt8) := if f.1 = AUTH_FRAME_REQUEST then some f.2 else none

inductive LineStep (tc : TinyCrypt) (k : Surroundings) :
    LoopState × Usart → Effects → LoopState × Usart → Prop where
  | iterate {s : LoopState} {u v : Usart} (running : s.core.halted = false) (e : LoopEvent)
      (read : Exec uartDevice linkRead u e.read v) :
      LineStep tc k (s, u) (proverStep tc k s e).2 ((proverStep tc k s e).1, v)

section
variable {tc : TinyCrypt} {k : Surroundings} {x y : LoopState × Usart} {effects : Effects}

def Received.frame? (received : Received) (out : FrameOut) : Option Frame :=
  match received with
  | .frame => some (out.type, out.payload.take out.length)
  | _ => none

theorem take_byte (inbox : Inbox) {e : LoopEvent} {b : UInt8} (h : e.read = .byte b) :
    (inbox.take e).1.receiver = (authFrameFeed inbox.receiver b e.nowMs AUTH_FRAME_TIMEOUT_MS inbox.out).1 ∧
    Received.frame? (inbox.take e).2 (inbox.take e).1.out =
      delivered (authFrameFeed inbox.receiver b e.nowMs AUTH_FRAME_TIMEOUT_MS inbox.out).2 := by
  rw [Inbox.take, h]
  refine ⟨rfl, ?_⟩
  dsimp only
  generalize (authFrameFeed inbox.receiver b e.nowMs AUTH_FRAME_TIMEOUT_MS inbox.out).2 = result
  rw [delivered]
  split
  · rw [if_neg (by omega)]
    rfl
  · split
    · rw [if_neg (by omega)]
      rfl
    · rw [if_pos (by omega)]
      rfl

theorem take_legal (inbox : Inbox) (e : LoopEvent) (frame : (inbox.take e).2 = .frame) :
    legalFrame (inbox.take e).1.out.type (inbox.take e).1.out.length = true := by
  unfold Inbox.take at frame ⊢
  cases read : e.read with
  | error | none =>
    rw [read] at frame
    cases frame
  | byte b =>
    rw [read] at frame
    dsimp only at frame ⊢
    have result := @feed_result inbox.receiver b e.nowMs AUTH_FRAME_TIMEOUT_MS inbox.out (by decide)
    generalize (authFrameFeed inbox.receiver b e.nowMs AUTH_FRAME_TIMEOUT_MS inbox.out).2 = x at frame result ⊢
    cases result with
    | @empty n none_ =>
      dsimp only at frame
      split at frame
      · cases frame
      · rw [if_pos (by omega)] at frame
        cases frame
    | frame legal fits => exact legal

end

/-- What is seen of an iteration, and of the frame that it took. -/
structure View (tc : TinyCrypt) (k : Surroundings) (β : Type) where
  view : Effects → Option β
  of : Frame → Option β
  quiet : view ⟨none, [], []⟩ = none
  failed : ∀ code, view ⟨none, [], [.error code]⟩ = none
  dispatch : ∀ (c : ProverCore) (e : LoopEvent) (out : FrameOut), legalFrame out.type out.length = true →
    view (c.dispatch tc k e out).2 = of (out.type, out.payload.take out.length)

def requests (tc : TinyCrypt) (k : Surroundings) : View tc k (List UInt8) where
  view := Effects.delivered
  of := requestOf
  quiet := rfl
  failed _ := rfl
  dispatch c _ out _ := dispatch_delivered c out

section
variable {tc : TinyCrypt} {k : Surroundings} {β : Type} (V : View tc k β) {x y : LoopState × Usart}
  {effects : Effects}

theorem step_seen {s : LoopState} (running : s.core.halted = false) (e : LoopEvent) :
    (proverStep tc k s e).1.inbox = (s.inbox.take e).1 ∧ V.view (proverStep tc k s e).2 =
      (Received.frame? (s.inbox.take e).2 (s.inbox.take e).1.out).bind V.of := by
  have legal := take_legal s.inbox e
  rw [proverStep, if_neg (by simp [running])]
  generalize s.inbox.take e = taken at legal ⊢
  obtain ⟨inbox, received⟩ := taken
  cases received with
  | nothing => exact ⟨rfl, V.quiet⟩
  | failed error => exact ⟨rfl, V.failed error.code⟩
  | frame => exact ⟨rfl, V.dispatch s.core e inbox.out (legal rfl)⟩

theorem step_links (step : LineStep tc k x effects y) : ∃ frame,
    LinkStep AUTH_FRAME_TIMEOUT_MS (x.1.inbox.receiver, x.2) frame (y.1.inbox.receiver, y.2) ∧
    V.view effects = frame.bind V.of := by
  cases step with
  | @iterate s u v running e read =>
    obtain ⟨inbox, seen⟩ := step_seen V running e
    rw [seen, inbox]
    cases outcome : e.read with
    | error =>
      rw [outcome] at read
      simp only [Inbox.take, outcome]
      exact ⟨none, .failed read, rfl⟩
    | none =>
      rw [outcome] at read
      simp only [Inbox.take, outcome]
      exact ⟨none, .idle read, rfl⟩
    | byte b =>
      rw [outcome] at read
      obtain ⟨receiver, frame⟩ := take_byte s.inbox outcome
      rw [frame, receiver]
      exact ⟨_, .fed read e.nowMs s.inbox.out s.inbox.room, rfl⟩

theorem linked_run {effects : List Effects} (run : Run (LineStep tc k) x effects y)
    (start : Linked [] (x.1.inbox.receiver, x.2)) : ∃ frames,
    Linked frames (y.1.inbox.receiver, y.2) ∧ effects.filterMap V.view = frames.filterMap V.of := by
  induction run with
  | start => exact ⟨[], start, rfl⟩
  | @next y z effects e before last ih =>
    obtain ⟨frames, linked, seen⟩ := ih
    obtain ⟨frame, step, here⟩ := step_links V last
    refine ⟨frames ++ frame.toList, linked_step (by decide) linked step, ?_⟩
    have tail : [e].filterMap V.view = frame.toList.filterMap V.of := by
      cases frame with
      | none => simp [here]
      | some frame => cases h : V.of frame <;> simp [here, h]
    rw [List.filterMap_append, List.filterMap_append, tail, seen]

end

structure PowerUp (x : LoopState × Usart) : Prop where
  receiver : x.1.inbox.receiver = .zero
  empty : x.2.isr.rxne = false
  silent : x.2.line = []

theorem only_sent {tc : TinyCrypt} {k : Surroundings} {β : Type} (V : View tc k β) {sent : List Frame}
    {wire : List UInt8} (sends : Run SendStep [] sent wire) {x y : LoopState × Usart} (up : PowerUp x)
    {effects : List Effects} (run : Run (LineStep tc k) x effects y) (carried : y.2.line <+: wire) :
    (effects.filterMap V.view).Sublist (sent.filterMap V.of) := by
  have start : Linked [] (x.1.inbox.receiver, x.2) := by
    refine ⟨[], [], ⟨[], up.silent, fun _ => ?_⟩, Or.inl rfl, List.nil_sublist _, fun _ => ?_⟩
    · rw [Usart.waiting, up.empty]
      rfl
    · rw [up.receiver]
      exact ⟨rfl, by simp⟩
  obtain ⟨frames, linked, seen⟩ := linked_run V run start
  rw [seen]
  have onLine := linked_frames linked
  exact ((onLine.trans (framesOn_grow carried)).trans (sent_frames sends)).filterMap _

/-- The link is a channel that may lose frames and nothing else. Whatever the timing of the loop
    and of the line, and whatever goes wrong on either, the prover serves requests that were sent,
    whole, in their order, and each at most once. -/
theorem link_loses_only (tc : TinyCrypt) (k : Surroundings) (sent : List Frame) (wire : List UInt8)
    (sends : Run SendStep [] sent wire) (x y : LoopState × Usart) (up : PowerUp x) (effects : List Effects)
    (run : Run (LineStep tc k) x effects y) (carried : y.2.line <+: wire) :
    (deliveredBy effects).Sublist (sent.filterMap requestOf) :=
  only_sent (requests tc k) sends up run carried

def idleIsr : Isr := ⟨false, false, false, false, false⟩

theorem linkRead_hears (line : List UInt8) (rdr b : UInt8) :
    Exec uartDevice linkRead ⟨idleIsr, rdr, line⟩ (.byte b) ⟨idleIsr, b, line ++ [b]⟩ := by
  refine ⟨{ idleIsr with rxne := true }, ⟨{ idleIsr with rxne := true }, b, line ++ [b]⟩,
    ⟨_, .single (.byte b rfl), rfl, rfl⟩, ?_⟩
  exact ⟨b, _, ⟨_, .refl, rfl, rfl⟩, rfl, rfl⟩

theorem halted_stays {tc : TinyCrypt} {k : Surroundings} {s : LoopState} (halted : s.core.halted = true)
    (es : List LoopEvent) : (proverRun tc k s es).1 = s := by
  induction es with
  | nil => rfl
  | cons e es ih =>
    rw [proverRun, step_halted halted]
    exact ih

theorem line_heard (tc : TinyCrypt) (k : Surroundings) (s : LoopState) (es : List LoopEvent) (bytes : List UInt8)
    (reads : es.map LoopEvent.read = bytes.map .byte) (line : List UInt8) (rdr : UInt8)
    (running : (proverRun tc k s es).1.core.halted = false) : ∃ rdr',
    Run (LineStep tc k) (s, ⟨idleIsr, rdr, line⟩) (proverRun tc k s es).2
      ((proverRun tc k s es).1, ⟨idleIsr, rdr', line ++ bytes⟩) := by
  induction es generalizing s bytes line rdr with
  | nil =>
    obtain rfl : bytes = [] := List.map_eq_nil_iff.mp reads.symm
    rw [List.append_nil]
    exact ⟨rdr, .start _⟩
  | cons e es ih =>
    obtain ⟨b, rest, rfl, first, others⟩ := List.map_eq_cons_iff.mp reads.symm
    have going : s.core.halted = false := by
      rw [← Bool.not_eq_true]
      intro halted
      rw [halted_stays halted, halted] at running
      cases running
    obtain ⟨rdr', later⟩ := ih (proverStep tc k s e).1 rest others.symm (line ++ [b]) b running
    have read := linkRead_hears line rdr b
    rw [first] at read
    refine ⟨rdr', ?_⟩
    rw [List.append_cons]
    exact run_append (run_one (.iterate going e read)) later

def sentRequest : Frame := (AUTH_FRAME_REQUEST, msgBytes smallRequest)

theorem link_loses_only_small : ∃ (wire : List UInt8) (y : LoopState × Usart) (effects : List Effects),
    Run SendStep [] [sentRequest] wire ∧
    Run (LineStep referenceTinyCrypt smallSurroundings) (smallLoop, ⟨idleIsr, 0, []⟩) effects y ∧
    deliveredBy effects = [msgBytes smallRequest] ∧ y.1.core.prover.material.counter = 8 ∧
    (deliveredBy effects).Sublist ([sentRequest].filterMap requestOf) := by
  have sends : Run SendStep [] [sentRequest] (wireOf sentRequest) := run_one (send_whole [] (by decide))
  obtain ⟨x, served, running, delivered, counter, -⟩ := small_served
  have reads : ([smallEvent (.byte 0)] ++ smallReads).map LoopEvent.read = (wireOf sentRequest).map .byte := by
    rw [wireOf, smallReads]
    simp [smallEvent, sentRequest]
  obtain ⟨rdr, run⟩ := line_heard referenceTinyCrypt smallSurroundings smallLoop _ _ reads [] 0
    (by rw [served]; exact running)
  rw [served] at run
  have only := link_loses_only referenceTinyCrypt smallSurroundings _ _ sends _ _ ⟨rfl, rfl, rfl⟩ _ run
    List.prefix_rfl
  exact ⟨_, _, _, sends, run, delivered, counter, only⟩

end SimpleAttestation.ProverLine
