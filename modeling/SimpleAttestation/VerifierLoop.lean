import SimpleAttestation.ChallengeSpec
import SimpleAttestation.TransportFrames
import SimpleAttestation.VerifierRuns

set_option autoImplicit false

/-!
# The verifier's loop (main.c)

What `main` calls is a device: the parts of the program run over the platform, and the
peripherals answer as they like. The device keeps the true time and every call with
the times it was entered and left, so a run shows when sessions end and challenges are made.
-/
namespace SimpleAttestation.VerifierLoop
open ByteStrings Wire Crypto CallProgram CallTraces TrueTime Platform ProverSpec ProverTrace
open VerifierSession VerifierRuns ChallengeSpec Transport TransportFrames

def AUTH_TIMEOUT_MS : UInt32 := 5000
def AUTH_INTERVAL_MS : UInt32 := 60000
def AUTH_FRAME_TIMEOUT_MS : UInt32 := 250

inductive MainCall where
  | boardInit
  | initVerifier (timeoutMs : UInt32)
  | getTick
  | poll (v : Verifier)
  | challenge (v : Verifier) (payload : List UInt8)
  | frameSend (type : UInt8) (payload : List UInt8) (timeoutMs : UInt32)
  | cancel (v : Verifier)
  | read
  | verify (v : Verifier) (response : List UInt8)
  | reportError (code : ℕ)
  | fatal

@[reducible] def MainCall.Reply : MainCall → Type
  | boardInit | frameSend _ _ _ => Bool
  | initVerifier _ => Verifier × Bool
  | getTick => UInt32
  | poll _ | verify _ _ => Verifier × VerifyResult
  | challenge _ _ => Verifier × List UInt8 × ℕ
  | cancel _ => Verifier
  | read => ReadOutcome
  | reportError _ | fatal => Unit

abbrev MainProg := Prog MainCall MainCall.Reply

/-- The variables of `main`; `out` is `type`, `payload` and `length`. -/
structure MainState where
  verifier : Verifier
  receiver : AuthReceiver
  out : FrameOut
  lastSession : UInt32

/-- The first reading is for `board_last_elapsed_ms`. -/
def endSession (s : MainState) : MainProg MainState := do
  let _ ← Prog.ask MainCall.getTick
  let now ← Prog.ask MainCall.getTick
  pure { s with lastSession := now }

def pollSession (s : MainState) : MainProg MainState := do
  let (verifier, result) ← Prog.ask (MainCall.poll s.verifier)
  if result = .timeout then endSession { s with verifier := verifier }
  else pure { s with verifier := verifier }

def sendChallenge (s : MainState) : MainProg MainState := do
  let sent ← Prog.ask (MainCall.frameSend AUTH_FRAME_REQUEST (s.out.payload.take SIMPLE_REQUEST_LEN) 100)
  if sent then do
    let now ← Prog.ask MainCall.getTick
    pure { s with lastSession := now }
  else do
    let verifier ← Prog.ask (MainCall.cancel s.verifier)
    Prog.ask (MainCall.reportError AuthError.uartTx.code)
    let now ← Prog.ask MainCall.getTick
    pure { s with verifier := verifier, lastSession := now }

/-- `none` behind `board_fatal`, which does not return. -/
def startSession (s : MainState) : MainProg (Option MainState) := do
  let (verifier, payload, n) ← Prog.ask (MainCall.challenge s.verifier s.out.payload)
  if n = 0 then do
    Prog.ask MainCall.fatal
    pure none
  else do
    let s ← sendChallenge { s with verifier := verifier, out := { s.out with payload := payload } }
    pure (some s)

def schedule (s : MainState) : MainProg (Option MainState) := do
  let s ← pollSession s
  if s.verifier.outstanding then pure (some s)
  else do
    let now ← Prog.ask MainCall.getTick
    if authExpired now s.lastSession AUTH_INTERVAL_MS then startSession s else pure (some s)

def dispatch (s : MainState) : MainProg MainState :=
  if s.out.type = AUTH_FRAME_DIAGNOSTIC then do
    Prog.ask (MainCall.reportError AuthError.frameType.code)
    pure s
  else if s.out.type ≠ AUTH_FRAME_RESPONSE then do
    Prog.ask (MainCall.reportError AuthError.frameType.code)
    pure s
  else do
    let (verifier, result) ← Prog.ask (MainCall.verify s.verifier (s.out.payload.take s.out.length))
    if result = .pass ∨ result = .mismatch ∨ result = .timeout then
      endSession { s with verifier := verifier }
    else pure { s with verifier := verifier }

def receive (s : MainState) : MainProg MainState := do
  let received ← Prog.ask MainCall.read
  match received with
  | .error => do
    Prog.ask (MainCall.reportError AuthError.uartRx.code)
    pure { s with receiver := { s.receiver with discard := true } }
  | .none => pure s
  | .byte b => do
    let now ← Prog.ask MainCall.getTick
    let (receiver, framed, out) := authFrameFeed s.receiver b now AUTH_FRAME_TIMEOUT_MS s.out
    let s := { s with receiver := receiver, out := out }
    if framed < 0 then do
      Prog.ask (MainCall.reportError AuthError.frame.code)
      pure s
    else if framed = 0 then pure s
    else dispatch s

/-- So many iterations of the endless loop. -/
def mainLoop : ℕ → MainState → MainProg Unit
  | 0, _ => pure ()
  | n + 1, s => do
    let scheduled ← schedule s
    match scheduled with
    | none => pure ()
    | some s => do
      let s ← receive s
      mainLoop n s

/-- `type`, `payload` and `length` are what the stack held. -/
def mainVerifier (n : ℕ) (type : UInt8) (payload : Bytes SIMPLE_REQUEST_LEN) (length : ℕ) :
    MainProg Unit := do
  let started ← Prog.ask MainCall.boardInit
  if !started then Prog.ask MainCall.fatal
  else do
    let (verifier, ready) ← Prog.ask (MainCall.initVerifier AUTH_TIMEOUT_MS)
    if !ready then Prog.ask MainCall.fatal
    else do
      let now ← Prog.ask MainCall.getTick
      mainLoop n ⟨verifier, .zero, ⟨type, payload.data, length⟩, now - (AUTH_INTERVAL_MS - 2000)⟩

/-- True time never goes back, and `now_ms` shows it modulo 2^32. -/
def clockDevice : Device PlatformCall PlatformCall.Reply ℕ where
  answers
    | .nowMs, s, r, t => s ≤ t ∧ ∃ u, s ≤ u ∧ u ≤ t ∧ r = .ofNat u
    | _, s, _, t => s ≤ t
  tears _ _ _ := False

structure TimedCall where
  call : MainCall
  reply : call.Reply
  inner : List PlatformEvent
  entered : ℕ
  left : ℕ

structure MainLog where
  now : ℕ
  calls : List TimedCall

/-- What the parts of the program answer. `HAL_GetTick` is what `now_ms` returns. -/
def Performs (tc : TinyCrypt) : (c : MainCall) → c.Reply → List PlatformEvent → Prop
  | .initVerifier timeoutMs, r, es => Traced (initVerifier .zero allCallbacks timeoutMs) es r
  | .getTick, r, es => es = [⟨.nowMs, r⟩]
  | .poll v, r, es => Traced (verifierPoll v) es r
  | .challenge v payload, r, es => Traced (verifierChallenge tc v payload) es r
  | .verify v response, r, es => Traced (verify tc v response) es r
  | .cancel v, r, es => es = [] ∧ r = verifierCancel v
  | .frameSend type payload timeoutMs, r, es => es = [] ∧ ∃ stack writes,
      Traced (authFrameSend true type payload timeoutMs stack) writes r
  | .boardInit, _, es | .read, _, es | .reportError _, _, es | .fatal, _, es => es = []

def mainDevice (tc : TinyCrypt) : Device MainCall MainCall.Reply MainLog where
  answers c s r t := ∃ inner entered last left, s.now ≤ entered ∧ last ≤ left ∧
    Performs tc c r inner ∧ Follows clockDevice entered inner last ∧
    t = ⟨left, s.calls ++ [⟨c, r, inner, entered, left⟩]⟩
  tears _ _ _ := False

def TimedCall.settles : TimedCall → Bool
  | ⟨.poll _, (_, result), _, _, _⟩ => result = .timeout
  | ⟨.verify _ _, (_, result), _, _, _⟩ => result = .pass ∨ result = .mismatch ∨ result = .timeout
  | ⟨.cancel _, _, _, _, _⟩ => true
  | ⟨.challenge _ _, (_, _, n), _, _, _⟩ => n ≠ 0
  | _ => false

def TimedCall.challenges (e : TimedCall) : Bool :=
  match e.call with
  | .challenge _ _ => true
  | _ => false

def TimedCall.refused : TimedCall → Bool
  | ⟨.challenge _ _, (_, _, n), _, _, _⟩ => n = 0
  | _ => false

def TimedCall.halts (e : TimedCall) : Bool :=
  match e.call with
  | .fatal => true
  | _ => false

inductive Hindered (tc : TinyCrypt) (v : Verifier) (es : List PlatformEvent) : Prop where
  | counter (h : v.material.counter = UINT32_MAX)
  | random (h : (⟨.random 16, none⟩ : PlatformEvent) ∈ es)
  | hmac {nonce : Bytes 16} (drew : Drew es nonce)
      (h : cryptoHmacCompute tc v.material.kAuth.data (challengeBytes v nonce) = none)
  | save (h : Failed es)

def TimedCall.Proper (tc : TinyCrypt) : TimedCall → Prop
  | ⟨.challenge v _, (_, _, n), inner, _, _⟩ =>
    v.ready = true ∧ v.outstanding = false ∧ (n = 0 → Hindered tc v inner)
  | _ => True

structure Scheduled (tc : TinyCrypt) (calls : List TimedCall) : Prop where
  proper : ∀ e ∈ calls, e.Proper tc
  /-- The interval in true time, from the end of any session and the issue of any challenge. -/
  spaced : calls.Pairwise fun a e =>
    a.settles = true → e.challenges = true → a.left + AUTH_INTERVAL_MS.toNat ≤ e.entered
  halted : calls.IsChain fun a e => a.halts = false ∧ (a.refused = true → e.halts = true)

structure Running (tc : TinyCrypt) (log : MainLog) : Prop where
  scheduled : Scheduled tc log.calls
  past : ∀ e ∈ log.calls, e.left ≤ log.now
  going : ∀ e ∈ log.calls, e.halts = false ∧ e.refused = false

/-- Whatever ended, ended by the time that `lastSession` shows. -/
def Waits (lastSession : UInt32) (log : MainLog) : Prop :=
  (∀ a ∈ log.calls, a.settles = false) ∨ ∃ shown, lastSession = .ofNat shown ∧ shown ≤ log.now ∧
    ∀ a ∈ log.calls, a.settles = true → a.left ≤ shown

/-- Later, and nothing has ended since. -/
structure Calm (log later : MainLog) : Prop where
  order : log.now ≤ later.now
  ended : ∀ a ∈ later.calls, a.settles = true → a ∈ log.calls

section
variable {tc : TinyCrypt} {log later : MainLog} {e : TimedCall} {lastSession : UInt32}

theorem follows_le {s t : ℕ} {es : List PlatformEvent} (h : Follows clockDevice s es t) : s ≤ t := by
  induction es generalizing s with
  | nil => exact Nat.le_of_eq h.symm
  | cons e es ih =>
    obtain ⟨u, answered, rest⟩ := h
    have first : s ≤ u := by
      obtain ⟨call, reply⟩ := e
      cases call with
      | nowMs => exact answered.1
      | _ => exact answered
    exact first.trans (ih rest)

theorem scheduled_snoc {calls : List TimedCall} (h : Scheduled tc calls) (proper : e.Proper tc)
    (spaced : e.challenges = true → ∀ a ∈ calls, a.settles = true →
      a.left + AUTH_INTERVAL_MS.toNat ≤ e.entered)
    (link : ∀ a ∈ calls.getLast?, a.halts = false ∧ (a.refused = true → e.halts = true)) :
    Scheduled tc (calls ++ [e]) where
  proper := List.forall_mem_append.mpr ⟨h.proper, List.forall_mem_singleton.mpr proper⟩
  spaced := by
    refine List.pairwise_append.mpr ⟨h.spaced, List.pairwise_singleton _ _, ?_⟩
    intro a ha b hb settles challenges
    obtain rfl := List.mem_singleton.mp hb
    exact spaced challenges a ha settles
  halted := by
    refine List.isChain_append.mpr ⟨h.halted, .singleton e, ?_⟩
    intro a ha b hb
    obtain rfl := Option.some.inj hb
    exact link a ha

theorem running_link (h : Running tc log) : ∀ a ∈ log.calls.getLast?,
    a.halts = false ∧ (a.refused = true → e.halts = true) := by
  intro a ha
  obtain ⟨going, accepted⟩ := h.going a (List.mem_of_getLast? ha)
  exact ⟨going, fun refused => by simp [accepted] at refused⟩

theorem running_snoc (h : Running tc log) (e : TimedCall) (order : log.now ≤ e.left) (proper : e.Proper tc)
    (spaced : e.challenges = true → ∀ a ∈ log.calls, a.settles = true →
      a.left + AUTH_INTERVAL_MS.toNat ≤ e.entered) (going : e.halts = false ∧ e.refused = false) :
    Running tc ⟨e.left, log.calls ++ [e]⟩ where
  scheduled := scheduled_snoc h.scheduled proper spaced (running_link h)
  past := List.forall_mem_append.mpr ⟨fun a ha => (h.past a ha).trans order,
    List.forall_mem_singleton.mpr (Nat.le_refl _)⟩
  going := List.forall_mem_append.mpr ⟨h.going, List.forall_mem_singleton.mpr going⟩

theorem calm_snoc (e : TimedCall) (order : log.now ≤ e.left) (quiet : e.settles = false) :
    Calm log ⟨e.left, log.calls ++ [e]⟩ where
  order := order
  ended := by
    intro a ha settles
    rcases List.mem_append.mp ha with ha | ha
    · exact ha
    · obtain rfl := List.mem_singleton.mp ha
      rw [quiet] at settles
      cases settles

theorem waits_calm (h : Waits lastSession log) (calm : Calm log later) : Waits lastSession later := by
  rcases h with none_ | ⟨shown, rfl, past, ended⟩
  · refine Or.inl fun a ha => ?_
    rw [← Bool.not_eq_true]
    intro settles
    rw [none_ a (calm.ended a ha settles)] at settles
    cases settles
  · exact Or.inr ⟨shown, rfl, past.trans calm.order,
      fun a ha settles => ended a (calm.ended a ha settles) settles⟩

theorem waits_now {shown : ℕ} (h : Running tc log) (calm : Calm log later) (first : log.now ≤ shown)
    (last : shown ≤ later.now) : Waits (.ofNat shown) later :=
  Or.inr ⟨shown, rfl, last, fun a ha settles => (h.past a (calm.ended a ha settles)).trans first⟩

/-- The wrapped comparison is never early. -/
theorem waits_expired {shown : ℕ} (h : Waits lastSession log) (after : log.now ≤ shown)
    (expired : authExpired (.ofNat shown) lastSession AUTH_INTERVAL_MS = true) :
    ∀ a ∈ log.calls, a.settles = true → a.left + AUTH_INTERVAL_MS.toNat ≤ shown := by
  intro a ha settles
  rcases h with none_ | ⟨start, rfl, past, ended⟩
  · rw [none_ a ha] at settles
    cases settles
  · have long := (authExpired_ofNat start shown AUTH_INTERVAL_MS).mp expired
    have passed := start_add_le (by decide) (past.trans after) long
    have before := ended a ha settles
    omega

def MainCall.plain : MainCall → Bool
  | challenge _ _ | fatal => false
  | _ => true

abbrev SafeMain {α : Type} (tc : TinyCrypt) (p : MainProg α) (Q : α → MainLog → Prop) (log : MainLog) :
    Prop :=
  Safe (mainDevice tc) (fun _ _ => True) (fun log => Scheduled tc log.calls) p Q log

theorem safe_plain {α : Type} {c : MainCall} {f : c.Reply → MainProg α} {Q : α → MainLog → Prop}
    (run : Running tc log) (plain : c.plain = true)
    (next : ∀ r inner entered last left, log.now ≤ entered → last ≤ left → log.now ≤ left →
      Performs tc c r inner → Follows clockDevice entered inner last →
      Running tc ⟨left, log.calls ++ [⟨c, r, inner, entered, left⟩]⟩ →
      SafeMain tc (f r) Q ⟨left, log.calls ++ [⟨c, r, inner, entered, left⟩]⟩) :
    SafeMain tc (Prog.ask c >>= f) Q log := by
  refine ⟨run.scheduled, trivial, fun _ torn => torn.elim, ?_⟩
  rintro r _ ⟨inner, entered, last, left, order, late, performs, follows, rfl⟩
  have between := (order.trans (follows_le follows)).trans late
  refine next r inner entered last left order late between performs follows ?_
  have kinds : TimedCall.Proper tc ⟨c, r, inner, entered, left⟩ ∧
      TimedCall.challenges ⟨c, r, inner, entered, left⟩ = false ∧
      TimedCall.halts ⟨c, r, inner, entered, left⟩ = false ∧
      TimedCall.refused ⟨c, r, inner, entered, left⟩ = false := by
    cases c with
    | challenge | fatal => cases plain
    | _ => exact ⟨trivial, rfl, rfl, rfl⟩
  obtain ⟨proper, other, going⟩ := kinds
  refine running_snoc run ⟨c, r, inner, entered, left⟩ between proper ?_ going
  intro challenges
  rw [other] at challenges
  cases challenges

def MainCall.quiet : MainCall → Bool
  | poll _ | verify _ _ | cancel _ => false
  | c => c.plain

theorem safe_quiet_call {α : Type} {c : MainCall} {f : c.Reply → MainProg α} {Q : α → MainLog → Prop}
    (run : Running tc log) (quiet : c.quiet = true)
    (next : ∀ r inner later, Performs tc c r inner → Running tc later → Calm log later →
      SafeMain tc (f r) Q later) : SafeMain tc (Prog.ask c >>= f) Q log := by
  have plain : c.plain = true := by cases c <;> first | rfl | cases quiet
  refine safe_plain run plain fun r inner entered last left _ _ between performs _ running => ?_
  refine next r inner _ performs running (calm_snoc ⟨c, r, inner, entered, left⟩ between ?_)
  cases c with
  | challenge | fatal | poll | verify | cancel => cases quiet
  | _ => rfl

theorem safe_tick {α : Type} {f : UInt32 → MainProg α} {Q : α → MainLog → Prop}
    (run : Running tc log)
    (next : ∀ shown later, log.now ≤ shown → shown ≤ later.now → Running tc later → Calm log later →
      SafeMain tc (f (.ofNat shown)) Q later) :
    SafeMain tc (Prog.ask MainCall.getTick >>= f) Q log := by
  refine safe_plain run rfl
    fun r inner entered last left order late between performs follows running => ?_
  have calm := calm_snoc ⟨.getTick, r, inner, entered, left⟩ between rfl
  obtain rfl : inner = [⟨.nowMs, r⟩] := performs
  obtain ⟨_, ⟨-, shown, first, below, rfl⟩, rfl⟩ := follows
  exact next shown _ (order.trans first) (below.trans late) running calm

theorem ready_poll {v v' : Verifier} {result : VerifyResult} {es : List PlatformEvent}
    (traced : Traced (verifierPoll v) es (v', result)) : v'.ready = v.ready := by
  obtain ⟨readings, exec⟩ := total_exec anyDevice_total traced []
  have safe := safe_poll v [] anyDevice_quiet trivial (fun _ _ _ => trivial) clock_always
  cases safe_exec _ _ _ _ _ safe exec <;> rfl

theorem ready_verify {v v' : Verifier} {response : List UInt8} {result : VerifyResult}
    {es : List PlatformEvent} (traced : Traced (verify tc v response) es (v', result)) :
    v'.ready = v.ready := by
  obtain ⟨readings, exec⟩ := total_exec anyDevice_total traced []
  have safe := safe_verify tc v response [] anyDevice_quiet trivial (fun _ _ _ => trivial) clock_always
  cases safe_exec _ _ _ _ _ safe exec <;> rfl

theorem ready_init {v v' : Verifier} {platform : AuthPlatform} {timeoutMs : UInt32}
    {es : List PlatformEvent} (traced : Traced (initVerifier v platform timeoutMs) es (v', true)) :
    v'.ready = true := by
  obtain ⟨readings, exec⟩ := total_exec anyDevice_total traced []
  have safe := safe_initVerifier platform timeoutMs v [] anyDevice_quiet trivial
    (fun _ _ _ => trivial) trivial (fun _ _ => trivial) (fun _ _ _ => trivial)
  rcases safe_exec _ _ _ _ _ safe exec with ⟨-, same, -⟩ | ⟨-, loaded, -, same⟩
  · cases same
  · obtain ⟨rfl, ready⟩ := Prod.mk.inj same
    exact ready.symm

theorem hindered_challenge {v v' : Verifier} {out out' : List UInt8} {n : ℕ} {es : List PlatformEvent}
    (ready : v.ready = true) (idle : v.outstanding = false) (room : out.length = 84)
    (traced : Traced (verifierChallenge tc v out) es (v', out', n)) :
    n = 0 ∧ Hindered tc v es ∨ n ≠ 0 ∧ v'.ready = true ∧ out'.length = 84 := by
  have way := traced_challenge traced
  generalize hx : (v', out', n) = x at way
  cases way with
  | closed quiet h =>
    obtain ⟨rfl, rfl, rfl⟩ := hx
    rcases h with h | h | h | h
    · rw [ready] at h
      cases h
    · rw [idle] at h
      cases h
    · omega
    · exact Or.inl ⟨rfl, .counter h⟩
  | noRandom =>
    obtain ⟨rfl, rfl, rfl⟩ := hx
    exact Or.inl ⟨rfl, .random (by simp)⟩
  | noTag quiet computed =>
    obtain ⟨rfl, rfl, rfl⟩ := hx
    exact Or.inl ⟨rfl, .hmac (by simp [Drew]) computed⟩
  | uncommitted quiet failed =>
    obtain ⟨rfl, rfl, rfl⟩ := hx
    exact Or.inl ⟨rfl, .save ⟨_, _, saved_random.mpr (saved_cons.mpr (Or.inl ⟨rfl, rfl⟩)), failed⟩⟩
  | issued =>
    obtain ⟨rfl, rfl, rfl⟩ := hx
    exact Or.inr ⟨by decide, ready, by simp [challengeBytes, room]⟩

structure Going (tc : TinyCrypt) (s : MainState) (log : MainLog) : Prop where
  running : Running tc log
  ready : s.verifier.ready = true
  room : s.out.payload.length = 84

structure Settled (tc : TinyCrypt) (s : MainState) (log : MainLog) : Prop extends Going tc s log where
  waits : Waits s.lastSession log

variable {s : MainState}

theorem safe_endSession (h : Going tc s log) : SafeMain tc (endSession s) (Settled tc) log := by
  refine safe_tick h.running fun _ later _ _ running _ => ?_
  refine safe_tick running fun shown last first below running' calm => ?_
  exact ⟨running'.scheduled, ⟨running', h.ready, h.room⟩, waits_now running calm first below⟩

theorem safe_pollSession (h : Settled tc s log) : SafeMain tc (pollSession s) (Settled tc) log := by
  unfold pollSession
  refine safe_plain h.running rfl ?_
  rintro ⟨v, result⟩ inner entered last left - - between performs - running
  have ready := (ready_poll performs).trans h.ready
  change SafeMain tc (if result = .timeout then _ else _) _ _
  split
  · exact safe_endSession ⟨running, ready, h.room⟩
  · rename_i waiting
    have calm := calm_snoc ⟨.poll s.verifier, (v, result), inner, entered, left⟩ between
      (decide_eq_false waiting)
    exact ⟨running.scheduled, ⟨running, ready, h.room⟩, waits_calm h.waits calm⟩

theorem safe_sendChallenge (h : Going tc s log) : SafeMain tc (sendChallenge s) (Settled tc) log := by
  unfold sendChallenge
  refine safe_quiet_call h.running rfl fun sent _ sentLog _ running _ => ?_
  split
  · refine safe_tick running fun shown last first below running' calm => ?_
    exact ⟨running'.scheduled, ⟨running', h.ready, h.room⟩, waits_now running calm first below⟩
  · refine safe_plain running rfl fun v inner entered last left _ _ _ performs _ running => ?_
    obtain ⟨-, rfl⟩ := performs
    refine safe_quiet_call running rfl fun _ _ reported _ running _ => ?_
    refine safe_tick running fun shown last first below running' calm => ?_
    exact ⟨running'.scheduled, ⟨running', h.ready, h.room⟩, waits_now running calm first below⟩

theorem safe_startSession (h : Going tc s log) (idle : s.verifier.outstanding = false)
    (spaced : ∀ a ∈ log.calls, a.settles = true → a.left + AUTH_INTERVAL_MS.toNat ≤ log.now) :
    SafeMain tc (startSession s) (fun r later => ∀ s' ∈ r, Settled tc s' later) log := by
  refine ⟨h.running.scheduled, trivial, fun _ torn => torn.elim, ?_⟩
  rintro ⟨v, payload, n⟩ _ ⟨inner, entered, last, left, order, late, performs, follows, rfl⟩
  have between := (order.trans (follows_le follows)).trans late
  have far : ∀ a ∈ log.calls, a.settles = true → a.left + AUTH_INTERVAL_MS.toNat ≤ entered :=
    fun a ha settles => (spaced a ha settles).trans order
  have way := hindered_challenge h.ready idle h.room performs
  have proper : TimedCall.Proper tc
      ⟨.challenge s.verifier s.out.payload, (v, payload, n), inner, entered, left⟩ := by
    refine ⟨h.ready, idle, fun zero => ?_⟩
    rcases way with ⟨-, hindered⟩ | ⟨some_, -⟩
    · exact hindered
    · exact absurd zero some_
  change SafeMain tc (if n = 0 then _ else _) _ _
  rcases way with ⟨rfl, -⟩ | ⟨some_, ready, room⟩
  · have scheduled := scheduled_snoc h.running.scheduled proper (fun _ => far) (running_link h.running)
    rw [if_pos rfl]
    refine ⟨scheduled, trivial, fun _ torn => torn.elim, ?_⟩
    rintro r _ ⟨inner', entered', last', left', -, -, -, -, rfl⟩
    refine ⟨scheduled_snoc scheduled trivial (fun fatal => by cases fatal) ?_, fun _ none_ => by cases none_⟩
    intro a ha
    rw [List.getLast?_concat] at ha
    obtain rfl := Option.some.inj ha
    exact ⟨rfl, fun _ => rfl⟩
  · rw [if_neg some_]
    have running := running_snoc h.running
      ⟨.challenge s.verifier s.out.payload, (v, payload, n), inner, entered, left⟩ between proper
      (fun _ => far) ⟨rfl, decide_eq_false some_⟩
    refine safe_then (safe_sendChallenge ⟨running, ready, room⟩) fun s' later settled scheduled => ?_
    refine ⟨scheduled, fun _ here => ?_⟩
    obtain rfl := Option.some.inj here
    exact settled

theorem safe_schedule (h : Settled tc s log) :
    SafeMain tc (schedule s) (fun r later => ∀ s' ∈ r, Settled tc s' later) log := by
  unfold schedule
  refine safe_then (safe_pollSession h) fun s' polled settled _ => ?_
  have keep : ∀ later, Running tc later → Calm polled later →
      SafeMain tc (pure (some s')) (fun r later => ∀ s' ∈ r, Settled tc s' later) later := by
    refine fun later running calm => ⟨running.scheduled, fun _ here => ?_⟩
    obtain rfl := Option.some.inj here
    exact ⟨⟨running, settled.ready, settled.room⟩, waits_calm settled.waits calm⟩
  split
  · exact keep polled settled.running ⟨Nat.le_refl _, fun _ ha _ => ha⟩
  · rename_i closed
    refine safe_tick settled.running fun shown later first below running calm => ?_
    split
    · rename_i expired
      refine safe_startSession ⟨running, settled.ready, settled.room⟩ (by simpa using closed) ?_
      intro a ha ends
      exact (waits_expired settled.waits first expired a (calm.ended a ha ends) ends).trans below
    · exact keep later running calm

theorem safe_report (h : Settled tc s log) (code : ℕ) :
    SafeMain tc (Prog.ask (MainCall.reportError code) >>= fun _ => pure s) (Settled tc) log := by
  refine safe_quiet_call h.running rfl fun _ _ later _ running calm => ?_
  exact ⟨running.scheduled, ⟨running, h.ready, h.room⟩, waits_calm h.waits calm⟩

theorem safe_dispatch (h : Settled tc s log) : SafeMain tc (dispatch s) (Settled tc) log := by
  unfold dispatch
  split
  · exact safe_report h _
  · split
    · exact safe_report h _
    · refine safe_plain h.running rfl ?_
      rintro ⟨v, result⟩ inner entered last left - - between performs - running
      have ready := (ready_verify performs).trans h.ready
      change SafeMain tc (if result = .pass ∨ result = .mismatch ∨ result = .timeout then _ else _) _ _
      split
      · exact safe_endSession ⟨running, ready, h.room⟩
      · rename_i rejected
        have calm := calm_snoc ⟨.verify s.verifier (s.out.payload.take s.out.length),
          (v, result), inner, entered, left⟩ between (decide_eq_false rejected)
        exact ⟨running.scheduled, ⟨running, ready, h.room⟩, waits_calm h.waits calm⟩

theorem safe_receive (h : Settled tc s log) : SafeMain tc (receive s) (Settled tc) log := by
  unfold receive
  refine safe_quiet_call h.running rfl fun received _ later _ running calm => ?_
  have waits := waits_calm h.waits calm
  cases received with
  | error =>
    exact safe_report (s := { s with receiver := { s.receiver with discard := true } })
      ⟨⟨running, h.ready, h.room⟩, waits⟩ _
  | none => exact ⟨running.scheduled, ⟨running, h.ready, h.room⟩, waits⟩
  | byte b =>
    refine safe_tick running fun shown later' _ _ running' calm' => ?_
    have room := @feed_room s.receiver b (.ofNat shown) AUTH_FRAME_TIMEOUT_MS s.out (by decide)
    generalize fed : authFrameFeed s.receiver b (.ofNat shown) AUTH_FRAME_TIMEOUT_MS s.out = x at room ⊢
    obtain ⟨receiver, framed, out⟩ := x
    have settled : Settled tc { s with receiver := receiver, out := out } later' :=
      ⟨⟨running', h.ready, room.trans h.room⟩, waits_calm waits calm'⟩
    dsimp only
    split
    · exact safe_report settled _
    · split
      · exact ⟨running'.scheduled, settled⟩
      · exact safe_dispatch settled

theorem safe_mainLoop (n : ℕ) (h : Settled tc s log) :
    SafeMain tc (mainLoop n s) (fun _ _ => True) log := by
  induction n generalizing s log with
  | zero => exact ⟨h.running.scheduled, trivial⟩
  | succ n ih =>
    rw [mainLoop]
    refine safe_then (safe_schedule h) ?_
    rintro (_ | s') later settled scheduled
    · exact ⟨scheduled, trivial⟩
    · exact safe_then (safe_receive (settled s' rfl)) fun _ _ settled _ => ih settled

theorem safe_fatal (h : Running tc log) : SafeMain tc (Prog.ask MainCall.fatal) (fun _ _ => True) log := by
  refine ⟨h.scheduled, trivial, fun _ torn => torn.elim, ?_⟩
  rintro _ _ ⟨inner, entered, last, left, -, -, -, -, rfl⟩
  refine ⟨scheduled_snoc h.scheduled trivial (fun fatal => by cases fatal) ?_, trivial⟩
  exact fun a ha => ⟨(running_link (e := ⟨.fatal, (), inner, entered, left⟩) h a ha).1, fun _ => rfl⟩

theorem safe_mainVerifier (n : ℕ) (type : UInt8) (payload : Bytes SIMPLE_REQUEST_LEN) (length start : ℕ) :
    SafeMain tc (mainVerifier n type payload length) (fun _ _ => True) ⟨start, []⟩ := by
  have empty : Running tc ⟨start, []⟩ :=
    ⟨⟨by simp, .nil, .nil⟩, by simp, by simp⟩
  unfold mainVerifier
  refine safe_quiet_call empty rfl fun started _ booted _ running calm => ?_
  split
  · exact safe_fatal running
  · refine safe_quiet_call running rfl ?_
    rintro ⟨v, ready⟩ _ loaded performs running' calm'
    change SafeMain tc (if !ready then _ else _) _ _
    split
    · exact safe_fatal running'
    · rename_i accepted
      obtain rfl : ready = true := by simpa using accepted
      refine safe_tick running' fun shown later _ _ running'' calm'' => ?_
      refine safe_mainLoop n ⟨⟨running'', ready_init performs, payload.length_data⟩, ?_⟩
      have none_ : Waits (.ofNat shown - (AUTH_INTERVAL_MS - 2000)) ⟨start, []⟩ := Or.inl (by simp)
      exact waits_calm (waits_calm (waits_calm none_ calm) calm') calm''

end

/-- Every moment of every run of the loop. -/
theorem session_schedule (tc : TinyCrypt) (n : ℕ) (type : UInt8) (payload : Bytes SIMPLE_REQUEST_LEN)
    (length start : ℕ) (log : MainLog)
    (run : Cut (mainDevice tc) (mainVerifier n type payload length) ⟨start, []⟩ log) :
    Scheduled tc log.calls :=
  safe_cut (K := fun log => Scheduled tc log.calls) _ _ _ _
    (safe_mainVerifier n type payload length start) run

section
variable {tc : TinyCrypt}

theorem follows_still (t : ℕ) (es : List PlatformEvent)
    (shown : ∀ now, (⟨.nowMs, now⟩ : PlatformEvent) ∈ es → now = .ofNat t) :
    Follows clockDevice t es t := by
  induction es with
  | nil => rfl
  | cons e es ih =>
    refine ⟨t, ?_, ih fun now here => shown now (List.mem_cons_of_mem e here)⟩
    obtain ⟨call, reply⟩ := e
    cases call with
    | nowMs => exact ⟨Nat.le_refl t, t, Nat.le_refl t, Nat.le_refl t, shown reply List.mem_cons_self⟩
    | _ => exact Nat.le_refl t

theorem cut_instant {α : Type} {c : MainCall} {f : c.Reply → MainProg α} {log final : MainLog}
    (t : ℕ) (r : c.Reply) (inner : List PlatformEvent) (order : log.now ≤ t)
    (performs : Performs tc c r inner)
    (shown : ∀ now, (⟨.nowMs, now⟩ : PlatformEvent) ∈ inner → now = .ofNat t)
    (rest : Cut (mainDevice tc) (f r) ⟨t, log.calls ++ [⟨c, r, inner, t, t⟩]⟩ final) :
    Cut (mainDevice tc) (Prog.ask c >>= f) log final :=
  Or.inr (Or.inr ⟨r, _, ⟨inner, t, t, t, order, Nat.le_refl t, performs,
    follows_still t inner shown, rfl⟩, rest⟩)

theorem cut_tick {α : Type} {f : UInt32 → MainProg α} {log final : MainLog} (t : ℕ)
    (order : log.now ≤ t) (rest : Cut (mainDevice tc) (f (.ofNat t))
      ⟨t, log.calls ++ [⟨.getTick, .ofNat t, [⟨.nowMs, .ofNat t⟩], t, t⟩]⟩ final) :
    Cut (mainDevice tc) (Prog.ask MainCall.getTick >>= f) log final := by
  refine cut_instant t (.ofNat t) [⟨.nowMs, .ofNat t⟩] order rfl ?_ rest
  intro now here
  simpa using here

theorem unsent (type : UInt8) (payload : List UInt8) (timeoutMs : UInt32) (stack : Bytes AUTH_FRAME_MAX) :
    ∃ writes, Traced (authFrameSend true type payload timeoutMs stack) writes false := by
  unfold authFrameSend
  split
  · exact ⟨[], rfl, rfl⟩
  · dsimp only
    split
    · exact ⟨[], rfl, rfl⟩
    · exact ⟨_, (0 : ℤ), [], rfl, rfl, rfl⟩

theorem polls_idle {v : Verifier} (idle : v.outstanding = false) :
    Traced (verifierPoll v) [] (v, .idle) := by
  rw [verifierPoll, if_pos (by simp [idle])]
  exact ⟨rfl, rfl⟩

theorem cut_schedule {α : Type} {s : MainState} {f : Option MainState → MainProg α} {log final : MainLog}
    (t : ℕ) (idle : s.verifier.outstanding = false) (order : log.now ≤ t)
    (expired : authExpired (.ofNat t) s.lastSession AUTH_INTERVAL_MS = true)
    (rest : Cut (mainDevice tc) (startSession s >>= f)
      ⟨t, log.calls ++ [⟨.poll s.verifier, (s.verifier, .idle), [], t, t⟩] ++
        [⟨.getTick, .ofNat t, [⟨.nowMs, .ofNat t⟩], t, t⟩]⟩ final) :
    Cut (mainDevice tc) (schedule s >>= f) log final := by
  refine cut_instant t (s.verifier, .idle) [] order (polls_idle idle) (by simp) ?_
  have closed : ¬ s.verifier.outstanding = true := by simp [idle]
  change Cut _ ((if s.verifier.outstanding = true then _ else _) >>= f) _ _
  rw [if_neg closed]
  refine cut_tick t (Nat.le_refl t) ?_
  change Cut _ ((if authExpired (.ofNat t) s.lastSession AUTH_INTERVAL_MS = true then _ else _) >>= f) _ _
  rw [if_pos expired]
  exact rest

theorem challenge_instant {v : Verifier} {out : List UInt8} (t : ℕ) (ready : v.ready = true)
    (idle : v.outstanding = false) (room : out.length = 84) (below : v.material.counter ≠ UINT32_MAX) :
    ∃ v' out' inner, Traced (verifierChallenge referenceTinyCrypt v out) inner (v', out', 84) ∧
      (∀ now, (⟨.nowMs, now⟩ : PlatformEvent) ∈ inner → now = .ofNat t) ∧ v'.ready = true ∧
      v'.material.counter = v.material.counter + 1 ∧ out'.length = 84 := by
  have short : (challengeBytes v (.fill 16 0)).length ≤ UINT_MAX := by
    simp [challengeBytes]
    decide
  have computed := hmacCompute_bytes reference_computes v.material.kAuth short
  obtain ⟨rest, quiet, run⟩ := @issues_traced _ v out _ _ 1 (.ofNat t) ready idle room.ge below
    computed (by decide)
  rcases hindered_challenge ready idle room run with ⟨zero, -⟩ | ⟨-, -, room'⟩
  · cases zero
  refine ⟨_, _, _, run, ?_, ready, rfl, room'⟩
  intro now here
  simp only [List.mem_cons, Event.mk.injEq, reduceCtorEq, false_and, false_or, heq_eq_eq,
    true_and] at here
  rcases here with here | here
  · exact here
  · have no := quiet _ here
    cases no

end

/-- The first request cannot be sent; the next one waits a minute. -/
theorem session_schedule_small : ∃ log : MainLog, Scheduled referenceTinyCrypt log.calls ∧
    (log.calls.filter TimedCall.challenges).map TimedCall.entered = [2000, 62000] := by
  have boot : Traced (initVerifier .zero allCallbacks AUTH_TIMEOUT_MS)
      [⟨.load, some smallVerifier.material⟩, ⟨.ui .ready, ()⟩] (smallVerifier, true) :=
    ⟨_, _, rfl, _, _, rfl, rfl, rfl⟩
  obtain ⟨v, out, inner, issued, shown, ready, counter, room⟩ := @challenge_instant smallVerifier
    (List.replicate 84 0) 2000 rfl rfl (by simp) (by decide)
  obtain ⟨v', out', inner', issued', shown', -⟩ := @challenge_instant (verifierCancel v) out 62000
    ready rfl room (by rw [show (verifierCancel v).material = v.material from rfl, counter]; decide)
  obtain ⟨writes, unsent⟩ := unsent AUTH_FRAME_REQUEST (out.take SIMPLE_REQUEST_LEN) 100 (.fill 88 0)
  have run : ∃ log : MainLog, Cut (mainDevice referenceTinyCrypt) (mainVerifier 2 0 (.fill 84 0) 0) ⟨0, []⟩ log ∧
      (log.calls.filter TimedCall.challenges).map TimedCall.entered = [2000, 62000] := by
    refine ⟨?log, ?run, ?_⟩
    case run =>
      refine cut_instant 0 true [] (Nat.le_refl 0) rfl (by simp) ?_
      refine cut_instant 0 (smallVerifier, true) _ (Nat.le_refl 0) boot (by simp) ?_
      refine cut_tick 0 (Nat.le_refl 0) ?_
      refine cut_schedule 2000 rfl (Nat.zero_le 2000) (by decide) ?_
      refine cut_instant 2000 (v, out, 84) inner (Nat.le_refl 2000) issued shown ?_
      refine cut_instant 2000 false [] (Nat.le_refl 2000) ⟨rfl, _, writes, unsent⟩ (by simp) ?_
      refine cut_instant 2000 (verifierCancel v) [] (Nat.le_refl 2000) ⟨rfl, rfl⟩ (by simp) ?_
      refine cut_instant 2000 () [] (Nat.le_refl 2000) rfl (by simp) ?_
      refine cut_tick 2000 (Nat.le_refl 2000) ?_
      refine cut_instant 2000 .none [] (Nat.le_refl 2000) rfl (by simp) ?_
      refine cut_schedule 62000 rfl (show 2000 ≤ 62000 by decide) (show authExpired (.ofNat 62000)
        (.ofNat 2000) AUTH_INTERVAL_MS = true by decide) ?_
      refine cut_instant 62000 (v', out', 84) inner' (Nat.le_refl 62000) issued' shown' ?_
      exact cut_here _ _
    rfl
  obtain ⟨log, run, spaced⟩ := run
  exact ⟨log, session_schedule referenceTinyCrypt 2 0 (.fill 84 0) 0 0 log run, spaced⟩

end SimpleAttestation.VerifierLoop
