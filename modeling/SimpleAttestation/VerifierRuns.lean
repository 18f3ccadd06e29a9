import SimpleAttestation.VerifierSession
import SimpleAttestation.Runs

set_option autoImplicit false

/-!
# Any sequence of operations of the verifier

An event is what the caller of an operation and the clock it reads can see. The sessions
of a run are read off its events alone, and the state of the verifier is compared with
them.
-/
namespace SimpleAttestation.VerifierRuns
open ByteStrings Wire Crypto CallProgram Runs Platform VerifierSession

inductive VerifierOp where
  | init (platform : AuthPlatform) (timeoutMs : UInt32)
  | challenge (out : List UInt8)
  | verify (response : List UInt8)
  | poll
  | cancel

inductive Answer where
  | loaded (ok : Bool)
  | request (out : List UInt8) (len : ℕ)
  | result (r : VerifyResult)
  | none

def runOp (tc : TinyCrypt) (v : Verifier) : VerifierOp → PlatformProg (Verifier × Answer)
  | .init platform timeoutMs => do
    let (v, ok) ← initVerifier v platform timeoutMs
    pure (v, .loaded ok)
  | .challenge out => do
    let (v, out, len) ← verifierChallenge tc v out
    pure (v, .request out len)
  | .verify response => do
    let (v, r) ← verify tc v response
    pure (v, .result r)
  | .poll => do
    let (v, r) ← verifierPoll v
    pure (v, .result r)
  | .cancel => pure (verifierCancel v, .none)

structure VerifierEvent where
  op : VerifierOp
  answer : Answer
  readings : List UInt32

/-- Every callback answers as it likes; the state is what the clock has read. -/
def anyDevice : Device PlatformCall PlatformCall.Reply (List UInt32) where
  answers
    | .nowMs, s, r, t => t = s ++ [r]
    | _, s, _, t => t = s
  tears _ _ _ := False

def VerifierStep (tc : TinyCrypt) (v : Verifier) (e : VerifierEvent) (v' : Verifier) : Prop :=
  Exec anyDevice (runOp tc v e.op) [] (v', e.answer) e.readings

inductive Closing where
  | pass | mismatch | timeout | cancel | restart
deriving DecidableEq

/-- A returned request, the clock reading of its challenge, and all it was closed by. -/
structure Session where
  request : List UInt8
  startedMs : UInt32
  closings : List Closing

def addClosing (c : Closing) : List Session → List Session
  | [] => [⟨[], 0, [c]⟩]
  | s :: rest => { s with closings := s.closings ++ [c] } :: rest

/-- Cancelling or restarting closes an open session and is nothing to a closed one. -/
def closeOpen (c : Closing) : List Session → List Session
  | [] => []
  | s :: rest => if s.closings = [] then addClosing c (s :: rest) else s :: rest

/-- Newest session first. -/
def noteEvent (sessions : List Session) (e : VerifierEvent) : List Session :=
  match e.op, e.answer with
  | .init platform timeoutMs, _ =>
    if initAccepts platform timeoutMs then closeOpen .restart sessions else sessions
  | .challenge _, .request out len =>
    if len = SIMPLE_REQUEST_LEN then
      ⟨out.take SIMPLE_REQUEST_LEN, e.readings.getLastD 0, []⟩ :: sessions
    else sessions
  | .cancel, _ => closeOpen .cancel sessions
  | _, .result .pass => addClosing .pass sessions
  | _, .result .mismatch => addClosing .mismatch sessions
  | _, .result .timeout => addClosing .timeout sessions
  | _, _ => sessions

def sessionsOf (es : List VerifierEvent) : List Session := es.foldl noteEvent []

def isOpen : List Session → Bool
  | [] => false
  | s :: _ => s.closings.isEmpty

structure Coherent (v : Verifier) (sessions : List Session) : Prop where
  once : ∀ s ∈ sessions, s.closings.length ≤ 1
  outstanding : v.outstanding = isOpen sessions
  ready : v.outstanding = true → v.ready = true
  newest : v.outstanding = true → ∃ s rest, sessions = s :: rest ∧
    s.request.length = 84 ∧ v.material.counter = simpleGetU32 s.request ∧
    v.nonce = bytesAt 16 s.request 36 ∧ v.startedMs = s.startedMs
  idle : v.outstanding = false → v.nonce = .fill 16 0

def Answers (tc : TinyCrypt) (v : Verifier) (response : List UInt8) (r : UInt8) : Prop :=
  ∃ tag : Bytes 32, response = r :: tag.data ∧
    cryptoHmacCompute tc v.material.kAuth.data
      (r :: (simplePutU32 v.material.counter ++ v.nonce.data)) = some tag

theorem anyDevice_quiet : Quiet anyDevice := by
  intro c s hc
  cases c with
  | load | saveCounter _ | nowMs => cases hc
  | _ => exact ⟨fun _ h => h.elim, fun _ _ h => h⟩

theorem anyDevice_total (c : PlatformCall) (s : List UInt32) (r : c.Reply) :
    ∃ t, anyDevice.answers c s r t := by
  cases c with
  | nowMs => exact ⟨_, rfl⟩
  | _ => exact ⟨s, rfl⟩

theorem genuine_iff {tc : TinyCrypt} {v : Verifier} {response : List UInt8} {r : UInt8} :
    Genuine tc v response r ↔ (r = 0 ∨ r = 1) ∧ Answers tc v response r := by
  have small : r ≤ 1 ↔ r = 0 ∨ r = 1 := by
    rw [UInt8.le_iff_toNat_le, ← UInt8.toNat_inj, ← UInt8.toNat_inj]
    change r.toNat ≤ 1 ↔ r.toNat = 0 ∨ r.toNat = 1
    omega
  constructor
  · rintro ⟨le, input, tag, auth, computed, bytes⟩
    obtain ⟨input', auth', data⟩ := reportAuth_eq v.material.counter v.nonce le
    obtain rfl := Option.some.inj (auth'.symm.trans auth)
    rw [data] at computed
    exact ⟨small.mp le, tag, bytes, computed⟩
  · rintro ⟨bin, tag, bytes, computed⟩
    have le := small.mpr bin
    obtain ⟨input, auth, data⟩ := reportAuth_eq v.material.counter v.nonce le
    exact ⟨le, input, tag, auth, by rw [data]; exact computed, bytes⟩

theorem addClosing_open {ss : List Session} (h : isOpen ss = true) (c : Closing) :
    ∃ s rest, ss = s :: rest ∧ addClosing c ss = { s with closings := [c] } :: rest := by
  cases ss with
  | nil => cases h
  | cons s rest =>
    refine ⟨s, rest, rfl, ?_⟩
    have none : s.closings = [] := List.isEmpty_iff.mp h
    rw [addClosing, none]
    rfl

theorem once_addClosing {ss : List Session} (h : isOpen ss = true) (c : Closing)
    (once : ∀ s ∈ ss, s.closings.length ≤ 1) :
    (∀ s ∈ addClosing c ss, s.closings.length ≤ 1) ∧ isOpen (addClosing c ss) = false := by
  obtain ⟨s, rest, rfl, e⟩ := addClosing_open h c
  rw [e]
  obtain ⟨-, others⟩ := List.forall_mem_cons.mp once
  exact ⟨List.forall_mem_cons.mpr ⟨Nat.le_refl 1, others⟩, rfl⟩

theorem once_closeOpen (ss : List Session) (c : Closing) (once : ∀ s ∈ ss, s.closings.length ≤ 1) :
    (∀ s ∈ closeOpen c ss, s.closings.length ≤ 1) ∧ isOpen (closeOpen c ss) = false := by
  cases ss with
  | nil => exact ⟨once, rfl⟩
  | cons s rest =>
    by_cases none : s.closings = []
    · rw [closeOpen, if_pos none]
      have opened : isOpen (s :: rest) = true := List.isEmpty_iff.mpr none
      exact once_addClosing opened c once
    · rw [closeOpen, if_neg none]
      have closed : s.closings.isEmpty = false := by simpa using none
      exact ⟨once, closed⟩

theorem coherent_closed {v : Verifier} {ss : List Session}
    (once : (∀ s ∈ ss, s.closings.length ≤ 1) ∧ isOpen ss = false) (idle : v.outstanding = false)
    (nonce : v.nonce = .fill 16 0) : Coherent v ss where
  once := once.1
  outstanding := idle.trans once.2.symm
  ready := fun h => by rw [idle] at h; cases h
  newest := fun h => by rw [idle] at h; cases h
  idle := fun _ => nonce

section
variable {tc : TinyCrypt} {v v' : Verifier} {answer : Answer}

theorem exec_pack {σ α : Type} {dev : Device PlatformCall PlatformCall.Reply σ}
    {prog : PlatformProg α} {f : α → Verifier × Answer} {G : PlatformCall → σ → Prop}
    {K : σ → Prop} {Q : α → σ → Prop} {s t : σ} (spec : Safe dev G K prog Q s)
    (h : Exec dev (prog >>= fun a => pure (f a)) s (v', answer) t) :
    ∃ a, Q a t ∧ (v', answer) = f a := by
  obtain ⟨a, u, first, e, rfl⟩ := (exec_bind _ _ _ _ _).mp h
  exact ⟨a, safe_exec _ _ _ _ _ spec first, e⟩

variable {σ : Type} {dev : Device PlatformCall PlatformCall.Reply σ} {s t : σ}

theorem op_init (hq : Quiet dev) {platform : AuthPlatform} {timeoutMs : UInt32}
    (h : Exec dev (runOp tc v (.init platform timeoutMs)) s (v', answer) t) :
    initAccepts platform timeoutMs = false ∧ v' = v ∧ answer = .loaded false ∧ t = s ∨
    initAccepts platform timeoutMs = true ∧ ∃ loaded : Option AuthMaterial,
      dev.answers .load s loaded t ∧ answer = .loaded loaded.isSome ∧
      v' = ⟨platform, loaded.getD .zero, .fill 16 0, 0, timeoutMs, loaded.isSome, false⟩ := by
  have spec := @safe_initVerifier σ dev (fun _ _ => True) (fun _ => True) platform timeoutMs v s hq
    trivial (fun _ _ _ => trivial) trivial (fun _ _ => trivial) (fun _ _ _ => trivial)
  obtain ⟨⟨u, ok⟩, out, e⟩ := exec_pack spec h
  obtain ⟨rfl, rfl⟩ := Prod.mk.inj e
  rcases out with ⟨refused, hu, ht⟩ | ⟨accepted, loaded, answered, hu⟩
  · obtain ⟨rfl, rfl⟩ := Prod.mk.inj hu
    exact Or.inl ⟨refused, rfl, rfl, ht⟩
  · obtain ⟨rfl, rfl⟩ := Prod.mk.inj hu
    exact Or.inr ⟨accepted, loaded, answered, rfl, rfl⟩

theorem op_challenge (hq : Quiet dev) {out : List UInt8}
    (h : Exec dev (runOp tc v (.challenge out)) s (v', answer) t) : ∃ out' len,
      answer = .request out' len ∧ ChallengeOutcome dev tc v out s (v', out', len) t := by
  have spec := @safe_challenge σ dev (fun _ _ => True) (fun _ => True) tc v out s hq trivial
    (fun _ _ _ => trivial) clock_always
    fun _ _ => ⟨trivial, fun _ _ => trivial, fun _ _ _ => trivial⟩
  obtain ⟨⟨u, out', len⟩, outcome, e⟩ := exec_pack spec h
  obtain ⟨rfl, rfl⟩ := Prod.mk.inj e
  exact ⟨out', len, rfl, outcome⟩

theorem op_verify (hq : Quiet dev) {response : List UInt8}
    (h : Exec dev (runOp tc v (.verify response)) s (v', answer) t) : ∃ r,
      answer = .result r ∧ VerifyOutcome dev tc v response s (v', r) t := by
  have spec := @safe_verify σ dev (fun _ _ => True) (fun _ => True) tc v response s hq trivial
    (fun _ _ _ => trivial) clock_always
  obtain ⟨⟨u, r⟩, outcome, e⟩ := exec_pack spec h
  obtain ⟨rfl, rfl⟩ := Prod.mk.inj e
  exact ⟨r, rfl, outcome⟩

theorem op_poll (hq : Quiet dev) (h : Exec dev (runOp tc v .poll) s (v', answer) t) : ∃ r,
    answer = .result r ∧ PollOutcome dev v s (v', r) t := by
  have spec := @safe_poll σ dev (fun _ _ => True) (fun _ => True) v s hq trivial
    (fun _ _ _ => trivial) clock_always
  obtain ⟨⟨u, r⟩, outcome, e⟩ := exec_pack spec h
  obtain ⟨rfl, rfl⟩ := Prod.mk.inj e
  exact ⟨r, rfl, outcome⟩

end

theorem coherent_step {tc : TinyCrypt} {v v' : Verifier} {ss : List Session} {e : VerifierEvent}
    (h : Coherent v ss) (step : VerifierStep tc v e v') : Coherent v' (noteEvent ss e) := by
  have closed : ∀ c, v.ready = true ∧ v.outstanding = true → Coherent (verifierCancel v) (addClosing c ss) :=
    fun c open_ => coherent_closed (once_addClosing (h.outstanding ▸ open_.2) c h.once) rfl rfl
  obtain ⟨op, answer, readings⟩ := e
  cases op with
  | init platform timeoutMs =>
    rcases op_init anyDevice_quiet step with ⟨refused, rfl, -⟩ | ⟨accepted, loaded, -, -, rfl⟩
    · simp only [noteEvent, refused, Bool.false_eq_true, if_false]
      exact h
    · simp only [noteEvent, accepted, if_true]
      exact coherent_closed (once_closeOpen ss .restart h.once) rfl rfl
  | challenge out =>
    obtain ⟨out', len, rfl, outcome⟩ := op_challenge anyDevice_quiet step
    cases outcome with
    | refused => exact h
    | uncommitted _ issues =>
      have closed : isOpen ss = false := h.outstanding.symm.trans issues.idle
      exact coherent_closed ⟨h.once, closed⟩ issues.idle (h.idle issues.idle)
    | @issued msg saved now u t issues random commit positive clock =>
      obtain rfl : u = [] := commit
      obtain rfl : readings = [now] := clock
      have bytes : (msgBytes msg ++ out.drop 84).take 84 = msgBytes msg :=
        List.take_left' (length_msgBytes msg)
      have noted : noteEvent ss ⟨.challenge out, .request (msgBytes msg ++ out.drop 84) 84, [now]⟩ =
          ⟨msgBytes msg, now, []⟩ :: ss := by
        change (⟨(msgBytes msg ++ out.drop 84).take 84, now, []⟩ : Session) :: ss = _
        rw [bytes]
      rw [noted]
      have parsed := parseMsg_msgBytes msg
      refine ⟨List.forall_mem_cons.mpr ⟨Nat.zero_le 1, h.once⟩, rfl, fun _ => issues.ready, fun _ => ?_,
        fun idle => by cases idle⟩
      exact ⟨_, _, rfl, length_msgBytes msg, (parseMsg_counter parsed).symm,
        (parseMsg_nonce parsed).symm, rfl⟩
  | verify response =>
    obtain ⟨r, rfl, outcome⟩ := op_verify anyDevice_quiet step
    cases outcome with
    | closed | forged => exact h
    | expired open_ | overtaken open_ => exact closed .timeout open_
    | @accepted _ _ _ _ result open_ =>
      by_cases zero : result = 0
      · rw [verdict, if_pos zero]
        exact closed .mismatch open_
      · rw [verdict, if_neg zero]
        exact closed .pass open_
  | poll =>
    obtain ⟨r, rfl, outcome⟩ := op_poll anyDevice_quiet step
    cases outcome with
    | closed | waiting => exact h
    | expired open_ => exact closed .timeout open_
  | cancel =>
    obtain ⟨e, -⟩ : (v', answer) = (verifierCancel v, .none) ∧ readings = [] := step
    obtain ⟨rfl, rfl⟩ := Prod.mk.inj e
    exact coherent_closed (once_closeOpen ss .cancel h.once) rfl rfl

theorem coherent_run {tc : TinyCrypt} {es : List VerifierEvent} {v : Verifier}
    (run : Run (VerifierStep tc) .zero es v) : Coherent v (sessionsOf es) := by
  generalize hz : Verifier.zero = z at run
  induction run with
  | start =>
    subst hz
    exact coherent_closed ⟨by simp [sessionsOf], rfl⟩ rfl rfl
  | next before last ih =>
    rw [sessionsOf, List.foldl_append]
    exact coherent_step ih last

def Forged (tc : TinyCrypt) (v : Verifier) (response : List UInt8) : Prop :=
  ∀ r, r = 0 ∨ r = 1 → ¬ Answers tc v response r

/-- The event of a reply that was looked at when the clock read `now`, and refused. -/
def refusedReply (x : List UInt8 × UInt32) : VerifierEvent :=
  ⟨.verify x.1, .result .invalid, [x.2]⟩

def isNoise (e : VerifierEvent) : Bool :=
  match e.op, e.answer with
  | .verify _, .result .invalid => true
  | _, _ => false

def stoppedDevice (now : UInt32) : Device PlatformCall PlatformCall.Reply (List UInt32) where
  answers
    | .nowMs, s, r, t => r = now ∧ t = s ++ [r]
    | _, s, _, t => t = s
  tears _ _ _ := False

section
variable {tc : TinyCrypt} {v v' : Verifier} {response : List UInt8}

theorem stoppedDevice_live (now : UInt32) (c : PlatformCall) (s : List UInt32) :
    ∃ r t, (stoppedDevice now).answers c s r t := by
  cases c with
  | nowMs => exact ⟨now, s ++ [now], rfl, rfl⟩
  | load => exact ⟨none, s, rfl⟩
  | saveCounter _ => exact ⟨(0 : ℤ), s, rfl⟩
  | random _ => exact ⟨none, s, rfl⟩
  | enterAtomic => exact ⟨(0 : ℕ), s, rfl⟩
  | readRange _ n => exact ⟨Bytes.fill n 0, s, rfl⟩
  | leaveAtomic _ | ui _ | error _ | writeResponse _ => exact ⟨(), s, rfl⟩

theorem stoppedDevice_quiet (now : UInt32) : Quiet (stoppedDevice now) := by
  intro c s hc
  cases c with
  | load | saveCounter _ | nowMs => cases hc
  | _ => exact ⟨fun _ h => h.elim, fun _ _ h => h⟩

theorem verify_at (tc : TinyCrypt) (v : Verifier) (response : List UInt8) (now : UInt32) :
    ∃ v' r readings, VerifierStep tc v ⟨.verify response, .result r, readings⟩ v' ∧
      VerifyOutcome (stoppedDevice now) tc v response [] (v', r) readings := by
  obtain ⟨⟨v', answer⟩, readings, he⟩ :=
    exec_exists (stoppedDevice_live now) (runOp tc v (.verify response)) []
  obtain ⟨r, rfl, outcome⟩ := op_verify (stoppedDevice_quiet now) he
  have looser : ∀ c s r t, (stoppedDevice now).answers c s r t → anyDevice.answers c s r t := by
    intro c s r t h
    cases c with
    | nowMs => exact h.2
    | _ => exact h
  exact ⟨v', r, readings, exec_mono looser _ _ _ _ he, outcome⟩

theorem forged_step {now : UInt32} (open_ : v.ready = true ∧ v.outstanding = true)
    (forged : Forged tc v response) (early : v.early now) :
    VerifierStep tc v (refusedReply (response, now)) v := by
  obtain ⟨u, r, readings, step, outcome⟩ := verify_at tc v response now
  have never : ∀ {b}, ¬ Genuine tc v response b := fun {b} h =>
    forged b (genuine_iff.mp h).1 (genuine_iff.mp h).2
  have same : (u, r) = (v, .invalid) ∧ readings = [now] := by
    cases outcome with
    | closed h => rcases h with h | h <;> simp [h] at open_
    | expired _ clock late => exact absurd (clock.1 ▸ early) late
    | forged _ clock => exact ⟨rfl, clock.1 ▸ clock.2⟩
    | overtaken _ _ _ h | accepted _ _ _ h => exact absurd h never
  obtain ⟨e, rfl⟩ := same
  obtain ⟨rfl, rfl⟩ := Prod.mk.inj e
  exact step

theorem genuine_step {now : UInt32} {b : UInt8} (open_ : v.ready = true ∧ v.outstanding = true)
    (genuine : Genuine tc v response b) (early : v.early now) :
    VerifierStep tc v ⟨.verify response, .result (verdict b), [now, now]⟩ (verifierCancel v) := by
  obtain ⟨u, r, readings, step, outcome⟩ := verify_at tc v response now
  have same : (u, r) = (verifierCancel v, verdict b) ∧ readings = [now, now] := by
    cases outcome with
    | closed h => rcases h with h | h <;> simp [h] at open_
    | expired _ clock late => exact absurd (clock.1 ▸ early) late
    | forged _ _ _ h => exact absurd genuine (h b)
    | overtaken _ _ _ _ clock' late => exact absurd (clock'.1 ▸ early) late
    | accepted _ clock _ h clock' =>
      obtain ⟨-, tag, bytes, -⟩ := genuine_iff.mp genuine
      obtain ⟨-, tag', bytes', -⟩ := genuine_iff.mp h
      obtain ⟨rfl, -⟩ := List.cons.inj (bytes'.symm.trans bytes)
      obtain ⟨rfl, rfl⟩ := clock
      obtain ⟨rfl, rfl⟩ := clock'
      exact ⟨rfl, rfl⟩
  obtain ⟨e, rfl⟩ := same
  obtain ⟨rfl, rfl⟩ := Prod.mk.inj e
  exact step

theorem noise_step {e : VerifierEvent} (noise : isNoise e = true) (step : VerifierStep tc v e v') :
    v' = v ∧ ∀ ss, noteEvent ss e = ss := by
  obtain ⟨op, answer, readings⟩ := e
  cases op with
  | verify response =>
    obtain ⟨r, rfl, outcome⟩ := op_verify anyDevice_quiet step
    cases outcome with
    | closed | forged => exact ⟨rfl, fun _ => rfl⟩
    | expired | overtaken => cases noise
    | @accepted _ _ _ _ result =>
      unfold verdict at noise
      split at noise <;> cases noise
  | _ => cases noise

end

/-- Refused replies leave no trace: not in the state, not in the sessions. -/
theorem run_without_noise {tc : TinyCrypt} {es : List VerifierEvent} {v : Verifier}
    (run : Run (VerifierStep tc) .zero es v) :
    Run (VerifierStep tc) .zero (es.filter (!isNoise ·)) v ∧
      sessionsOf (es.filter (!isNoise ·)) = sessionsOf es := by
  generalize hz : Verifier.zero = z at run ⊢
  induction run with
  | start => exact ⟨.start _, rfl⟩
  | @next t u es e before last ih =>
    obtain ⟨run, same⟩ := ih
    have split : sessionsOf (es ++ [e]) = noteEvent (sessionsOf es) e := by
      rw [sessionsOf, List.foldl_append]
      rfl
    rw [List.filter_append, split]
    cases noise : isNoise e with
    | true =>
      obtain ⟨rfl, untouched⟩ := noise_step noise last
      simp only [List.filter_cons, noise, Bool.not_true, Bool.false_eq_true, if_false, List.filter_nil,
        List.append_nil]
      exact ⟨run, same.trans (untouched _).symm⟩
    | false =>
      simp only [List.filter_cons, noise, Bool.not_false, if_true, List.filter_nil]
      refine ⟨.next run last, ?_⟩
      rw [sessionsOf, List.foldl_append]
      exact congrArg (noteEvent · e) same

theorem run_refused {tc : TinyCrypt} {v : Verifier} (open_ : v.ready = true ∧ v.outstanding = true)
    (replies : List (List UInt8 × UInt32)) (h : ∀ x ∈ replies, Forged tc v x.1 ∧ v.early x.2) :
    Run (VerifierStep tc) v (replies.map refusedReply) v ∧
      ∀ ss, (replies.map refusedReply).foldl noteEvent ss = ss := by
  induction replies with
  | nil => exact ⟨.start v, fun _ => rfl⟩
  | cons x replies ih =>
    obtain ⟨first, others⟩ := List.forall_mem_cons.mp h
    obtain ⟨rest, same⟩ := ih others
    exact ⟨run_append (run_one (forged_step open_ first.1 first.2)) rest, same⟩

/-- Single use and noise immunity, in every state any operations reach. -/
theorem verifier_single_use (tc : TinyCrypt) (es : List VerifierEvent) (v : Verifier)
    (run : Run (VerifierStep tc) .zero es v) :
    Coherent v (sessionsOf es) ∧
    (∀ response readings r v', VerifierStep tc v ⟨.verify response, .result r, readings⟩ v' →
      (r ≠ .invalid → v.outstanding = true ∧ v'.outstanding = false) ∧
      (r = .pass ∨ r = .mismatch → response.length = 33 ∧
        ∃ b, (b = 0 ∨ b = 1) ∧ Answers tc v response b ∧ (b = 1 ↔ r = .pass)) ∧
      (Forged tc v response → (∀ now ∈ readings, v.early now) → r = .invalid ∧ v' = v)) ∧
    (∀ readings r v', VerifierStep tc v ⟨.poll, .result r, readings⟩ v' →
      r = .idle ∧ v' = v ∨ r = .timeout ∧ v.outstanding = true ∧ v'.outstanding = false) ∧
    (∀ (replies : List (List UInt8 × UInt32)) fs w, v.outstanding = true →
      (∀ x ∈ replies, Forged tc v x.1 ∧ v.early x.2) → Run (VerifierStep tc) v fs w →
      Run (VerifierStep tc) .zero (es ++ replies.map refusedReply ++ fs) w ∧
        sessionsOf (es ++ replies.map refusedReply ++ fs) = sessionsOf (es ++ fs)) ∧
    Run (VerifierStep tc) .zero (es.filter (!isNoise ·)) v ∧
      sessionsOf (es.filter (!isNoise ·)) = sessionsOf es := by
  have coherent := coherent_run run
  refine ⟨coherent, ?_, ?_, ?_, run_without_noise run⟩
  · intro response readings r v' step
    obtain ⟨r', e, outcome⟩ := op_verify anyDevice_quiet step
    obtain rfl : r = r' := Answer.result.inj e
    cases outcome with
    | closed h =>
      exact ⟨fun ne => absurd rfl ne, (by rintro (h | h) <;> cases h), fun _ _ => ⟨rfl, rfl⟩⟩
    | forged =>
      exact ⟨fun ne => absurd rfl ne, (by rintro (h | h) <;> cases h), fun _ _ => ⟨rfl, rfl⟩⟩
    | @expired now t open_ clock late =>
      obtain rfl : readings = [now] := clock
      refine ⟨fun _ => ⟨open_.2, rfl⟩, (by rintro (h | h) <;> cases h), fun _ early => ?_⟩
      exact absurd (early now (List.mem_singleton_self now)) late
    | @overtaken now now' t u result open_ clock early h =>
      refine ⟨fun _ => ⟨open_.2, rfl⟩, (by rintro (h | h) <;> cases h), fun forged _ => ?_⟩
      obtain ⟨bin, answers⟩ := genuine_iff.mp h
      exact absurd answers (forged _ bin)
    | @accepted now now' t u result open_ clock early h =>
      obtain ⟨bin, answers⟩ := genuine_iff.mp h
      refine ⟨fun _ => ⟨open_.2, rfl⟩, fun _ => ?_, fun forged _ => absurd answers (forged _ bin)⟩
      have len : response.length = 33 := by
        obtain ⟨tag, bytes, -⟩ := answers
        simp [bytes]
      refine ⟨len, result, bin, answers, ?_⟩
      rcases bin with rfl | rfl <;> decide
  · intro readings r v' step
    obtain ⟨r', e, outcome⟩ := op_poll anyDevice_quiet step
    obtain rfl : r = r' := Answer.result.inj e
    cases outcome with
    | closed | waiting => exact Or.inl ⟨rfl, rfl⟩
    | expired open_ => exact Or.inr ⟨rfl, open_.2, rfl⟩
  · intro replies fs w out forged rest
    obtain ⟨noise, same⟩ := run_refused ⟨coherent.ready out, out⟩ replies forged
    refine ⟨run_append (run_append run noise) rest, ?_⟩
    rw [sessionsOf, sessionsOf, List.foldl_append, List.foldl_append, List.foldl_append, same]

def smallMaterial : AuthMaterial := ⟨.fill 32 1, .fill 32 0, .fill 32 3, 5⟩

def smallUp : Verifier := ⟨allCallbacks, smallMaterial, .fill 16 0, 0, 1000, true, false⟩

theorem small_init : VerifierStep referenceTinyCrypt .zero
    ⟨.init allCallbacks 1000, .loaded true, []⟩ smallUp :=
  ⟨some smallMaterial, [], rfl, (), [], rfl, rfl, rfl⟩

def smallRequest : SimpleMsg :=
  { smallUp.draft (.fill 16 9) with
    hmac := ⟨Sha256.hmac smallMaterial.kAuth.data (msgAuth (smallUp.draft (.fill 16 9))), rfl⟩ }

theorem small_challenge (now : UInt32) : VerifierStep referenceTinyCrypt smallUp
    ⟨.challenge (List.replicate 84 0), .request (msgBytes smallRequest) 84, [now]⟩
    (smallUp.begin smallRequest now) := by
  have room : 84 ≤ (List.replicate 84 (0 : UInt8)).length := by simp
  have composed := composeRequest_eq referenceTinyCrypt smallUp (.fill 16 9) room
  rw [hmacCompute_bytes reference_computes _ (by simp; decide), Option.map_some, List.drop_replicate,
    Nat.sub_self, List.replicate_zero, List.append_nil] at composed
  have sent := serializeMsg_eq smallRequest (show 84 ≤ (msgBytes (smallUp.draft (.fill 16 9))).length by simp)
  rw [List.drop_of_length_le (by simp), List.append_nil] at sent
  refine (exec_bind _ _ _ _ _).mpr ⟨(smallUp.begin smallRequest now, msgBytes smallRequest, 84), [now], ?_,
    rfl, rfl⟩
  unfold verifierChallenge
  rw [if_neg (by decide), if_neg (by decide), Prog.ask_bind]
  refine ⟨some (.fill 16 9), [], rfl, ?_⟩
  simp only [composed]
  refine ⟨(1 : ℤ), [], rfl, ?_⟩
  change Exec anyDevice (sendRequest smallUp smallRequest _ 1) _ _ _
  rw [sendRequest, if_neg (by decide), sent]
  exact ⟨now, [now], rfl, (), [now], rfl, rfl, rfl⟩

def smallOpen : Verifier := smallUp.begin smallRequest 7

def smallTag : Bytes 32 :=
  ⟨Sha256.hmac smallMaterial.kAuth.data
    (1 :: (simplePutU32 smallOpen.material.counter ++ smallOpen.nonce.data)), rfl⟩

theorem small_answers : Answers referenceTinyCrypt smallOpen (1 :: smallTag.data) 1 :=
  ⟨smallTag, rfl, hmacCompute_bytes reference_computes _ (by simp; decide)⟩

def forgedReply : List UInt8 := 1 :: smallTag.data.map (~~~ ·)

theorem complement_ne (tag : Bytes 32) : tag.data.map (~~~ ·) ≠ tag.data := by
  obtain ⟨_ | ⟨b, rest⟩, len⟩ := tag
  · cases len
  · intro same
    have bits := congrArg (·.toBitVec.getLsbD 0) (List.cons.inj same).1
    simp at bits

theorem small_forged : Forged referenceTinyCrypt smallOpen forgedReply := by
  rintro r - ⟨tag, bytes, computed⟩
  obtain ⟨rfl, flipped⟩ := List.cons.inj bytes
  obtain ⟨tag', genuine, computed'⟩ := small_answers
  obtain rfl := Option.some.inj (computed'.symm.trans computed)
  exact complement_ne smallTag (flipped.trans (List.cons.inj genuine).2.symm)

/-- Two forged replies to the challenge, then the one it waits for. -/
theorem verifier_single_use_small :
    let replies : List (List UInt8 × UInt32) := [(forgedReply, 8), (forgedReply, 9)]
    let genuine : VerifierEvent := ⟨.verify (1 :: smallTag.data), .result .pass, [10, 10]⟩
    forgedReply.length = 33 ∧ ∃ es, Run (VerifierStep referenceTinyCrypt) .zero es smallOpen ∧
      Coherent smallOpen (sessionsOf es) ∧
      Run (VerifierStep referenceTinyCrypt) .zero (es ++ replies.map refusedReply ++ [genuine])
        (verifierCancel smallOpen) ∧
      sessionsOf (es ++ replies.map refusedReply ++ [genuine]) = sessionsOf (es ++ [genuine]) := by
  intro replies genuine
  have run := Run.next (.next (.start .zero) small_init) (small_challenge 7)
  have open_ : smallOpen.ready = true ∧ smallOpen.outstanding = true := ⟨rfl, rfl⟩
  obtain ⟨coherent, -, -, refuses, -⟩ := verifier_single_use referenceTinyCrypt _ _ run
  have last : VerifierStep referenceTinyCrypt smallOpen genuine (verifierCancel smallOpen) :=
    genuine_step open_ (genuine_iff.mpr ⟨Or.inr rfl, small_answers⟩) rfl
  refine ⟨by simp [forgedReply], _, run, coherent, refuses replies [genuine] _ rfl ?_ (run_one last)⟩
  intro x hx
  have e : x.1 = forgedReply ∧ (x.2 = 8 ∨ x.2 = 9) := by
    simp only [replies, List.mem_cons, List.not_mem_nil, or_false] at hx
    rcases hx with rfl | rfl <;> simp
  rw [e.1]
  refine ⟨small_forged, ?_⟩
  rcases e.2 with h | h <;> rw [h] <;> rfl

end SimpleAttestation.VerifierRuns
