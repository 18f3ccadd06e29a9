import SimpleAttestation.DisplayReading
import SimpleAttestation.ProverTrace

set_option autoImplicit false

/-!
# The verdict on the prover's screen

What a user who sees the screen knows of the last request.
-/
namespace SimpleAttestation.ProverScreen
open ByteStrings Wire Crypto CallProgram CallTraces Runs Platform ProverRequest ProverSpec ProverTrace Session
open Display DisplayScreen DisplayNotices DisplayReading

/-- `board_ui` and `board_report_error` behind the callbacks. -/
def noticeOf (e : PlatformEvent) : Option Notice :=
  match e.call with
  | .ui phase => some (.ui phase)
  | .error code => some (.error code)
  | _ => none

def shownBy (es : List PlatformEvent) : List Notice := es.filterMap noticeOf

def verdict (result : UInt8) : AuthPhase := if result = 0 then .mismatch else .pass

def decides : Notice → Bool
  | .ui .pass | .ui .mismatch => true
  | _ => false

section
variable {tc : TinyCrypt} {p : Prover} {req resp : List UInt8} {es xs ys : List PlatformEvent} {n : Notice}

theorem shownBy_append : shownBy (xs ++ ys) = shownBy xs ++ shownBy ys := List.filterMap_append

def Undecided (es : List PlatformEvent) : Prop := ∀ n ∈ shownBy es, decides n = false

theorem undecided_append (hx : Undecided xs) (hy : Undecided ys) : Undecided (xs ++ ys) := by
  intro n hn
  rw [shownBy_append] at hn
  exact (List.mem_append.mp hn).elim (hx n) (hy n)

theorem undecided_touches (h : ∀ e ∈ es, touches e.call = true) : Undecided es := by
  intro n hn
  obtain ⟨⟨call, reply⟩, he, shown⟩ := List.mem_filterMap.mp hn
  have touched := h _ he
  cases call with
  | readRange start length =>
    replace shown : none = some n := shown
    cases shown
  | writeResponse bytes =>
    replace shown : none = some n := shown
    cases shown
  | _ => cases touched

theorem shown_authUi {platform : AuthPlatform} {phase : AuthPhase} {u : Unit}
    (h : Traced (authUi platform phase) es u) : shownBy es = if platform.ui then [.ui phase] else [] := by
  unfold authUi at h
  split at h
  · rename_i set
    obtain ⟨r, rest, rfl, rfl, -⟩ := h
    rw [if_pos set]
    rfl
  · rename_i unset
    obtain ⟨rfl, -⟩ := h
    rw [if_neg unset]
    rfl

theorem undecided_authUi {platform : AuthPlatform} {phase : AuthPhase} {u : Unit}
    (other : decides (.ui phase) = false) (h : Traced (authUi platform phase) es u) : Undecided es := by
  intro n hn
  rw [shown_authUi h] at hn
  split at hn
  · obtain rfl := List.mem_singleton.mp hn
    exact other
  · cases hn

theorem undecided_authError {platform : AuthPlatform} {code : ℕ} {u : Unit}
    (h : Traced (authError platform code) es u) : Undecided es := by
  unfold authError at h
  split at h
  · obtain ⟨r, rest, rfl, rfl, -⟩ := h
    intro n hn
    obtain rfl := List.mem_singleton.mp hn
    rfl
  · exact undecided_authUi rfl h

structure Concluded (resp : List UInt8) (h : Handled) : Prop where
  answered : h.error = 0 → ∃ result tag, h.phase = verdict result ∧ h.len = 33 ∧
    h.resp = reportBytes ⟨result, tag⟩ ++ resp.drop 33
  failed : h.error ≠ 0 → h.len = 0

theorem concluded_failed {q : Prover} {phase : AuthPhase} {error : ℕ} (some_ : error ≠ 0) :
    Concluded resp ⟨q, resp, 0, phase, error⟩ := ⟨fun zero => absurd zero some_, fun _ => rfl⟩

theorem saveError_some (saved : ℤ) : saveError saved ≠ 0 := by
  unfold saveError
  split
  · omega
  · decide

theorem shown_answerRequest {msg : SimpleMsg} {saved : ℤ} {h : Handled} (room : 33 ≤ resp.length)
    (run : Traced (answerRequest tc p msg resp saved) es h) : Undecided es ∧ Concluded resp h := by
  unfold answerRequest at run
  split at run
  · obtain ⟨rfl, rfl⟩ := run
    exact ⟨fun n hn => absurd hn List.not_mem_nil, concluded_failed (saveError_some saved)⟩
  · rw [traced_bind] at run
    obtain ⟨_, xs, _, rfl, ui, run⟩ := run
    rw [traced_bind] at run
    obtain ⟨measured, ys, zs, rfl, measure, run⟩ := run
    have first := undecided_authUi rfl ui
    have second := undecided_touches (traced_attestation measure)
    have last : Undecided zs ∧ Concluded resp h := by
      cases measured with
      | none =>
        obtain ⟨rfl, rfl⟩ := run
        exact ⟨fun n hn => absurd hn List.not_mem_nil, concluded_failed (by decide)⟩
      | some vs =>
        simp only [compare_result] at run
        cases tagged : responseTag tc (p.advance msg.counter).material.kAuth (resultOf vs msg) msg with
        | none =>
          rw [responseTag] at tagged
          rw [tagged] at run
          obtain ⟨rfl, rfl⟩ := run
          exact ⟨fun n hn => absurd hn List.not_mem_nil, concluded_failed (by decide)⟩
        | some hmac =>
          rw [responseTag] at tagged
          simp only [tagged, serializeReport_eq ⟨resultOf vs msg, hmac⟩ room (resultOf_le vs msg)] at run
          rw [if_neg (by decide), traced_ask] at run
          obtain ⟨_, _, rfl, rfl, rfl⟩ := run
          refine ⟨fun n hn => absurd hn List.not_mem_nil, fun _ => ⟨_, _, rfl, rfl, rfl⟩, fun no => absurd rfl no⟩
    exact ⟨undecided_append first (undecided_append second last.1), last.2⟩

theorem shown_processRequest {h : Handled} (room : 33 ≤ resp.length)
    (run : Traced (processRequest tc p req resp) es h) : Undecided es ∧ Concluded resp h := by
  have refused : ∀ phase error, error ≠ 0 → Traced (pure ⟨p, resp, 0, phase, error⟩ : PlatformProg Handled) es h →
      Undecided es ∧ Concluded resp h := by
    rintro phase error some_ ⟨rfl, rfl⟩
    exact ⟨fun n hn => absurd hn List.not_mem_nil, concluded_failed some_⟩
  unfold processRequest at run
  split at run
  · exact refused _ _ (by decide) run
  · split at run
    · exact refused _ _ (by decide) run
    · split at run
      · exact refused _ _ (by decide) run
      · rw [traced_ask] at run
        obtain ⟨saved, rest, rfl, run⟩ := run
        have behind := shown_answerRequest room run
        exact behind

theorem shown_handleRequest {p' : Prover} {resp' : List UInt8} {len : ℕ}
    (run : Traced (proverHandleRequest tc p req resp) es (p', resp', len)) :
    (len = 33 ∧ ∃ result tag before, resp' = reportBytes ⟨result, tag⟩ ++ resp.drop 33 ∧
      shownBy es = before ++ if p.platform.ui then [.ui (verdict result)] else []) ∨
    len = 0 ∧ Undecided es := by
  unfold proverHandleRequest at run
  split at run
  · obtain ⟨rfl, same⟩ := run
    obtain ⟨-, -, rfl⟩ := same
    exact Or.inr ⟨rfl, fun n hn => absurd hn List.not_mem_nil⟩
  · rename_i opened
    have room : 33 ≤ resp.length := by
      rw [Bool.not_eq_true, Bool.or_eq_false_iff] at opened
      simpa using opened.2
    split at run
    · rw [traced_bind] at run
      obtain ⟨_, xs, ys, rfl, error, rfl, same⟩ := run
      obtain ⟨-, -, rfl⟩ := same
      rw [List.append_nil]
      exact Or.inr ⟨rfl, undecided_authError error⟩
    · rw [traced_bind] at run
      obtain ⟨_, before, _, rfl, ui, run⟩ := run
      rw [traced_ask] at run
      obtain ⟨previous, _, rfl, run⟩ := run
      rw [traced_bind] at run
      obtain ⟨h, body, _, rfl, inside, run⟩ := run
      rw [traced_ask] at run
      obtain ⟨_, _, rfl, run⟩ := run
      rw [traced_bind] at run
      obtain ⟨_, after, _, rfl, report, rfl, same⟩ := run
      obtain ⟨-, rfl, rfl⟩ := same
      have shown : shownBy (before ++ ⟨.enterAtomic, previous⟩ ::
          (body ++ ⟨.leaveAtomic previous, ()⟩ :: (after ++ []))) =
          shownBy before ++ (shownBy body ++ shownBy after) := by
        have enter : ∀ zs, shownBy (⟨.enterAtomic, previous⟩ :: zs) = shownBy zs := fun _ => rfl
        have leave : ∀ zs, shownBy (⟨.leaveAtomic previous, ()⟩ :: zs) = shownBy zs := fun _ => rfl
        rw [List.append_nil, shownBy_append, enter, shownBy_append, leave]
      obtain ⟨quiet, answered, failed⟩ := shown_processRequest room inside
      unfold reportHandled at report
      split at report
      · rename_i some_
        refine Or.inr ⟨failed some_, fun n hn => ?_⟩
        rw [shown] at hn
        rcases List.mem_append.mp hn with hn | hn
        · exact undecided_authUi rfl ui n hn
        · exact (List.mem_append.mp hn).elim (quiet n) (undecided_authError report n)
      · rename_i none_
        obtain ⟨result, tag, phase, len, resp'⟩ := answered (not_not.mp none_)
        refine Or.inl ⟨len, result, tag, shownBy before ++ shownBy body, resp', ?_⟩
        rw [shown, shown_authUi report, phase, List.append_assoc]

end

def Matches (hmac : List UInt8 → List UInt8 → Bytes 32) (memory : ℕ → UInt8) (p : Prover) (req : List UInt8) :
    Prop :=
  (hmac p.material.kAttest.data (measuredBytes memory p.ranges)).data = (req.drop 4).take 32

instance (hmac : List UInt8 → List UInt8 → Bytes 32) (memory : ℕ → UInt8) (p : Prover) (req : List UInt8) :
    Decidable (Matches hmac memory p req) := inferInstanceAs (Decidable (_ = _))

def phaseFor (matched : Bool) : AuthPhase := if matched then .pass else .mismatch

section
variable {tc : TinyCrypt} {sha256 : List UInt8 → Bytes 32} {hmac : List UInt8 → List UInt8 → Bytes 32}
  {memory : ℕ → UInt8} {p p' : Prover} {req resp resp' : List UInt8} {es : List PlatformEvent} {len : ℕ}

theorem answered_granted (computes : tc.Computes sha256 hmac) (initialised : p.ranges ≠ [])
    (run : Traced (proverHandleRequest tc p req resp) es (p', resp', len)) (reads : ReadsTrue memory es) :
    (Granted hmac p req resp es → len = 33) ∧ (len = 33 → Granted hmac p req resp es ∧
      ∀ result tag, resp' = reportBytes ⟨result, tag⟩ ++ resp.drop 33 →
        verdict result = phaseFor (decide (Matches hmac memory p req))) := by
  have out := handle_outcome computes run reads
  generalize hx : (p', resp', len) = x at out
  generalize hcs : es.filterMap commitOf = commits at out
  have accepts : Granted hmac p req resp es → ∃ msg, Accepts tc p req resp msg ∧
      (∃ saved, Saved es msg.counter saved ∧ 0 < saved) ∧ Measurable p.ranges := fun granted =>
    (parseMsg_exists granted.length).imp fun msg parsed =>
      (granted_iff computes initialised parsed).mp granted
  cases out with
  | refused none_ =>
    obtain ⟨-, -, rfl⟩ := hx
    exact ⟨fun granted => absurd (accepts granted).choose_spec.1 (none_ _), fun no => absurd no (by decide)⟩
  | @uncommitted msg saved u accepted commit failed =>
    obtain ⟨-, -, rfl⟩ := hx
    refine ⟨fun granted => ?_, fun no => absurd no (by decide)⟩
    obtain ⟨_, -, ⟨saved', h, positive⟩, -⟩ := accepts granted
    obtain ⟨-, rfl⟩ := (saved_of_commits (hcs.trans commit) _ _).mp h
    exact absurd positive (Int.not_lt.mpr failed)
  | @silent msg saved u accepted commit positive failed =>
    obtain ⟨-, -, rfl⟩ := hx
    refine ⟨fun granted => ?_, fun no => absurd no (by decide)⟩
    obtain ⟨_, -, -, measurable⟩ := accepts granted
    rcases failed with (⟨-, h⟩ | ⟨no, -⟩) | ⟨vs, -, h⟩
    · cases h
    · exact absurd measurable no
    · rw [responseTag_eq computes _ (resultOf_le vs msg) msg] at h
      cases h
  | @answered msg saved u vs tag accepted commit positive measured tagged =>
    obtain ⟨-, rfl, rfl⟩ := hx
    refine ⟨fun _ => rfl, fun _ => ?_⟩
    rcases measured with ⟨measurable, digest⟩ | ⟨-, h⟩
    · have saved_ := (saved_of_commits (hcs.trans commit) _ _).mpr ⟨rfl, rfl⟩
      refine ⟨(granted_iff computes initialised accepted.parsed).mpr
        ⟨accepted, ⟨saved, saved_, positive⟩, measurable⟩, fun result tag' same => ?_⟩
      obtain rfl := Option.some.inj digest
      obtain ⟨-, -, -, reference, -, -⟩ := parseMsg_fields accepted.parsed
      have result_ : resultOf (hmac p.material.kAttest.data (measuredBytes memory p.ranges)) msg = result :=
        (List.cons.inj same).1
      rw [← result_]
      have matched : Matches hmac memory p req ↔
          hmac p.material.kAttest.data (measuredBytes memory p.ranges) = msg.vs := by
        rw [Matches, reference]
        exact Bytes.ext_iff.symm
      unfold resultOf
      split
      · rename_i same
        rw [decide_eq_true (matched.mpr same)]
        rfl
      · rename_i other
        rw [decide_eq_false (mt matched.mp other)]
        rfl
    · cases h

theorem request_tells (computes : tc.Computes sha256 hmac) (initialised : p.ranges ≠ [])
    (set : p.platform.ui = true) (run : Traced (proverHandleRequest tc p req resp) es (p', resp', len))
    (reads : ReadsTrue memory es) (matched : Bool) :
    (shownBy es).getLast? = some (.ui (phaseFor matched)) ↔
      Granted hmac p req resp es ∧ decide (Matches hmac memory p req) = matched := by
  obtain ⟨returns, result_⟩ := answered_granted computes initialised run reads
  rcases shown_handleRequest run with ⟨whole, result, tag, before, response, shown⟩ | ⟨none_, quiet⟩
  · obtain ⟨granted, same⟩ := result_ whole
    rw [shown, if_pos set, List.getLast?_concat, same result tag response]
    constructor
    · intro h
      have phases := Notice.ui.inj (Option.some.inj h)
      refine ⟨granted, ?_⟩
      generalize decide (Matches hmac memory p req) = m at phases ⊢
      cases m <;> cases matched <;> first | rfl | cases phases
    · rintro ⟨-, rfl⟩
      rfl
  · constructor
    · intro h
      have undecided := quiet _ (List.mem_of_getLast? h)
      cases matched <;> cases undecided
    · rintro ⟨granted, -⟩
      rw [returns granted] at none_
      cases none_

end

/-- A call of the prover, or an error that the loop reports. The memory may differ from one request
    to the next. -/
inductive Turn where
  | init (es : List PlatformEvent)
  | request (memory : ℕ → UInt8) (req resp : List UInt8) (es : List PlatformEvent)
  | report (n : Notice)

def Turn.notices : Turn → List Notice
  | .init es | .request _ _ _ es => shownBy es
  | .report n => [n]

inductive TurnStep (tc : TinyCrypt) : Prover → Turn → Prover → Prop where
  | init {p p' : Prover} {ranges : List AttestationRange} {es : List PlatformEvent} {ok : Bool}
      (run : Traced (proverInit p allCallbacks ranges) es (p', ok)) : TurnStep tc p (.init es) p'
  | request {p p' : Prover} {memory : ℕ → UInt8} {req resp resp' : List UInt8} {es : List PlatformEvent} {len : ℕ}
      (run : Traced (proverHandleRequest tc p req resp) es (p', resp', len)) (reads : ReadsTrue memory es) :
      TurnStep tc p (.request memory req resp es) p'
  | report {p : Prover} {n : Notice} (plain : ∀ phase, n ≠ .ui phase) : TurnStep tc p (.report n) p

def Awake (p : Prover) : Prop := p.ready = true → p.ranges ≠ [] ∧ p.platform.ui = true

theorem flatMap_last {α β : Type} (f : α → List β) (l : List α) (b : β) :
    (l.flatMap f).getLast? = some b ↔
      ∃ before x after, l = before ++ x :: after ∧ (f x).getLast? = some b ∧ ∀ y ∈ after, f y = [] := by
  induction l with
  | nil =>
    constructor
    · intro h
      cases h
    · rintro ⟨before, x, after, none_, -⟩
      exact absurd none_ (by simp)
  | cons a l ih =>
    rw [List.flatMap_cons, List.getLast?_append, Option.or_eq_some_iff, ih]
    constructor
    · rintro (⟨before, x, after, rfl, last, silent⟩ | ⟨none_, last⟩)
      · exact ⟨a :: before, x, after, rfl, last, silent⟩
      · refine ⟨[], a, l, rfl, last, fun y hy => ?_⟩
        exact List.flatMap_eq_nil_iff.mp (List.getLast?_eq_none_iff.mp none_) y hy
    · rintro ⟨before, x, after, same, last, silent⟩
      cases before with
      | nil =>
        obtain ⟨rfl, rfl⟩ := List.cons.inj same
        refine Or.inr ⟨?_, last⟩
        rw [List.flatMap_eq_nil_iff.mpr silent]
        rfl
      | cons a' before =>
        obtain ⟨rfl, rfl⟩ := List.cons.inj same
        exact Or.inl ⟨before, x, after, rfl, last, silent⟩

section
variable {tc : TinyCrypt} {sha256 : List UInt8 → Bytes 32} {hmac : List UInt8 → List UInt8 → Bytes 32}
  {p p' : Prover} {x : Turn} {turns : List Turn}

theorem init_awake {ranges : List AttestationRange} {es : List PlatformEvent} {ok : Bool} (h : Awake p)
    (run : Traced (proverInit p allCallbacks ranges) es (p', ok)) : Awake p' ∧ Undecided es := by
  unfold proverInit at run
  split at run
  · obtain ⟨rfl, same⟩ := run
    obtain ⟨rfl, -⟩ := Prod.mk.inj same
    exact ⟨h, fun n hn => absurd hn List.not_mem_nil⟩
  · rename_i accepted
    rw [traced_ask] at run
    obtain ⟨loaded, _, rfl, run⟩ := run
    rw [traced_bind] at run
    obtain ⟨_, shown, _, rfl, display, rfl, same⟩ := run
    obtain ⟨rfl, -⟩ := Prod.mk.inj same
    refine ⟨fun _ => ⟨fun empty => accepted ?_, rfl⟩, ?_⟩
    · rw [show ranges = [] from empty]
      rfl
    have quiet : Undecided shown := by
      unfold authLoaded at display
      split at display
      · exact undecided_authUi rfl display
      · obtain ⟨rfl, -⟩ := display
        exact fun n hn => absurd hn List.not_mem_nil
    rw [List.append_nil]
    exact quiet

theorem turn_awake (computes : tc.Computes sha256 hmac) (h : Awake p) (step : TurnStep tc p x p') : Awake p' := by
  cases step with
  | init run => exact (init_awake h run).1
  | @request _ memory req resp resp' es len run reads =>
    have out := handle_outcome computes run reads
    generalize hx : (p', resp', len) = x at out
    generalize es.filterMap commitOf = commits at out
    cases out with
    | refused | silent | answered =>
      obtain ⟨rfl, -⟩ := Prod.mk.inj hx
      exact h
    | uncommitted =>
      obtain ⟨rfl, -⟩ := Prod.mk.inj hx
      exact fun no => Bool.noConfusion no
  | report => exact h

theorem verdict_turn (computes : tc.Computes sha256 hmac) (awake : Awake p) (step : TurnStep tc p x p')
    (matched : Bool) : x.notices.getLast? = some (.ui (phaseFor matched)) ↔
      ∃ memory req resp es, x = .request memory req resp es ∧ Granted hmac p req resp es ∧
        decide (Matches hmac memory p req) = matched := by
  have other : (∀ n ∈ x.notices, decides n = false) → x.notices.getLast? ≠ some (.ui (phaseFor matched)) := by
    intro quiet h
    have undecided := quiet _ (List.mem_of_getLast? h)
    cases matched <;> cases undecided
  cases step with
  | @init _ _ es ok run =>
    refine ⟨fun h => absurd h (other (init_awake awake run).2), ?_⟩
    rintro ⟨_, _, _, _, no, -⟩
    cases no
  | @request _ memory req resp resp' es len run reads =>
    have tells : p.ready = true → _ := fun ready =>
      request_tells computes (awake ready).1 (awake ready).2 run reads matched
    constructor
    · intro h
      refine ⟨memory, req, resp, es, rfl, ?_⟩
      cases ready : p.ready with
      | true => exact (tells ready).mp h
      | false =>
        obtain ⟨rfl, -⟩ := (traced_handleRequest run).2.2.1 ready
        cases h
    · rintro ⟨_, _, _, _, same, granted, result⟩
      obtain ⟨rfl, rfl, rfl, rfl⟩ := Turn.request.inj same
      exact (tells granted.ready).mpr ⟨granted, result⟩
  | @report n plain =>
    constructor
    · intro h
      exact absurd (Option.some.inj h) (plain _)
    · rintro ⟨_, _, _, _, no, -⟩
      cases no

end

section
variable {t : Glass} {notices : List (UInt32 × Notice)} {loadedCounter : UInt32}

theorem page_bright (n : Notice) : page loadedCounter n 12 4 ≠ 0 := by
  have first := @page_title loadedCounter n 0 0 4 (by decide) (by decide)
  have lit : dot ((title n).getD 0 ' ') 0 4 = true := by
    cases n with
    | ui phase | error code => exact (by decide +kernel : dot (TITLE.getD 0 ' ') 0 4 = true)
    | peer code => exact (by decide +kernel : dot (PEER_TITLE.getD 0 ' ') 0 4 = true)
  rw [lit] at first
  change page loadedCounter n 12 4 = _ at first
  rw [first]
  decide

theorem phase_read {phase : AuthPhase} (other : phase ≠ .ready) (shown : t.shows (screen notices)) :
    t.shows (page loadedCounter (.ui phase)) ↔ (notices.map Prod.snd).getLast? = some (.ui phase) := by
  have same : t.shows (page loadedCounter (.ui phase)) ↔
      ∀ x < 160, ∀ y < 80, screen notices x y = page loadedCounter (.ui phase) x y :=
    ⟨fun h x hx y hy => (shown x hx y hy).symm.trans (h x hx y hy),
      fun h x hx y hy => (shown x hx y hy).trans (h x hx y hy)⟩
  rw [same, List.getLast?_map]
  unfold screen
  cases notices.getLast? with
  | none =>
    constructor
    · intro h
      exact absurd (h 12 (by decide) 4 (by decide)).symm (page_bright _)
    · intro no
      cases no
  | some last =>
    obtain ⟨c, n⟩ := last
    refine same_page.trans ⟨fun h => congrArg some ?_, fun h => ?_⟩
    · have phases := congrArg Prod.fst h
      cases n with
      | ui phase => exact phases
      | error code | peer code => cases phases
    · obtain rfl : n = .ui phase := Option.some.inj h
      rw [told, told, if_neg other, if_neg other]

end

/-- The display reads PASS just when the last thing announced was the end of a granted request whose
    reference was the digest of the memory at that time, and MISMATCH just when it was not. -/
theorem screen_verdict (tc : TinyCrypt) (sha256 : List UInt8 → Bytes 32)
    (hmac : List UInt8 → List UInt8 → Bytes 32) (computes : tc.Computes sha256 hmac) (turns : List Turn)
    (p : Prover) (run : Run (TurnStep tc) Prover.zero turns p) (notices : List (UInt32 × Notice))
    (announced : notices.map Prod.snd = turns.flatMap Turn.notices) (g t : Glass) (b : BoardStatus)
    (drawn : Exec lcdDevice (session notices) g b t) (works : b.lcdReady = true) (loadedCounter : UInt32)
    (matched : Bool) :
    t.shows (page loadedCounter (.ui (phaseFor matched))) ↔
      ∃ before memory req resp es after q q',
        turns = before ++ .request memory req resp es :: after ∧ Run (TurnStep tc) Prover.zero before q ∧
        TurnStep tc q (.request memory req resp es) q' ∧ Run (TurnStep tc) q' after p ∧
        Granted hmac q req resp es ∧ decide (Matches hmac memory q req) = matched ∧
        ∀ x ∈ after, x.notices = [] := by
  have shown := ((safe_exec _ _ _ _ _ (safe_session notices) drawn).2 works).2
  have other : phaseFor matched ≠ .ready := by cases matched <;> decide
  have asleep : Awake Prover.zero := fun no => Bool.noConfusion no
  have awake : ∀ {before q}, Run (TurnStep tc) Prover.zero before q → Awake q := fun run' =>
    run_invariant Awake (fun _ _ _ h step => turn_awake computes h step) asleep run'
  rw [phase_read other shown, announced, flatMap_last]
  constructor
  · rintro ⟨before, x, after, rfl, last, silent⟩
    obtain ⟨q, first, rest⟩ := run_split run
    obtain ⟨q', step, later⟩ := run_head rest
    obtain ⟨memory, req, resp, es, rfl, granted, result⟩ :=
      (verdict_turn computes (awake first) step matched).mp last
    exact ⟨before, memory, req, resp, es, after, q, q', rfl, first, step, later, granted, result, silent⟩
  · rintro ⟨before, memory, req, resp, es, after, q, q', rfl, first, step, -, granted, result, silent⟩
    have last := (verdict_turn computes (awake first) step matched).mpr
      ⟨memory, req, resp, es, rfl, granted, result⟩
    exact ⟨before, _, after, rfl, last, silent⟩

def smallBoot : List PlatformEvent := [⟨.load, some smallProver.material⟩, ⟨.ui .ready, ()⟩]

theorem small_boot : Traced (proverInit Prover.zero allCallbacks smallProver.ranges) smallBoot
    (smallProver, true) :=
  ⟨some smallProver.material, _, rfl, (), _, rfl, rfl, rfl⟩

theorem screen_verdict_small : ∃ (notices : List (UInt32 × Notice)),
    ((session notices).eval lcdEval smallGlass).2.shows
      (page 5 (.ui (phaseFor (decide (Matches smallHmac (fun _ => 0) smallProver smallRequest))))) := by
  have calm := @calm_handle referenceTinyCrypt _ _ .zero (fun _ => 0) (fun _ => True) smallProver 5
    reference_computes _ (List.replicate 33 0) _ (small_accepts (by simp)) rfl small_measurable
  obtain ⟨⟨x, d, ran⟩, only⟩ := calm_ends ⟨0, trivial⟩ calm
  obtain ⟨result, tag, -, -, -, rfl⟩ := only x d ran
  obtain ⟨es, traced, follows⟩ := (exec_iff_traced _ _ _ _).mp ran
  have reads : ReadsTrue (fun _ => 0) es := by
    rintro e he start length bytes rfl
    obtain ⟨s, t, answered⟩ := follows_mem _ _ _ follows _ he
    exact calm_reads start length s bytes t answered
  have granted := ((answered_granted reference_computes small_measurable.1 traced reads).2 rfl).1
  have booted : Run (TurnStep referenceTinyCrypt) Prover.zero [.init smallBoot] smallProver :=
    run_one (.init small_boot)
  have served := TurnStep.request traced reads
  let turns : List Turn := [.init smallBoot, .request (fun _ => 0) smallRequest (List.replicate 33 0) es]
  let notices : List (UInt32 × Notice) := (turns.flatMap Turn.notices).map fun n => (5, n)
  have announced : notices.map Prod.snd = turns.flatMap Turn.notices := by
    rw [List.map_map]
    exact List.map_id _
  refine ⟨notices, (screen_verdict referenceTinyCrypt _ _ reference_computes turns _ (.next booted served)
    notices announced smallGlass _ _ (eval_exec lcdEval lcdEval_answers (session notices) smallGlass)
    (sure_session notices smallGlass) 5 _).mpr ?_⟩
  exact ⟨_, _, _, _, _, [], _, _, rfl, booted, served, .start _, granted, rfl, fun x hx => absurd hx List.not_mem_nil⟩

end SimpleAttestation.ProverScreen
