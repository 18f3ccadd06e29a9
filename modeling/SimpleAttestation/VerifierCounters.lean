import SimpleAttestation.Provisioned
import SimpleAttestation.VerifierRuns

set_option autoImplicit false

/-!
# The verifier on a board, over any number of power cycles
-/
namespace SimpleAttestation.VerifierCounters
open ByteStrings Wire Crypto CallProgram Runs Platform Journal JournalLoad JournalSave JournalCrash
  Store StoreRegister VerifierSession VerifierRuns Session BoardSession

structure Advanced (d : UInt32) (x : Verifier × Answer) (d' : UInt32) : Prop where
  grown : d ≤ d'
  follows : x.1.ready = true → x.1.material.counter = d'
  request : ∀ out, x.2 = .request out SIMPLE_REQUEST_LEN →
    d < simpleGetU32 (out.take SIMPLE_REQUEST_LEN) ∧
      simpleGetU32 (out.take SIMPLE_REQUEST_LEN) = d'

section
variable {tc : TinyCrypt} {base : AuthMaterial} {v v' : Verifier} {d d' : UInt32}

theorem register_clock : ClockKeeps (registerDevice base) (fun _ _ => True) (d ≤ ·) := by
  refine fun s hs => ⟨trivial, ?_, ?_⟩
  · rintro t rfl
    exact hs
  · rintro now t rfl
    exact hs

theorem advanced_same {answer : Answer} (start : v.ready = true → v.material.counter = d)
    (h : ∀ out, answer ≠ .request out SIMPLE_REQUEST_LEN) : Advanced d (v, answer) d :=
  ⟨UInt32.le_refl d, start, fun out e => absurd e (h out)⟩

theorem issues_fresh {out : List UInt8} {msg : SimpleMsg}
    (start : v.ready = true → v.material.counter = d) (h : Issues tc v out msg) : d < msg.counter := by
  rw [h.counter, ← start h.ready]
  exact lt_add_one h.below

theorem challenge_advances {out out' : List UInt8} {len : ℕ}
    (start : v.ready = true → v.material.counter = d)
    (h : ChallengeOutcome (registerDevice base) tc v out d (v', out', len) d') :
    Advanced d (v', .request out' len) d' := by
  have fresh : ∀ {msg}, Issues tc v out msg → d < msg.counter := issues_fresh start
  cases h with
  | refused => exact ⟨UInt32.le_refl d, start, fun out e => by cases e⟩
  | uncommitted _ issues _ commit =>
    refine ⟨?_, (fun h => by cases h), fun out e => by cases e⟩
    rcases commit.2 with rfl | rfl
    · exact UInt32.le_refl _
    · exact UInt32.le_of_lt (fresh issues)
  | @issued msg saved now u t issues random commit positive clock =>
    obtain rfl : d' = u := clock
    obtain rfl := commit.1 positive
    refine ⟨UInt32.le_of_lt (fresh issues), fun _ => rfl, fun o e => ?_⟩
    obtain ⟨rfl, -⟩ := Answer.request.inj e
    rw [List.take_left' (length_msgBytes msg), parseMsg_counter (parseMsg_msgBytes msg)]
    exact ⟨fresh issues, rfl⟩

theorem op_register (op : VerifierOp) (start : v.ready = true → v.material.counter = d) :
    Safe (registerDevice base) (fun _ _ => True) (d ≤ ·) (runOp tc v op) (Advanced d) d := by
  have quiet := registerDevice_quiet base
  have here : d ≤ d := UInt32.le_refl d
  have pack : ∀ {α : Type} (prog : PlatformProg α) (f : α → Verifier × Answer) (Q : α → UInt32 → Prop),
      Safe (registerDevice base) (fun _ _ => True) (d ≤ ·) prog Q d →
      (∀ a t, Q a t → Advanced d (f a) t) →
      Safe (registerDevice base) (fun _ _ => True) (d ≤ ·) (prog >>= fun a => pure (f a))
        (Advanced d) d := by
    intro α prog f Q spec packed
    exact safe_then spec fun a t q _ => ⟨(packed a t q).grown, packed a t q⟩
  cases op with
  | init platform timeoutMs =>
    refine pack _ _ _ (safe_initVerifier platform timeoutMs v d quiet here (fun _ _ _ => trivial)
      trivial ?_ ?_) ?_
    · rintro t rfl
      exact here
    · rintro r t ⟨rfl, -⟩
      exact here
    · rintro ⟨u, ok⟩ t (⟨-, e, rfl⟩ | ⟨-, loaded, ⟨rfl, answer⟩, e⟩)
      · obtain ⟨rfl, -⟩ := Prod.mk.inj e
        exact advanced_same start fun _ h => by cases h
      · obtain ⟨rfl, -⟩ := Prod.mk.inj e
        refine advanced_same ?_ fun _ h => by cases h
        rcases answer with rfl | rfl
        · intro h
          cases h
        · exact fun _ => rfl
  | challenge out =>
    refine pack _ _ _ (safe_challenge tc v out d quiet here (fun _ _ _ => trivial) register_clock ?_) ?_
    · refine fun msg issues => ⟨trivial, ?_, fun saved t commit => ?_⟩
      · rintro t (rfl | rfl)
        · exact here
        · exact UInt32.le_of_lt (issues_fresh start issues)
      · rcases commit.2 with rfl | rfl
        · exact here
        · exact UInt32.le_of_lt (issues_fresh start issues)
    · rintro ⟨u, out', len⟩ t outcome
      exact challenge_advances start outcome
  | verify response =>
    refine pack _ _ _ (safe_verify tc v response d quiet here (fun _ _ _ => trivial) register_clock) ?_
    rintro ⟨u, r⟩ t outcome
    cases outcome with
    | closed => exact advanced_same start fun _ h => by cases h
    | expired _ clock | forged _ clock =>
      obtain rfl : t = d := clock
      exact advanced_same start fun _ h => by cases h
    | overtaken _ clock _ _ clock' | accepted _ clock _ _ clock' =>
      obtain rfl : t = d := clock'.trans clock
      exact advanced_same start fun _ h => by cases h
  | poll =>
    refine pack _ _ _ (safe_poll v d quiet here (fun _ _ _ => trivial) register_clock) ?_
    rintro ⟨u, r⟩ t outcome
    cases outcome with
    | closed => exact advanced_same start fun _ h => by cases h
    | waiting _ clock | expired _ clock =>
      obtain rfl : t = d := clock
      exact advanced_same start fun _ h => by cases h
  | cancel => exact ⟨here, advanced_same start fun _ h => by cases h⟩

end

structure VerifierWorld where
  verifier : Verifier
  journal : AuthJournal
  flash : Flash

inductive StoreEvent where
  | returned (op : VerifierOp) (answer : Answer)
  | cut

inductive StoreStep (tc : TinyCrypt) (board : Board) (p : List UInt8) :
    VerifierWorld → StoreEvent → VerifierWorld → Prop where
  | returned {w : VerifierWorld} {op : VerifierOp} {verifier : Verifier} {answer : Answer}
      {journal : AuthJournal} {flash : Flash}
      (h : Exec (boardDevice board.journalBlockSize) ((runOp tc w.verifier op).interp
        (boardPlatform tc board p) w.journal) w.flash ((verifier, answer), journal) flash) :
      StoreStep tc board p w (.returned op answer) ⟨verifier, journal, flash⟩
  | cut {w : VerifierWorld} {op : VerifierOp} {flash : Flash}
      (h : Cut (boardDevice board.journalBlockSize) ((runOp tc w.verifier op).interp
        (boardPlatform tc board p) w.journal) w.flash flash) :
      StoreStep tc board p w .cut ⟨.zero, .zero, flash⟩

def issued : StoreEvent → Option (List UInt8)
  | .returned (.challenge _) (.request out len) =>
    if len = SIMPLE_REQUEST_LEN then some (out.take SIMPLE_REQUEST_LEN) else none
  | _ => none

/-- The durable counter is the watermark. -/
def Mark (tc : TinyCrypt) (board : Board) (p : List UInt8) (m : ℕ) (w : VerifierWorld) : Prop :=
  ∃ d : UInt32, d.toNat = m ∧ Backed tc board p d w.journal w.flash ∧
    (w.verifier.ready = true → w.verifier.material.counter = d)

section
variable {tc : TinyCrypt} {board : Board} {p : List UInt8}

theorem mark_off {m : ℕ} {d : UInt32} {f : Flash} (hd : d.toNat = m)
    (h : Settled tc board p d f) : Mark tc board p m ⟨.zero, .zero, f⟩ :=
  ⟨d, hd, backed_off h rfl, fun h => by cases h⟩

theorem step_mark {m : ℕ} {w w' : VerifierWorld} {e : StoreEvent} (hw : Mark tc board p m w)
    (step : StoreStep tc board p w e w') :
    ∃ m', Mark tc board p m' w' ∧ m ≤ m' ∧
      ∀ n, (issued e).map (fun req => (simpleGetU32 req).toNat) = some n → m < n ∧ n ≤ m' := by
  obtain ⟨d, rfl, backed, start⟩ := hw
  cases step with
  | @returned op verifier answer journal flash h =>
    have out := safe_exec _ _ _ _ _ (safe_board _ _ _ _ d _ _ backed (op_register op start)) h
    obtain ⟨d', advanced, backed'⟩ := out
    refine ⟨_, ⟨d', rfl, backed', advanced.follows⟩, advanced.grown, fun n hn => ?_⟩
    obtain ⟨req, hreq, rfl⟩ := Option.map_eq_some_iff.mp hn
    unfold issued at hreq
    split at hreq
    · rename_i o out len e
      obtain ⟨rfl, rfl⟩ := StoreEvent.returned.inj e
      split at hreq
      · rename_i full
        subst full
        obtain rfl := Option.some.inj hreq
        obtain ⟨lt, eq⟩ := advanced.request out rfl
        exact ⟨lt, eq ▸ Nat.le_refl _⟩
      · cases hreq
    · cases hreq
  | @cut op flash h =>
    have left := safe_cut _ _ _ _ (safe_board _ _ _ _ d _ _ backed (op_register op start)) h
    obtain ⟨d', le, settled⟩ := left
    exact ⟨_, mark_off rfl settled, le, fun n hn => by cases hn⟩

/-- No counter is used twice, and every later load of the journal is past all of them. -/
theorem verifier_never_reuses (tc : TinyCrypt) (board : Board) (p : List UInt8) (flash : Flash)
    (es : List StoreEvent) (w : VerifierWorld)
    (run : Run (StoreStep tc board p) ⟨.zero, .zero, flash⟩ es w) :
    (es.filterMap issued).Pairwise (fun a b => simpleGetU32 a < simpleGetU32 b) ∧
    ∀ req ∈ es.filterMap issued, ∀ j k t, SetUp (journalOf board p) j →
      Exec (flashDevice board.journalBlockSize (bitTear board.journalBlockSize))
        (authJournalLoad tc j (initialOf p)) w.flash (k, true) t →
      simpleGetU32 req ≤ k.counter := by
  obtain ⟨d, settled⟩ := settled_exists tc board p flash
  obtain ⟨increasing, m, ⟨d', rfl, backed, -⟩, -, below⟩ := run_increasing
    (fun e => (issued e).map fun req => (simpleGetU32 req).toNat) (Mark tc board p)
    (fun m s e t => step_mark) (mark_off rfl settled) run
  rw [← List.map_filterMap] at increasing below
  rw [List.pairwise_map] at increasing
  refine ⟨increasing, fun req hreq j k t setUp load => ?_⟩
  have size : j.blockSize = board.journalBlockSize := setUp.blockSize
  rw [← size] at load
  obtain ⟨rfl, outcome⟩ := load_exec bitTear_readOnly load
  cases outcome with
  | found c b n valid m =>
    have durable : c = d' := backed.settled
      (({ j with ready := true } : AuthJournal).moveTo c b n) setUp.key size m
    rw [← durable] at below
    exact (below _ (List.mem_map_of_mem hreq)).2

theorem op_boots {sha256 : List UInt8 → Bytes 32} {hmac : List UInt8 → List UInt8 → Bytes 32}
    (computes : tc.Computes sha256 hmac) {b : Installed} {d timeoutMs : UInt32}
    (h : Loadable tc b.board b.record d b.flash) (pos : timeoutMs ≠ 0) (small : timeoutMs ≤ INT32_MAX) :
    b.Runs tc (fun _ => True) (VerifierRuns.runOp tc .zero (.init allCallbacks timeoutMs))
      (.zero, b.flash) fun x s =>
        x = (bootedVerifier (materialOf b.record d) timeoutMs, .loaded true) ∧
          Serving tc b.board b.record d s.1 s.2 := by
  rw [VerifierRuns.runOp, initVerifier_eq pos small]
  change b.Runs tc _ (_ >>= fun x : Verifier × Bool => pure (x.1, Answer.loaded x.2)) _ _
  rw [loadAndReport_map]
  exact runs_boot computes h _

theorem serving_issues {sha256 : List UInt8 → Bytes 32} {hmac : List UInt8 → List UInt8 → Bytes 32}
    (computes : tc.Computes sha256 hmac) {b : Installed} {d : UInt32} {verifier : Verifier}
    {journal : AuthJournal} {flash : Flash} (serving : Serving tc b.board b.record d journal flash)
    (can : CanIssue verifier d) :
    ∃ out msg now journal' flash',
      StoreStep tc b.board b.record ⟨verifier, journal, flash⟩
        (.returned (.challenge (List.replicate 84 0)) (.request out 84))
        ⟨verifier.begin msg now, journal', flash'⟩ ∧
      msg.counter = d + 1 ∧ simpleGetU32 (out.take 84) = d + 1 ∧
      Serving tc b.board b.record (d + 1) journal' flash' := by
  have spec : Safe (calmDevice (materialOf b.record 0) b.memory fun _ => True) Forward (fun _ => True)
      (VerifierRuns.runOp tc verifier (.challenge (List.replicate 84 0))) (fun x t => ∃ msg now,
        x = (verifier.begin msg now, .request (msgBytes msg ++ (List.replicate 84 0).drop 84) 84) ∧
        msg.counter = d + 1 ∧ t = d + 1) d := by
    refine safe_then (calm_challenge computes can (by simp)) ?_
    rintro _ t ⟨msg, now, issues, rfl, rfl⟩ -
    have counter : msg.counter = d + 1 := can.follows ▸ issues.counter
    exact ⟨trivial, msg, now, rfl, counter, counter⟩
  have run := @runs_calm tc sha256 hmac b d (journal, flash) _ (fun _ => True) _ _
    (fun x s => ∃ msg now,
      x = (verifier.begin msg now, .request (msgBytes msg ++ (List.replicate 84 0).drop 84) 84) ∧
      msg.counter = d + 1 ∧ Serving tc b.board b.record (d + 1) s.1 s.2) computes
    ⟨0, trivial⟩ serving spec ?_
  · obtain ⟨_, journal', flash', run, msg, now, rfl, counter, serving'⟩ := runs_exec run
    refine ⟨_, msg, now, _, _, .returned run, counter, ?_, serving'⟩
    rw [List.take_left' (length_msgBytes msg), parseMsg_counter (parseMsg_msgBytes msg), counter]
  · rintro x s d' ⟨msg, now, rfl, counter, rfl⟩ serving'
    exact ⟨msg, now, rfl, counter, serving'⟩

theorem canIssue_next {verifier : Verifier} {d now : UInt32} {msg : SimpleMsg} (can : CanIssue verifier d)
    (counter : msg.counter = d + 1) (below : d + 1 ≠ UINT32_MAX) :
    CanIssue (verifierCancel (verifier.begin msg now)) (d + 1) :=
  ⟨can.ready, rfl, counter.trans_ne below, counter, can.timeout⟩

end

theorem verifier_never_reuses_session : ∃ board p flash out₁ out₂ w,
    Run (StoreStep referenceTinyCrypt board p) ⟨.zero, .zero, flash⟩
      [.returned (.init allCallbacks 1000) (.loaded true),
        .returned (.challenge (List.replicate 84 0)) (.request out₁ 84), .returned .cancel .none,
        .returned (.challenge (List.replicate 84 0)) (.request out₂ 84)] w ∧
    simpleGetU32 (out₁.take 84) = 6 ∧ simpleGetU32 (out₂.take 84) = 7 ∧
    [out₁.take 84, out₂.take 84].Pairwise (fun a b => simpleGetU32 a < simpleGetU32 b) ∧
    ∀ req ∈ [out₁.take 84, out₂.take 84], ∀ j k t, SetUp (journalOf board p) j →
      Exec (flashDevice board.journalBlockSize (bitTear board.journalBlockSize))
        (authJournalLoad referenceTinyCrypt j (initialOf p)) w.flash (k, true) t →
      simpleGetU32 req ≤ k.counter := by
  obtain ⟨b, -, loadable⟩ := Provisioned.small_installed Provisioned.layout_g431 (Or.inr rfl)
  obtain ⟨_, journal, flash, booted, rfl, serving⟩ := runs_exec (op_boots reference_computes loadable
    (show (1000 : UInt32) ≠ 0 by decide) (by decide))
  have can : CanIssue (bootedVerifier (materialOf b.record 5) 1000) 5 :=
    ⟨rfl, rfl, (show (5 : UInt32) ≠ UINT32_MAX by decide), rfl, (show (1000 : UInt32) ≠ 0 by decide)⟩
  obtain ⟨out₁, msg, now, journal₁, flash₁, first, five, six, serving₁⟩ :=
    serving_issues reference_computes serving can
  have cancel : StoreStep referenceTinyCrypt b.board b.record
      ⟨(bootedVerifier (materialOf b.record 5) 1000).begin msg now, journal₁, flash₁⟩
      (.returned .cancel .none) _ := .returned ⟨rfl, rfl⟩
  obtain ⟨out₂, _, _, journal₂, flash₂, second, -, seven, -⟩ :=
    serving_issues reference_computes serving₁ (canIssue_next can five (by decide))
  have boot : StoreStep referenceTinyCrypt b.board b.record ⟨.zero, .zero, b.flash⟩
      (.returned (.init allCallbacks 1000) (.loaded true)) _ := .returned booted
  have run := Run.next (.next (.next (run_one boot) first) cancel) second
  exact ⟨b.board, b.record, b.flash, out₁, out₂, _, run, six, seven,
    verifier_never_reuses referenceTinyCrypt b.board b.record b.flash _ _ run⟩

end SimpleAttestation.VerifierCounters
