import SimpleAttestation.Provisioned
import SimpleAttestation.Runs

set_option autoImplicit false

/-!
# The prover on a board, over any number of power cycles
-/
namespace SimpleAttestation.ProverRuns
open ByteStrings Wire Crypto CallProgram Runs Platform ProverRequest Session Journal Store StoreRegister
  BoardSession

section
variable {tc : TinyCrypt} {base : AuthMaterial}

theorem init_register (p : Prover) (platform : AuthPlatform) (ranges : List AttestationRange)
    (d : UInt32) :
    Safe (registerDevice base) (fun _ _ => True) (· = d) (proverInit p platform ranges)
      (fun x t => t = d ∧ (x = (p, false) ∨ ∃ loaded, (loaded = none ∨
        loaded = some { base with counter := d }) ∧
          x = (⟨platform, loaded.getD .zero, ranges, loaded.isSome⟩, loaded.isSome))) d := by
  refine safe_post ?_
    (safe_proverInit platform ranges p d (registerDevice_quiet base) rfl (fun _ _ _ => trivial) trivial
      (fun _ h => h) (fun _ _ h => h.1))
  rintro x t (⟨rfl, rfl⟩ | ⟨loaded, ⟨rfl, answer⟩, rfl⟩)
  · exact ⟨rfl, Or.inl rfl⟩
  · exact ⟨rfl, Or.inr ⟨loaded, answer, rfl⟩⟩

theorem handle_register (p : Prover) (req resp : List UInt8) (d : UInt32) :
    Safe (registerDevice base) (fun _ _ => True)
      (fun t => t = d ∨ ∃ msg, Accepts tc p req resp msg ∧ t = msg.counter)
      (proverHandleRequest tc p req resp)
      (HandleOutcome tc (fun _ => True) (commits (registerDevice base) d) p req resp d) d := by
  refine safe_handleRequest tc _ p req resp d (registerDevice_quiet base) (Or.inl rfl)
    (fun _ _ _ => trivial) fun msg accepted => ⟨trivial, ?_, ?_⟩
  · rintro t (rfl | rfl)
    · exact Or.inl rfl
    · exact Or.inr ⟨msg, accepted, rfl⟩
  · rintro saved t ⟨-, moved⟩
    have hK : t = d ∨ ∃ msg, Accepts tc p req resp msg ∧ t = msg.counter := by
      rcases moved with rfl | rfl
      · exact Or.inl rfl
      · exact Or.inr ⟨msg, accepted, rfl⟩
    refine ⟨hK, safe_post (fun _ _ h => ⟨h, trivial⟩)
      (safe_attestation tc (registerDevice_quiet base) t hK (fun _ _ => trivial) _ _)⟩

end

structure ProverWorld where
  prover : Prover
  journal : AuthJournal
  flash : Flash

inductive ProverEvent where
  | boot (ok : Bool)
  | request (req resp : List UInt8) (len : ℕ)
  | cut

inductive ProverStep (tc : TinyCrypt) (board : Board) (p : List UInt8) :
    ProverWorld → ProverEvent → ProverWorld → Prop where
  | boot {w : ProverWorld} {platform : AuthPlatform} {ranges : List AttestationRange}
      {prover : Prover} {ok : Bool} {journal : AuthJournal} {flash : Flash}
      (h : Exec (boardDevice board.journalBlockSize) ((proverInit .zero platform ranges).interp
        (boardPlatform tc board p) .zero) w.flash ((prover, ok), journal) flash) :
      ProverStep tc board p w (.boot ok) ⟨prover, journal, flash⟩
  | request {w : ProverWorld} {req resp resp' : List UInt8} {len : ℕ} {prover : Prover}
      {journal : AuthJournal} {flash : Flash}
      (h : Exec (boardDevice board.journalBlockSize) ((proverHandleRequest tc w.prover req resp).interp
        (boardPlatform tc board p) w.journal) w.flash ((prover, resp', len), journal) flash) :
      ProverStep tc board p w (.request req resp' len) ⟨prover, journal, flash⟩
  | cutBoot {w : ProverWorld} {platform : AuthPlatform} {ranges : List AttestationRange}
      {flash : Flash}
      (h : Cut (boardDevice board.journalBlockSize) ((proverInit .zero platform ranges).interp
        (boardPlatform tc board p) .zero) w.flash flash) :
      ProverStep tc board p w .cut ⟨.zero, .zero, flash⟩
  | cutRequest {w : ProverWorld} {req resp : List UInt8} {flash : Flash}
      (h : Cut (boardDevice board.journalBlockSize) ((proverHandleRequest tc w.prover req resp).interp
        (boardPlatform tc board p) w.journal) w.flash flash) :
      ProverStep tc board p w .cut ⟨.zero, .zero, flash⟩

def answered : ProverEvent → Option (List UInt8)
  | .request req _ len => if len = SIMPLE_REPORT_LEN then some req else none
  | _ => none

/-- The durable counter is the watermark. -/
def Mark (tc : TinyCrypt) (board : Board) (p : List UInt8) (m : ℕ) (w : ProverWorld) : Prop :=
  ∃ d : UInt32, d.toNat = m ∧ Backed tc board p d w.journal w.flash ∧
    (w.prover.ready = true → w.prover.material.counter = d)

variable {tc : TinyCrypt} {board : Board} {p : List UInt8}

theorem mark_off {m : ℕ} {d : UInt32} {f : Flash} (hd : d.toNat = m)
    (h : Settled tc board p d f) : Mark tc board p m ⟨.zero, .zero, f⟩ :=
  ⟨d, hd, backed_off h rfl, fun h => by cases h⟩

theorem request_mark {d : UInt32} {prover prover' : Prover} {req resp resp' : List UInt8} {len : ℕ}
    {d' : UInt32} (start : prover.ready = true → prover.material.counter = d)
    (out : HandleOutcome tc (fun _ => True) (commits (registerDevice (materialOf p 0)) d) prover req
      resp d (prover', resp', len) d') :
    d ≤ d' ∧ (prover'.ready = true → prover'.material.counter = d') ∧
      (len = 33 → d < simpleGetU32 req ∧ simpleGetU32 req = d') := by
  have fresh : ∀ {msg}, Accepts tc prover req resp msg → d < msg.counter :=
    fun h => start h.ready ▸ h.fresh
  cases out with
  | refused => exact ⟨UInt32.le_refl d, start, fun h => by cases h⟩
  | uncommitted accepted commit failed =>
    refine ⟨?_, (fun h => by cases h), fun h => by cases h⟩
    rcases commit.2 with rfl | rfl
    · exact UInt32.le_refl _
    · exact UInt32.le_of_lt (fresh accepted)
  | silent accepted commit positive =>
    obtain rfl := commit.1 positive
    exact ⟨UInt32.le_of_lt (fresh accepted), fun _ => rfl, fun h => by cases h⟩
  | answered accepted commit positive =>
    obtain rfl := commit.1 positive
    refine ⟨UInt32.le_of_lt (fresh accepted), fun _ => rfl, fun _ => ?_⟩
    have counter := parseMsg_counter accepted.parsed
    exact ⟨counter ▸ fresh accepted, counter⟩

theorem step_mark {m : ℕ} {w w' : ProverWorld} {e : ProverEvent} (hw : Mark tc board p m w)
    (step : ProverStep tc board p w e w') :
    ∃ m', Mark tc board p m' w' ∧ m ≤ m' ∧
      ∀ n, (answered e).map (fun req => (simpleGetU32 req).toNat) = some n → m < n ∧ n ≤ m' := by
  obtain ⟨d, rfl, backed, start⟩ := hw
  cases step with
  | @boot platform ranges prover ok journal flash h =>
    have off : Backed tc board p d .zero w.flash := backed_off backed.settled rfl
    have out := safe_exec _ _ _ _ _
      (safe_board _ _ _ _ d _ _ off (init_register .zero platform ranges d)) h
    obtain ⟨_, ⟨rfl, loaded⟩, backed'⟩ := out
    refine ⟨_, ⟨_, rfl, backed', ?_⟩, Nat.le_refl _, fun n hn => by cases hn⟩
    rcases loaded with e | ⟨loaded, rfl | rfl, e⟩ <;> obtain ⟨rfl, -⟩ := Prod.mk.inj e <;>
      intro ready
    · cases ready
    · cases ready
    · rfl
  | @request req resp resp' len prover journal flash h =>
    have out := safe_exec _ _ _ _ _ (safe_board _ _ _ _ d _ _ backed
      (handle_register w.prover req resp d)) h
    obtain ⟨d', out, backed'⟩ := out
    obtain ⟨le, start', fresh⟩ := request_mark start out
    refine ⟨_, ⟨d', rfl, backed', start'⟩, le, fun n hn => ?_⟩
    by_cases full : len = SIMPLE_REPORT_LEN
    · simp only [answered, if_pos full] at hn
      obtain rfl := Option.some.inj hn
      obtain ⟨lt, rfl⟩ := fresh full
      exact ⟨lt, Nat.le_refl _⟩
    · simp only [answered, if_neg full] at hn
      cases hn
  | @cutBoot platform ranges flash h =>
    have off : Backed tc board p d .zero w.flash := backed_off backed.settled rfl
    have left := safe_cut _ _ _ _
      (safe_board _ _ _ _ d _ _ off (init_register .zero platform ranges d)) h
    obtain ⟨_, rfl, settled⟩ := left
    exact ⟨_, mark_off rfl settled, Nat.le_refl _, fun n hn => by cases hn⟩
  | @cutRequest req resp flash h =>
    have left := safe_cut _ _ _ _ (safe_board _ _ _ _ d _ _ backed
      (handle_register w.prover req resp d)) h
    obtain ⟨d', moved, settled⟩ := left
    refine ⟨_, mark_off rfl settled, ?_, fun n hn => by cases hn⟩
    rcases moved with rfl | ⟨msg, accepted, rfl⟩
    · exact Nat.le_refl _
    · exact Nat.le_of_lt (start accepted.ready ▸ accepted.fresh)

/-- Anti-replay, from any flash whatsoever. -/
theorem prover_never_replays (tc : TinyCrypt) (board : Board) (p : List UInt8) (flash : Flash)
    (es : List ProverEvent) (w : ProverWorld)
    (run : Run (ProverStep tc board p) ⟨.zero, .zero, flash⟩ es w) :
    (es.filterMap answered).Pairwise (fun a b => simpleGetU32 a < simpleGetU32 b) ∧
      (es.filterMap answered).Nodup := by
  obtain ⟨d, settled⟩ := settled_exists tc board p flash
  obtain ⟨increasing, -⟩ := run_increasing
    (fun e => (answered e).map fun req => (simpleGetU32 req).toNat) (Mark tc board p)
    (fun m s e t => step_mark) (mark_off rfl settled) run
  rw [← List.map_filterMap, List.pairwise_map] at increasing
  refine ⟨increasing, increasing.imp fun lt same => ?_⟩
  subst same
  exact Nat.lt_irrefl _ lt

def requestOf (hmac : List UInt8 → List UInt8 → Bytes 32) (prover : Prover) (c : UInt32) : SimpleMsg :=
  ⟨c, .fill 32 0, .fill 16 0, hmac prover.material.kAuth.data
    (msgAuth ⟨c, .fill 32 0, .fill 16 0, .fill 32 0⟩)⟩

theorem serving_answers {sha256 : List UInt8 → Bytes 32} {hmac : List UInt8 → List UInt8 → Bytes 32}
    (computes : tc.Computes sha256 hmac) {b : Installed} {d c : UInt32} (prover : Prover)
    {journal : AuthJournal} {flash : Flash} (serving : Serving tc b.board b.record d journal flash)
    (ready : prover.ready = true) (follows : prover.material.counter = d)
    (measurable : Measurable prover.ranges) (fresh : d < c) :
    ∃ req resp journal' flash',
      ProverStep tc b.board b.record ⟨prover, journal, flash⟩ (.request req resp 33)
        ⟨prover.advance c, journal', flash'⟩ ∧ simpleGetU32 req = c ∧
      Serving tc b.board b.record c journal' flash' := by
  have accepted : Accepts tc prover (msgBytes (requestOf hmac prover c)) (List.replicate 33 0)
      (requestOf hmac prover c) := by
    refine ⟨ready, by simp, parseMsg_msgBytes _, follows ▸ fresh, ?_⟩
    rw [take_msgBytes]
    exact hmacCompute_bytes computes _ (by simp; decide)
  have run := @runs_calm tc sha256 hmac b d (journal, flash) _ (fun _ => True) _ _
    (fun x s => ∃ resp, x = (prover.advance c, resp, 33) ∧ Serving tc b.board b.record c s.1 s.2) computes
    ⟨0, trivial⟩ serving (calm_handle computes accepted follows measurable) ?_
  · obtain ⟨_, journal', flash', run, resp, rfl, serving'⟩ := runs_exec run
    exact ⟨_, resp, _, _, .request run, parseMsg_counter (parseMsg_msgBytes _), serving'⟩
  · rintro x s d' ⟨result, tag, -, -, rfl, rfl⟩ serving'
    exact ⟨_, rfl, serving'⟩

/-- Two requests after a boot, with the counters 6 and 7. -/
theorem prover_never_replays_session : ∃ board p flash req₁ resp₁ req₂ resp₂ w,
    Run (ProverStep referenceTinyCrypt board p) ⟨.zero, .zero, flash⟩
      [.boot true, .request req₁ resp₁ 33, .request req₂ resp₂ 33] w ∧
    simpleGetU32 req₁ = 6 ∧ simpleGetU32 req₂ = 7 ∧
    [req₁, req₂].Pairwise (fun a b => simpleGetU32 a < simpleGetU32 b) ∧ [req₁, req₂].Nodup := by
  obtain ⟨b, board, loadable⟩ := Provisioned.small_installed Provisioned.layout_h743 (Or.inl rfl)
  have measurable : Measurable [⟨some 0x08000000, 16⟩] :=
    ⟨List.cons_ne_nil _ _, by simp [AttestationRange.valid, UINT_MAX]⟩
  obtain ⟨_, journal, flash, booted, rfl, serving⟩ := runs_exec
    (boot_prover reference_computes loadable measurable.1)
  obtain ⟨req₁, resp₁, journal₁, flash₁, first, six, serving₁⟩ :=
    serving_answers reference_computes ⟨allCallbacks, materialOf b.record 5, _, true⟩ serving rfl rfl
      measurable (show 5 < 6 by decide)
  obtain ⟨req₂, resp₂, journal₂, flash₂, second, seven, -⟩ :=
    serving_answers reference_computes ⟨allCallbacks, materialOf b.record 6, _, true⟩ serving₁ rfl rfl
      measurable (show 6 < 7 by decide)
  have boot : ProverStep referenceTinyCrypt b.board b.record ⟨.zero, .zero, b.flash⟩ (.boot true) _ :=
    .boot booted
  have run := Run.next (.next (run_one boot) first) second
  exact ⟨b.board, b.record, b.flash, req₁, resp₁, req₂, resp₂, _, run, six, seven,
    prover_never_replays referenceTinyCrypt b.board b.record b.flash _ _ run⟩

end SimpleAttestation.ProverRuns
