import SimpleAttestation.ProverSpec
import SimpleAttestation.Runs

set_option autoImplicit false

/-!
# The order of a request's effects

Nothing at all is assumed of the callbacks here. The computation of an HMAC leaves no
event; that it came first is what is known of the bytes when the next event happens.
-/
namespace SimpleAttestation.ProverTrace
open ByteStrings Wire Crypto CallProgram CallTraces Runs Platform ProverRequest ProverSpec

def reports : PlatformCall → Bool
  | .ui _ | .error _ => true
  | _ => false

def touches : PlatformCall → Bool
  | .readRange _ _ | .writeResponse _ => true
  | _ => false

def Opens (p : Prover) (req resp : List UInt8) : Prop :=
  p.ready = true ∧ SIMPLE_REPORT_LEN ≤ resp.length ∧ req.length = SIMPLE_REQUEST_LEN

/-- Between the two ends of the atomic section: nothing, or one commit of a fresh authenticated
    counter, and behind it memory only if the commit was positive. -/
inductive Section (tc : TinyCrypt) (p : Prover) (req : List UInt8) :
    List PlatformEvent → Prop where
  | rejected : Section tc p req []
  | commit {saved : ℤ} {rest : List PlatformEvent}
      (fresh : p.material.counter < simpleGetU32 req)
      (authentic : cryptoHmacVerify tc p.material.kAuth.data (req.take SIMPLE_MSG_LEN)
        (bytesAt 32 req 52) = true)
      (failed : saved ≤ 0 → rest = [])
      (work : ∀ e ∈ rest, reports e.call = true ∨ touches e.call = true) :
      Section tc p req (⟨.saveCounter (simpleGetU32 req), saved⟩ :: rest)

/-- One atomic section, left with the value it was entered with; only the display outside it. -/
def Bracketed (tc : TinyCrypt) (p : Prover) (req : List UInt8) (es : List PlatformEvent) : Prop :=
  ∃ before previous body after, es = before ++ ⟨.enterAtomic, previous⟩ ::
      (body ++ ⟨.leaveAtomic previous, ()⟩ :: after) ∧
    (∀ e ∈ before ++ after, reports e.call = true) ∧ Section tc p req body

def Failed (es : List PlatformEvent) : Prop := ∃ c saved, Saved es c saved ∧ saved ≤ 0

def Wrote (es : List PlatformEvent) : Prop :=
  ∃ bytes, (⟨.writeResponse bytes, ()⟩ : PlatformEvent) ∈ es

section
variable {tc : TinyCrypt} {p : Prover} {req resp : List UInt8} {es : List PlatformEvent}

theorem quiet_unsaved (quiet : ∀ e ∈ es, reports e.call = true) (c : UInt32) (saved : ℤ) :
    ¬ Saved es c saved := by
  intro here
  have no := quiet _ here
  cases no

theorem saved_inside {before body after : List PlatformEvent} {previous : ℕ} {c : UInt32} {saved : ℤ}
    (first : ∀ e ∈ before, reports e.call = true) (last : ∀ e ∈ after, reports e.call = true)
    (h : Saved (before ++ ⟨.enterAtomic, previous⟩ :: (body ++ ⟨.leaveAtomic previous, ()⟩ :: after))
      c saved) : Saved body c saved := by
  rcases List.mem_append.mp h with here | here
  · exact absurd here (quiet_unsaved first c saved)
  · rcases List.mem_append.mp (List.mem_of_ne_of_mem (by simp) here) with here | here
    · exact here
    · exact absurd (List.mem_of_ne_of_mem (by simp) here) (quiet_unsaved last c saved)

theorem wrote_subset {fs : List PlatformEvent} (sub : es ⊆ fs) (h : Wrote es) : Wrote fs := by
  obtain ⟨bytes, here⟩ := h
  exact ⟨bytes, sub here⟩

theorem traced_authUi {platform : AuthPlatform} {phase : AuthPhase} {u : Unit}
    (h : Traced (authUi platform phase) es u) : ∀ e ∈ es, reports e.call = true := by
  unfold authUi at h
  split at h
  · obtain ⟨r, rest, rfl, rfl, -⟩ := h
    simp [reports]
  · obtain ⟨rfl, -⟩ := h
    simp

theorem traced_authError {platform : AuthPlatform} {code : ℕ} {u : Unit}
    (h : Traced (authError platform code) es u) : ∀ e ∈ es, reports e.call = true := by
  unfold authError at h
  split at h
  · obtain ⟨r, rest, rfl, rfl, -⟩ := h
    simp [reports]
  · exact traced_authUi h

theorem traced_reportHandled {platform : AuthPlatform} {h : Handled} {u : Unit}
    (run : Traced (reportHandled platform h) es u) : ∀ e ∈ es, reports e.call = true := by
  unfold reportHandled at run
  split at run
  · exact traced_authError run
  · exact traced_authUi run

theorem traced_updateRanges {h : tc.HmacState} {ranges : List AttestationRange}
    {digest : Option (Bytes 32)} (run : Traced (updateRanges tc h ranges) es digest) :
    ∀ e ∈ es, touches e.call = true := by
  induction ranges generalizing h es with
  | nil =>
    obtain ⟨rfl, -⟩ := run
    simp
  | cons r ranges ih =>
    rw [updateRanges, traced_ask] at run
    obtain ⟨bytes, rest, rfl, run⟩ := run
    refine List.forall_mem_cons.mpr ⟨rfl, ?_⟩
    cases updated : tc.tcHmacUpdate h bytes.data with
    | none =>
      rw [updated] at run
      obtain ⟨rfl, -⟩ := run
      simp
    | some h =>
      rw [updated] at run
      exact ih run

theorem traced_attestation {key : Bytes 32} {ranges : List AttestationRange}
    {digest : Option (Bytes 32)}
    (run : Traced (attestationComputeValidState tc key ranges) es digest) :
    ∀ e ∈ es, touches e.call = true := by
  unfold attestationComputeValidState at run
  split at run
  · obtain ⟨rfl, -⟩ := run
    simp
  · split at run
    · obtain ⟨rfl, -⟩ := run
      simp
    · exact traced_updateRanges run

theorem serializeReport_unwritten (r : SimpleReport) {out : List UInt8}
    (h : (simpleSerializeReport r out).2 = 0) : (simpleSerializeReport r out).1 = out := by
  unfold simpleSerializeReport at h ⊢
  split at h
  · rename_i refused
    rw [if_pos refused]
  · cases h

/-- Behind a commit that failed there is nothing; behind one that did not, only the display and
    memory. -/
theorem traced_answerRequest {msg : SimpleMsg} {saved : ℤ} {h : Handled}
    (run : Traced (answerRequest tc p msg resp saved) es h) :
    (saved ≤ 0 → es = [] ∧ h.prover = { p with ready := false } ∧ h.resp = resp ∧ h.len = 0) ∧
      (∀ e ∈ es, reports e.call = true ∨ touches e.call = true) ∧ (h.resp = resp ∨ Wrote es) := by
  unfold answerRequest at run
  split at run
  · obtain ⟨rfl, rfl⟩ := run
    exact ⟨fun _ => ⟨rfl, rfl, rfl, rfl⟩, by simp, Or.inl rfl⟩
  · rename_i positive
    refine ⟨fun failed => absurd failed positive, ?_⟩
    rw [traced_bind] at run
    obtain ⟨_, xs, _, rfl, ui, run⟩ := run
    rw [traced_bind] at run
    obtain ⟨measured, ys, zs, rfl, measure, run⟩ := run
    have display : ∀ e ∈ xs, reports e.call = true ∨ touches e.call = true :=
      fun e he => Or.inl (traced_authUi ui e he)
    have memory : ∀ e ∈ ys, reports e.call = true ∨ touches e.call = true :=
      fun e he => Or.inr (traced_attestation measure e he)
    have last : (∀ e ∈ zs, reports e.call = true ∨ touches e.call = true) ∧
        (h.resp = resp ∨ Wrote zs) := by
      cases measured with
      | none =>
        obtain ⟨rfl, rfl⟩ := run
        exact ⟨by simp, Or.inl rfl⟩
      | some vs =>
        simp only [compare_result] at run
        cases tagged : responseTag tc (p.advance msg.counter).material.kAuth (resultOf vs msg) msg with
        | none =>
          rw [responseTag] at tagged
          rw [tagged] at run
          obtain ⟨rfl, rfl⟩ := run
          exact ⟨by simp, Or.inl rfl⟩
        | some hmac =>
          rw [responseTag] at tagged
          rw [tagged] at run
          dsimp only at run
          split at run
          · rename_i unwritten
            obtain ⟨rfl, rfl⟩ := run
            exact ⟨by simp, Or.inl (serializeReport_unwritten _ unwritten)⟩
          · rw [traced_ask] at run
            obtain ⟨_, _, rfl, rfl, -⟩ := run
            exact ⟨by simp [touches], Or.inr ⟨_, List.mem_singleton.mpr rfl⟩⟩
    obtain ⟨work, written⟩ := last
    refine ⟨List.forall_mem_append.mpr ⟨display, List.forall_mem_append.mpr ⟨memory, work⟩⟩, ?_⟩
    have sub : zs ⊆ xs ++ (ys ++ zs) := fun e he =>
      List.mem_append_right _ (List.mem_append_right _ he)
    exact written.imp_right (wrote_subset sub)

theorem traced_processRequest {h : Handled} (run : Traced (processRequest tc p req resp) es h) :
    Section tc p req es ∧ (Failed es → h.prover = { p with ready := false } ∧ h.resp = resp ∧
      h.len = 0) ∧ (h.resp = resp ∨ Wrote es) := by
  have nothing : ∀ phase error, (⟨p, resp, 0, phase, error⟩ : Handled) = h → es = [] →
      Section tc p req es ∧ (Failed es → h.prover = { p with ready := false } ∧ h.resp = resp ∧
        h.len = 0) ∧ (h.resp = resp ∨ Wrote es) := by
    rintro phase error rfl rfl
    exact ⟨.rejected, (fun ⟨_, _, h, _⟩ => by cases h), Or.inl rfl⟩
  unfold processRequest at run
  cases parsed : simpleParseMsg req with
  | none =>
    rw [parsed] at run
    exact nothing _ _ run.2.symm run.1
  | some msg =>
    rw [parsed] at run
    dsimp only at run
    split at run
    · exact nothing _ _ run.2.symm run.1
    · rename_i fresh
      split at run
      · exact nothing _ _ run.2.symm run.1
      · rename_i authentic
        have counter := parseMsg_counter parsed
        have hmac : msg.hmac = bytesAt 32 req 52 := by
          rw [simpleParseMsg] at parsed
          split at parsed
          · cases parsed
          · obtain rfl := Option.some.inj parsed
            rfl
        rw [traced_ask] at run
        obtain ⟨saved, rest, rfl, run⟩ := run
        obtain ⟨failed, work, written⟩ := traced_answerRequest run
        rw [← counter] at fresh ⊢
        refine ⟨.commit (UInt32.not_le.mp fresh) ?_ (fun le => (failed le).1) work, ?_,
          written.imp_right (wrote_subset (List.subset_cons_self _ _))⟩
        · rw [← hmac]
          simpa using authentic
        · rintro ⟨c, saved', here, le⟩
          rcases saved_cons.mp here with ⟨-, rfl⟩ | here
          · exact (failed le).2
          · rcases work _ here with h | h <;> cases h

theorem traced_handleRequest {p' : Prover} {resp' : List UInt8} {n : ℕ}
    (run : Traced (proverHandleRequest tc p req resp) es (p', resp', n)) :
    (Opens p req resp → Bracketed tc p req es) ∧
    (¬ Opens p req resp → (∀ e ∈ es, reports e.call = true) ∧ resp' = resp ∧ n = 0) ∧
    (p.ready = false → es = [] ∧ p' = p ∧ resp' = resp ∧ n = 0) ∧
    (Failed es → p'.ready = false ∧ resp' = resp ∧ n = 0) ∧ (resp' = resp ∨ Wrote es) := by
  have unsaved : (∀ e ∈ es, reports e.call = true) → ¬ Failed es := by
    rintro quiet ⟨c, saved, here, -⟩
    exact quiet_unsaved quiet c saved here
  unfold proverHandleRequest at run
  split at run
  · rename_i closed
    obtain ⟨rfl, same⟩ := run
    obtain ⟨rfl, rfl, rfl⟩ := same
    refine ⟨fun ⟨ready, room, _⟩ => ?_, fun _ => ⟨by simp, rfl, rfl⟩, fun _ => ⟨rfl, rfl, rfl, rfl⟩,
      fun failed => absurd failed (unsaved (by simp)), Or.inl rfl⟩
    simp only [ready, Bool.not_true, Bool.false_or, decide_eq_true_eq] at closed
    exact absurd room (Nat.not_le.mpr closed)
  · rename_i opened
    have ready : p.ready = true := by
      rw [Bool.not_eq_true, Bool.or_eq_false_iff] at opened
      simpa using opened.1
    split at run
    · rename_i short
      rw [traced_bind] at run
      obtain ⟨_, xs, ys, rfl, error, same⟩ := run
      obtain ⟨rfl, same⟩ := same
      obtain ⟨rfl, rfl, rfl⟩ := same
      rw [List.append_nil] at unsaved ⊢
      have quiet := traced_authError error
      refine ⟨fun ⟨_, _, length⟩ => absurd length short, fun _ => ⟨quiet, rfl, rfl⟩, fun no => ?_,
        fun failed => absurd failed (unsaved quiet), Or.inl rfl⟩
      rw [ready] at no
      cases no
    · rename_i length
      rw [traced_bind] at run
      obtain ⟨_, before, _, rfl, ui, run⟩ := run
      rw [traced_ask] at run
      obtain ⟨previous, _, rfl, run⟩ := run
      rw [traced_bind] at run
      obtain ⟨h, body, _, rfl, inside, run⟩ := run
      rw [traced_ask] at run
      obtain ⟨_, _, rfl, run⟩ := run
      rw [traced_bind] at run
      obtain ⟨_, after, _, rfl, report, same⟩ := run
      obtain ⟨rfl, same⟩ := same
      obtain ⟨rfl, rfl, rfl⟩ := same
      rw [List.append_nil]
      obtain ⟨sect, stopped, written⟩ := traced_processRequest inside
      have first := traced_authUi ui
      have last := traced_reportHandled report
      have sub : body ⊆ before ++ ⟨.enterAtomic, previous⟩ ::
          (body ++ ⟨.leaveAtomic previous, ()⟩ :: after) := fun e he =>
        List.mem_append_right _ (List.mem_cons_of_mem _ (List.mem_append_left _ he))
      have opens : Opens p req resp := by
        rw [Bool.not_eq_true, Bool.or_eq_false_iff] at opened
        exact ⟨ready, by simpa using opened.2, by simpa using length⟩
      refine ⟨fun _ => ⟨before, previous, body, after, rfl, List.forall_mem_append.mpr ⟨first, last⟩,
        sect⟩, fun no => absurd opens no, fun no => ?_, ?_, written.imp_right (wrote_subset sub)⟩
      · rw [ready] at no
        cases no
      · rintro ⟨c, saved, here, le⟩
        obtain ⟨prover, same, zero⟩ := stopped ⟨c, saved, saved_inside first last here, le⟩
        exact ⟨by rw [prover], same, zero⟩

end

inductive ProverCall where
  | init (platform : AuthPlatform) (ranges : List AttestationRange) (ok : Bool)
  | request (req resp resp' : List UInt8) (n : ℕ)

structure CallEvent where
  call : ProverCall
  trace : List PlatformEvent

inductive CallStep (tc : TinyCrypt) : Prover → CallEvent → Prover → Prop where
  | init {p p' : Prover} {platform : AuthPlatform} {ranges : List AttestationRange} {ok : Bool}
      {es : List PlatformEvent} (run : Traced (proverInit p platform ranges) es (p', ok)) :
      CallStep tc p ⟨.init platform ranges ok, es⟩ p'
  | request {p p' : Prover} {req resp resp' : List UInt8} {n : ℕ} {es : List PlatformEvent}
      (run : Traced (proverHandleRequest tc p req resp) es (p', resp', n)) :
      CallStep tc p ⟨.request req resp resp' n, es⟩ p'

def CallEvent.restarts : CallEvent → Bool
  | ⟨.init _ _ ok, _⟩ => ok
  | _ => false

def CallEvent.Silent : CallEvent → Prop
  | ⟨.request _ resp resp' n, es⟩ => es = [] ∧ resp' = resp ∧ n = 0
  | _ => True

section
variable {tc : TinyCrypt} {p p' : Prover}

theorem traced_init {platform : AuthPlatform} {ranges : List AttestationRange} {ok : Bool}
    {es : List PlatformEvent} (run : Traced (proverInit p platform ranges) es (p', ok)) :
    p' = p ∧ ok = false ∨ p'.ready = ok ∧ p'.ranges = ranges ∧ ranges ≠ [] := by
  unfold proverInit at run
  split at run
  · obtain ⟨-, same⟩ := run
    exact Or.inl (Prod.mk.inj same)
  · rename_i accepted
    rw [traced_ask] at run
    obtain ⟨loaded, _, rfl, run⟩ := run
    rw [traced_bind] at run
    obtain ⟨_, _, _, rfl, -, -, same⟩ := run
    obtain ⟨rfl, rfl⟩ := Prod.mk.inj same
    refine Or.inr ⟨rfl, rfl, fun empty => accepted ?_⟩
    simp [empty]

theorem latched_step {e : CallEvent} (stopped : p.ready = false) (step : CallStep tc p e p')
    (still : e.restarts = false) : p'.ready = false ∧ e.Silent := by
  cases step with
  | init run =>
    obtain rfl := still
    rcases traced_init run with ⟨rfl, -⟩ | ⟨ready, -⟩
    · exact ⟨stopped, trivial⟩
    · exact ⟨ready, trivial⟩
  | request run =>
    obtain ⟨-, -, closed, -⟩ := traced_handleRequest run
    obtain ⟨rfl, rfl, rfl, rfl⟩ := closed stopped
    exact ⟨stopped, rfl, rfl, rfl⟩

theorem latched_run {es : List CallEvent} (stopped : p.ready = false)
    (run : Run (CallStep tc) p es p') (still : ∀ e ∈ es, e.restarts = false) :
    p'.ready = false ∧ ∀ e ∈ es, e.Silent := by
  induction run with
  | start => exact ⟨stopped, by simp⟩
  | next before last ih =>
    obtain ⟨first, newest⟩ := List.forall_mem_append.mp still
    obtain ⟨stopped', silent⟩ := ih first
    obtain ⟨stopped'', here⟩ := latched_step stopped' last (newest _ (List.mem_singleton.mpr rfl))
    exact ⟨stopped'', List.forall_mem_append.mpr ⟨silent, by simpa using here⟩⟩

end

/-- One atomic section around one commit, the commit before the measurement and the response, and
    no further call behind a commit that failed. -/
theorem effects_ordered (tc : TinyCrypt) (p : Prover) (req resp : List UInt8)
    (es : List PlatformEvent) (p' : Prover) (resp' : List UInt8) (n : ℕ)
    (run : Traced (proverHandleRequest tc p req resp) es (p', resp', n)) :
    (Opens p req resp → Bracketed tc p req es) ∧
    (¬ Opens p req resp → ∀ e ∈ es, reports e.call = true) ∧
    (resp' = resp ∨ Wrote es) ∧
    (Failed es → ∀ later p'', Run (CallStep tc) p' later p'' → (∀ e ∈ later, e.restarts = false) →
      ∀ e ∈ later, e.Silent) := by
  obtain ⟨opens, refused, -, failed, written⟩ := traced_handleRequest run
  refine ⟨opens, fun no => (refused no).1, written, fun stopped later p'' run' still => ?_⟩
  exact (latched_run (failed stopped).1 run' still).2

theorem processRequest_accepted {tc : TinyCrypt} {p : Prover} {req resp : List UInt8}
    {msg : SimpleMsg} (h : Accepts tc p req resp msg) : processRequest tc p req resp =
      Prog.ask (PlatformCall.saveCounter msg.counter) >>= answerRequest tc p msg resp := by
  have authentic : cryptoHmacVerify tc p.material.kAuth.data (req.take SIMPLE_MSG_LEN) msg.hmac = true :=
    (hmacVerify_iff tc _ _ _).mpr h.tag
  have fresh : ¬ msg.counter ≤ p.material.counter := UInt32.not_le.mpr h.fresh
  rw [processRequest, h.parsed]
  dsimp only
  rw [if_neg fresh, if_neg (by simp [authentic])]

/-- The commit of the small request answers zero, and the next request finds the prover stopped. -/
theorem effects_ordered_small : ∃ es p' resp' later p'',
    Traced (proverHandleRequest referenceTinyCrypt smallProver smallRequest (List.replicate 33 0)) es
      (p', resp', 0) ∧ Failed es ∧ Bracketed referenceTinyCrypt smallProver smallRequest es ∧
    Run (CallStep referenceTinyCrypt) p' later p'' ∧ later.length = 1 ∧ ∀ e ∈ later, e.Silent := by
  have accepted := small_accepts (show 33 ≤ (List.replicate 33 (0 : UInt8)).length by simp)
  have length : smallRequest.length = SIMPLE_REQUEST_LEN := length_msgBytes _
  have run : Traced (proverHandleRequest referenceTinyCrypt smallProver smallRequest
      (List.replicate 33 0)) [⟨.ui .request, ()⟩, ⟨.enterAtomic, (0 : ℕ)⟩, ⟨.saveCounter 6, (0 : ℤ)⟩,
        ⟨.leaveAtomic 0, ()⟩, ⟨.error 14, ()⟩]
      ({ smallProver with ready := false }, List.replicate 33 0, 0) := by
    have opened : ¬ (!smallProver.ready || decide ((List.replicate 33 (0 : UInt8)).length < 33)) = true := by
      simp [smallProver]
    rw [proverHandleRequest, if_neg opened, if_neg (not_not.mpr length), processRequest_accepted accepted]
    exact ⟨(), _, rfl, (0 : ℕ), _, rfl, (0 : ℤ), _, rfl, (), _, rfl, (), _, rfl, rfl, rfl⟩
  have failed : Failed [⟨.ui .request, ()⟩, ⟨.enterAtomic, (0 : ℕ)⟩, ⟨.saveCounter 6, (0 : ℤ)⟩,
      ⟨.leaveAtomic 0, ()⟩, ⟨.error 14, ()⟩] := ⟨6, 0, by simp [Saved], Int.le_refl 0⟩
  have again : Traced (proverHandleRequest referenceTinyCrypt { smallProver with ready := false }
      smallRequest []) [] ({ smallProver with ready := false }, [], 0) := ⟨rfl, rfl⟩
  have later := run_one (CallStep.request again)
  obtain ⟨opens, -, -, latched⟩ := effects_ordered referenceTinyCrypt smallProver smallRequest
    (List.replicate 33 0) _ _ _ 0 run
  exact ⟨_, _, _, _, _, run, failed, opens ⟨rfl, by simp, length⟩, later, rfl,
    latched failed _ _ later (by simp [CallEvent.restarts])⟩

end SimpleAttestation.ProverTrace
