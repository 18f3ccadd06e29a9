import SimpleAttestation.Network

set_option autoImplicit false

/-!
# Injective agreement
-/
namespace SimpleAttestation.Agreement
open ByteStrings Wire Crypto CallProgram Runs Platform ProverRequest ProverRuns Store
  VerifierSession VerifierRuns VerifierCounters Session Network

variable {tc : TinyCrypt} {baseV baseP : AuthMaterial}

/-- The outstanding challenge is the newest one, and not yet accepted. -/
structure Outstanding (es : List NetEvent) (v : Verifier) : Prop where
  newest : ∃ before msg after, es = before ++ .challenged msg :: after ∧
    .challenged msg ∉ before ∧ (∀ m, .challenged m ∉ after) ∧
    msg.counter = v.material.counter ∧ msg.vs = v.material.referenceVs ∧ msg.nonce = v.nonce
  unaccepted : ∀ vs n r, .accepted v.material.counter vs n r ∉ es

structure Inv (tc : TinyCrypt) (baseV baseP : AuthMaterial) (es : List NetEvent) (w : NetWorld) :
    Prop where
  agreement : Agreement es
  challengedLe : ∀ m, .challenged m ∈ es → m.counter ≤ w.vDurable
  acceptedLe : ∀ c vs n r, .accepted c vs n r ∈ es → c ≤ w.vDurable
  answeredLe : ∀ m r, .answered m r ∈ es → m.counter ≤ w.pDurable
  /-- A challenge is determined by its counter. -/
  unique : ∀ m m', .challenged m ∈ es → .challenged m' ∈ es → m.counter = m'.counter → m = m'
  tagged : ∀ m, .challenged m ∈ es → cryptoHmacCompute tc baseV.kAuth.data (msgAuth m) = some m.hmac
  released : ∀ s ∈ w.released, ∃ e ∈ es, s ∈ releases e
  vReady : w.verifier.ready = true → w.verifier.material = { baseV with counter := w.vDurable }
  pReady : w.prover.ready = true → w.prover.material = { baseP with counter := w.pDurable }
  outstanding : w.verifier.outstanding = true → Outstanding es w.verifier

theorem releases_request {e : NetEvent} {s : List UInt8} (h : s ∈ releases e) (len : s.length = 52) :
    ∃ msg, e = .challenged msg ∧ s = msgAuth msg := by
  cases e with
  | challenged msg => exact ⟨msg, rfl, List.mem_singleton.mp h⟩
  | answered msg r =>
    cases auth : simpleReportAuth r msg.counter msg.nonce with
    | none =>
      simp only [releases, auth] at h
      cases h
    | some input =>
      simp only [releases, auth] at h
      rw [List.mem_singleton.mp h, input.length_data] at len
      cases len
  | accepted | other => cases h

theorem releases_response {e : NetEvent} {s : List UInt8} (h : s ∈ releases e) (len : s.length = 21) :
    ∃ msg r input, e = .answered msg r ∧ simpleReportAuth r msg.counter msg.nonce = some input ∧
      s = input.data := by
  cases e with
  | challenged msg =>
    rw [List.mem_singleton.mp h, length_msgAuth] at len
    cases len
  | answered msg r =>
    cases auth : simpleReportAuth r msg.counter msg.nonce with
    | none =>
      simp only [releases, auth] at h
      cases h
    | some input =>
      simp only [releases, auth] at h
      exact ⟨msg, r, input, rfl, auth, List.mem_singleton.mp h⟩
  | accepted | other => cases h

theorem accepts_challenged {es : List NetEvent} {w : NetWorld} {req resp : List UInt8}
    {msg : SimpleMsg} (inv : Inv tc baseV baseP es w) (shared : baseP.kAuth = baseV.kAuth)
    (can : CanRequest tc baseV.kAuth w.released req) (h : Accepts tc w.prover req resp msg) :
    .challenged msg ∈ es := by
  have key : w.prover.material.kAuth = baseV.kAuth := by rw [inv.pReady h.ready, ← shared]
  have tag := h.tag
  rw [key] at tag
  have body : req.take 52 = msgAuth msg := by
    rw [parseMsg_eq_some.mp h.parsed, take_msgBytes]
  obtain ⟨e, he, hs⟩ := inv.released _ (can msg h.parsed tag)
  change req.take 52 ∈ releases e at hs
  rw [body] at hs
  obtain ⟨m, rfl, same⟩ := releases_request hs (length_msgAuth msg)
  obtain ⟨counter, vs, nonce⟩ := msgAuth_injective same
  have tags := inv.tagged m he
  rw [← same, ← body, tag] at tags
  have hmac := Option.some.inj tags
  obtain ⟨_, _, _, _⟩ := m
  obtain ⟨_, _, _, _⟩ := msg
  simp only at counter vs nonce hmac
  subst counter vs nonce hmac
  exact he

theorem genuine_answered {es : List NetEvent} {w : NetWorld} {response : List UInt8} {r : UInt8}
    (inv : Inv tc baseV baseP es w) (can : CanRespond tc baseV.kAuth w.released w.verifier response)
    (ready : w.verifier.ready = true) (h : Genuine tc w.verifier response r) :
    ∃ msg, .answered msg r ∈ es ∧ msg.counter = w.verifier.material.counter ∧
      msg.nonce = w.verifier.nonce := by
  obtain ⟨small, input, tag, auth, computed, bytes⟩ := h
  have key : w.verifier.material.kAuth = baseV.kAuth := by rw [inv.vReady ready]
  rw [key] at computed
  have parsed := parseReport_eq_some.mpr ⟨bytes, small⟩
  obtain ⟨e, he, hs⟩ := inv.released _ (can _ input parsed auth computed)
  obtain ⟨msg, r', input', rfl, auth', same⟩ := releases_response hs input.length_data
  obtain rfl := Bytes.ext same
  obtain ⟨rfl, counter, nonce⟩ := reportAuth_injective auth' auth
  exact ⟨msg, he, counter, nonce⟩

theorem mem_snoc {α : Type} {xs : List α} {x y : α} : x ∈ xs ++ [y] ↔ x ∈ xs ∨ x = y := by
  rw [List.mem_append, List.mem_singleton]

theorem outstanding_snoc {es : List NetEvent} {v v' : Verifier} {e : NetEvent}
    (h : Outstanding es v) (challenge : ∀ m, e ≠ .challenged m)
    (accept : ∀ c vs n r, e ≠ .accepted c vs n r) (material : v'.material = v.material)
    (nonce : v'.nonce = v.nonce) : Outstanding (es ++ [e]) v' := by
  obtain ⟨⟨before, msg, after, rfl, fresh, last, same⟩, unaccepted⟩ := h
  rw [← material, ← nonce] at same
  refine ⟨⟨before, msg, after ++ [e], by simp, fresh, ?_, same⟩, ?_⟩
  · intro m hm
    rcases mem_snoc.mp hm with hm | hm
    · exact last m hm
    · exact challenge m hm.symm
  · intro vs n r hr
    rcases mem_snoc.mp hr with hr | hr
    · rw [material] at hr
      exact unaccepted vs n r hr
    · exact accept _ _ _ _ hr.symm

theorem inv_snoc {es : List NetEvent} {w w' : NetWorld} {e : NetEvent}
    (inv : Inv tc baseV baseP es w) (ok : EventOk es e)
    (challenged : ∀ m, e = .challenged m → w.vDurable < m.counter ∧ m.counter ≤ w'.vDurable ∧
      cryptoHmacCompute tc baseV.kAuth.data (msgAuth m) = some m.hmac)
    (accepted : ∀ c vs n r, e = .accepted c vs n r → c ≤ w'.vDurable)
    (answered : ∀ m r, e = .answered m r → m.counter ≤ w'.pDurable)
    (released : w'.released = w.released ++ releases e) (vGrows : w.vDurable ≤ w'.vDurable)
    (pGrows : w.pDurable ≤ w'.pDurable)
    (vReady : w'.verifier.ready = true → w'.verifier.material = { baseV with counter := w'.vDurable })
    (pReady : w'.prover.ready = true → w'.prover.material = { baseP with counter := w'.pDurable })
    (outstanding : w'.verifier.outstanding = true → Outstanding (es ++ [e]) w'.verifier) :
    Inv tc baseV baseP (es ++ [e]) w' where
  agreement := agreement_snoc inv.agreement ok
  challengedLe := by
    intro m hm
    rcases mem_snoc.mp hm with hm | hm
    · exact UInt32.le_trans (inv.challengedLe m hm) vGrows
    · exact (challenged m hm.symm).2.1
  acceptedLe := by
    intro c vs n r hr
    rcases mem_snoc.mp hr with hr | hr
    · exact UInt32.le_trans (inv.acceptedLe c vs n r hr) vGrows
    · exact accepted c vs n r hr.symm
  answeredLe := by
    intro m r hr
    rcases mem_snoc.mp hr with hr | hr
    · exact UInt32.le_trans (inv.answeredLe m r hr) pGrows
    · exact answered m r hr.symm
  unique := by
    have older : ∀ m m', .challenged m ∈ es → e = .challenged m' → m.counter ≠ m'.counter := by
      intro m m' hm hm' same
      have lt := UInt32.lt_of_le_of_lt (inv.challengedLe m hm) (challenged m' hm').1
      rw [same] at lt
      exact UInt32.lt_irrefl _ lt
    intro m m' hm hm' same
    rcases mem_snoc.mp hm with hm | hm <;> rcases mem_snoc.mp hm' with hm' | hm'
    · exact inv.unique m m' hm hm' same
    · exact absurd same (older m m' hm hm'.symm)
    · exact absurd same.symm (older m' m hm' hm.symm)
    · exact NetEvent.challenged.inj (hm.trans hm'.symm)
  tagged := by
    intro m hm
    rcases mem_snoc.mp hm with hm | hm
    · exact inv.tagged m hm
    · exact (challenged m hm.symm).2.2
  released := by
    intro s hs
    rw [released] at hs
    rcases List.mem_append.mp hs with hs | hs
    · obtain ⟨f, hf, hs⟩ := inv.released s hs
      exact ⟨f, mem_snoc.mpr (Or.inl hf), hs⟩
    · exact ⟨e, mem_snoc.mpr (Or.inr rfl), hs⟩
  vReady := vReady
  pReady := pReady
  outstanding := outstanding

theorem inv_other {es : List NetEvent} {w w' : NetWorld} (inv : Inv tc baseV baseP es w)
    (released : w'.released = w.released) (vGrows : w.vDurable ≤ w'.vDurable)
    (pGrows : w.pDurable ≤ w'.pDurable)
    (vReady : w'.verifier.ready = true → w'.verifier.material = { baseV with counter := w'.vDurable })
    (pReady : w'.prover.ready = true → w'.prover.material = { baseP with counter := w'.pDurable })
    (outstanding : w'.verifier.outstanding = true → Outstanding es w.verifier ∧
      w'.verifier.material = w.verifier.material ∧ w'.verifier.nonce = w.verifier.nonce) :
    Inv tc baseV baseP (es ++ [.other]) w' := by
  refine inv_snoc inv trivial (fun _ e => by cases e) (fun _ _ _ _ e => by cases e)
    (fun _ _ e => by cases e) (by rw [released]; exact (List.append_nil _).symm) vGrows pGrows vReady
    pReady fun out => ?_
  obtain ⟨newest, material, nonce⟩ := outstanding out
  exact outstanding_snoc newest (fun _ e => by cases e) (fun _ _ _ _ e => by cases e) material nonce

theorem inv_issue {es : List NetEvent} {w : NetWorld} {out : List UInt8} {msg : SimpleMsg}
    {now : UInt32} (inv : Inv tc baseV baseP es w) (issues : Issues tc w.verifier out msg) :
    Inv tc baseV baseP (es ++ [.challenged msg]) ({ w with
      verifier := w.verifier.begin msg now, vDurable := msg.counter }.sees (.challenged msg)) := by
  have material := inv.vReady issues.ready
  have start : w.verifier.ready = true → w.verifier.material.counter = w.vDurable :=
    fun _ => by rw [material]
  have fresh : w.vDurable < msg.counter := issues_fresh start issues
  have tag := issues.tag
  rw [material] at tag
  have old : NetEvent.challenged msg ∉ es := fun h =>
    absurd (inv.challengedLe msg h) (UInt32.not_le.mpr fresh)
  refine inv_snoc inv trivial ?_ (fun _ _ _ _ e => by cases e) (fun _ _ e => by cases e) rfl
    (UInt32.le_of_lt fresh) (UInt32.le_refl _) (fun _ => ?_) inv.pReady fun _ => ⟨?_, ?_⟩
  · rintro m e
    obtain rfl := NetEvent.challenged.inj e
    exact ⟨fresh, UInt32.le_refl _, tag⟩
  · change { w.verifier.material with counter := msg.counter } = { baseV with counter := msg.counter }
    rw [material]
  · exact ⟨es, msg, [], rfl, old, (fun _ h => by cases h), rfl, issues.vs, rfl⟩
  · intro vs n r hr
    rcases mem_snoc.mp hr with hr | hr
    · exact absurd (inv.acceptedLe _ vs n r hr) (UInt32.not_le.mpr fresh)
    · cases hr

theorem inv_accept {es : List NetEvent} {w : NetWorld} {response : List UInt8} {r : UInt8}
    (inv : Inv tc baseV baseP es w) (open_ : w.verifier.ready = true ∧ w.verifier.outstanding = true)
    (can : CanRespond tc baseV.kAuth w.released w.verifier response)
    (h : Genuine tc w.verifier response r) :
    Inv tc baseV baseP (es ++ [verifierEvent w.verifier (.result (verdict r))])
      ({ w with verifier := verifierCancel w.verifier }.sees
        (verifierEvent w.verifier (.result (verdict r)))) := by
  have material := inv.vReady open_.1
  obtain ⟨msg', answered, counter', -⟩ := genuine_answered inv can open_.1 h
  obtain ⟨⟨before, msg, after, split, fresh, last, counter, vs, nonce⟩, unaccepted⟩ :=
    inv.outstanding open_.2
  have challenged : .challenged msg ∈ es := by
    rw [split]
    exact List.mem_append_right _ List.mem_cons_self
  -- What was answered was challenged before, so it is the outstanding challenge, and later.
  have later : .answered msg r ∈ after := by
    obtain ⟨pre, post, at_⟩ := List.append_of_mem answered
    have same : msg' = msg := inv.unique msg' msg
      (at_ ▸ List.mem_append_left _ (inv.agreement pre _ post at_).1) challenged
      (counter'.trans counter.symm)
    subst same
    rw [split] at answered
    rcases List.mem_append.mp answered with early | answered
    · obtain ⟨pre, post, rfl⟩ := List.append_of_mem early
      have ok := inv.agreement pre (.answered msg' r) (post ++ .challenged msg' :: after)
        (by rw [split]; simp)
      exact absurd (List.mem_append_left _ ok.1) fresh
    · rcases List.mem_cons.mp answered with e | answered
      · cases e
      · exact answered
  rw [event_verdict w.verifier h.small]
  refine inv_snoc inv ⟨before, msg, after, split, last, counter, vs, nonce, later, unaccepted⟩
    (fun _ e => by cases e) ?_ (fun _ _ e => by cases e) rfl (UInt32.le_refl _) (UInt32.le_refl _)
    inv.vReady inv.pReady fun e => by cases e
  intro c vs n r e
  obtain ⟨rfl, -⟩ := NetEvent.accepted.inj e
  change w.verifier.material.counter ≤ w.vDurable
  rw [material]
  exact UInt32.le_refl _

theorem inv_verifier {es : List NetEvent} {w : NetWorld} {op : VerifierOp} {v : Verifier}
    {answer : Answer} {d : UInt32} (inv : Inv tc baseV baseP es w)
    (can : CanDeliver tc baseV.kAuth w op)
    (h : Exec (registerDevice baseV) (VerifierRuns.runOp tc w.verifier op) w.vDurable (v, answer) d) :
    Inv tc baseV baseP (es ++ [verifierEvent w.verifier answer])
      ({ w with verifier := v, vDurable := d }.sees (verifierEvent w.verifier answer)) := by
  have quiet := registerDevice_quiet baseV
  have cancelled : Inv tc baseV baseP (es ++ [.other])
      ({ w with verifier := verifierCancel w.verifier }.sees .other) := by
    rw [NetWorld.sees_other]
    exact inv_other inv rfl (UInt32.le_refl _) (UInt32.le_refl _) inv.vReady inv.pReady
      fun e => by cases e
  have unchanged : Inv tc baseV baseP (es ++ [.other]) (w.sees .other) := by
    rw [NetWorld.sees_other]
    exact inv_other inv rfl (UInt32.le_refl _) (UInt32.le_refl _) inv.vReady inv.pReady
      fun out => ⟨inv.outstanding out, rfl, rfl⟩
  cases op with
  | init platform timeoutMs =>
    rcases op_init quiet h with ⟨-, rfl, rfl, rfl⟩ | ⟨-, loaded, ⟨rfl, answer⟩, rfl, rfl⟩
    · exact unchanged
    · have unseen : verifierEvent w.verifier (.loaded loaded.isSome) = .other := rfl
      rw [unseen, NetWorld.sees_other]
      refine inv_other inv rfl (UInt32.le_refl _) (UInt32.le_refl _) ?_ inv.pReady fun e => by cases e
      rcases answer with rfl | rfl
      · intro e
        cases e
      · exact fun _ => rfl
  | challenge out =>
    obtain ⟨out', len, rfl, outcome⟩ := op_challenge quiet h
    cases outcome with
    | refused => exact unchanged
    | uncommitted _ issues _ commit =>
      have unseen : ∀ out', verifierEvent w.verifier (.request out' 0) = .other := fun _ => rfl
      rw [unseen, NetWorld.sees_other]
      have start : w.verifier.ready = true → w.verifier.material.counter = w.vDurable :=
        fun ready => by rw [inv.vReady ready]
      have grows : w.vDurable ≤ d := by
        rcases commit.2 with rfl | rfl
        · exact UInt32.le_refl _
        · exact UInt32.le_of_lt (issues_fresh start issues)
      refine inv_other inv rfl grows (UInt32.le_refl _) (fun e => by cases e) inv.pReady fun e => ?_
      exact absurd (issues.idle.symm.trans e) Bool.false_ne_true
    | issued issues random commit positive clock =>
      obtain rfl := clock
      obtain rfl := commit.1 positive
      rw [event_issued]
      exact inv_issue inv issues
  | verify response =>
    obtain ⟨r, rfl, outcome⟩ := op_verify quiet h
    cases outcome with
    | closed => exact unchanged
    | forged _ clock =>
      obtain rfl : d = w.vDurable := clock
      exact unchanged
    | expired _ clock =>
      obtain rfl : d = w.vDurable := clock
      exact cancelled
    | overtaken _ clock _ _ clock' =>
      obtain rfl : d = w.vDurable := clock'.trans clock
      exact cancelled
    | accepted open_ clock _ genuine clock' =>
      obtain rfl : d = w.vDurable := clock'.trans clock
      exact inv_accept inv open_ can genuine
  | poll =>
    obtain ⟨r, rfl, outcome⟩ := op_poll quiet h
    cases outcome with
    | closed => exact unchanged
    | waiting _ clock =>
      obtain rfl : d = w.vDurable := clock
      exact unchanged
    | expired _ clock =>
      obtain rfl : d = w.vDurable := clock
      exact cancelled
  | cancel =>
    obtain ⟨e, rfl⟩ := h
    obtain ⟨rfl, rfl⟩ := Prod.mk.inj e
    exact cancelled

theorem inv_answer {es : List NetEvent} {w : NetWorld} {req resp : List UInt8} {msg : SimpleMsg}
    {vs tag : Bytes 32} (inv : Inv tc baseV baseP es w) (shared : baseP.kAuth = baseV.kAuth)
    (can : CanRequest tc baseV.kAuth w.released req) (h : Accepts tc w.prover req resp msg) :
    Inv tc baseV baseP (es ++ [proverEvent req (reportBytes ⟨resultOf vs msg, tag⟩ ++ resp.drop 33) 33])
      ({ w with prover := w.prover.advance msg.counter, pDurable := msg.counter }.sees
        (proverEvent req (reportBytes ⟨resultOf vs msg, tag⟩ ++ resp.drop 33) 33)) := by
  have material := inv.pReady h.ready
  have fresh : w.pDurable < msg.counter := by
    have lt := h.fresh
    rw [material] at lt
    exact lt
  have event : proverEvent req (reportBytes ⟨resultOf vs msg, tag⟩ ++ resp.drop 33) 33 =
      .answered msg (resultOf vs msg) := by
    rw [proverEvent, if_pos rfl, h.parsed]
    rfl
  have once : ∀ m r, .answered m r ∈ es → m.counter ≠ msg.counter := by
    intro m r hm same
    have le := inv.answeredLe m r hm
    rw [same] at le
    exact absurd le (UInt32.not_le.mpr fresh)
  rw [event]
  refine inv_snoc inv ⟨accepts_challenged inv shared can h, once⟩ (fun _ e => by cases e)
    (fun _ _ _ _ e => by cases e) ?_ rfl (UInt32.le_refl _) (UInt32.le_of_lt fresh) inv.vReady
    (fun _ => ?_) fun out => ?_
  · intro m r e
    obtain ⟨rfl, -⟩ := NetEvent.answered.inj e
    exact UInt32.le_refl _
  · change { w.prover.material with counter := msg.counter } = { baseP with counter := msg.counter }
    rw [material]
  · exact outstanding_snoc (inv.outstanding out) (fun _ e => by cases e) (fun _ _ _ _ e => by cases e)
      rfl rfl

theorem inv_prover {es : List NetEvent} {w : NetWorld} {req resp resp' : List UInt8} {len : ℕ}
    {p : Prover} {d : UInt32} (inv : Inv tc baseV baseP es w) (shared : baseP.kAuth = baseV.kAuth)
    (can : CanRequest tc baseV.kAuth w.released req)
    (h : Exec (registerDevice baseP) (proverHandleRequest tc w.prover req resp) w.pDurable
      (p, resp', len) d) :
    Inv tc baseV baseP (es ++ [proverEvent req resp' len])
      ({ w with prover := p, pDurable := d }.sees (proverEvent req resp' len)) := by
  have out := safe_exec _ _ _ _ _ (handle_register w.prover req resp w.pDurable) h
  have fresh : ∀ {msg}, Accepts tc w.prover req resp msg → w.pDurable < msg.counter := by
    intro msg h
    have lt := h.fresh
    rw [inv.pReady h.ready] at lt
    exact lt
  have unseen : ∀ resp', proverEvent req resp' 0 = .other := fun _ => rfl
  have kept : ∀ (p : Prover) (d : UInt32), w.pDurable ≤ d →
      (p.ready = true → p.material = { baseP with counter := d }) →
      Inv tc baseV baseP (es ++ [.other]) { w with prover := p, pDurable := d } := fun p d grows ready =>
    inv_other inv rfl (UInt32.le_refl _) grows inv.vReady ready
      fun out => ⟨inv.outstanding out, rfl, rfl⟩
  cases out with
  | refused =>
    rw [unseen, NetWorld.sees_other]
    exact kept _ _ (UInt32.le_refl _) inv.pReady
  | uncommitted accepted commit failed =>
    rw [unseen, NetWorld.sees_other]
    refine kept _ _ ?_ fun e => by cases e
    rcases commit.2 with rfl | rfl
    · exact UInt32.le_refl _
    · exact UInt32.le_of_lt (fresh accepted)
  | @silent msg saved u accepted commit positive =>
    obtain rfl := commit.1 positive
    rw [unseen, NetWorld.sees_other]
    refine kept _ _ (UInt32.le_of_lt (fresh accepted)) fun _ => ?_
    change { w.prover.material with counter := msg.counter } = { baseP with counter := msg.counter }
    rw [inv.pReady accepted.ready]
  | answered accepted commit positive =>
    obtain rfl := commit.1 positive
    exact inv_answer inv shared can accepted

theorem inv_step {es : List NetEvent} {w w' : NetWorld} {e : NetEvent}
    (shared : baseP.kAuth = baseV.kAuth) (inv : Inv tc baseV baseP es w)
    (step : NetStep tc baseV baseP w e w') : Inv tc baseV baseP (es ++ [e]) w' := by
  have start : w.verifier.ready = true → w.verifier.material.counter = w.vDurable :=
    fun ready => by rw [inv.vReady ready]
  have keeps : w.verifier.outstanding = true → Outstanding es w.verifier ∧
      w.verifier.material = w.verifier.material ∧ w.verifier.nonce = w.verifier.nonce :=
    fun out => ⟨inv.outstanding out, rfl, rfl⟩
  cases step with
  | verifier can h => exact inv_verifier inv can h
  | @verifierReset op d can h =>
    have grows := safe_cut _ _ _ _ (op_register op start) h
    exact inv_other inv rfl grows (UInt32.le_refl _) (fun e => by cases e) inv.pReady
      fun e => by cases e
  | @proverInit platform ranges p ok d h =>
    have out := safe_exec _ _ _ _ _ (init_register w.prover platform ranges w.pDurable) h
    obtain ⟨rfl, loaded⟩ := out
    refine inv_other inv rfl (UInt32.le_refl _) (UInt32.le_refl _) inv.vReady ?_ keeps
    rcases loaded with e | ⟨loaded, rfl | rfl, e⟩
    · obtain ⟨rfl, -⟩ := Prod.mk.inj e
      exact inv.pReady
    · obtain ⟨rfl, -⟩ := Prod.mk.inj e
      exact fun e => by cases e
    · obtain ⟨rfl, -⟩ := Prod.mk.inj e
      exact fun _ => rfl
  | @proverInitReset platform ranges d h =>
    have left := safe_cut _ _ _ _ (init_register w.prover platform ranges w.pDurable) h
    obtain rfl := left
    exact inv_other inv rfl (UInt32.le_refl _) (UInt32.le_refl _) inv.vReady (fun e => by cases e) keeps
  | prover can h => exact inv_prover inv shared can h
  | @proverReset req resp d can h =>
    have left := safe_cut _ _ _ _ (handle_register w.prover req resp w.pDurable) h
    refine inv_other inv rfl (UInt32.le_refl _) ?_ inv.vReady (fun e => by cases e) keeps
    rcases left with rfl | ⟨msg, accepted, rfl⟩
    · exact UInt32.le_refl _
    · have lt := accepted.fresh
      rw [inv.pReady accepted.ready] at lt
      exact UInt32.le_of_lt lt

theorem inv_run {es : List NetEvent} {w : NetWorld} {vDurable pDurable : UInt32}
    (shared : baseP.kAuth = baseV.kAuth)
    (run : Run (NetStep tc baseV baseP) (.start vDurable pDurable) es w) :
    Inv tc baseV baseP es w := by
  generalize hs : NetWorld.start vDurable pDurable = s at run
  induction run with
  | start =>
    subst hs
    exact ⟨(fun pre e post h => by simp at h), by simp, by simp, by simp, by simp, by simp,
      by simp [NetWorld.start], (fun h => by cases h), (fun h => by cases h), fun h => by cases h⟩
  | next before last ih => exact inv_step shared ih last

/-- Injective agreement, over every interleaving. -/
theorem injective_agreement (tc : TinyCrypt) (baseV baseP : AuthMaterial)
    (shared : baseP.kAuth = baseV.kAuth) (vDurable pDurable : UInt32) (es : List NetEvent)
    (w : NetWorld) (run : Run (NetStep tc baseV baseP) (.start vDurable pDurable) es w) :
    (∀ pre msg r post, es = pre ++ .answered msg r :: post → AnswerOk pre msg) ∧
    ∀ pre counter vs nonce r post, es = pre ++ .accepted counter vs nonce r :: post →
      AcceptOk pre counter vs nonce r := by
  have agreement := (inv_run shared run).agreement
  exact ⟨fun pre msg r post => agreement pre (.answered msg r) post,
    fun pre counter vs nonce r post => agreement pre (.accepted counter vs nonce r) post⟩

def smallVerifier : AuthMaterial := ⟨.fill 32 1, .fill 32 0, .fill 32 3, 5⟩

def smallProver : AuthMaterial := ⟨.fill 32 1, .fill 32 2, .fill 32 0, 5⟩

def smallRanges : List AttestationRange := [⟨some 0x08000000, 16⟩]

theorem injective_agreement_session : ∃ msg r w es,
    es = [.other, .other, .challenged msg, .answered msg r, .accepted msg.counter msg.vs msg.nonce r] ∧
    Run (NetStep referenceTinyCrypt smallVerifier smallProver) (.start 5 5) es w ∧
    (∀ pre msg r post, es = pre ++ .answered msg r :: post → AnswerOk pre msg) ∧
    ∀ pre counter vs nonce r post, es = pre ++ .accepted counter vs nonce r :: post →
      AcceptOk pre counter vs nonce r := by
  have up := @up_reached referenceTinyCrypt smallVerifier smallProver smallRanges 1000 5 (by decide) rfl
  obtain ⟨msg, r, w, session⟩ := @session_run referenceTinyCrypt smallVerifier smallProver _ _
    reference_computes (.up smallVerifier smallProver smallRanges 1000 5)
    ⟨rfl, rfl, by decide, rfl, by decide⟩ ⟨rfl, rfl, rfl, UInt32.le_refl 5, by decide, by decide⟩
  have run := run_append up session
  exact ⟨msg, r, w, _, rfl, run,
    injective_agreement referenceTinyCrypt smallVerifier smallProver rfl 5 5 _ w run⟩

end SimpleAttestation.Agreement
