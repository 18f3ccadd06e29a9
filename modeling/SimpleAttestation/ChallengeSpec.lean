import SimpleAttestation.ProverTrace
import SimpleAttestation.VerifierSession

set_option autoImplicit false

/-!
# A challenge is issued whole or not at all
-/
namespace SimpleAttestation.ChallengeSpec
open ByteStrings Wire Crypto CallProgram CallTraces Platform ProverSpec ProverTrace VerifierSession

def Drew (es : List PlatformEvent) (nonce : Bytes 16) : Prop :=
  (⟨.random 16, some nonce⟩ : PlatformEvent) ∈ es

/-- `BE32(counter + 1) || reference_vs || nonce` -/
def challengeBytes (v : Verifier) (nonce : Bytes 16) : List UInt8 :=
  simplePutU32 (v.material.counter + 1) ++ v.material.referenceVs.data ++ nonce.data

def tagBytes (out : List UInt8) : List UInt8 := (out.drop 52).take 32

structure Allowed (tc : TinyCrypt) (v : Verifier) (out : List UInt8) (es : List PlatformEvent) :
    Prop where
  ready : v.ready = true
  idle : v.outstanding = false
  room : 84 ≤ out.length
  below : v.material.counter < UINT32_MAX
  succeed : ∃ nonce tag saved, Drew es nonce ∧
    cryptoHmacCompute tc v.material.kAuth.data (challengeBytes v nonce) = some tag ∧
    Saved es (v.material.counter + 1) saved ∧ 0 < saved

/-- What a challenge that returns 84 did: one commit, then the clock, then the request. -/
def Issued (tc : TinyCrypt) (v : Verifier) (out : List UInt8) (es : List PlatformEvent)
    (v' : Verifier) (out' : List UInt8) : Prop :=
  ∃ nonce tag saved now after,
    es = ⟨.random 16, some nonce⟩ :: ⟨.saveCounter (v.material.counter + 1), saved⟩ ::
      ⟨.nowMs, now⟩ :: after ∧
    (∀ e ∈ after, reports e.call = true) ∧ 0 < saved ∧
    cryptoHmacCompute tc v.material.kAuth.data (challengeBytes v nonce) = some tag ∧
    out' = challengeBytes v nonce ++ tag.data ++ out.drop 84 ∧
    v' = { v with
      material := { v.material with counter := v.material.counter + 1 }
      nonce := nonce
      startedMs := now
      outstanding := true }

structure Withheld (v : Verifier) (out : List UInt8) (es : List PlatformEvent) (v' : Verifier)
    (out' : List UInt8) : Prop where
  state : Failed es ∧ v' = { v with ready := false } ∨ (∀ c saved, ¬ Saved es c saved) ∧ v' = v
  tag : tagBytes out' = tagBytes out ∨ tagBytes out' = List.replicate 32 0

section
variable {tc : TinyCrypt} {v : Verifier} {out : List UInt8} {es : List PlatformEvent}

theorem below_max {c : UInt32} : c < UINT32_MAX ↔ c ≠ UINT32_MAX := by
  have bound := c.toNat_lt
  have top : UINT32_MAX.toNat = 4294967295 := rfl
  rw [UInt32.lt_iff_toNat_lt, ne_eq, ← UInt32.toNat_inj]
  omega

theorem msgAuth_draft (nonce : Bytes 16) : msgAuth (v.draft nonce) = challengeBytes v nonce := rfl

theorem tag_draft (nonce : Bytes 16) (rest : List UInt8) :
    tagBytes (msgBytes (v.draft nonce) ++ rest) = List.replicate 32 0 := by
  have split : msgBytes (v.draft nonce) ++ rest =
      challengeBytes v nonce ++ (List.replicate 32 0 ++ rest) := by
    rw [msgBytes, ← msgAuth, msgAuth_draft, List.append_assoc]
    rfl
  have len : (challengeBytes v nonce).length = 52 := by simp [challengeBytes]
  rw [tagBytes, split, List.drop_left' len, List.take_left' (List.length_replicate)]

/-- The second pass over the buffer only fills in the tag. -/
theorem serialize_tagged (nonce : Bytes 16) (tag : Bytes 32) (rest : List UInt8) :
    simpleSerializeMsg { v.draft nonce with hmac := tag } (msgBytes (v.draft nonce) ++ rest) =
      (challengeBytes v nonce ++ tag.data ++ rest, 84) := by
  rw [serializeMsg_eq _ (by simp), List.drop_left' (length_msgBytes _)]
  rfl

theorem tag_zeroed (msg : SimpleMsg) (rest : List UInt8) :
    tagBytes (overwrite (msgBytes msg ++ rest) 0 (List.replicate SIMPLE_REQUEST_LEN 0)) =
      List.replicate 32 0 := by
  have zeroed : overwrite (msgBytes msg ++ rest) 0 (List.replicate SIMPLE_REQUEST_LEN 0) =
      List.replicate 84 0 ++ rest := by
    rw [overwrite, List.take_zero, List.nil_append, List.length_replicate, Nat.zero_add,
      List.drop_left' (length_msgBytes msg)]
  rw [tagBytes, zeroed, List.drop_append_of_le_length (by simp), List.drop_replicate,
    List.take_left' (by simp)]

theorem traced_error {platform : AuthPlatform} {code : ℕ} {x y : Verifier × List UInt8 × ℕ}
    (run : Traced (authError platform code >>= fun _ => pure x) es y) :
    (∀ e ∈ es, reports e.call = true) ∧ y = x := by
  rw [traced_bind] at run
  obtain ⟨_, xs, _, rfl, error, rfl, same⟩ := run
  rw [List.append_nil]
  exact ⟨traced_authError error, same⟩

theorem traced_sendRequest {msg : SimpleMsg} {buf : List UInt8} {saved : ℤ}
    {x : Verifier × List UInt8 × ℕ} (run : Traced (sendRequest v msg buf saved) es x) :
    saved ≤ 0 ∧ (∀ e ∈ es, reports e.call = true) ∧
      x = ({ v with ready := false }, overwrite buf 0 (List.replicate SIMPLE_REQUEST_LEN 0), 0) ∨
    0 < saved ∧ ∃ now after, es = ⟨.nowMs, now⟩ :: after ∧ (∀ e ∈ after, reports e.call = true) ∧
      x = (v.begin msg now, simpleSerializeMsg msg buf) := by
  unfold sendRequest at run
  split at run
  · rename_i failed
    exact Or.inl ⟨failed, traced_error run⟩
  · rename_i positive
    rw [traced_ask] at run
    obtain ⟨now, _, rfl, run⟩ := run
    rw [traced_bind] at run
    obtain ⟨_, after, _, rfl, ui, rfl, same⟩ := run
    rw [List.append_nil]
    exact Or.inr ⟨Int.not_le.mp positive, now, after, rfl, traced_authUi ui, same⟩

inductive ChallengeRun (tc : TinyCrypt) (v : Verifier) (out : List UInt8) :
    List PlatformEvent → Verifier × List UInt8 × ℕ → Prop where
  | closed {es : List PlatformEvent} (quiet : ∀ e ∈ es, reports e.call = true)
      (h : v.ready = false ∨ v.outstanding = true ∨ out.length < 84 ∨
        v.material.counter = UINT32_MAX) : ChallengeRun tc v out es (v, out, 0)
  | noRandom {rest : List PlatformEvent} (quiet : ∀ e ∈ rest, reports e.call = true) :
      ChallengeRun tc v out (⟨.random 16, none⟩ :: rest) (v, out, 0)
  | noTag {nonce : Bytes 16} {rest : List PlatformEvent}
      (quiet : ∀ e ∈ rest, reports e.call = true)
      (computed : cryptoHmacCompute tc v.material.kAuth.data (challengeBytes v nonce) = none) :
      ChallengeRun tc v out (⟨.random 16, some nonce⟩ :: rest)
        (v, msgBytes (v.draft nonce) ++ out.drop 84, 0)
  | uncommitted {nonce : Bytes 16} {saved : ℤ} {rest : List PlatformEvent}
      (quiet : ∀ e ∈ rest, reports e.call = true) (failed : saved ≤ 0) :
      ChallengeRun tc v out
        (⟨.random 16, some nonce⟩ :: ⟨.saveCounter (v.material.counter + 1), saved⟩ :: rest)
        ({ v with ready := false }, overwrite (msgBytes (v.draft nonce) ++ out.drop 84) 0
          (List.replicate SIMPLE_REQUEST_LEN 0), 0)
  | issued {nonce : Bytes 16} {tag : Bytes 32} {saved : ℤ} {now : UInt32} {rest : List PlatformEvent}
      (quiet : ∀ e ∈ rest, reports e.call = true) (ready : v.ready = true)
      (idle : v.outstanding = false) (room : 84 ≤ out.length) (below : v.material.counter ≠ UINT32_MAX)
      (computed : cryptoHmacCompute tc v.material.kAuth.data (challengeBytes v nonce) = some tag)
      (positive : 0 < saved) :
      ChallengeRun tc v out (⟨.random 16, some nonce⟩ ::
          ⟨.saveCounter (v.material.counter + 1), saved⟩ :: ⟨.nowMs, now⟩ :: rest)
        (v.begin { v.draft nonce with hmac := tag } now,
          challengeBytes v nonce ++ tag.data ++ out.drop 84, 84)

theorem traced_challenge {x : Verifier × List UInt8 × ℕ}
    (run : Traced (verifierChallenge tc v out) es x) : ChallengeRun tc v out es x := by
  unfold verifierChallenge at run
  split at run
  · rename_i closed
    obtain ⟨rfl, rfl⟩ := run
    refine .closed (by simp) ?_
    simp only [Bool.or_eq_true, Bool.not_eq_true', decide_eq_true_eq, or_assoc] at closed
    rcases closed with h | h | h
    · exact Or.inl h
    · exact Or.inr (Or.inl h)
    · exact Or.inr (Or.inr (Or.inl h))
  · rename_i opened
    simp only [Bool.or_eq_true, Bool.not_eq_true', decide_eq_true_eq, not_or, Bool.not_eq_false,
      Bool.not_eq_true, Nat.not_lt] at opened
    obtain ⟨⟨ready, idle⟩, room⟩ := opened
    split at run
    · rename_i max
      obtain ⟨quiet, rfl⟩ := traced_error run
      exact .closed quiet (Or.inr (Or.inr (Or.inr (by simpa using max))))
    · rename_i below
      rw [traced_ask] at run
      obtain ⟨random, rest, rfl, run⟩ := run
      cases random with
      | none =>
        obtain ⟨quiet, rfl⟩ := traced_error run
        exact .noRandom quiet
      | some nonce =>
        simp only [composeRequest_eq tc v nonce room, msgAuth_draft] at run
        cases computed : cryptoHmacCompute tc v.material.kAuth.data (challengeBytes v nonce) with
        | none =>
          rw [computed] at run
          obtain ⟨quiet, rfl⟩ := traced_error run
          exact .noTag quiet computed
        | some tag =>
          rw [computed, Option.map_some] at run
          dsimp only at run
          rw [traced_ask] at run
          obtain ⟨saved, last, rfl, run⟩ := run
          rcases traced_sendRequest run with ⟨failed, quiet, rfl⟩ | ⟨positive, now, after, rfl, quiet, rfl⟩
          · exact .uncommitted quiet failed
          · rw [serialize_tagged]
            exact .issued quiet ready idle room (by simpa using below) computed positive

theorem authUi_traced (platform : AuthPlatform) (phase : AuthPhase) :
    ∃ es, (∀ e ∈ es, reports e.call = true) ∧ Traced (authUi platform phase) es () := by
  unfold authUi
  split
  · exact ⟨_, by simp [reports], (), [], rfl, rfl, rfl⟩
  · exact ⟨[], by simp, rfl, rfl⟩

theorem issues_traced {nonce : Bytes 16} {tag : Bytes 32} {saved : ℤ} {now : UInt32}
    (ready : v.ready = true) (idle : v.outstanding = false) (room : 84 ≤ out.length)
    (below : v.material.counter ≠ UINT32_MAX)
    (computed : cryptoHmacCompute tc v.material.kAuth.data (challengeBytes v nonce) = some tag)
    (positive : 0 < saved) : ∃ rest, (∀ e ∈ rest, reports e.call = true) ∧
      Traced (verifierChallenge tc v out) (⟨.random 16, some nonce⟩ ::
        ⟨.saveCounter (v.material.counter + 1), saved⟩ :: ⟨.nowMs, now⟩ :: rest)
      (v.begin { v.draft nonce with hmac := tag } now,
        challengeBytes v nonce ++ tag.data ++ out.drop 84, 84) := by
  have opened : ¬ (!v.ready || v.outstanding || decide (out.length < SIMPLE_REQUEST_LEN)) = true := by
    simp [ready, idle, room]
  have below' : ¬ (v.material.counter == UINT32_MAX) = true := by simpa using below
  obtain ⟨rest, quiet, ui⟩ := authUi_traced v.platform .request
  refine ⟨rest, quiet, ?_⟩
  rw [verifierChallenge, if_neg opened, if_neg below', traced_ask]
  refine ⟨some nonce, _, rfl, ?_⟩
  simp only [composeRequest_eq tc v nonce room, msgAuth_draft, computed, Option.map_some]
  rw [traced_ask]
  refine ⟨saved, _, rfl, ?_⟩
  rw [sendRequest, if_neg (Int.not_le.mpr positive), serialize_tagged, traced_ask]
  refine ⟨now, _, rfl, ?_⟩
  rw [traced_bind]
  exact ⟨(), rest, [], (List.append_nil rest).symm, ui, rfl, rfl⟩

theorem saved_random {nonce : Option (Bytes 16)} {rest : List PlatformEvent} {c : UInt32} {saved : ℤ} :
    Saved (⟨.random 16, nonce⟩ :: rest) c saved ↔ Saved rest c saved := by
  rw [← mem_commits, ← mem_commits]
  rfl

theorem drew_random {nonce : Option (Bytes 16)} {bytes : Bytes 16} {rest : List PlatformEvent}
    (none_ : ¬ Drew rest bytes) (h : Drew (⟨.random 16, nonce⟩ :: rest) bytes) :
    nonce = some bytes := by
  rcases List.mem_cons.mp h with here | here
  · exact (eq_of_heq (Event.mk.inj here).2).symm
  · exact absurd here none_

theorem quiet_undrawn (quiet : ∀ e ∈ es, reports e.call = true) (nonce : Bytes 16) :
    ¬ Drew es nonce := by
  intro here
  have no := quiet _ here
  cases no

/-- All or nothing, whatever the callbacks and the HMAC do. -/
theorem challenge_all_or_nothing (tc : TinyCrypt) (v : Verifier) (out : List UInt8)
    (es : List PlatformEvent) (v' : Verifier) (out' : List UInt8) (n : ℕ)
    (run : Traced (verifierChallenge tc v out) es (v', out', n)) :
    (n = 84 ↔ Allowed tc v out es) ∧
    (n = 84 → Issued tc v out es v' out') ∧
    (n ≠ 84 → n = 0 ∧ Withheld v out es v' out') := by
  have way := traced_challenge run
  generalize hx : (v', out', n) = x at way
  have denied : ¬ Allowed tc v out es → n = 0 → Withheld v out es v' out' →
      (n = 84 ↔ Allowed tc v out es) ∧ (n = 84 → Issued tc v out es v' out') ∧
      (n ≠ 84 → n = 0 ∧ Withheld v out es v' out') := by
    intro no zero withheld
    have ne : n ≠ 84 := by omega
    exact ⟨⟨fun h => absurd h ne, fun h => absurd h no⟩, fun h => absurd h ne, fun _ => ⟨zero, withheld⟩⟩
  cases way with
  | closed quiet h =>
    obtain ⟨rfl, rfl, rfl⟩ := hx
    refine denied (fun allowed => ?_) rfl ⟨Or.inr ⟨quiet_unsaved quiet, rfl⟩, Or.inl rfl⟩
    rcases h with h | h | h | h
    · rw [allowed.ready] at h
      cases h
    · rw [allowed.idle] at h
      cases h
    · exact absurd allowed.room (Nat.not_le.mpr h)
    · exact below_max.mp allowed.below h
  | noRandom quiet =>
    obtain ⟨rfl, rfl, rfl⟩ := hx
    refine denied (fun allowed => ?_) rfl ⟨Or.inr ⟨fun c saved h => ?_, rfl⟩, Or.inl rfl⟩
    · obtain ⟨nonce, _, _, drew, -⟩ := allowed.succeed
      have no := drew_random (quiet_undrawn quiet nonce) drew
      cases no
    · exact quiet_unsaved quiet c saved (saved_random.mp h)
  | noTag quiet computed =>
    obtain ⟨rfl, rfl, rfl⟩ := hx
    refine denied (fun allowed => ?_) rfl ⟨Or.inr ⟨fun c saved h => ?_, rfl⟩,
      Or.inr (tag_draft _ _)⟩
    · obtain ⟨nonce, tag, _, drew, made, -⟩ := allowed.succeed
      obtain rfl := Option.some.inj (drew_random (quiet_undrawn quiet nonce) drew)
      rw [computed] at made
      cases made
    · exact quiet_unsaved quiet c saved (saved_random.mp h)
  | @uncommitted nonce saved rest quiet failed =>
    obtain ⟨rfl, rfl, rfl⟩ := hx
    refine denied (fun allowed => ?_) rfl ⟨Or.inl ⟨⟨_, saved, saved_random.mpr (saved_cons.mpr
      (Or.inl ⟨rfl, rfl⟩)), failed⟩, rfl⟩, Or.inr (tag_zeroed _ _)⟩
    obtain ⟨_, _, saved', -, -, here, positive⟩ := allowed.succeed
    rcases saved_cons.mp (saved_random.mp here) with ⟨-, rfl⟩ | here
    · exact absurd positive (Int.not_lt.mpr failed)
    · exact quiet_unsaved quiet _ _ here
  | @issued nonce tag saved now rest quiet ready idle room below computed positive =>
    obtain ⟨rfl, rfl, rfl⟩ := hx
    refine ⟨⟨fun _ => ?_, fun _ => rfl⟩, fun _ => ?_, fun h => absurd rfl h⟩
    · exact ⟨ready, idle, room, below_max.mpr below, nonce, tag, saved, List.mem_cons_self, computed,
        saved_random.mpr (saved_cons.mpr (Or.inl ⟨rfl, rfl⟩)), positive⟩
    · exact ⟨nonce, tag, saved, now, rest, rfl, quiet, positive, computed, rfl, rfl⟩

end

def smallVerifier : Verifier :=
  ⟨allCallbacks, { AuthMaterial.zero with counter := 5 }, .fill 16 0, 0, 5000, true, false⟩

theorem small_issues (now : UInt32) : ∃ es v' out',
    Traced (verifierChallenge referenceTinyCrypt smallVerifier (List.replicate 84 0)) es
      (v', out', 84) ∧ v'.startedMs = now ∧ (⟨.nowMs, now⟩ : PlatformEvent) ∈ es := by
  have computed := hmacCompute_bytes reference_computes smallVerifier.material.kAuth
    (show (challengeBytes smallVerifier (.fill 16 0)).length ≤ UINT_MAX by simp [challengeBytes]; decide)
  have room : 84 ≤ (List.replicate 84 (0 : UInt8)).length := by simp
  obtain ⟨rest, -, run⟩ := @issues_traced _ smallVerifier _ _ _ 1 now rfl rfl room (by decide) computed
    (by decide)
  exact ⟨_, _, _, run, rfl, by simp⟩

theorem challenge_all_or_nothing_small : ∃ es v' out',
    Traced (verifierChallenge referenceTinyCrypt smallVerifier (List.replicate 84 0)) es
      (v', out', 84) ∧
    Allowed referenceTinyCrypt smallVerifier (List.replicate 84 0) es ∧
    Issued referenceTinyCrypt smallVerifier (List.replicate 84 0) es v' out' := by
  obtain ⟨es, v', out', run, -⟩ := small_issues 7
  obtain ⟨returns, issued, -⟩ := challenge_all_or_nothing referenceTinyCrypt smallVerifier
    (List.replicate 84 0) es v' out' 84 run
  exact ⟨es, v', out', run, returns.mp rfl, issued rfl⟩

end SimpleAttestation.ChallengeSpec
