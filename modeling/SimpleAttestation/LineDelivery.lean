import SimpleAttestation.ProverLine

set_option autoImplicit false

/-!
# What arrives at the prover

An intact frame behind a delimiter is taken, whatever the line carried before it and however
often the loop reads between its bytes.
-/
namespace SimpleAttestation.LineDelivery
open ByteStrings Wire Crypto CallProgram Runs Platform Cobs Transport TransportFrames TransportStream
open ProverLoop UartLink LineFrames ProverLine

def diagnosticOf (f : Frame) : Option ℕ :=
  if f.1 = AUTH_FRAME_DIAGNOSTIC ∧ 0 < (f.2.getD 0 0).toNat ∧
      (f.2.getD 0 0).toNat ≤ AuthError.flashSequence.code then some (f.2.getD 0 0).toNat else none

def peerOf (e : Effects) : Option ℕ :=
  match e.reported with
  | [.peer code] => some code
  | _ => none

section
variable {tc : TinyCrypt} {k : Surroundings} {c : ProverCore} {e : LoopEvent} {out : FrameOut}

theorem serve_peer {request : List UInt8} : peerOf (c.serve tc k e request).2 = none := by
  unfold ProverCore.serve
  dsimp only
  split
  · rfl
  · split
    · rfl
    · dsimp only
      split <;> rfl

theorem dispatch_peer (length : out.type = AUTH_FRAME_DIAGNOSTIC → 0 < out.length) :
    peerOf (c.dispatch tc k e out).2 = diagnosticOf (out.type, out.payload.take out.length) := by
  by_cases diagnostic : out.type = AUTH_FRAME_DIAGNOSTIC
  · have first : (out.payload.take out.length).getD 0 0 = out.payload.getD 0 0 := by
      rw [List.getD_eq_getElem?_getD, List.getD_eq_getElem?_getD, List.getElem?_take_of_lt (length diagnostic)]
    rw [ProverCore.dispatch, if_pos diagnostic, diagnosticOf]
    dsimp only
    rw [first]
    split
    · rename_i valid
      rw [if_pos ⟨diagnostic, valid⟩]
      rfl
    · rename_i invalid
      rw [if_neg fun h => invalid h.2]
      rfl
  · have other : diagnosticOf (out.type, out.payload.take out.length) = none := if_neg fun h => diagnostic h.1
    rw [ProverCore.dispatch, if_neg diagnostic, other]
    split
    · rfl
    · exact serve_peer

def diagnostics (tc : TinyCrypt) (k : Surroundings) : View tc k ℕ where
  view := peerOf
  of := diagnosticOf
  quiet := rfl
  failed _ := rfl
  dispatch c e out legal := dispatch_peer fun diagnostic => by
    rw [diagnostic, legalFrame] at legal
    simp only [AUTH_FRAME_DIAGNOSTIC, AUTH_FRAME_REQUEST, AUTH_FRAME_RESPONSE] at legal
    have one : out.length = 1 := by simpa using legal
    rw [one]
    exact Nat.one_pos

end

/-- The errors that the prover shows of its peer are among those its peer sent, in their order and
    each at most once. -/
theorem peer_errors_sent (tc : TinyCrypt) (k : Surroundings) (sent : List Frame) (wire : List UInt8)
    (sends : Run SendStep [] sent wire) (x y : LoopState × Usart) (up : PowerUp x) (effects : List Effects)
    (run : Run (LineStep tc k) x effects y) (carried : y.2.line <+: wire) :
    (effects.filterMap peerOf).Sublist (sent.filterMap diagnosticOf) :=
  only_sent (diagnostics tc k) sends up run carried

def fatalReads : List LoopEvent := (fatalFrame 12).map fun b => smallEvent (.byte b)

theorem peer_errors_sent_small : ∃ (wire : List UInt8) (y : LoopState × Usart) (effects : List Effects),
    Run SendStep [] [(AUTH_FRAME_DIAGNOSTIC, [12])] wire ∧
    Run (LineStep referenceTinyCrypt smallSurroundings) (smallLoop, ⟨idleIsr, 0, []⟩) effects y ∧
    effects.filterMap peerOf = [12] ∧
    (effects.filterMap peerOf).Sublist ([(AUTH_FRAME_DIAGNOSTIC, [12])].filterMap diagnosticOf) := by
  have sends : Run SendStep [] [(AUTH_FRAME_DIAGNOSTIC, [12])] (wireOf (AUTH_FRAME_DIAGNOSTIC, [12])) :=
    run_one (send_whole [] (by decide))
  have running : (proverRun referenceTinyCrypt smallSurroundings smallLoop fatalReads).1.core.halted = false := rfl
  obtain ⟨rdr, run⟩ := line_heard referenceTinyCrypt smallSurroundings smallLoop fatalReads
    (wireOf (AUTH_FRAME_DIAGNOSTIC, [12])) (by rw [← fatal_wire (by decide)]; rfl) [] 0 running
  have only := peer_errors_sent referenceTinyCrypt smallSurroundings _ _ sends _ _ ⟨rfl, rfl, rfl⟩ _ run
    List.prefix_rfl
  exact ⟨_, _, _, sends, run, rfl, only⟩

/-- A delimiter resynchronises the loop: if the prover still runs behind it, the next intact frame in
    time is taken whole, and before its end nothing happens. -/
theorem frame_arrives (tc : TinyCrypt) (k : Surroundings) (s : LoopState) (d x z : LoopEvent)
    (idle xs : List LoopEvent) (f : Frame) (legal : legalFrame f.1 f.2.length = true)
    (delimiter : d.read = .byte 0) (running : (proverStep tc k s d).1.core.halted = false)
    (silent : ∀ e ∈ idle, e.read = .none) (begun : x.read ≠ .none) (clean : ∀ e ∈ x :: xs, e.read ≠ .error)
    (bytes : (x :: xs).filterMap byteOf = stuff (rawFrame f.1 f.2)) (ended : z.read = .byte 0)
    (inTime : ∀ e ∈ xs ++ [z], authExpired e.nowMs x.nowMs AUTH_FRAME_TIMEOUT_MS = false) :
    ∃ y effect, proverRun tc k (proverStep tc k s d).1 (idle ++ (x :: xs) ++ [z]) =
        (y, (idle ++ (x :: xs)).map (fun _ => nothing) ++ [effect]) ∧
      effect.delivered = requestOf f ∧ peerOf effect = diagnosticOf f ∧
      (f.1 = AUTH_FRAME_DIAGNOSTIC → y.core = (proverStep tc k s d).1.core) := by
  obtain ⟨used, discard⟩ := step_delimiter delimiter running
  generalize (proverStep tc k s d).1 = s₀ at running used discard ⊢
  obtain ⟨y, out, ⟨type, length, payload⟩, run, core⟩ := @run_frame tc k z s₀ running used discard x idle xs
    _ _ legal silent begun clean bytes ended inTime
  have taken : (out.type, out.payload.take out.length) = f := Prod.ext type payload
  have legal' : legalFrame out.type out.length = true := by rw [type, length]; exact legal
  have request := (requests tc k).dispatch s₀.core z out legal'
  have diagnostic := (diagnostics tc k).dispatch s₀.core z out legal'
  rw [taken] at request diagnostic
  refine ⟨y, _, run, request, diagnostic, fun kind => ?_⟩
  rw [core, ProverCore.dispatch, if_pos (type.trans kind)]
  dsimp only
  split <;> rfl

/-- The error of a verifier between two reads that find nothing, behind half a frame. -/
theorem frame_arrives_small : ∃ y effect,
    proverRun referenceTinyCrypt smallSurroundings
        (proverStep referenceTinyCrypt smallSurroundings
          (proverRun referenceTinyCrypt smallSurroundings smallLoop [smallEvent (.byte 9)]).1
          (smallEvent (.byte 0))).1
        ([smallEvent .none] ++ ([.byte 4, .byte 3, .none, .byte 1, .byte 12].map smallEvent) ++
          [smallEvent (.byte 0)]) = (y, List.replicate 6 nothing ++ [effect]) ∧
      effect.delivered = none ∧ peerOf effect = some 12 := by
  obtain ⟨y, effect, run, request, diagnostic, -⟩ := frame_arrives referenceTinyCrypt smallSurroundings
    (proverRun referenceTinyCrypt smallSurroundings smallLoop [smallEvent (.byte 9)]).1
    (smallEvent (.byte 0)) (smallEvent (.byte 4)) (smallEvent (.byte 0)) [smallEvent .none]
    ([.byte 3, .none, .byte 1, .byte 12].map smallEvent) (AUTH_FRAME_DIAGNOSTIC, [12]) (by decide) rfl rfl
    (by simp [smallEvent]) (by simp [smallEvent]) (by simp [smallEvent]) rfl rfl (by decide)
  exact ⟨y, effect, run, request, diagnostic⟩

end SimpleAttestation.LineDelivery
