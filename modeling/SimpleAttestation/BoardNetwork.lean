import SimpleAttestation.Agreement
import SimpleAttestation.BoardLife
import SimpleAttestation.VerifierLoop

set_option autoImplicit false

/-!
# Both boards and the adversary between them

The network of the two parties with the hardware under each. What the verifier accepts is
the truth about the image that the prover's factory flashed.
-/
namespace SimpleAttestation.BoardNetwork
open ByteStrings Wire Crypto CallProgram Runs Platform ProverRequest VerifierSession VerifierRuns Session
open Journal Hardware FlashDriver StoreRegister BoardStore BoardProtection BoardRefinement BoardNode BoardSession
open BoardLife Network Agreement
open VerifierLoop (AUTH_TIMEOUT_MS)
open Store hiding boardPlatform boardStoreLoad boardStoreSave

structure BoardWorld where
  verifier : Verifier
  vNode : Node
  prover : Prover
  pNode : Node
  released : List (List UInt8)

def BoardWorld.start (romV : ℕ → UInt8) (optionsV : Options) (romP : ℕ → UInt8) (optionsP : Options) :
    BoardWorld :=
  ⟨.zero, .off romV optionsV, .zero, .off romP optionsP, []⟩

/-- `main` initialises the verifier once after a reset. -/
def Starts (node : Node) (op : VerifierOp) : Prop :=
  node.on = false → op = .init allCallbacks AUTH_TIMEOUT_MS

def Deliverable (tc : TinyCrypt) (key : Bytes 32) (w : BoardWorld) : VerifierOp → Prop
  | .verify response => CanRespond tc key w.released w.verifier response
  | _ => True

inductive BoardStep (tc : TinyCrypt) (cfgV cfgP : Config) (key : Bytes 32) :
    BoardWorld → NetEvent → BoardWorld → Prop where
  | verifier {w : BoardWorld} {op : VerifierOp} {v : Verifier} {answer : Answer} {node : Node}
      (starts : Starts w.vNode op) (can : Deliverable tc key w op)
      (h : w.vNode.Runs tc cfgV (runOp tc w.verifier op) (v, answer) node) :
      BoardStep tc cfgV cfgP key w (verifierEvent w.verifier answer) { w with
        verifier := v, vNode := node,
        released := w.released ++ releases (verifierEvent w.verifier answer) }
  | verifierLost {w : BoardWorld} {op : VerifierOp} {node : Node} (starts : Starts w.vNode op)
      (can : Deliverable tc key w op) (h : w.vNode.Loses tc cfgV (runOp tc w.verifier op) node) :
      BoardStep tc cfgV cfgP key w .other { w with verifier := .zero, vNode := node }
  | proverBoot {w : BoardWorld} {p : Prover} {ok : Bool} {node : Node} (off : w.pNode.on = false)
      (h : w.pNode.Runs tc cfgP (proverInit .zero allCallbacks (Board.ranges cfgP.toBoard)) (p, ok) node) :
      BoardStep tc cfgV cfgP key w .other { w with prover := p, pNode := node }
  | proverBootLost {w : BoardWorld} {node : Node} (off : w.pNode.on = false)
      (h : w.pNode.Loses tc cfgP (proverInit .zero allCallbacks (Board.ranges cfgP.toBoard)) node) :
      BoardStep tc cfgV cfgP key w .other { w with prover := .zero, pNode := node }
  | prover {w : BoardWorld} {req resp resp' : List UInt8} {len : ℕ} {p : Prover} {node : Node}
      (on : w.pNode.on = true) (can : CanRequest tc key w.released req)
      (h : w.pNode.Runs tc cfgP (proverHandleRequest tc w.prover req resp) (p, resp', len) node) :
      BoardStep tc cfgV cfgP key w (proverEvent req resp' len) { w with
        prover := p, pNode := node, released := w.released ++ releases (proverEvent req resp' len) }
  | proverLost {w : BoardWorld} {req resp : List UInt8} {node : Node} (on : w.pNode.on = true)
      (can : CanRequest tc key w.released req)
      (h : w.pNode.Loses tc cfgP (proverHandleRequest tc w.prover req resp) node) :
      BoardStep tc cfgV cfgP key w .other { w with prover := .zero, pNode := node }

/-- What the boards show of the network, each over its durable counter. -/
structure Simulates (tc : TinyCrypt) (cfgV cfgP : Config) (romV romP : ℕ → UInt8)
    (optionsV optionsP : Options) (w : BoardWorld) (net : NetWorld) : Prop where
  verifier : net.verifier = w.verifier
  prover : net.prover = w.prover
  released : net.released = w.released
  shows_ : ∃ mask, Shows tc cfgV romV optionsV (net.vDurable, mask) w.vNode
  alive : Alive tc cfgP romP optionsP net.pDurable ⟨w.prover, w.pNode⟩

/-- Answers are true of the factory image, and a verdict is about the provisioned digest. -/
def EventTrue (tc : TinyCrypt) (cfgV cfgP : Config) (romV romP : ℕ → UInt8) : NetEvent → Prop
  | .answered msg r => ∃ vs, ProverLoop.measured tc romP (bytesAt 32 (provisioned cfgP romP) 48)
      (Board.ranges cfgP.toBoard) = some vs ∧ r = resultOf vs msg
  | .accepted _ vs _ _ => vs = bytesAt 32 (provisioned cfgV romV) 80
  | _ => True

section
variable {tc : TinyCrypt} {cfgV cfgP : Config} {romV romP : ℕ → UInt8} {optionsV optionsP : Options}
  {w w' : BoardWorld} {net : NetWorld} {e : NetEvent}

theorem truthful_event {req resp : List UInt8} {len : ℕ}
    (truthful : len = 33 → Truthful tc cfgP romP req resp) :
    EventTrue tc cfgV cfgP romV romP (proverEvent req resp len) := by
  unfold proverEvent
  split
  · rename_i full
    obtain ⟨msg, vs, tag, parsed, -, measured, -, bytes⟩ := truthful full
    rw [parsed]
    refine ⟨vs, measured, ?_⟩
    have head : (resp.take 33).head? = some (resultOf vs msg) := by rw [bytes]; rfl
    cases resp with
    | nil => cases head
    | cons r rest => exact Option.some.inj head
  · trivial

theorem event_cases (v : Verifier) (answer : Answer) : verifierEvent v answer = .other ∨
    (∃ msg, verifierEvent v answer = .challenged msg) ∨
    (answer = .result .pass ∨ answer = .result .mismatch) ∧ ∃ r, verifierEvent v answer =
      .accepted v.material.counter v.material.referenceVs v.nonce r := by
  cases answer with
  | loaded | none => exact Or.inl rfl
  | result result =>
    cases result with
    | pass => exact Or.inr (Or.inr ⟨Or.inl rfl, 1, rfl⟩)
    | mismatch => exact Or.inr (Or.inr ⟨Or.inr rfl, 0, rfl⟩)
    | _ => exact Or.inl rfl
  | request out len =>
    unfold verifierEvent
    dsimp only
    split
    · split
      · exact Or.inr (Or.inl ⟨_, rfl⟩)
      · exact Or.inl rfl
    · exact Or.inl rfl

theorem verdict_ready {σ : Type} {dev : Device PlatformCall PlatformCall.Reply σ} (quiet : Quiet dev)
    {v v' : Verifier} {op : VerifierOp} {answer : Answer} {s t : σ}
    (run : Exec dev (runOp tc v op) s (v', answer) t)
    (given : answer = .result .pass ∨ answer = .result .mismatch) : v.ready = true := by
  cases op with
  | init platform timeoutMs =>
    rcases op_init quiet run with ⟨-, -, rfl, -⟩ | ⟨-, loaded, -, rfl, -⟩ <;> rcases given with h | h <;>
      cases h
  | challenge out =>
    obtain ⟨out', len, rfl, -⟩ := op_challenge quiet run
    rcases given with h | h <;> cases h
  | verify response =>
    obtain ⟨result, rfl, outcome⟩ := op_verify quiet run
    cases outcome with
    | closed | forged | expired | overtaken => rcases given with h | h <;> cases h
    | accepted open_ => exact open_.1
  | poll =>
    obtain ⟨result, rfl, outcome⟩ := op_poll quiet run
    cases outcome <;> rcases given with h | h <;> cases h
  | cancel =>
    obtain ⟨same, -⟩ := run
    obtain ⟨-, rfl⟩ := Prod.mk.inj same
    rcases given with h | h <;> cases h

theorem verdict_event {σ : Type} {dev : Device PlatformCall PlatformCall.Reply σ} (quiet : Quiet dev)
    {v v' : Verifier} {op : VerifierOp} {answer : Answer} {s t : σ}
    (run : Exec dev (runOp tc v op) s (v', answer) t)
    (reference : v.ready = true → v.material.referenceVs = bytesAt 32 (provisioned cfgV romV) 80) :
    EventTrue tc cfgV cfgP romV romP (verifierEvent v answer) := by
  rcases event_cases v answer with other | ⟨msg, challenged⟩ | ⟨given, r, accepted⟩
  · rw [other]
    trivial
  · rw [challenged]
    trivial
  · rw [accepted]
    exact reference (verdict_ready quiet run given)

theorem deliverable_net (sim : Simulates tc cfgV cfgP romV romP optionsV optionsP w net)
    {op : VerifierOp} (can : Deliverable tc (bytesAt 32 (provisioned cfgV romV) 16) w op) :
    CanDeliver tc (materialOf (provisioned cfgV romV) 0).kAuth net op := by
  cases op with
  | verify response =>
    change CanRespond _ _ net.released net.verifier response
    rw [sim.released, sim.verifier]
    exact can
  | _ => trivial

theorem boards_step (mappedV : Mapped cfgV) (mappedP : Mapped cfgP)
    (steady : SteadyRanges cfgP (Board.ranges cfgP.toBoard))
    (sim : Simulates tc cfgV cfgP romV romP optionsV optionsP w net)
    (reference : net.verifier.ready = true →
      net.verifier.material.referenceVs = bytesAt 32 (provisioned cfgV romV) 80)
    (step : BoardStep tc cfgV cfgP (bytesAt 32 (provisioned cfgV romV) 16) w e w') :
    EventTrue tc cfgV cfgP romV romP e ∧
    ∃ net', NetStep tc (materialOf (provisioned cfgV romV) 0) (materialOf (provisioned cfgP romP) 0) net e
        net' ∧ Simulates tc cfgV cfgP romV romP optionsV optionsP w' net' := by
  obtain ⟨mask, shows_⟩ := sim.shows_
  have verifier := sim.verifier
  have prover := sim.prover
  have released := sim.released
  cases step with
  | @verifier op v answer node starts can run =>
    obtain ⟨⟨d', mask'⟩, exec, shows'⟩ := node_runs mappedV shows_ run
    have abstract := exec_mono store_register _ _ _ _ (exec_prod _ exec).1
    rw [← sim.verifier] at abstract
    have next := @NetStep.verifier tc (materialOf (provisioned cfgV romV) 0)
      (materialOf (provisioned cfgP romP) 0) net op v answer d' (deliverable_net sim can) abstract
    rw [sim.verifier] at next abstract reference
    refine ⟨verdict_event (registerDevice_quiet _) abstract reference, _, next, rfl, sim.prover, ?_,
      ⟨mask', shows'⟩, sim.alive⟩
    rw [← sim.released]
    rfl
  | @verifierLost op node starts can lost =>
    obtain ⟨⟨d', mask'⟩, cut, -, shows'⟩ := node_loses mappedV shows_ lost
    have abstract := cut_mono store_register store_tears _ _ _ (cut_prod _ cut).1
    rw [← sim.verifier] at abstract
    exact ⟨trivial, _, .verifierReset (deliverable_net sim can) abstract, rfl, sim.prover, sim.released,
      ⟨0, shows'⟩, sim.alive⟩
  | @proverBoot p ok node off run =>
    obtain ⟨exec, alive⟩ := alive_boot mappedP sim.alive run
    have abstract := exec_mono store_register _ _ _ _ exec
    have zero : net.prover = .zero := sim.prover.trans (sim.alive.off off)
    rw [← zero] at abstract
    exact ⟨trivial, _, .proverInit abstract, sim.verifier, rfl, sim.released, sim.shows_, alive⟩
  | @proverBootLost node off lost =>
    obtain ⟨d', cut, alive⟩ := alive_lost mappedP sim.alive lost
    have abstract := cut_mono store_register store_tears _ _ _ cut
    have zero : net.prover = .zero := sim.prover.trans (sim.alive.off off)
    rw [← zero] at abstract
    exact ⟨trivial, _, .proverInitReset abstract, sim.verifier, rfl, sim.released, sim.shows_, alive⟩
  | @prover req resp resp' len p node on can run =>
    obtain ⟨d', exec, alive, -, fresh⟩ := alive_request mappedP steady sim.alive on run
    have abstract := exec_mono store_register _ _ _ _ exec
    rw [← sim.prover] at abstract
    rw [← sim.released] at can
    have next := @NetStep.prover tc (materialOf (provisioned cfgV romV) 0)
      (materialOf (provisioned cfgP romP) 0) net req resp resp' len p d' can abstract
    refine ⟨truthful_event fun full => (fresh full).2.2, _, next, sim.verifier, rfl, ?_, sim.shows_, alive⟩
    rw [← sim.released]
    rfl
  | @proverLost req resp node on can lost =>
    obtain ⟨d', cut, alive⟩ := alive_lost mappedP sim.alive lost
    have abstract := cut_mono store_register store_tears _ _ _ cut
    rw [← sim.prover] at abstract
    rw [← sim.released] at can
    exact ⟨trivial, _, .proverReset can abstract, sim.verifier, rfl, sim.released, sim.shows_, alive⟩

theorem boards_run (mappedV : Mapped cfgV) (mappedP : Mapped cfgP)
    (steady : SteadyRanges cfgP (Board.ranges cfgP.toBoard))
    (shared : bytesAt 32 (provisioned cfgP romP) 16 = bytesAt 32 (provisioned cfgV romV) 16)
    {es : List NetEvent} (run : Run (BoardStep tc cfgV cfgP (bytesAt 32 (provisioned cfgV romV) 16))
      (.start romV optionsV romP optionsP) es w) :
    (∀ e ∈ es, EventTrue tc cfgV cfgP romV romP e) ∧ ∃ net,
      Inv tc (materialOf (provisioned cfgV romV) 0) (materialOf (provisioned cfgP romP) 0) es net ∧
      Simulates tc cfgV cfgP romV romP optionsV optionsP w net := by
  obtain ⟨dV, factoryV⟩ := remains_factory tc cfgV romV
  obtain ⟨dP, factoryP⟩ := remains_factory tc cfgP romP
  generalize start : BoardWorld.start romV optionsV romP optionsP = first at run
  induction run with
  | start =>
    subst start
    exact ⟨by simp, .start dV dP, inv_run shared (.start _), rfl, rfl, rfl, ⟨0, .down factoryV⟩,
      .down factoryP, fun _ => rfl, nofun⟩
  | next before last ih =>
    obtain ⟨true_, net, inv, sim⟩ := ih
    obtain ⟨true', net', step, sim'⟩ := boards_step mappedV mappedP steady sim
      (fun ready => by rw [inv.vReady ready]; rfl) last
    exact ⟨List.forall_mem_append.mpr ⟨true_, List.forall_mem_singleton.mpr true'⟩, net',
      inv_step shared inv step, sim'⟩

end

theorem measurable_h743 (protection : Bool) :
    Measurable (Board.ranges (h743Config protection).toBoard) := by
  refine ⟨List.cons_ne_nil _ _, fun r hr => ?_⟩
  obtain rfl := List.mem_singleton.mp hr
  exact (by decide : (⟨some 0x08000000, 0x20000⟩ : AttestationRange).valid = true)

end SimpleAttestation.BoardNetwork
