import SimpleAttestation.BoardNode
import SimpleAttestation.ProverLoop
import SimpleAttestation.ProverRuns
import SimpleAttestation.ProverTrace

set_option autoImplicit false

/-!
# The life of a prover on its hardware

Boots, requests, and power lost inside either, from what the factory left in the flash.
-/
namespace SimpleAttestation.BoardLife
open ByteStrings Wire Crypto CallProgram CallTraces Runs Platform MemoryProtection ProverRequest
open ProverSpec ProverTrace Session Journal Hardware FlashDriver FlashRefinement StoreRegister BoardStore
open BoardProtection BoardRefinement BoardNode BoardSession
open ProverRuns hiding mark_off
open Store hiding boardPlatform boardStoreLoad boardStoreSave

def unmasking : PlatformCall → Bool
  | .enterAtomic | .leaveAtomic _ => true
  | _ => false

section
variable {tc : TinyCrypt} {p : Prover} {req resp : List UInt8} {es : List PlatformEvent} {m n : ℕ}

theorem mask_kept (keep : ∀ e ∈ es, unmasking e.call = false) (h : Follows maskDevice m es n) : n = m := by
  induction es generalizing m with
  | nil => exact h
  | cons e es ih =>
    obtain ⟨u, answered, rest⟩ := h
    obtain ⟨first, others⟩ := List.forall_mem_cons.mp keep
    have same : u = m := by
      obtain ⟨call, reply⟩ := e
      cases call with
      | enterAtomic | leaveAtomic => cases first
      | _ => exact answered
    exact (ih others rest).trans same

theorem reports_unmasking {c : PlatformCall} (h : reports c = true) : unmasking c = false := by
  cases c <;> first | rfl | cases h

theorem mask_handle {x : Prover × List UInt8 × ℕ} (run : Exec maskDevice (proverHandleRequest tc p req resp) m x n) :
    n = m := by
  obtain ⟨es, traced, follows⟩ := (exec_iff_traced _ _ _ _).mp run
  obtain ⟨bracketed, quiet, -⟩ := traced_handleRequest traced
  by_cases opens : Opens p req resp
  · obtain ⟨before, previous, body, after, rfl, display, inside⟩ := bracketed opens
    obtain ⟨first, last⟩ := List.forall_mem_append.mp display
    rw [follows_append] at follows
    obtain ⟨_, entry, u, ⟨rfl, -⟩, rest⟩ := follows
    rw [follows_append] at rest
    obtain ⟨_, -, _, rfl, exit_⟩ := rest
    have same := mask_kept (fun e he => reports_unmasking (first e he)) entry
    exact (mask_kept (fun e he => reports_unmasking (last e he)) exit_).trans same
  · exact mask_kept (fun e he => reports_unmasking ((quiet opens).1 e he)) follows

theorem init_unmasking {platform : AuthPlatform} {ranges : List AttestationRange} {x : Prover × Bool}
    (h : Traced (proverInit p platform ranges) es x) : ∀ e ∈ es, unmasking e.call = false := by
  unfold proverInit at h
  split at h
  · obtain ⟨rfl, -⟩ := h
    simp
  · rw [traced_ask] at h
    obtain ⟨loaded, rest, rfl, h⟩ := h
    rw [traced_bind] at h
    obtain ⟨_, shown, _, rfl, display, rfl, -⟩ := h
    rw [List.append_nil]
    refine List.forall_mem_cons.mpr ⟨rfl, ?_⟩
    unfold authLoaded at display
    split at display
    · exact fun e he => reports_unmasking (traced_authUi display e he)
    · split at display
      · exact fun e he => reports_unmasking (traced_authUi display e he)
      · obtain ⟨rfl, -⟩ := display
        simp

theorem mask_init {platform : AuthPlatform} {ranges : List AttestationRange} {x : Prover × Bool}
    (run : Exec maskDevice (proverInit p platform ranges) m x n) : n = m := by
  obtain ⟨es, traced, follows⟩ := (exec_iff_traced _ _ _ _).mp run
  exact mask_kept (init_unmasking traced) follows

end

section
variable {tc : TinyCrypt} {cfg : Config} {rom : ℕ → UInt8} {options : Options} {d : UInt32} {p : Prover}
  {ranges : List AttestationRange} {req resp : List UInt8}

theorem store_quiet : Quiet (storeDevice tc cfg rom options) := by
  intro c s hc
  cases c with
  | load | saveCounter _ | nowMs => cases hc
  | readRange => exact ⟨fun _ h => h, fun _ _ h => h.2⟩
  | _ => exact ⟨fun _ h => h, fun _ _ h => h⟩

def SteadyRanges (cfg : Config) (ranges : List AttestationRange) : Prop :=
  ∀ r ∈ ranges, ∀ i, i < r.length → ¬ cfg.inJournal (r.start.getD 0 + i)

def ReadsSteady {σ : Type} (dev : Device PlatformCall PlatformCall.Reply σ) (cfg : Config)
    (rom : ℕ → UInt8) : Prop :=
  ∀ a n s r t, dev.answers (.readRange a n) s r t → (∀ i, i < n → ¬ cfg.inJournal (a + i)) →
    r = readMemory rom a n

section
variable {σ : Type} {dev : Device PlatformCall PlatformCall.Reply σ} {G : PlatformCall → σ → Prop}
  {K : σ → Prop} {s : σ}

theorem steady_updates (quiet : Quiet dev) (reads : ReadsSteady dev cfg rom) (hK : K s)
    (hG : ∀ c, c.quiet = true → G c s) (steady : SteadyRanges cfg ranges) (h : tc.HmacState) :
    Safe dev G K (updateRanges tc h ranges) (fun r t => t = s ∧
      r = (ranges.map (readRange rom)).foldlM tc.tcHmacUpdate h >>= tc.tcHmacFinal) s := by
  induction ranges generalizing h with
  | nil => exact ⟨hK, rfl, rfl⟩
  | cons r rest ih =>
    obtain ⟨first, others⟩ := List.forall_mem_cons.mp steady
    refine safe_quiet _ rfl _ _ s quiet hK (hG _ rfl) fun bytes answered => ?_
    obtain rfl := reads _ _ _ _ _ answered first
    have same : (readMemory rom (r.start.getD 0) r.length).data = readRange rom r := rfl
    rw [List.map_cons, List.foldlM_cons, same]
    cases tc.tcHmacUpdate h (readRange rom r) with
    | none => exact ⟨hK, rfl, rfl⟩
    | some h => exact ih others h

theorem steady_measured (quiet : Quiet dev) (reads : ReadsSteady dev cfg rom) (hK : K s)
    (hG : ∀ c, c.quiet = true → G c s) (steady : SteadyRanges cfg ranges) (key : Bytes 32) :
    Safe dev G K (attestationComputeValidState tc key ranges)
      (fun r t => t = s ∧ r = ProverLoop.measured tc rom key ranges) s := by
  unfold attestationComputeValidState ProverLoop.measured
  split
  · exact ⟨hK, rfl, rfl⟩
  · cases (tc.tcHmacSetKey tc.hmacZero key.data).bind tc.tcHmacInit with
    | none => exact ⟨hK, rfl, rfl⟩
    | some h => exact steady_updates quiet reads hK hG steady h

end

theorem store_reads : ReadsSteady (storeDevice tc cfg rom options) cfg rom :=
  fun _ _ _ _ _ answered => answered.1

theorem store_handle (steady : SteadyRanges cfg p.ranges) {x : Prover × List UInt8 × ℕ} {d' : UInt32}
    (run : Exec (storeDevice tc cfg rom options) (proverHandleRequest tc p req resp) d x d') :
    HandleOutcome tc (· = ProverLoop.measured tc rom p.material.kAttest p.ranges)
      (commits (storeDevice tc cfg rom options) d) p req resp d x d' :=
  safe_exec (G := fun _ _ => True) (K := fun _ => True) _ _ _ _ _
    (safe_handleRequest tc _ p req resp d store_quiet trivial (fun _ _ _ => trivial) fun _ _ =>
      ⟨trivial, fun _ _ => trivial, fun _ _ _ => ⟨trivial, steady_measured store_quiet store_reads trivial
        (fun _ _ => trivial) steady _⟩⟩) run

theorem store_register (c : PlatformCall) (s : UInt32) (r : c.Reply) (t : UInt32)
    (h : (storeDevice tc cfg rom options).answers c s r t) :
    (registerDevice (materialOf (provisioned cfg rom) 0)).answers c s r t := by
  cases c with
  | load => exact ⟨h.1, h.2.imp_right fun loaded => loaded.2.2⟩
  | saveCounter c => exact ⟨h.1, h.2.1⟩
  | readRange => exact h.2
  | _ => exact h

theorem store_tears (c : PlatformCall) (s t : UInt32) (h : (storeDevice tc cfg rom options).tears c s t) :
    (registerDevice (materialOf (provisioned cfg rom) 0)).tears c s t := by
  cases c <;> exact h

theorem store_lost {α : Type} {prog : PlatformProg α} {K : UInt32 → Prop} {Q : α → UInt32 → Prop}
    (safe : Safe (registerDevice (materialOf (provisioned cfg rom) 0)) (fun _ _ => True) K prog Q d)
    {d' : UInt32} (cut : Cut (storeDevice tc cfg rom options) prog d d') : K d' :=
  safe_cut _ _ _ _ safe (cut_mono store_register store_tears _ _ _ cut)

structure Loaded (tc : TinyCrypt) (cfg : Config) (rom : ℕ → UInt8) (options : Options) (d : UInt32)
    (p : Prover) : Prop where
  ranges : p.ranges = Board.ranges cfg.toBoard
  ready : p.ready = true → Protected cfg options ∧
    recordValid tc cfg.toBoard (provisioned cfg rom) = true ∧ p.material = materialOf (provisioned cfg rom) d

/-- The response tells whether the factory image has the digest that the request names. -/
def Truthful (tc : TinyCrypt) (cfg : Config) (rom : ℕ → UInt8) (req resp : List UInt8) : Prop :=
  ∃ msg vs tag, simpleParseMsg req = some msg ∧
    cryptoHmacCompute tc (bytesAt 32 (provisioned cfg rom) 16).data (req.take 52) = some msg.hmac ∧
    ProverLoop.measured tc rom (bytesAt 32 (provisioned cfg rom) 48) (Board.ranges cfg.toBoard) = some vs ∧
    responseTag tc (bytesAt 32 (provisioned cfg rom) 16) (resultOf vs msg) msg = some tag ∧
    resp.take 33 = reportBytes ⟨resultOf vs msg, tag⟩

theorem store_loads {α : Type} (f : Option AuthMaterial → α) (d : UInt32) :
    Safe (storeDevice tc cfg rom options) (fun _ _ => True) (fun _ => True) (loadAndReport f)
      (fun x t => t = d ∧ ∃ loaded, (storeDevice tc cfg rom options).answers .load d loaded d ∧
        x = f loaded) d := by
  refine ⟨trivial, trivial, fun _ _ => trivial, ?_⟩
  rintro loaded t ⟨rfl, answer⟩
  exact safe_authLoaded _ _ _ store_quiet (fun _ _ => trivial) ⟨trivial, rfl, loaded, ⟨rfl, answer⟩, rfl⟩

theorem store_init {x : Prover × Bool} {d' : UInt32} (run : Exec (storeDevice tc cfg rom options)
      (proverInit .zero allCallbacks (Board.ranges cfg.toBoard)) d x d') :
    d' = d ∧ Loaded tc cfg rom options d x.1 := by
  have init : proverInit .zero allCallbacks (Board.ranges cfg.toBoard) = loadAndReport fun loaded =>
    ((⟨allCallbacks, loaded.getD .zero, Board.ranges cfg.toBoard, loaded.isSome⟩ : Prover),
      loaded.isSome) := rfl
  rw [init] at run
  obtain ⟨rfl, loaded, ⟨-, answer⟩, rfl⟩ := safe_exec _ _ _ _ _ (store_loads _ d) run
  refine ⟨rfl, rfl, fun ready => ?_⟩
  rcases answer with rfl | ⟨protected_, record, rfl⟩
  · cases ready
  · exact ⟨protected_, record, rfl⟩

theorem handle_loaded {x : Prover × List UInt8 × ℕ} {d' : UInt32} (loaded : Loaded tc cfg rom options d p)
    (out : HandleOutcome tc (· = ProverLoop.measured tc rom p.material.kAttest p.ranges)
      (commits (storeDevice tc cfg rom options) d) p req resp d x d') :
    Loaded tc cfg rom options d' x.1 ∧ d ≤ d' ∧ (x.2.2 = 33 → d < simpleGetU32 req ∧
      simpleGetU32 req = d' ∧ Truthful tc cfg rom req x.2.1) := by
  have fresh : ∀ {msg}, Accepts tc p req resp msg → d < msg.counter := fun h => by
    have lower := h.fresh
    rwa [(loaded.ready h.ready).2.2] at lower
  have advanced : ∀ {msg}, Accepts tc p req resp msg →
      Loaded tc cfg rom options msg.counter (p.advance msg.counter) := fun h =>
    ⟨loaded.ranges, fun _ => by
      obtain ⟨protected_, record, material⟩ := loaded.ready h.ready
      exact ⟨protected_, record, by rw [Prover.advance, material]; rfl⟩⟩
  cases out with
  | refused => exact ⟨loaded, UInt32.le_refl d, nofun⟩
  | uncommitted accepted commit failed =>
    refine ⟨⟨loaded.ranges, nofun⟩, ?_, nofun⟩
    rcases commit.2.1 with rfl | rfl
    · exact UInt32.le_refl _
    · exact UInt32.le_of_lt (fresh accepted)
  | silent accepted commit positive =>
    obtain rfl := commit.1 positive
    exact ⟨advanced accepted, UInt32.le_of_lt (fresh accepted), nofun⟩
  | @answered msg saved u vs tag accepted commit positive measured tagged =>
    obtain rfl := commit.1 positive
    have counter := parseMsg_counter accepted.parsed
    have material := (loaded.ready accepted.ready).2.2
    have authentic := accepted.tag
    rw [material, loaded.ranges] at measured
    rw [material] at tagged authentic
    exact ⟨advanced accepted, UInt32.le_of_lt (fresh accepted), fun _ => ⟨counter ▸ fresh accepted, counter,
      msg, vs, tag, accepted.parsed, authentic, measured.symm, tagged,
      List.take_left' (length_reportBytes _)⟩⟩

end

structure LifeWorld where
  prover : Prover
  node : Node

/-- Boots, requests, and power lost inside either. -/
inductive LifeStep (tc : TinyCrypt) (cfg : Config) : LifeWorld → ProverEvent → LifeWorld → Prop where
  | boot {w : LifeWorld} {prover : Prover} {ok : Bool} {node : Node} (off : w.node.on = false)
      (h : w.node.Runs tc cfg (proverInit .zero allCallbacks (Board.ranges cfg.toBoard)) (prover, ok) node) :
      LifeStep tc cfg w (.boot ok) ⟨prover, node⟩
  | request {w : LifeWorld} {req resp resp' : List UInt8} {len : ℕ} {prover : Prover} {node : Node}
      (on : w.node.on = true)
      (h : w.node.Runs tc cfg (proverHandleRequest tc w.prover req resp) (prover, resp', len) node) :
      LifeStep tc cfg w (.request req resp' len) ⟨prover, node⟩
  | cutBoot {w : LifeWorld} {node : Node} (off : w.node.on = false)
      (h : w.node.Loses tc cfg (proverInit .zero allCallbacks (Board.ranges cfg.toBoard)) node) :
      LifeStep tc cfg w .cut ⟨.zero, node⟩
  | cutRequest {w : LifeWorld} {req resp : List UInt8} {node : Node} (on : w.node.on = true)
      (h : w.node.Loses tc cfg (proverHandleRequest tc w.prover req resp) node) :
      LifeStep tc cfg w .cut ⟨.zero, node⟩

def TruthfulEvent (tc : TinyCrypt) (cfg : Config) (rom : ℕ → UInt8) : ProverEvent → Prop
  | .request req resp len => len = SIMPLE_REPORT_LEN → Truthful tc cfg rom req resp
  | _ => True

/-- The durable counter is the watermark; between two calls interrupts are on. -/
structure Alive (tc : TinyCrypt) (cfg : Config) (rom : ℕ → UInt8) (options : Options) (d : UInt32)
    (w : LifeWorld) : Prop where
  shows_ : Shows tc cfg rom options (d, 0) w.node
  off : w.node.on = false → w.prover = .zero
  loaded : w.node.on = true → Loaded tc cfg rom options d w.prover

section
variable {tc : TinyCrypt} {cfg : Config} {rom : ℕ → UInt8} {options : Options} {d : UInt32}
  {w w' : LifeWorld} {e : ProverEvent}

theorem alive_boot {prover : Prover} {ok : Bool} {node : Node} (mapped : Mapped cfg)
    (h : Alive tc cfg rom options d w)
    (run : w.node.Runs tc cfg (proverInit .zero allCallbacks (Board.ranges cfg.toBoard)) (prover, ok) node) :
    Exec (storeDevice tc cfg rom options) (proverInit .zero allCallbacks (Board.ranges cfg.toBoard)) d
      (prover, ok) d ∧ Alive tc cfg rom options d ⟨prover, node⟩ := by
  obtain ⟨⟨d', mask⟩, exec, shows_⟩ := node_runs mapped h.shows_ run
  obtain ⟨store, masks⟩ := exec_prod _ exec
  obtain rfl : mask = 0 := mask_init masks
  obtain ⟨rfl, loaded⟩ := store_init store
  refine ⟨store, shows_, fun off => ?_, fun _ => loaded⟩
  rw [run.on] at off
  cases off

theorem alive_request {req resp resp' : List UInt8} {len : ℕ} {prover : Prover} {node : Node}
    (mapped : Mapped cfg) (steady : SteadyRanges cfg (Board.ranges cfg.toBoard))
    (h : Alive tc cfg rom options d w) (on : w.node.on = true)
    (run : w.node.Runs tc cfg (proverHandleRequest tc w.prover req resp) (prover, resp', len) node) :
    ∃ d', Exec (storeDevice tc cfg rom options) (proverHandleRequest tc w.prover req resp) d
      (prover, resp', len) d' ∧ Alive tc cfg rom options d' ⟨prover, node⟩ ∧ d ≤ d' ∧
      (len = 33 → d < simpleGetU32 req ∧ simpleGetU32 req = d' ∧ Truthful tc cfg rom req resp') := by
  obtain ⟨⟨d', mask⟩, exec, shows_⟩ := node_runs mapped h.shows_ run
  obtain ⟨store, masks⟩ := exec_prod _ exec
  obtain rfl : mask = 0 := mask_handle masks
  have loaded := h.loaded on
  obtain ⟨loaded', le, fresh⟩ := handle_loaded loaded (store_handle (by rwa [loaded.ranges]) store)
  refine ⟨d', store, ⟨shows_, fun off => ?_, fun _ => loaded'⟩, le, fresh⟩
  rw [run.on] at off
  cases off

theorem alive_lost {α : Type} {prog : PlatformProg α} {node : Node} (mapped : Mapped cfg)
    (h : Alive tc cfg rom options d w) (lost : w.node.Loses tc cfg prog node) :
    ∃ d', Cut (storeDevice tc cfg rom options) prog d d' ∧ Alive tc cfg rom options d' ⟨.zero, node⟩ := by
  obtain ⟨y, cut, off, shows_⟩ := node_loses mapped h.shows_ lost
  refine ⟨y.1, (cut_prod _ cut).1, shows_, fun _ => rfl, fun on => ?_⟩
  rw [off] at on
  cases on

theorem alive_step (mapped : Mapped cfg) (steady : SteadyRanges cfg (Board.ranges cfg.toBoard))
    (h : Alive tc cfg rom options d w) (step : LifeStep tc cfg w e w') :
    ∃ d', Alive tc cfg rom options d' w' ∧ d ≤ d' ∧ TruthfulEvent tc cfg rom e ∧
      ∀ req, answered e = some req → d < simpleGetU32 req ∧ simpleGetU32 req = d' := by
  have silent : ∀ {r : List UInt8 → Prop} (req : List UInt8), none = some req → r req :=
    fun _ same => by cases same
  cases step with
  | boot off run => exact ⟨d, (alive_boot mapped h run).2, UInt32.le_refl d, trivial, silent⟩
  | @request req resp resp' len prover node on run =>
    obtain ⟨d', -, alive, le, fresh⟩ := alive_request mapped steady h on run
    refine ⟨d', alive, le, fun full => (fresh full).2.2, fun req' same => ?_⟩
    by_cases full : len = SIMPLE_REPORT_LEN
    · rw [answered, if_pos full] at same
      obtain rfl := Option.some.inj same
      exact ⟨(fresh full).1, (fresh full).2.1⟩
    · rw [answered, if_neg full] at same
      cases same
  | cutBoot off lost =>
    obtain ⟨d', cut, alive⟩ := alive_lost mapped h lost
    obtain rfl : d' = d := store_lost (init_register .zero _ _ d) cut
    exact ⟨d', alive, UInt32.le_refl _, trivial, silent⟩
  | @cutRequest req resp node on lost =>
    obtain ⟨d', cut, alive⟩ := alive_lost mapped h lost
    have left := store_lost (handle_register w.prover req resp d) cut
    refine ⟨d', alive, ?_, trivial, silent⟩
    rcases left with rfl | ⟨msg, accepted, rfl⟩
    · exact UInt32.le_refl _
    · have lower := accepted.fresh
      rw [((h.loaded on).ready accepted.ready).2.2] at lower
      exact UInt32.le_of_lt lower

end

theorem steady_h743 (requireProtection : Bool) : SteadyRanges (h743Config requireProtection)
    (Board.ranges (h743Config requireProtection).toBoard) := by
  intro r hr i inside
  obtain rfl := List.mem_singleton.mp hr
  rw [journal_cases]
  change i < 0x20000 at inside
  change ¬ ((0x081C0000 ≤ 0x08000000 + i ∧ 0x08000000 + i < 0x081C0000 + 0x20000) ∨
    0x081E0000 ≤ 0x08000000 + i ∧ 0x08000000 + i < 0x081E0000 + 0x20000)
  omega

/-- The prover's board from the factory on. Its image never changes, so every response tells the
    truth about it; no counter is answered twice; it serves only with its option bytes and record
    as they must be, and is left locked, closed and unmasked between two calls. -/
theorem prover_life (tc : TinyCrypt) (requireProtection : Bool) (rom : ℕ → UInt8) (options : Options)
    (es : List ProverEvent) (w : LifeWorld)
    (run : Run (LifeStep tc (h743Config requireProtection)) ⟨.zero, .off rom options⟩ es w) :
    (∀ a, ¬ (h743Config requireProtection).inJournal a → w.node.chip.flash a = rom a) ∧
    (w.node.on = true → Idle (h743Config requireProtection) w.node.chip ∧ w.node.chip.primask = 0) ∧
    (w.prover.ready = true → Protected (h743Config requireProtection) options ∧
      recordValid tc h743 (provisioned (h743Config requireProtection) rom) = true) ∧
    (es.filterMap answered).Pairwise (fun a b => simpleGetU32 a < simpleGetU32 b) ∧
    ∀ e ∈ es, TruthfulEvent tc (h743Config requireProtection) rom e := by
  have mapped := mapped_h743 requireProtection
  have steady := steady_h743 requireProtection
  obtain ⟨d, factory⟩ := remains_factory tc (h743Config requireProtection) rom
  have start : Alive tc (h743Config requireProtection) rom options d ⟨.zero, .off rom options⟩ :=
    ⟨.down factory, fun _ => rfl, nofun⟩
  obtain ⟨increasing, m, ⟨d', -, alive⟩, -⟩ := run_increasing
    (fun e => (answered e).map fun req => (simpleGetU32 req).toNat)
    (fun m w => ∃ d : UInt32, d.toNat = m ∧ Alive tc (h743Config requireProtection) rom options d w)
    (by
      rintro m s e t ⟨d, rfl, alive⟩ step
      obtain ⟨d', alive', le, -, fresh⟩ := alive_step mapped steady alive step
      refine ⟨d'.toNat, ⟨d', rfl, alive'⟩, le, fun n hn => ?_⟩
      obtain ⟨req, same, rfl⟩ := Option.map_eq_some_iff.mp hn
      obtain ⟨lt, rfl⟩ := fresh req same
      exact ⟨lt, Nat.le_refl _⟩) ⟨d, rfl, start⟩ run
  have truthful := @run_emits _ _ (LifeStep tc (h743Config requireProtection))
    (fun w => ∃ d, Alive tc (h743Config requireProtection) rom options d w)
    (TruthfulEvent tc (h743Config requireProtection) rom) (by
      rintro s e t ⟨d, alive⟩ step
      obtain ⟨d', alive', -, truthful, -⟩ := alive_step mapped steady alive step
      exact ⟨⟨d', alive'⟩, truthful⟩) _ _ _ ⟨d, start⟩ run
  rw [← List.map_filterMap, List.pairwise_map] at increasing
  refine ⟨shows_outside alive.shows_, fun on => shows_idle alive.shows_ on, fun ready => ?_, increasing,
    truthful⟩
  cases on : w.node.on with
  | false =>
    rw [alive.off on] at ready
    cases ready
  | true =>
    obtain ⟨protected_, record, -⟩ := (alive.loaded on).ready ready
    exact ⟨protected_, record⟩

theorem prover_life_boot : ∃ (ok : Bool) (resp : List UInt8) (len : ℕ) (w : LifeWorld),
    Run (LifeStep referenceTinyCrypt (h743Config true)) ⟨.zero, .off (fun _ => 255) smallOptions⟩
      [.boot ok, .request [1, 2, 3] resp len] w ∧
    Idle (h743Config true) w.node.chip ∧ w.node.chip.primask = 0 ∧
    (len = 33 → Truthful referenceTinyCrypt (h743Config true) (fun _ => 255) [1, 2, 3] resp) := by
  let start : LifeWorld := ⟨.zero, .off (fun _ => 255) smallOptions⟩
  obtain ⟨⟨⟨prover, ok⟩, statics⟩, chip, booted⟩ := exec_exists (hardware_live (h743Config true))
    (start.node.program referenceTinyCrypt (h743Config true)
      (proverInit .zero allCallbacks (Board.ranges (h743Config true).toBoard))) start.node.chip
  obtain ⟨⟨⟨prover', resp, len⟩, statics'⟩, chip', served⟩ := exec_exists (hardware_live (h743Config true))
    (Node.program referenceTinyCrypt (h743Config true) ⟨statics, chip, true⟩
      (proverHandleRequest referenceTinyCrypt prover [1, 2, 3] (List.replicate 33 0))) chip
  have boot : LifeStep referenceTinyCrypt (h743Config true) start (.boot ok) ⟨prover, statics, chip, true⟩ :=
    .boot rfl ⟨rfl, booted⟩
  have request : LifeStep referenceTinyCrypt (h743Config true) ⟨prover, statics, chip, true⟩
      (.request [1, 2, 3] resp len) ⟨prover', statics', chip', true⟩ := .request rfl ⟨rfl, served⟩
  have run := Run.next (run_one boot) request
  obtain ⟨-, idle, -, -, truthful⟩ := prover_life referenceTinyCrypt true _ _ _ _ run
  exact ⟨ok, resp, len, _, run, (idle rfl).1, (idle rfl).2,
    truthful _ (List.mem_cons_of_mem _ (List.mem_singleton.mpr rfl))⟩

end SimpleAttestation.BoardLife
