import SimpleAttestation.BoardLife
import SimpleAttestation.BoardWear

set_option autoImplicit false

/-!
# What wears out the flash of a prover

A sector is erased for requests that the provisioned key authenticates, each counted once, and
for restarts. Whatever else is received, and however often, erases nothing.
-/
namespace SimpleAttestation.ProverWear
open ByteStrings Wire Crypto CallProgram Runs Platform ProverRequest Hardware FlashDriver Journal
open StoreRegister BoardStore BoardProtection BoardRefinement BoardNode BoardSession BoardLife BoardWear
open ProverRuns hiding mark_off
open Store hiding boardPlatform boardStoreLoad boardStoreSave

section
variable {tc : TinyCrypt} {prover : Prover} {req resp : List UInt8} {y : ℕ × ℕ} {p : ℕ} {α : Type}

theorem tally_quiet : Quiet tallyDevice := by
  intro c s hc
  cases c with
  | load | saveCounter _ | nowMs => cases hc
  | _ => exact ⟨fun _ h => h, fun _ _ h => h⟩

theorem tally_handle (pos : 0 < p) :
    Safe tallyDevice (fun _ _ => True) (fun z => z.1 + p * z.2 ≤ y.1 + p * y.2 + p)
      (proverHandleRequest tc prover req resp)
      (HandleOutcome tc (fun _ => True) (commits tallyDevice y) prover req resp y) y := by
  have spare : p * (y.2 + 1) = p * y.2 + p := by ring
  refine safe_handleRequest tc _ prover req resp y tally_quiet (by omega) (fun _ _ _ => trivial)
    fun msg accepted => ⟨trivial, ?_, ?_⟩
  · rintro z (rfl | rfl)
    · omega
    · dsimp only
      omega
  · rintro saved z answered
    have hK : z.1 + p * z.2 ≤ y.1 + p * y.2 + p := by
      rcases answered with ⟨-, rfl⟩ | ⟨-, rfl | rfl⟩
      · dsimp only
        omega
      · omega
      · dsimp only
        omega
    exact ⟨hK, safe_post (fun _ _ h => ⟨h, trivial⟩)
      (safe_attestation tc tally_quiet z hK (fun _ _ => trivial) _ _)⟩

theorem avoids_authUi (platform : AuthPlatform) (phase : AuthPhase) : Avoids isSave (authUi platform phase) := by
  unfold authUi
  split
  · exact ⟨id, fun _ => trivial⟩
  · trivial

theorem avoids_init (platform : AuthPlatform) (ranges : List AttestationRange) :
    Avoids isSave (proverInit prover platform ranges) := by
  unfold proverInit
  split
  · trivial
  · have shown : ∀ ready, Avoids isSave (authLoaded platform ready) := by
      intro ready
      unfold authLoaded
      split
      · exact avoids_authUi platform .ready
      · split
        · exact avoids_authUi platform .error
        · trivial
    refine ⟨id, fun loaded => ?_⟩
    change Avoids isSave (authLoaded platform loaded.isSome >>= fun _ => pure _)
    exact avoids_bind (shown _) fun _ => trivial

theorem tally_kept {prog : PlatformProg α} (h : Avoids isSave prog) :
    Safe tallyDevice (fun _ _ => True) (· = y) prog (fun _ z => z = y) y := by
  refine safe_avoids h (fun c z calm same => ?_) rfl
  cases c with
  | saveCounter => exact absurd trivial calm
  | _ => exact ⟨fun _ torn => Eq.trans torn same, fun _ _ answered => Eq.trans answered same⟩

end

structure WornLife where
  prover : Prover
  board : WornNode

inductive WornStep (tc : TinyCrypt) (cfg : Config) : WornLife → ProverEvent → WornLife → Prop where
  | boot {w : WornLife} {prover : Prover} {ok : Bool} {board : WornNode} (off : w.board.node.on = false)
      (h : w.board.Runs tc cfg (proverInit .zero allCallbacks (Board.ranges cfg.toBoard)) (prover, ok) board) :
      WornStep tc cfg w (.boot ok) ⟨prover, board⟩
  | request {w : WornLife} {req resp resp' : List UInt8} {len : ℕ} {prover : Prover} {board : WornNode}
      (on : w.board.node.on = true)
      (h : w.board.Runs tc cfg (proverHandleRequest tc w.prover req resp) (prover, resp', len) board) :
      WornStep tc cfg w (.request req resp' len) ⟨prover, board⟩
  | cutBoot {w : WornLife} {board : WornNode} (off : w.board.node.on = false)
      (h : w.board.Loses tc cfg (proverInit .zero allCallbacks (Board.ranges cfg.toBoard)) board) :
      WornStep tc cfg w .cut ⟨.zero, board⟩
  | cutRequest {w : WornLife} {req resp : List UInt8} {board : WornNode} (on : w.board.node.on = true)
      (h : w.board.Loses tc cfg (proverHandleRequest tc w.prover req resp) board) :
      WornStep tc cfg w .cut ⟨.zero, board⟩

theorem worn_step {tc : TinyCrypt} {cfg : Config} {w w' : WornLife} {e : ProverEvent}
    (step : WornStep tc cfg w e w') :
    LifeStep tc cfg ⟨w.prover, w.board.node⟩ e ⟨w'.prover, w'.board.node⟩ := by
  cases step with
  | boot off h => exact .boot off (worn_runs h)
  | request on h => exact .request on (worn_runs h)
  | cutBoot off h => exact .cutBoot off (worn_loses h)
  | cutRequest on h => exact .cutRequest on (worn_loses h)

theorem worn_life {tc : TinyCrypt} {cfg : Config} {w w' : WornLife} {es : List ProverEvent}
    (run : Run (WornStep tc cfg) w es w') :
    Run (LifeStep tc cfg) ⟨w.prover, w.board.node⟩ es ⟨w'.prover, w'.board.node⟩ := by
  have sim : ∀ a (s : WornLife) e t, a = LifeWorld.mk s.prover s.board.node → WornStep tc cfg s e t →
      ∃ b, LifeStep tc cfg a e b ∧ b = LifeWorld.mk t.prover t.board.node := by
    rintro _ s e t rfl step
    exact ⟨_, worn_step step, rfl⟩
  obtain ⟨_, life, rfl⟩ := run_simulates _ sim rfl run
  exact life

def received : ProverEvent → Option (List UInt8)
  | .request req _ _ => some req
  | _ => none

def restart : ProverEvent → Bool
  | .request _ _ _ => false
  | _ => true

def Authentic (tc : TinyCrypt) (cfg : Config) (rom : ℕ → UInt8) (req : List UInt8) : Prop :=
  ∃ msg, simpleParseMsg req = some msg ∧
    cryptoHmacCompute tc (bytesAt 32 (provisioned cfg rom) 16).data (req.take 52) = some msg.hmac

/-- A prover that serves can still break a save off. -/
def credit (p : ℕ) (prover : Prover) : ℕ := if prover.ready then p else 0

/-- `committed` are the requests that were paid for. -/
structure Ledger (tc : TinyCrypt) (cfg : Config) (rom : ℕ → UInt8) (options : Options) (start : ℕ → ℕ)
    (es : List ProverEvent) (d : UInt32) (y : ℕ × ℕ) (committed : List (List UInt8)) (w : WornLife) : Prop where
  shows_ : WornShows tc cfg rom options start ((d, 0), y) w.board
  off : w.board.node.on = false → w.prover = .zero
  loaded : w.board.node.on = true → Loaded tc cfg rom options d w.prover
  part : committed.Sublist (es.filterMap received)
  authentic : ∀ req ∈ committed, Authentic tc cfg rom req ∧ simpleGetU32 req ≤ d
  increasing : committed.Pairwise fun a b => simpleGetU32 a < simpleGetU32 b
  balance : y.1 + boardPeriod cfg * y.2 + credit (boardPeriod cfg) w.prover ≤
    committed.length + boardPeriod cfg * es.countP restart

section
variable {tc : TinyCrypt} {cfg : Config} {rom : ℕ → UInt8} {options : Options} {start : ℕ → ℕ}
  {es : List ProverEvent} {d : UInt32} {y : ℕ × ℕ} {committed : List (List UInt8)} {w w' : WornLife}
  {e : ProverEvent}

theorem credit_le (p : ℕ) (prover : Prover) : credit p prover ≤ p := by
  unfold credit
  split <;> omega

theorem part_next (part : committed.Sublist (es.filterMap received)) (e : ProverEvent) :
    committed.Sublist ((es ++ [e]).filterMap received) := by
  rw [List.filterMap_append]
  exact part.trans (List.sublist_append_left _ _)

theorem restart_next (h : restart e = true) (p : ℕ) :
    p * (es ++ [e]).countP restart = p * es.countP restart + p := by
  rw [List.countP_append, List.countP_singleton, if_pos h]
  ring

theorem request_next (h : restart e = false) : (es ++ [e]).countP restart = es.countP restart := by
  rw [List.countP_append, List.countP_singleton, h]
  rfl

theorem ledger_boot {prover : Prover} {ok : Bool} {board : WornNode} (mapped : Mapped cfg)
    (h : Ledger tc cfg rom options start es d y committed w)
    (run : w.board.Runs tc cfg (proverInit .zero allCallbacks (Board.ranges cfg.toBoard)) (prover, ok) board) :
    Ledger tc cfg rom options start (es ++ [.boot ok]) d y committed ⟨prover, board⟩ := by
  obtain ⟨⟨⟨d', mask⟩, y'⟩, exec, shows_⟩ := worn_node_runs mapped h.shows_ run
  obtain ⟨platform, tally⟩ := exec_prod _ exec
  obtain ⟨store, masks⟩ := exec_prod _ platform
  obtain rfl : mask = 0 := mask_init masks
  obtain ⟨rfl, loaded⟩ := store_init store
  have same := safe_exec _ _ _ _ _ (tally_kept (y := y) (avoids_init _ _)) tally
  obtain rfl : y' = y := same
  refine ⟨shows_, fun no => ?_, fun _ => loaded, part_next h.part _, h.authentic, h.increasing, ?_⟩
  · rw [run.on] at no
    cases no
  · have balance := h.balance
    have most := credit_le (boardPeriod cfg) prover
    rw [restart_next rfl]
    dsimp only
    omega

/-- A board that lost power; `y'` says what the tally may have become. -/
theorem ledger_lost {d' : UInt32} {y' : ℕ × ℕ} {board : WornNode}
    (h : Ledger tc cfg rom options start es d y committed w) (le : d ≤ d') (off : board.node.on = false)
    (shows_ : WornShows tc cfg rom options start ((d', 0), y') board)
    (cost : y'.1 + boardPeriod cfg * y'.2 ≤ y.1 + boardPeriod cfg * y.2 + boardPeriod cfg) :
    Ledger tc cfg rom options start (es ++ [.cut]) d' y' committed ⟨.zero, board⟩ := by
  refine ⟨shows_, fun _ => rfl, fun on => ?_, part_next h.part _,
    fun req hr => (h.authentic req hr).imp_right fun below => UInt32.le_trans below le, h.increasing, ?_⟩
  · rw [off] at on
    cases on
  · have balance := h.balance
    have none_ : credit (boardPeriod cfg) .zero = 0 := rfl
    rw [restart_next rfl, none_]
    omega

theorem ledger_request {req resp resp' : List UInt8} {len : ℕ} {prover : Prover} {board : WornNode}
    (mapped : Mapped cfg) (steady : SteadyRanges cfg (Board.ranges cfg.toBoard))
    (h : Ledger tc cfg rom options start es d y committed w) (on : w.board.node.on = true)
    (run : w.board.Runs tc cfg (proverHandleRequest tc w.prover req resp) (prover, resp', len) board) :
    ∃ d' y' committed', Ledger tc cfg rom options start (es ++ [.request req resp' len]) d' y' committed'
      ⟨prover, board⟩ := by
  obtain ⟨⟨⟨d', mask⟩, y'⟩, exec, shows_⟩ := worn_node_runs mapped h.shows_ run
  obtain ⟨platform, tally⟩ := exec_prod _ exec
  obtain ⟨store, masks⟩ := exec_prod _ platform
  obtain rfl : mask = 0 := mask_handle masks
  have loaded := h.loaded on
  obtain ⟨loaded', le, -⟩ := handle_loaded loaded (store_handle (by rwa [loaded.ranges]) store)
  have out := safe_exec _ _ _ _ _ (@tally_handle tc w.prover req resp y _ (period_pos mapped)) tally
  have balance := h.balance
  have on' : board.node.on = false → prover = .zero := fun off => by
    rw [run.on] at off
    cases off
  have kept : ∀ req' ∈ committed, Authentic tc cfg rom req' ∧ simpleGetU32 req' ≤ d' := fun req' hr =>
    (h.authentic req' hr).imp_right fun below => UInt32.le_trans below le
  have silent : ∀ {y' : ℕ × ℕ}, WornShows tc cfg rom options start ((d', 0), y') board →
      y'.1 + boardPeriod cfg * y'.2 + credit (boardPeriod cfg) prover ≤
        y.1 + boardPeriod cfg * y.2 + credit (boardPeriod cfg) w.prover →
      Ledger tc cfg rom options start (es ++ [.request req resp' len]) d' y' committed ⟨prover, board⟩ := by
    intro y' shows_ cost
    refine ⟨shows_, on', fun _ => loaded', part_next h.part _, kept, h.increasing, ?_⟩
    rw [request_next rfl]
    dsimp only
    omega
  have paid : ∀ {msg}, Accepts tc w.prover req resp msg → prover = w.prover.advance msg.counter →
      WornShows tc cfg rom options start ((d', 0), y.1 + 1, y.2) board →
      Ledger tc cfg rom options start (es ++ [.request req resp' len]) d' (y.1 + 1, y.2) (committed ++ [req])
        ⟨prover, board⟩ := by
    rintro msg accepted rfl shows_
    have counter := parseMsg_counter accepted.parsed
    have material := (loaded.ready accepted.ready).2.2
    have now : msg.counter = d' := by
      have stored := (loaded'.ready accepted.ready).2.2
      exact congrArg AuthMaterial.counter stored
    have fresh : d < d' := by
      have lower := accepted.fresh
      rw [material] at lower
      rwa [now] at lower
    have authentic : Authentic tc cfg rom req := by
      have tag := accepted.tag
      rw [material] at tag
      exact ⟨msg, accepted.parsed, tag⟩
    rw [now] at counter
    refine ⟨shows_, on', fun _ => loaded', ?_, ?_, ?_, ?_⟩
    · rw [List.filterMap_append]
      exact h.part.append (List.Sublist.refl _)
    · refine List.forall_mem_append.mpr ⟨kept, List.forall_mem_singleton.mpr ⟨authentic, ?_⟩⟩
      rw [counter]
      exact UInt32.le_refl _
    · refine List.pairwise_append.mpr ⟨h.increasing, List.pairwise_singleton _ _, fun a ha b hb => ?_⟩
      rw [List.mem_singleton.mp hb, counter]
      exact UInt32.lt_of_le_of_lt (h.authentic a ha).2 fresh
    · have same : credit (boardPeriod cfg) (w.prover.advance msg.counter) = credit (boardPeriod cfg) w.prover := rfl
      rw [request_next rfl, List.length_append, List.length_singleton]
      dsimp only
      omega
  cases out with
  | refused => exact ⟨d', _, committed, silent shows_ (Nat.le_refl _)⟩
  | uncommitted accepted commit failed =>
    have spare : boardPeriod cfg * (y.2 + 1) = boardPeriod cfg * y.2 + boardPeriod cfg := by ring
    have had : credit (boardPeriod cfg) w.prover = boardPeriod cfg := if_pos accepted.ready
    have has : credit (boardPeriod cfg) { w.prover with ready := false } = 0 := rfl
    refine ⟨d', _, committed, silent shows_ ?_⟩
    rw [had, has]
    rcases commit with ⟨positive, -⟩ | ⟨-, same | broke⟩
    · exact absurd positive (Int.not_lt.mpr failed)
    · have same : y' = y := same
      rw [same]
      omega
    · have broke : y' = (y.1, y.2 + 1) := broke
      rw [broke]
      dsimp only
      omega
  | silent accepted commit positive | answered accepted commit positive =>
    rcases commit with ⟨-, rfl⟩ | ⟨negative, -⟩
    · exact ⟨d', _, _, paid accepted rfl shows_⟩
    · exact absurd positive (Int.not_lt.mpr negative)

theorem ledger_step (mapped : Mapped cfg) (steady : SteadyRanges cfg (Board.ranges cfg.toBoard))
    (h : Ledger tc cfg rom options start es d y committed w) (step : WornStep tc cfg w e w') :
    ∃ d' y' committed', Ledger tc cfg rom options start (es ++ [e]) d' y' committed' w' := by
  cases step with
  | boot off run => exact ⟨d, y, committed, ledger_boot mapped h run⟩
  | request on run => exact ledger_request mapped steady h on run
  | cutBoot off lost =>
    obtain ⟨⟨⟨d', mask⟩, y'⟩, cut, off', shows_⟩ := worn_node_loses mapped h.shows_ lost
    obtain ⟨platform, tally⟩ := cut_prod _ cut
    have same := safe_cut _ _ _ _ (tally_kept (y := y) (avoids_init _ _)) tally
    obtain rfl : y' = y := same
    obtain rfl : d' = d := store_lost (init_register .zero _ _ d) (cut_prod _ platform).1
    exact ⟨d', y', committed, ledger_lost h (UInt32.le_refl _) off' shows_ (by omega)⟩
  | @cutRequest req resp board on lost =>
    obtain ⟨⟨⟨d', mask⟩, y'⟩, cut, off', shows_⟩ := worn_node_loses mapped h.shows_ lost
    obtain ⟨platform, tally⟩ := cut_prod _ cut
    have cost := safe_cut _ _ _ _ (@tally_handle tc w.prover req resp y _ (period_pos mapped)) tally
    have left := store_lost (handle_register w.prover req resp d) (cut_prod _ platform).1
    have le : d ≤ d' := by
      rcases left with rfl | ⟨msg, accepted, rfl⟩
      · exact UInt32.le_refl _
      · have lower := accepted.fresh
        rw [((h.loaded on).ready accepted.ready).2.2] at lower
        exact UInt32.le_of_lt lower
    exact ⟨d', y', committed, ledger_lost h le off' shows_ cost⟩

theorem ledger_run (mapped : Mapped cfg) (steady : SteadyRanges cfg (Board.ranges cfg.toBoard))
    (h : Ledger tc cfg rom options start [] d y [] w) (run : Run (WornStep tc cfg) w es w') :
    ∃ d' y' committed', Ledger tc cfg rom options start es d' y' committed' w' := by
  induction run with
  | start => exact ⟨d, y, [], h⟩
  | next before last ih =>
    obtain ⟨d', y', committed', here⟩ := ih
    exact ledger_step mapped steady here last

end

theorem paid_period {p n m k c s x : ℕ} (bound : p * n < s + p * (x + 1)) (balance : s + p * x + c ≤ m + p * k) :
    p * n < m + p * (k + 1) := by
  rw [Nat.mul_succ] at bound ⊢
  omega

theorem period_h743 (requireProtection : Bool) : boardPeriod (h743Config requireProtection) = 8192 := by
  change 2 * (0x20000 / 32) = 8192
  omega

/-- From the factory on, whatever is received and wherever power is lost: no sector but the two of the
    journal is ever erased, and these once in 8192 of the requests that the key authenticates, each
    counted once however often it is sent, and once for every restart. -/
theorem prover_wear (tc : TinyCrypt) (requireProtection : Bool) (rom : ℕ → UInt8) (options : Options)
    (es : List ProverEvent) (w : WornLife)
    (run : Run (WornStep tc (h743Config requireProtection)) ⟨.zero, .off rom options, fun _ _ => 0⟩ es w) :
    Run (LifeStep tc (h743Config requireProtection)) ⟨.zero, .off rom options⟩ es ⟨w.prover, w.board.node⟩ ∧
    ∃ committed : List (List UInt8), committed.Sublist (es.filterMap received) ∧
      (∀ req ∈ committed, Authentic tc (h743Config requireProtection) rom req) ∧
      committed.Pairwise (fun a b => simpleGetU32 a < simpleGetU32 b) ∧
      ∀ bank unit, 8192 * w.board.erases bank unit < committed.length + 8192 * (es.countP restart + 1) ∧
        (¬ (bank = 2 ∧ (unit = 6 ∨ unit = 7)) → w.board.erases bank unit = 0) := by
  have mapped := mapped_h743 requireProtection
  obtain ⟨d, factory⟩ := remains_factory tc (h743Config requireProtection) rom
  obtain ⟨start, young, worn⟩ := worn_factory mapped tc rom
  have first : Ledger tc (h743Config requireProtection) rom options start [] d (0, 0) []
      ⟨.zero, .off rom options, fun _ _ => 0⟩ :=
    ⟨⟨.down factory, worn⟩, fun _ => rfl, fun on => (by cases on), List.Sublist.refl _,
      fun _ none_ => (by cases none_), List.Pairwise.nil, Nat.zero_le _⟩
  obtain ⟨d', y, committed, ledger⟩ := ledger_run mapped (steady_h743 requireProtection) first run
  refine ⟨worn_life run, committed, ledger.part, fun req hr => (ledger.authentic req hr).1, ledger.increasing,
    fun bank unit => ⟨?_, fun out => ?_⟩⟩
  · have bound := worn_bound young mapped ledger.shows_.worn bank unit
    have balance := ledger.balance
    rw [period_h743] at bound balance
    exact paid_period bound balance
  · obtain ⟨e, counts, -⟩ := ledger.shows_.worn
    refine counts.others bank unit fun b two here there => out ⟨here, ?_⟩
    have either : b = 0 ∨ b = 1 := by omega
    rcases either with rfl | rfl
    · exact Or.inl there
    · exact Or.inr there

theorem wornHardware_live (cfg : Config) (c : HalCall) (x : Chip × (ℕ → ℕ → ℕ)) :
    ∃ r y, (wornHardware cfg).answers c x r y := by
  obtain ⟨r, t, answered⟩ := hardware_live cfg c x.1
  cases c with
  | flashErase bank unit => exact ⟨r, (t, begun x.2 bank unit), answered, rfl⟩
  | _ => exact ⟨r, (t, x.2), answered, rfl⟩

theorem prover_wear_boot : ∃ (ok : Bool) (resp : List UInt8) (len : ℕ) (w : WornLife),
    Run (WornStep referenceTinyCrypt (h743Config true))
      ⟨.zero, .off (fun _ => 255) smallOptions, fun _ _ => 0⟩ [.boot ok, .request [1, 2, 3] resp len] w ∧
    ∀ bank unit, w.board.erases bank unit < 2 := by
  let start : WornLife := ⟨.zero, .off (fun _ => 255) smallOptions, fun _ _ => 0⟩
  obtain ⟨⟨⟨prover, ok⟩, statics⟩, ⟨chip, erases⟩, booted⟩ := exec_exists (wornHardware_live (h743Config true))
    (start.board.node.program referenceTinyCrypt (h743Config true)
      (proverInit .zero allCallbacks (Board.ranges (h743Config true).toBoard)))
    (start.board.node.chip, start.board.erases)
  obtain ⟨⟨⟨prover', resp, len⟩, statics'⟩, ⟨chip', erases'⟩, served⟩ := exec_exists
    (wornHardware_live (h743Config true)) (Node.program referenceTinyCrypt (h743Config true)
      ⟨statics, chip, true⟩ (proverHandleRequest referenceTinyCrypt prover [1, 2, 3] (List.replicate 33 0)))
    (chip, erases)
  have boot : WornStep referenceTinyCrypt (h743Config true) start (.boot ok)
      ⟨prover, ⟨statics, chip, true⟩, erases⟩ := .boot rfl ⟨rfl, booted⟩
  have request : WornStep referenceTinyCrypt (h743Config true) ⟨prover, ⟨statics, chip, true⟩, erases⟩
      (.request [1, 2, 3] resp len) ⟨prover', ⟨statics', chip', true⟩, erases'⟩ := .request rfl ⟨rfl, served⟩
  have run := Run.next (run_one boot) request
  obtain ⟨-, committed, part, authentic, -, few⟩ := prover_wear referenceTinyCrypt true _ _ _ _ run
  refine ⟨ok, resp, len, _, run, fun bank unit => ?_⟩
  have none_ : committed.length = 0 := by
    cases committed with
    | nil => rfl
    | cons req rest =>
      obtain ⟨msg, parsed, -⟩ := authentic req List.mem_cons_self
      obtain rfl := List.mem_singleton.mp (part.subset List.mem_cons_self)
      cases parsed
  have bound := (few bank unit).1
  have restarts : List.countP restart [.boot ok, .request [1, 2, 3] resp len] = 1 := rfl
  change 8192 * _ < committed.length + 8192 * (List.countP restart [.boot ok, .request [1, 2, 3] resp len] + 1) at bound
  rw [restarts] at bound
  omega

end SimpleAttestation.ProverWear
