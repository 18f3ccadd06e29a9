import SimpleAttestation.BoardNetwork
import SimpleAttestation.CalmHardware

set_option autoImplicit false

/-!
# The first session on the hardware

Two boards as the provisioning tool leaves them, with nothing failing under them.
-/
namespace SimpleAttestation.HardwareSession
open ByteStrings Wire Crypto CallProgram Platform ProverRequest VerifierSession Session Journal JournalScan
open JournalLoad JournalSave JournalCrash JournalRegister Hardware FlashDriver FlashRefinement BoardStore
open BoardProtection BoardRefinement BoardNode BoardSession BoardLife BoardNetwork CalmHardware
open Store hiding boardPlatform boardStoreLoad boardStoreSave
open StoreRegister (Settled)
open VerifierLoop (AUTH_TIMEOUT_MS)

/-- Loads and saves succeed, and the memory outside the journals is that of the factory. -/
def calmStore (cfg : Config) (rom : ℕ → UInt8) (inTime : UInt32 → Prop) :
    Device PlatformCall PlatformCall.Reply UInt32 where
  answers
    | .load, s, r, t => r = some (materialOf (provisioned cfg rom) s) ∧ t = s
    | .saveCounter c, _, r, t => 0 < r ∧ t = c
    | .readRange start length, s, r, t =>
      ((∀ i, i < length → ¬ cfg.inJournal (start + i)) → r = readMemory rom start length) ∧ t = s
    | .random _, s, r, t => r ≠ none ∧ t = s
    | .nowMs, s, now, t => inTime now ∧ t = s
    | _, s, _, t => t = s
  tears _ _ _ := False

def Serves (tc : TinyCrypt) (cfg : Config) (rom : ℕ → UInt8) (options : Options) (d : UInt32)
    (st : Statics) (s : Chip) : Prop :=
  ∃ mask f, Serving tc cfg.toBoard (provisioned cfg rom) d st.journal f ∧ Holds cfg rom mask options f s

section
variable {tc : TinyCrypt} {sha256 : List UInt8 → Bytes 32} {hmac : List UInt8 → List UInt8 → Bytes 32}
  {cfg : Config} {inTime : UInt32 → Prop} {rom : ℕ → UInt8} {options : Options} {d c : UInt32} {s : Chip}
  {st : Statics} {f : Flash} {mask : ℕ}

theorem calms_load (mapped : Mapped cfg) (protected_ : Protected cfg options) (st : Statics)
    (loadable : Loadable tc cfg.toBoard (provisioned cfg rom) d f) (h : Holds cfg rom mask options f s) :
    Calms cfg inTime (boardStoreLoad tc cfg st)
      (fun x t => x.1 = some (materialOf (provisioned cfg rom) d) ∧ Serves tc cfg rom options d x.2 t) s := by
  obtain ⟨k, record, good, rfl⟩ := loadable
  have size : k.blockSize = cfg.journalBlockSize := good.setUp.blockSize
  have loaded := good_recovers good (journalOf cfg.toBoard (provisioned cfg rom))
    ⟨good.setUp.blockSize.symm, good.setUp.callbacks.symm, good.setUp.key.symm⟩
  rw [size] at loaded
  unfold boardStoreLoad
  have checked : Drives cfg (fun _ => True) (protectionValid cfg) _ s := drives_protectionValid trivial
  refine safe_then (calms_drives checked) ?_
  rintro valid t ⟨rfl, iff⟩ -
  obtain rfl : valid = true := iff.mpr (h.options ▸ protected_)
  refine calms_call fun bytes u answered _ => ?_
  obtain ⟨rfl, rfl⟩ := answered
  rw [holds_record h]
  change Calms cfg inTime (if !recordValid tc cfg.toBoard (provisioned cfg rom) then _ else _) _ _
  rw [record, if_neg (by decide)]
  refine safe_then (calms_interp mapped st.storeError h (kept_load rfl)) ?_
  rintro ⟨⟨j, ok⟩, e⟩ v ⟨f', same, holds⟩ -
  obtain ⟨x, rfl⟩ := Prod.mk.inj (loaded.symm.trans same)
  obtain ⟨rfl, rfl⟩ := Prod.mk.inj x
  refine ⟨trivial, rfl, mask, f, ⟨record, ⟨?_, rfl, ⟨rfl, rfl, rfl⟩, ?_⟩, rfl⟩, holds⟩
  · exact (valid_setUp good.setUp).symm.trans good.valid
  · exact matches_moved good.stands good.setUp.key.symm good.setUp.blockSize.symm

theorem calms_save (computes : tc.Computes sha256 hmac) (mapped : Mapped cfg)
    (serving : Serving tc cfg.toBoard (provisioned cfg rom) d st.journal f)
    (h : Holds cfg rom mask options f s) (fresh : d < c) :
    Calms cfg inTime (boardStoreSave tc cfg st c)
      (fun x t => 0 < x.1 ∧ Serves tc cfg rom options c x.2 t) s := by
  obtain ⟨record, good, rfl⟩ := serving
  have size : st.journal.blockSize = cfg.journalBlockSize := good.setUp.blockSize
  obtain ⟨r, made⟩ := record_exists computes st.journal.key c
  have run := save_eval (f := f) made good.ready fresh
  rw [size] at run
  unfold boardStoreSave
  refine safe_then (calms_interp mapped .counterSave h (kept_save good.stands good.valid size)) ?_
  rintro ⟨⟨j, ok⟩, e⟩ t ⟨f', same, holds⟩ -
  obtain ⟨x, rfl⟩ := Prod.mk.inj (run.symm.trans same)
  obtain ⟨rfl, rfl⟩ := Prod.mk.inj x
  refine ⟨trivial, Int.one_pos, mask, _, ⟨record, ⟨good.valid, rfl, ?_, ?_⟩, rfl⟩, holds⟩
  · exact ⟨good.setUp.1, good.setUp.2, good.setUp.3⟩
  · exact saved_matches good.stands good.valid made fresh

theorem calms_randomWords (words len : ℕ) : Calms cfg inTime (randomWords words len)
    (fun r t => r ≠ none ∧ t = s) s := by
  induction words generalizing len with
  | zero => exact ⟨trivial, nofun, rfl⟩
  | succ words ih =>
    refine calms_call fun word t answered calm => ?_
    obtain rfl : t = s := answered
    cases word with
    | none => exact absurd rfl calm
    | some word =>
      change Calms cfg inTime (randomWords words (len - 4) >>= fun rest =>
        pure (rest.map ((simplePutU32 word).take len ++ ·))) _ t
      refine safe_then (ih (len - 4)) ?_
      rintro rest u ⟨some_, rfl⟩ -
      cases rest with
      | none => exact absurd rfl some_
      | some rest => exact ⟨trivial, nofun, rfl⟩

theorem calms_platform (computes : tc.Computes sha256 hmac) (mapped : Mapped cfg)
    (protected_ : Protected cfg options) (call : PlatformCall) (h : Serves tc cfg rom options d st s)
    (forward : Forward call d) :
    Calms cfg inTime (boardPlatform tc cfg call st) (fun a t => ∃ d',
      (calmStore cfg rom inTime).answers call d a.1 d' ∧ Serves tc cfg rom options d' a.2 t) s := by
  obtain ⟨mask, f, serving, holds⟩ := id h
  cases call with
  | load =>
    refine safe_post ?_ (calms_load mapped protected_ st ⟨_, serving⟩ holds)
    rintro a t ⟨loaded, serves⟩
    exact ⟨d, ⟨loaded, rfl⟩, serves⟩
  | saveCounter c =>
    refine safe_post ?_ (calms_save computes mapped serving holds forward)
    rintro a t ⟨positive, serves⟩
    exact ⟨c, ⟨positive, rfl⟩, serves⟩
  | random len =>
    change Calms cfg inTime (randomBytes len >>= fun r => pure (r, st)) _ s
    have drawn : Calms cfg inTime (randomBytes len) (fun r t => r ≠ none ∧ t = s) s := by
      refine safe_then (calms_randomWords _ len) ?_
      rintro out t ⟨some_, rfl⟩ -
      cases out with
      | none => exact absurd rfl some_
      | some out => exact ⟨trivial, nofun, rfl⟩
    refine safe_then drawn ?_
    rintro r t ⟨some_, rfl⟩ -
    exact ⟨trivial, d, ⟨some_, rfl⟩, h⟩
  | enterAtomic =>
    refine calms_call fun saved t answered _ => calms_call fun _ u answered' _ => ?_
    obtain ⟨-, rfl⟩ := answered
    obtain rfl := answered'
    exact ⟨trivial, d, rfl, 1, f, serving,
      ⟨⟨holds.idle.locked, holds.idle.closed⟩, holds.mirrors, holds.outside, rfl, holds.options⟩⟩
  | leaveAtomic previous =>
    refine calms_call fun _ t answered _ => ?_
    obtain rfl := answered
    exact ⟨trivial, d, rfl, previous, f, serving,
      ⟨⟨holds.idle.locked, holds.idle.closed⟩, holds.mirrors, holds.outside, rfl, holds.options⟩⟩
  | readRange start length =>
    refine calms_call fun bytes t answered _ => ?_
    obtain ⟨rfl, rfl⟩ := answered
    exact ⟨trivial, d, ⟨fun steady => peek_steady holds.outside steady, rfl⟩, h⟩
  | nowMs =>
    refine calms_call fun now t answered calm => ?_
    obtain rfl : t = s := answered
    exact ⟨trivial, d, ⟨calm, rfl⟩, h⟩
  | ui | error | writeResponse =>
    refine calms_call fun _ t answered _ => ?_
    obtain rfl : t = s := answered
    exact ⟨trivial, d, rfl, h⟩

/-- What is safe on the calm store comes to pass on calm hardware. -/
theorem calms_board (computes : tc.Computes sha256 hmac) (mapped : Mapped cfg)
    (protected_ : Protected cfg options) {α : Type} {prog : PlatformProg α} {Q : α → UInt32 → Prop}
    (h : Serves tc cfg rom options d st s)
    (safe : Safe (calmStore cfg rom inTime) Forward (fun _ => True) prog Q d) :
    Calms cfg inTime (prog.interp (boardPlatform tc cfg) st)
      (fun a t => ∃ d', Q a.1 d' ∧ Serves tc cfg rom options d' a.2 t) s := by
  refine safe_mono _ _ _ s (fun _ _ g => g) (fun _ _ => trivial) (fun _ _ q => q)
    (safe_interp (calmStore cfg rom inTime) (calmHardware cfg inTime) Forward (fun _ _ => True)
      (fun _ => True) (boardPlatform tc cfg) (Serves tc cfg rom options) (fun _ _ => True)
      (fun _ _ _ _ => trivial) ?_ prog Q d st s h safe)
  intro call d st s serves forward
  exact safe_mono _ _ _ s (fun _ _ g => g) (fun _ _ => ⟨d, Or.inl rfl, trivial⟩) (fun _ _ q => q)
    (calms_platform computes mapped protected_ call serves forward)

end

section
variable {tc : TinyCrypt} {sha256 : List UInt8 → Bytes 32} {hmac : List UInt8 → List UInt8 → Bytes 32}
  {cfg : Config} {inTime : UInt32 → Prop} {rom : ℕ → UInt8} {d : UInt32} {v : Verifier} {p : Prover}

theorem calmStore_quiet : Quiet (calmStore cfg rom inTime) := by
  intro c s hc
  refine ⟨fun _ torn => torn.elim, fun r t answered => ?_⟩
  cases c with
  | load | saveCounter _ | nowMs => cases hc
  | readRange | random => exact answered.2
  | _ => exact answered

theorem calmStore_clock : ClockKeeps (calmStore cfg rom inTime) Forward (fun _ => True) :=
  fun _ _ => ⟨trivial, fun _ _ => trivial, fun _ _ _ => trivial⟩

theorem calmStore_reads : ReadsSteady (calmStore cfg rom inTime) cfg rom :=
  fun _ _ _ _ _ answered => answered.1

theorem calmStore_loads {α : Type} (f : Option AuthMaterial → α) :
    Safe (calmStore cfg rom inTime) Forward (fun _ => True) (loadAndReport f)
      (fun x t => x = f (some (materialOf (provisioned cfg rom) d)) ∧ t = d) d := by
  refine ⟨trivial, trivial, fun _ torn => torn.elim, ?_⟩
  rintro loaded t ⟨rfl, rfl⟩
  exact safe_authLoaded _ _ _ calmStore_quiet (forward_quiet · t) ⟨trivial, rfl, rfl⟩

theorem calmStore_challenge (computes : tc.Computes sha256 hmac) {out : List UInt8} (can : CanIssue v d)
    (room : 84 ≤ out.length) :
    Safe (calmStore cfg rom inTime) Forward (fun _ => True) (verifierChallenge tc v out)
      (fun x t => ∃ msg now, Issues tc v out msg ∧ t = msg.counter ∧
        x = (v.begin msg now, msgBytes msg ++ out.drop 84, 84)) d := by
  refine safe_post ?_ (safe_challenge tc v out d calmStore_quiet trivial forward_quiet calmStore_clock
    fun msg issues => ?_)
  · intro x t out
    cases out with
    | refused _ h =>
      rcases h with h | h | h | h | h | ⟨msg, h⟩
      · rw [can.ready] at h
        cases h
      · rw [can.idle] at h
        cases h
      · omega
      · exact absurd h can.below
      · exact absurd rfl h.1
      · rw [hmacCompute_bytes computes _ (by simp; decide)] at h
        cases h
    | uncommitted _ _ _ commit failed => exact absurd commit.1 (Int.not_lt.mpr failed)
    | @issued msg saved now u t issues _ commit _ clock =>
      exact ⟨msg, now, issues, clock.2.trans commit.2, rfl⟩
  · have fresh : d < msg.counter := by
      rw [issues.counter, ← can.follows]
      exact lt_add_one issues.below
    exact ⟨fresh, fun _ _ => trivial, fun _ _ _ => trivial⟩

theorem calmStore_handle (computes : tc.Computes sha256 hmac) {req resp : List UInt8} {msg : SimpleMsg}
    (accepted : Accepts tc p req resp msg) (follows : p.material.counter = d) (ok : Measurable p.ranges)
    (steady : SteadyRanges cfg p.ranges) :
    Safe (calmStore cfg rom inTime) Forward (fun _ => True) (proverHandleRequest tc p req resp)
      (fun x t => ∃ result tag,
        result = resultOf (hmac p.material.kAttest.data (measuredBytes rom p.ranges)) msg ∧
        responseTag tc p.material.kAuth result msg = some tag ∧ t = msg.counter ∧
        x = (p.advance msg.counter, reportBytes ⟨result, tag⟩ ++ resp.drop 33, 33)) d := by
  have only : ∀ {m}, Accepts tc p req resp m → m = msg := fun h =>
    Option.some.inj (h.parsed.symm.trans accepted.parsed)
  have digest := ProverLoop.measured_eq computes rom p.material.kAttest ok
  refine safe_post ?_ (safe_handleRequest tc (· = ProverLoop.measured tc rom p.material.kAttest p.ranges) p
    req resp d calmStore_quiet trivial forward_quiet fun m h => ?_)
  · rw [digest]
    intro x t out
    cases out with
    | refused none => exact absurd accepted (none msg)
    | uncommitted _ commit failed => exact absurd commit.1 (Int.not_lt.mpr failed)
    | silent _ _ _ failed =>
      rcases failed with h | ⟨vs, -, h⟩
      · cases h
      · obtain ⟨input, auth, -⟩ := reportAuth_eq _ _ (resultOf_le vs _)
        rw [responseTag, auth, Option.bind_some, hmacCompute_bytes computes _ (by simp; decide)] at h
        cases h
    | @answered m saved u vs tag h commit _ measured tagged =>
      obtain rfl := only h
      obtain rfl := Option.some.inj measured
      exact ⟨_, tag, rfl, tagged, commit.2, rfl⟩
  · refine ⟨?_, fun _ _ => trivial, fun _ t _ => ⟨trivial, steady_measured calmStore_quiet calmStore_reads
      trivial (forward_quiet · t) steady _⟩⟩
    change d < m.counter
    rw [← follows]
    exact h.fresh

theorem calmStore_verify {response : List UInt8} {result : UInt8}
    (open_ : v.ready = true ∧ v.outstanding = true) (genuine : Genuine tc v response result) :
    Safe (calmStore cfg rom v.early) Forward (fun _ => True) (verify tc v response)
      (fun x t => x = (verifierCancel v, verdict result) ∧ t = d) d := by
  refine safe_post ?_ (safe_verify tc v response d calmStore_quiet trivial forward_quiet calmStore_clock)
  intro x t out
  cases out with
  | closed h => rcases h with h | h <;> simp [h] at open_
  | expired _ clock late => exact absurd clock.1 late
  | forged _ _ _ none => exact absurd genuine (none result)
  | overtaken _ _ _ _ clock late => exact absurd clock.1 late
  | accepted _ clock _ h clock' =>
    obtain rfl := genuine_unique h genuine
    exact ⟨rfl, clock'.2.trans clock.2⟩

end

/-- Whatever calm hardware answers, the program returns and `Q` holds of what it leaves. -/
def Calmly {α : Type} (tc : TinyCrypt) (cfg : Config) (inTime : UInt32 → Prop) (n : Node)
    (prog : PlatformProg α) (Q : α → Node → Prop) : Prop :=
  Ends (calmHardware cfg inTime) (n.program tc cfg prog) n.chip fun x t => Q x.1 ⟨x.2, t, true⟩

def Up (tc : TinyCrypt) (cfg : Config) (rom : ℕ → UInt8) (options : Options) (d : UInt32) (n : Node) : Prop :=
  n.on = true ∧ Serves tc cfg rom options d n.statics n.chip

section
variable {tc : TinyCrypt} {sha256 : List UInt8 → Bytes 32} {hmac : List UInt8 → List UInt8 → Bytes 32}
  {cfg : Config} {inTime : UInt32 → Prop} {rom : ℕ → UInt8} {options : Options} {d : UInt32} {n : Node}
  {α : Type}

theorem calmly_up (computes : tc.Computes sha256 hmac) (mapped : Mapped cfg)
    (protected_ : Protected cfg options) (clock : ∃ now, inTime now) (up : Up tc cfg rom options d n)
    {prog : PlatformProg α} {Q : α → UInt32 → Prop} {Q' : α → Node → Prop}
    (safe : Safe (calmStore cfg rom inTime) Forward (fun _ => True) prog Q d)
    (hQ : ∀ a d n, Q a d → Up tc cfg rom options d n → Q' a n) : Calmly tc cfg inTime n prog Q' := by
  obtain ⟨on, serves⟩ := up
  have calms := calms_board computes mapped protected_ serves safe
  rw [Calmly, Node.program, if_pos on]
  refine ends_mono (safe_ends (fun c s _ => CalmHardware.calm_live clock c s) _ _ _ calms) ?_
  rintro ⟨a, st⟩ t ⟨d', q, serves'⟩
  exact hQ a d' ⟨st, t, true⟩ q ⟨rfl, serves'⟩

def blocksOf (cfg : Config) (rom : ℕ → UInt8) : Flash := fun block off => rom (blockAddress cfg block + off)

theorem calmly_boot (computes : tc.Computes sha256 hmac) (mapped : Mapped cfg)
    (protected_ : Protected cfg options)
    (loadable : Loadable tc cfg.toBoard (provisioned cfg rom) d (blocksOf cfg rom))
    (f : Option AuthMaterial → α) :
    Calmly tc cfg (fun _ => True) (.off rom options) (loadAndReport f) fun x n =>
      x = f (some (materialOf (provisioned cfg rom) d)) ∧ Up tc cfg rom options d n := by
  let chip : Chip := { Chip.reset rom options with mpu := guarded cfg false }
  have holds : Holds cfg rom 0 options (blocksOf cfg rom) chip :=
    ⟨⟨rfl, rfl⟩, fun _ _ _ _ => rfl, fun _ _ => rfl, rfl, rfl⟩
  have set_up : Drives cfg (fun _ => True) (memoryProtection cfg >>= fun _ => pure ()) (fun _ t => t = chip)
      (Chip.reset rom options) := drives_memoryProtection rfl trivial ⟨trivial, rfl⟩
  have behind : Calms cfg (fun _ => True) (memoryProtection cfg) (fun _ t => t = chip)
      (Chip.reset rom options) :=
    safe_post (fun _ _ h => h.2) ((safe_bind _ _ _ _).mp (calms_drives set_up))
  have boots : Calms cfg (fun _ => True) ((Node.off rom options).program tc cfg (loadAndReport f))
      (fun x t => x.1 = f (some (materialOf (provisioned cfg rom) d)) ∧ Serves tc cfg rom options d x.2 t)
      (Chip.reset rom options) := by
    refine safe_then behind ?_
    rintro _ _ rfl -
    refine safe_then (calms_load mapped protected_ .zero loadable holds) ?_
    rintro ⟨_, st⟩ t ⟨rfl, serves⟩ -
    obtain ⟨-, -, -, rest⟩ := @calmStore_loads cfg (fun _ => True) rom d _ f
    refine safe_post ?_ (calms_board computes mapped protected_ serves (rest _ d ⟨rfl, rfl⟩))
    rintro x t ⟨d', ⟨same, rfl⟩, serves'⟩
    exact ⟨same, serves'⟩
  refine ends_mono (safe_ends (fun c s _ => CalmHardware.calm_live ⟨0, trivial⟩ c s) _ _ _ boots) ?_
  rintro ⟨a, st⟩ t ⟨rfl, serves⟩
  exact ⟨rfl, rfl, serves⟩

end

structure Parties where
  verifier : Verifier
  vNode : Node
  prover : Prover
  pNode : Node

/-- A request delivered intact, and its response delivered intact and in time. -/
def Parties.Session (tc : TinyCrypt) (cfgV cfgP : Config) (w : Parties) (out resp : List UInt8)
    (Q : List UInt8 → VerifyResult → Parties → Prop) : Prop :=
  Calmly tc cfgV (fun _ => True) w.vNode (verifierChallenge tc w.verifier out) fun x vNode =>
  x.2.2 = SIMPLE_REQUEST_LEN ∧
  Calmly tc cfgP (fun _ => True) w.pNode
    (proverHandleRequest tc w.prover (x.2.1.take SIMPLE_REQUEST_LEN) resp) fun y pNode =>
  y.2.2 = SIMPLE_REPORT_LEN ∧
  Calmly tc cfgV x.1.early vNode (verify tc x.1 (y.2.1.take SIMPLE_REPORT_LEN)) fun z vNode =>
  Q (y.2.1.take SIMPLE_REPORT_LEN) z.2 ⟨z.1, vNode, y.1, pNode⟩

/-- Both boards boot, as `main` does it, and `Q` holds of what they become. -/
def Boots (tc : TinyCrypt) (cfgV cfgP : Config) (romV romP : ℕ → UInt8) (optionsV optionsP : Options)
    (Q : Parties → Prop) : Prop :=
  Calmly tc cfgV (fun _ => True) (.off romV optionsV) (initVerifier .zero allCallbacks AUTH_TIMEOUT_MS)
    fun x vNode => x.2 = true ∧
  Calmly tc cfgP (fun _ => True) (.off romP optionsP)
    (proverInit .zero allCallbacks (Board.ranges cfgP.toBoard)) fun y pNode => y.2 = true ∧
  Q ⟨x.1, vNode, y.1, pNode⟩

def Parties.Concludes (tc : TinyCrypt) (cfgV cfgP : Config) (result : UInt8) (verdict : VerifyResult) :
    ℕ → Parties → Prop
  | 0, _ => True
  | k + 1, w => ∀ out resp : List UInt8, 84 ≤ out.length → 33 ≤ resp.length →
    w.Session tc cfgV cfgP out resp fun response r w' =>
      response.head? = some result ∧ r = verdict ∧ w'.Concludes tc cfgV cfgP result verdict k

/-- What the factory and the option bytes have to provide. -/
structure Joined (cfgV cfgP : Config) (romV romP : ℕ → UInt8) (optionsV optionsP : Options) : Prop where
  mappedV : Mapped cfgV
  mappedP : Mapped cfgP
  protectedV : Protected cfgV optionsV
  protectedP : Protected cfgP optionsP
  steady : SteadyRanges cfgP (Board.ranges cfgP.toBoard)
  measurable : Measurable (Board.ranges cfgP.toBoard)
  shared : bytesAt 32 (provisioned cfgP romP) 16 = bytesAt 32 (provisioned cfgV romV) 16

/-- Nothing is outstanding, and the prover's counter `e` is not ahead of the verifier's. -/
structure InStep (tc : TinyCrypt) (cfgV cfgP : Config) (romV romP : ℕ → UInt8) (optionsV optionsP : Options)
    (d e : UInt32) (w : Parties) : Prop where
  vReady : w.verifier.ready = true
  idle : w.verifier.outstanding = false
  timeout : w.verifier.timeoutMs ≠ 0
  vMaterial : w.verifier.material = materialOf (provisioned cfgV romV) d
  vUp : Up tc cfgV romV optionsV d w.vNode
  pReady : w.prover.ready = true
  ranges : w.prover.ranges = Board.ranges cfgP.toBoard
  pMaterial : w.prover.material = materialOf (provisioned cfgP romP) e
  pUp : Up tc cfgP romP optionsP e w.pNode
  behind : e ≤ d

def digestOf (hmac : List UInt8 → List UInt8 → Bytes 32) (cfgP : Config) (romP : ℕ → UInt8) : Bytes 32 :=
  hmac (bytesAt 32 (provisioned cfgP romP) 48).data (measuredBytes romP (Board.ranges cfgP.toBoard))

def referenceOf (cfgV : Config) (romV : ℕ → UInt8) : Bytes 32 := bytesAt 32 (provisioned cfgV romV) 80

def resultFor (digest reference : Bytes 32) : UInt8 := if digest = reference then 1 else 0

section
variable {tc : TinyCrypt} {sha256 : List UInt8 → Bytes 32} {hmac : List UInt8 → List UInt8 → Bytes 32}
  {cfgV cfgP : Config} {romV romP : ℕ → UInt8} {optionsV optionsP : Options} {d e : UInt32} {w : Parties}

theorem session_mono {out resp : List UInt8} {Q Q' : List UInt8 → VerifyResult → Parties → Prop}
    (hQ : ∀ response r w', Q response r w' → Q' response r w') (h : w.Session tc cfgV cfgP out resp Q) :
    w.Session tc cfgV cfgP out resp Q' :=
  ends_mono h fun _ _ issued => ⟨issued.1, ends_mono issued.2 fun _ _ handled =>
    ⟨handled.1, ends_mono handled.2 fun _ _ => hQ _ _ _⟩⟩

theorem boots_mono {Q Q' : Parties → Prop} (hQ : ∀ w, Q w → Q' w)
    (h : Boots tc cfgV cfgP romV romP optionsV optionsP Q) :
    Boots tc cfgV cfgP romV romP optionsV optionsP Q' :=
  ends_mono h fun _ _ verifier => ⟨verifier.1, ends_mono verifier.2 fun _ _ prover =>
    ⟨prover.1, hQ _ prover.2⟩⟩

theorem can_issue (h : InStep tc cfgV cfgP romV romP optionsV optionsP d e w) (below : d ≠ UINT32_MAX) :
    CanIssue w.verifier d := by
  have counter : w.verifier.material.counter = d := by rw [h.vMaterial]; rfl
  exact ⟨h.vReady, h.idle, counter ▸ below, counter, h.timeout⟩

theorem can_answer (joined : Joined cfgV cfgP romV romP optionsV optionsP)
    (h : InStep tc cfgV cfgP romV romP optionsV optionsP d e w) : CanAnswer w.verifier w.prover e := by
  have counterV : w.verifier.material.counter = d := by rw [h.vMaterial]; rfl
  have counterP : w.prover.material.counter = e := by rw [h.pMaterial]; rfl
  refine ⟨h.pReady, counterP, ?_, ?_, h.ranges ▸ joined.measurable⟩
  · rw [h.vMaterial, h.pMaterial]
    exact joined.shared
  · rw [counterV, counterP]
    exact h.behind

theorem session_concludes (computes : tc.Computes sha256 hmac)
    (joined : Joined cfgV cfgP romV romP optionsV optionsP)
    (h : InStep tc cfgV cfgP romV romP optionsV optionsP d e w) (below : d ≠ UINT32_MAX)
    {out resp : List UInt8} (room : 84 ≤ out.length) (room' : 33 ≤ resp.length) :
    w.Session tc cfgV cfgP out resp fun response r w' =>
      response.head? = some (resultFor (digestOf hmac cfgP romP) (referenceOf cfgV romV)) ∧
      r = sessionVerdict (digestOf hmac cfgP romP) (referenceOf cfgV romV) ∧
      InStep tc cfgV cfgP romV romP optionsV optionsP (d + 1) (d + 1) w' := by
  have clock : ∃ _ : UInt32, True := ⟨0, trivial⟩
  have counterV : w.verifier.material.counter = d := by rw [h.vMaterial]; rfl
  have issue := can_issue h below
  have answer := can_answer joined h
  have steady : SteadyRanges cfgP w.prover.ranges := h.ranges ▸ joined.steady
  refine calmly_up computes joined.mappedV joined.protectedV clock h.vUp
    (calmStore_challenge computes issue room) ?_
  rintro _ d' vNode ⟨msg, now, issues, rfl, rfl⟩ vUp
  have next : msg.counter = d + 1 := by rw [issues.counter, counterV]
  refine ⟨rfl, ?_⟩
  rw [List.take_left' (length_msgBytes msg)]
  refine calmly_up computes joined.mappedP joined.protectedP clock h.pUp
    (calmStore_handle computes (issues_accepts answer issues room') answer.follows answer.measurable steady) ?_
  rintro _ e' pNode ⟨result, tag, same, tagged, rfl, rfl⟩ pUp
  refine ⟨rfl, ?_⟩
  rw [List.take_left' (length_reportBytes _)]
  have small : result ≤ 1 := same ▸ resultOf_le _ msg
  have genuine : Genuine tc (w.verifier.begin msg now) _ result :=
    response_genuine answer.shared small tagged
  have digest : hmac w.prover.material.kAttest.data (measuredBytes romP w.prover.ranges) =
      digestOf hmac cfgP romP := by
    rw [h.ranges, h.pMaterial]
    rfl
  have reference : w.verifier.material.referenceVs = referenceOf cfgV romV := by rw [h.vMaterial]; rfl
  rw [digest] at same
  refine calmly_up computes joined.mappedV joined.protectedV ⟨now, early_begin msg now h.timeout⟩ vUp
    (calmStore_verify ⟨h.vReady, rfl⟩ genuine) ?_
  rintro _ d'' vNode' ⟨rfl, rfl⟩ vUp'
  refine ⟨?_, ?_, ?_⟩
  · rw [same, resultOf, issues.vs, reference]
    rfl
  · change verdict result = _
    rw [same, verdict_result issues, reference]
  · rw [← next]
    exact ⟨h.vReady, rfl, h.timeout, by simp [verifierCancel, Verifier.begin, h.vMaterial, materialOf], vUp',
      h.pReady, h.ranges, by simp [Prover.advance, h.pMaterial, materialOf], pUp, UInt32.le_refl _⟩

theorem sessions_conclude (computes : tc.Computes sha256 hmac)
    (joined : Joined cfgV cfgP romV romP optionsV optionsP) (k : ℕ)
    (h : InStep tc cfgV cfgP romV romP optionsV optionsP d e w) (last : d.toNat + k ≤ 0xFFFFFFFF) :
    w.Concludes tc cfgV cfgP (resultFor (digestOf hmac cfgP romP) (referenceOf cfgV romV))
      (sessionVerdict (digestOf hmac cfgP romP) (referenceOf cfgV romV)) k := by
  induction k generalizing d e w with
  | zero => trivial
  | succ k ih =>
    intro out resp room room'
    have below : d ≠ UINT32_MAX := by
      rintro rfl
      have top : UINT32_MAX.toNat = 0xFFFFFFFF := rfl
      omega
    have next : (d + 1).toNat = d.toNat + 1 := by
      rw [UInt32.toNat_add]
      exact Nat.mod_eq_of_lt (by change d.toNat + 1 < 2 ^ 32; omega)
    refine session_mono ?_ (session_concludes computes joined h below room room')
    rintro response r w' ⟨result, verdict, inStep⟩
    exact ⟨result, verdict, ih inStep (by omega)⟩

theorem boots_in_step (computes : tc.Computes sha256 hmac)
    (joined : Joined cfgV cfgP romV romP optionsV optionsP)
    (loadableV : Loadable tc cfgV.toBoard (provisioned cfgV romV) d (blocksOf cfgV romV))
    (loadableP : Loadable tc cfgP.toBoard (provisioned cfgP romP) e (blocksOf cfgP romP)) (behind : e ≤ d) :
    Boots tc cfgV cfgP romV romP optionsV optionsP (InStep tc cfgV cfgP romV romP optionsV optionsP d e) := by
  rw [Boots, initVerifier_eq (by decide) (by decide)]
  refine ends_mono (calmly_boot computes joined.mappedV joined.protectedV loadableV _) ?_
  rintro ⟨_, _⟩ t ⟨rfl, vUp⟩
  refine ⟨rfl, ?_⟩
  have init : proverInit .zero allCallbacks (Board.ranges cfgP.toBoard) = loadAndReport fun loaded =>
    ((⟨allCallbacks, loaded.getD .zero, Board.ranges cfgP.toBoard, loaded.isSome⟩ : Prover),
      loaded.isSome) := rfl
  rw [init]
  refine ends_mono (calmly_boot computes joined.mappedP joined.protectedP loadableP _) ?_
  rintro ⟨_, _⟩ u ⟨rfl, pUp⟩
  have timeout : AUTH_TIMEOUT_MS ≠ 0 := by decide
  exact ⟨rfl, rfl, rfl, timeout, rfl, vUp, rfl, rfl, rfl, pUp, behind⟩

end

end SimpleAttestation.HardwareSession
