import SimpleAttestation.BoardRefinement
import SimpleAttestation.Runs

set_option autoImplicit false

/-!
# A board over any number of power cycles

The firmware on it may be any program over the platform callbacks.
-/
namespace SimpleAttestation.BoardNode
open Crypto CallProgram Runs Platform MemoryProtection Journal Hardware FlashDriver FlashRefinement
open StoreRegister BoardStore BoardProtection BoardRefinement
open Store hiding boardPlatform boardStoreLoad boardStoreSave

/-- `on` from the first call that returned after a reset to the next loss of power. -/
structure Node where
  statics : Statics
  chip : Chip
  on : Bool

def Node.off (flash : ℕ → UInt8) (options : Options) : Node := ⟨.zero, .reset flash options, false⟩

/-- The first program after a reset finds the memory protection set up. -/
def Node.program {α : Type} (tc : TinyCrypt) (cfg : Config) (n : Node) (prog : PlatformProg α) :
    HalProg (α × Statics) :=
  if n.on then prog.interp (boardPlatform tc cfg) n.statics
  else memoryProtection cfg >>= fun _ => prog.interp (boardPlatform tc cfg) .zero

structure Node.Runs {α : Type} (tc : TinyCrypt) (cfg : Config) (n : Node) (prog : PlatformProg α) (a : α)
    (n' : Node) : Prop where
  on : n'.on = true
  exec : Exec (hardware cfg) (n.program tc cfg prog) n.chip (a, n'.statics) n'.chip

def Node.Loses {α : Type} (tc : TinyCrypt) (cfg : Config) (n : Node) (prog : PlatformProg α) (n' : Node) :
    Prop :=
  ∃ t, Cut (hardware cfg) (n.program tc cfg prog) n.chip t ∧ n' = .off t.flash n.chip.options

/-- The durable counter and the mask that a board shows. -/
inductive Shows (tc : TinyCrypt) (cfg : Config) (rom : ℕ → UInt8) (options : Options) :
    UInt32 × ℕ → Node → Prop where
  | up {x : UInt32 × ℕ} {n : Node} (on : n.on = true)
      (stands : Stands tc cfg rom options x n.statics n.chip) : Shows tc cfg rom options x n
  | down {d : UInt32} {flash : ℕ → UInt8} (remains : Remains tc cfg rom d flash) :
      Shows tc cfg rom options (d, 0) (.off flash options)

section
variable {tc : TinyCrypt} {cfg : Config} {rom : ℕ → UInt8} {options : Options} {n n' : Node}
  {x : UInt32 × ℕ} {α : Type} {prog : PlatformProg α}

theorem remains_factory (tc : TinyCrypt) (cfg : Config) (rom : ℕ → UInt8) : ∃ d, Remains tc cfg rom d rom := by
  let f : Flash := fun block off => rom (blockAddress cfg block + off)
  obtain ⟨d, settled⟩ := settled_exists tc cfg.toBoard (provisioned cfg rom) f
  exact ⟨d, f, settled, fun _ _ _ _ => rfl, fun _ _ => rfl⟩

theorem stands_booted {d : UInt32} {flash : ℕ → UInt8} (h : Remains tc cfg rom d flash) :
    Stands tc cfg rom options (d, 0) .zero { Chip.reset flash options with mpu := guarded cfg false } := by
  obtain ⟨f, settled, mirrors, outside⟩ := h
  exact ⟨f, backed_off settled rfl, ⟨rfl, rfl⟩, mirrors, outside, rfl, rfl⟩

theorem drives_node (mapped : Mapped cfg) (G : PlatformCall → UInt32 × ℕ → Prop) (K : UInt32 × ℕ → Prop)
    (Q : α → UInt32 × ℕ → Prop) (h : Shows tc cfg rom options x n)
    (safe : Safe (platformDevice tc cfg rom options) G K prog Q x) :
    Drives cfg (fun flash => ∃ y, K y ∧ Remains tc cfg rom y.1 flash) (n.program tc cfg prog)
      (fun a t => ∃ y, Q a.1 y ∧ Stands tc cfg rom options y a.2 t) n.chip := by
  cases h with
  | up on stands =>
    rw [Node.program, if_pos on]
    exact drives_board mapped prog G K Q stands safe
  | down remains =>
    exact drives_memoryProtection rfl ⟨_, safe_here _ _ _ safe, remains⟩
      (drives_board mapped prog G K Q (stands_booted remains) safe)

theorem shows_options (h : Shows tc cfg rom options x n) : n.chip.options = options := by
  cases h with
  | up on stands =>
    obtain ⟨f, -, holds⟩ := stands
    exact holds.options
  | down => rfl

/-- Every run of a board is one of the durable counter and the mask. -/
theorem node_runs (mapped : Mapped cfg) {a : α} (h : Shows tc cfg rom options x n)
    (run : n.Runs tc cfg prog a n') :
    ∃ y, Exec (platformDevice tc cfg rom options) prog x a y ∧ Shows tc cfg rom options y n' := by
  obtain ⟨y, exec, stands⟩ := safe_exec _ _ _ _ _ (drives_node mapped (fun _ _ => True) (fun _ => True)
    (fun a y => Exec (platformDevice tc cfg rom options) prog x a y) h
    (safe_of_runs _ _ _ (fun _ _ run => run) fun _ _ => trivial)) run.exec
  exact ⟨y, exec, .up run.on stands⟩

theorem node_loses (mapped : Mapped cfg) (h : Shows tc cfg rom options x n)
    (lost : n.Loses tc cfg prog n') : ∃ y, Cut (platformDevice tc cfg rom options) prog x y ∧
      n'.on = false ∧ Shows tc cfg rom options (y.1, 0) n' := by
  obtain ⟨t, cut, rfl⟩ := lost
  have left := safe_cut _ _ _ _ (drives_node mapped (fun _ _ => True)
    (fun y => Cut (platformDevice tc cfg rom options) prog x y) (fun _ _ => True) h
    (safe_of_runs _ _ _ (fun _ _ _ => trivial) fun _ cut => cut)) cut
  obtain ⟨y, cut, remains⟩ := left
  rw [shows_options h]
  exact ⟨y, cut, rfl, .down remains⟩

theorem node_makes (mapped : Mapped cfg) {c : HalCall} {s : Chip} (h : Shows tc cfg rom options x n)
    (made : Makes (hardware cfg) (n.program tc cfg prog) n.chip c s) : Requested cfg c s :=
  safe_makes _ _ _ (drives_node mapped (fun _ _ => True) (fun _ => True) (fun _ _ => True) h
    (safe_of_runs _ _ _ (fun _ _ _ => trivial) fun _ _ => trivial)) made

theorem shows_outside (h : Shows tc cfg rom options x n) : Outside cfg rom n.chip.flash := by
  cases h with
  | up on stands =>
    obtain ⟨f, -, holds⟩ := stands
    exact holds.outside
  | down remains =>
    obtain ⟨f, -, -, outside⟩ := remains
    exact outside

theorem shows_idle (h : Shows tc cfg rom options x n) (on : n.on = true) :
    Idle cfg n.chip ∧ n.chip.primask = x.2 := by
  cases h with
  | up on stands =>
    obtain ⟨f, -, holds⟩ := stands
    exact ⟨holds.idle, holds.mask⟩
  | down => cases on

end

inductive NodeEvent (α : Type) where
  | returned (prog : PlatformProg α) (a : α)
  | lost (prog : PlatformProg α)

inductive NodeStep {α : Type} (tc : TinyCrypt) (cfg : Config) : Node → NodeEvent α → Node → Prop where
  | returned {n n' : Node} {prog : PlatformProg α} {a : α} (h : n.Runs tc cfg prog a n') :
      NodeStep tc cfg n (.returned prog a) n'
  | lost {n n' : Node} {prog : PlatformProg α} (h : n.Loses tc cfg prog n') :
      NodeStep tc cfg n (.lost prog) n'

inductive DeviceStep {α σ : Type} (dev : Device PlatformCall PlatformCall.Reply σ) :
    σ → NodeEvent α → σ → Prop where
  | returned {s t : σ} {prog : PlatformProg α} {a : α} (h : Exec dev prog s a t) :
      DeviceStep dev s (.returned prog a) t
  | lost {s t : σ} {prog : PlatformProg α} (h : Cut dev prog s t) : DeviceStep dev s (.lost prog) t

section
variable {α : Type} {tc : TinyCrypt} {cfg : Config} {rom : ℕ → UInt8} {options : Options}

theorem step_simulates (mapped : Mapped cfg) {d : UInt32} {n n' : Node} {e : NodeEvent α}
    (h : ∃ mask, Shows tc cfg rom options (d, mask) n) (step : NodeStep tc cfg n e n') :
    ∃ d', DeviceStep (storeDevice tc cfg rom options) d e d' ∧
      ∃ mask, Shows tc cfg rom options (d', mask) n' := by
  obtain ⟨mask, shows_⟩ := h
  cases step with
  | returned run =>
    obtain ⟨y, exec, shows'⟩ := node_runs mapped shows_ run
    exact ⟨y.1, .returned (exec_prod _ exec).1, y.2, shows'⟩
  | lost lost =>
    obtain ⟨y, cut, -, shows'⟩ := node_loses mapped shows_ lost
    exact ⟨y.1, .lost (cut_prod _ cut).1, 0, shows'⟩

end

/-- A board is a durable counter, whatever runs on it and wherever it loses power. It writes only
    to its journals, as the controller asks for it, and keeps them closed in between. -/
theorem board_durable {α : Type} (tc : TinyCrypt) (requireProtection : Bool) (cfg : Config)
    (board : cfg = h743Config requireProtection ∨ cfg = g431Config requireProtection)
    (rom : ℕ → UInt8) (options : Options) (es : List (NodeEvent α)) (n : Node)
    (run : Run (NodeStep tc cfg) (.off rom options) es n) :
    (∃ d d', Run (DeviceStep (storeDevice tc cfg rom options)) d es d') ∧
    (∀ a, ¬ cfg.inJournal a → n.chip.flash a = rom a) ∧
    (n.on = true → Idle cfg n.chip) ∧
    ∀ (prog : PlatformProg α) (c : HalCall) (s : Chip),
      Makes (hardware cfg) (n.program tc cfg prog) n.chip c s → Requested cfg c s := by
  have mapped := mapped_boards board
  obtain ⟨d, factory⟩ := remains_factory tc cfg rom
  obtain ⟨d', device, mask, shows_⟩ := @run_simulates _ _ (NodeStep tc cfg) _ _
    (fun d n => ∃ mask, Shows tc cfg rom options (d, mask) n)
    (fun _ _ _ _ h step => step_simulates mapped h step) _ _ d _ ⟨0, .down factory⟩ run
  exact ⟨⟨d, d', device⟩, shows_outside shows_, fun on => (shows_idle shows_ on).1,
    fun prog c s made => node_makes mapped shows_ made⟩

def smallOptions : Options := ⟨0x200000, fun _ => ⟨1, false, fun _ => true, 0, 0⟩, false, false⟩

theorem board_durable_boot : ∃ (loaded : Option AuthMaterial) (n : Node),
    Run (NodeStep referenceTinyCrypt (h743Config true)) (.off (fun _ => 255) smallOptions)
      [.returned (Prog.ask .load) loaded] n ∧ Idle (h743Config true) n.chip ∧
    ∀ c s, Makes (hardware (h743Config true)) (n.program referenceTinyCrypt (h743Config true)
      (Prog.ask (PlatformCall.load))) n.chip c s → Requested (h743Config true) c s := by
  let start : Node := .off (fun _ => 255) smallOptions
  obtain ⟨⟨loaded, statics⟩, chip, exec⟩ := exec_exists (hardware_live (h743Config true))
    (start.program referenceTinyCrypt (h743Config true) (Prog.ask PlatformCall.load)) start.chip
  have run : Run (NodeStep referenceTinyCrypt (h743Config true)) start
      [.returned (Prog.ask .load) loaded] ⟨statics, chip, true⟩ := run_one (.returned ⟨rfl, exec⟩)
  obtain ⟨-, -, idle, requested⟩ := board_durable referenceTinyCrypt true (h743Config true) (Or.inl rfl) _ _
    _ _ run
  exact ⟨loaded, _, run, idle rfl, requested _⟩

end SimpleAttestation.BoardNode
