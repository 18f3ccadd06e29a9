import SimpleAttestation.DisplayScreen
import Mathlib.Data.List.Nodup

set_option autoImplicit false

/-!
# What the board tells its user (board.c)

The board announces phases, its own errors and those of its peer. As long as the display works,
the screen is a function of the last announcement, and no two of them look alike.
-/
namespace SimpleAttestation.DisplayNotices
open CallProgram Platform Display DisplayScreen

/-- `board_phase`, `board_error_code` and `lcd_ready`. -/
structure BoardStatus where
  phase : AuthPhase
  errorCode : ℕ
  lcdReady : Bool

inductive Notice where
  | ui (phase : AuthPhase)
  | error (code : ℕ)
  | peer (code : ℕ)
deriving DecidableEq

/-- Of a prover; `loadedCounter` is `board_loaded_counter`. -/
def boardUi (loadedCounter : UInt32) (b : BoardStatus) (phase : AuthPhase) : LcdProg BoardStatus := do
  let errorCode := if phase ≠ .error then AuthError.none.code else b.errorCode
  Prog.ask (LcdCall.writeLed (decide (phase = .pass)))
  let lcdReady ← boardLcdPhase b.lcdReady loadedCounter phase
  pure ⟨phase, errorCode, lcdReady⟩

def boardReportError (b : BoardStatus) (error : ℕ) : LcdProg BoardStatus := do
  let errorCode := if error ≠ 0 then error else AuthError.internal.code
  Prog.ask (LcdCall.writeLed false)
  let lcdReady ← boardLcdError b.lcdReady errorCode
  pure ⟨.error, errorCode, lcdReady⟩

def boardPeerError (b : BoardStatus) (error : ℕ) : LcdProg BoardStatus := do
  let lcdReady ← boardLcdPeerError b.lcdReady error
  pure { b with phase := .error, lcdReady }

def announce (loadedCounter : UInt32) (b : BoardStatus) : Notice → LcdProg BoardStatus
  | .ui phase => boardUi loadedCounter b phase
  | .error code => boardReportError b code
  | .peer code => boardPeerError b code

def announceAll : List (UInt32 × Notice) → BoardStatus → LcdProg BoardStatus
  | [], b => pure b
  | (loadedCounter, n) :: rest, b => do
    let b ← announce loadedCounter b n
    announceAll rest b

/-- From `board_lcd_init` in `board_init` on. -/
def session (notices : List (UInt32 × Notice)) : LcdProg BoardStatus := do
  Prog.ask (LcdCall.writeLed false)
  let lcdReady ← boardLcdInit
  announceAll notices ⟨.ready, AuthError.none.code, lcdReady⟩

structure Line where
  y : ℕ
  text : List Char
  color : UInt16

def Line.over (l : Line) (picture : ℕ → ℕ → ℕ) : ℕ → ℕ → ℕ := written 4 l.y l.text l.color picture

def black (_ _ : ℕ) : ℕ := 0

def reportedCode (error : ℕ) : ℕ := if error ≠ 0 then error else AuthError.internal.code

def title : Notice → List Char
  | .peer _ => PEER_TITLE
  | .ui _ | .error _ => TITLE

def label : Notice → List Char
  | .ui phase => phaseLabel phase
  | .error code => errorLabel (reportedCode code)
  | .peer code => errorLabel code

def color : Notice → UInt16
  | .ui phase => phaseColor phase
  | .error _ | .peer _ => 0xf800

def page (loadedCounter : UInt32) (n : Notice) : ℕ → ℕ → ℕ :=
  let lines := (Line.mk 34 (label n) (color n)).over ((Line.mk 4 (title n) 0xffff).over black)
  if n = .ui .ready then (Line.mk 56 (counterText loadedCounter) 0x07ff).over lines else lines

def screen (notices : List (UInt32 × Notice)) : ℕ → ℕ → ℕ :=
  (notices.getLast?.map fun x => page x.1 x.2).getD black

/-- The errors of the peer leave the LED alone. -/
def lamp (led : Bool) : Notice → Bool
  | .ui phase => decide (phase = .pass)
  | .error _ => false
  | .peer _ => led

section
variable {g : Glass} {b : BoardStatus} {loadedCounter : UInt32} {n : Notice} {picture : ℕ → ℕ → ℕ}

theorem draws_lines {rest : LcdProg Bool} {t s : List Char} {c d : UInt16}
    (next : ∀ u : Glass, u.shows ((Line.mk 34 s d).over ((Line.mk 4 t c).over black)) →
      Draws rest u fun v => v.shows picture) :
    Draws (andThen (fill 0) (andThen (text 4 t c) (andThen (text 34 s d) rest))) g fun v => v.shows picture :=
  draws_andThen draws_fill fun _ empty => draws_andThen (draws_text (by decide) empty) fun _ first =>
    draws_andThen (draws_text (by decide) first) next

theorem draws_error {t : List Char} {error : ℕ} : Draws (lcdError t true error) g fun v =>
    v.shows ((Line.mk 34 (errorLabel error) 0xf800).over ((Line.mk 4 t 0xffff).over black)) :=
  draws_andThen draws_fill fun _ empty => draws_andThen (draws_text (by decide) empty) fun _ first =>
    draws_text (by decide) first

theorem draws_phase {phase : AuthPhase} : Draws (boardLcdPhase true loadedCounter phase) g fun v =>
    v.shows (page loadedCounter (.ui phase)) := by
  refine draws_lines fun u second => ?_
  unfold page
  by_cases ready : phase = .ready
  · rw [if_pos ready, if_pos (congrArg Notice.ui ready)]
    exact draws_text (by decide) second
  · rw [if_neg ready, if_neg fun same => ready (Notice.ui.inj same)]
    exact draws_done second

theorem safe_drawn (draw : Bool → LcdProg Bool) {ready : Bool} {f : Bool → LcdProg BoardStatus}
    (dead : draw false = pure false) (alive : Draws (draw true) g fun t => t.shows picture)
    (kept : ∀ ok, ∃ b', f ok = pure b' ∧ b'.lcdReady = ok) :
    Safe lcdDevice (fun _ _ => True) (fun _ => True) (draw ready >>= f)
      (fun b' t => t.backlight = g.backlight ∧ t.led = g.led ∧
        (b'.lcdReady = true → ready = true ∧ t.shows picture)) g := by
  have drawn : Safe lcdDevice (fun _ _ => True) (fun _ => True) (draw ready) (fun ok t =>
      t.backlight = g.backlight ∧ t.led = g.led ∧ (ok = true → ready = true ∧ t.shows picture)) g := by
    cases ready with
    | false =>
      rw [dead]
      exact ⟨trivial, rfl, rfl, fun no => Bool.noConfusion no⟩
    | true => exact safe_post (fun _ _ x => ⟨x.1, x.2.1, fun ok => ⟨rfl, x.2.2 ok⟩⟩) alive
  refine safe_then drawn fun ok t ht _ => ?_
  obtain ⟨b', same, rfl⟩ := kept ok
  rw [same]
  exact ⟨trivial, ht⟩

theorem safe_announce : Safe lcdDevice (fun _ _ => True) (fun _ => True) (announce loadedCounter b n)
    (fun b' t => t.backlight = g.backlight ∧ t.led = lamp g.led n ∧
      (b'.lcdReady = true → b.lcdReady = true ∧ t.shows (page loadedCounter n))) g := by
  cases n with
  | ui phase =>
    refine ⟨trivial, trivial, fun _ _ => trivial, ?_⟩
    rintro _ _ rfl
    have drawn := @draws_phase { g with led := decide (phase = .pass) } loadedCounter phase
    exact safe_drawn (fun ready => boardLcdPhase ready loadedCounter phase) rfl drawn
      fun ok => ⟨_, rfl, rfl⟩
  | error code =>
    refine ⟨trivial, trivial, fun _ _ => trivial, ?_⟩
    rintro _ _ rfl
    have drawn := @draws_error { g with led := false } TITLE (reportedCode code)
    exact safe_drawn (fun ready => boardLcdError ready (reportedCode code)) rfl drawn
      fun ok => ⟨_, rfl, rfl⟩
  | peer code =>
    have drawn := @draws_error g PEER_TITLE code
    exact safe_drawn (fun ready => boardLcdPeerError ready code) rfl drawn fun ok => ⟨_, rfl, rfl⟩

theorem safe_announceAll (notices : List (UInt32 × Notice)) (before : b.lcdReady = true → g.shows picture) :
    Safe lcdDevice (fun _ _ => True) (fun _ => True) (announceAll notices b)
      (fun b' t => t.backlight = g.backlight ∧ t.led = (notices.map Prod.snd).foldl lamp g.led ∧
        (b'.lcdReady = true → b.lcdReady = true ∧
          t.shows ((notices.getLast?.map fun x => page x.1 x.2).getD picture))) g := by
  induction notices generalizing b g picture with
  | nil => exact ⟨trivial, rfl, rfl, fun ready => ⟨ready, before ready⟩⟩
  | cons x rest ih =>
    refine safe_then safe_announce fun c t ht _ => ?_
    obtain ⟨backlight, led, drawn⟩ := ht
    refine safe_post ?_ (ih fun ready => (drawn ready).2)
    rintro b' u ⟨backlight', led', drawn'⟩
    refine ⟨backlight'.trans backlight, by rw [led', led]; rfl, fun ready => ?_⟩
    obtain ⟨alive, shown⟩ := drawn' ready
    refine ⟨(drawn alive).1, ?_⟩
    rw [List.getLast?_cons]
    cases h : rest.getLast? with
    | none =>
      rw [h] at shown
      exact shown
    | some y =>
      rw [h] at shown
      exact shown

theorem safe_dead (notices : List (UInt32 × Notice)) (dead : b.lcdReady = false) :
    Safe lcdDevice (fun _ _ => True) (fun _ => True) (announceAll notices b)
      (fun b' t => t.panel = g.panel ∧ b'.lcdReady = false) g := by
  induction notices generalizing b g with
  | nil => exact ⟨trivial, rfl, dead⟩
  | cons x rest ih =>
    refine safe_then (P := fun b' t => t.panel = g.panel ∧ b'.lcdReady = false) ?_ fun b' t ht _ => ?_
    · obtain ⟨phase, errorCode, lcdReady⟩ := b
      obtain rfl : lcdReady = false := dead
      obtain ⟨loadedCounter, n⟩ := x
      cases n with
      | ui phase =>
        refine ⟨trivial, trivial, fun _ _ => trivial, ?_⟩
        rintro _ _ rfl
        exact ⟨trivial, rfl, rfl⟩
      | error code =>
        refine ⟨trivial, trivial, fun _ _ => trivial, ?_⟩
        rintro _ _ rfl
        exact ⟨trivial, rfl, rfl⟩
      | peer code => exact ⟨trivial, rfl, rfl⟩
    · exact safe_post (fun _ _ y => ⟨y.1.trans ht.1, y.2⟩) (ih ht.2)

theorem safe_session (notices : List (UInt32 × Notice)) :
    Safe lcdDevice (fun _ _ => True) (fun _ => True) (session notices)
      (fun b' t => t.led = (notices.map Prod.snd).foldl lamp false ∧
        (b'.lcdReady = true → t.backlight = false ∧ t.shows (screen notices))) g := by
  unfold session
  rw [Prog.ask_bind]
  refine ⟨trivial, trivial, fun _ _ => trivial, ?_⟩
  rintro _ _ rfl
  refine safe_then init_screen fun ready t ht _ => ?_
  obtain ⟨backlight, led, empty⟩ := ht
  refine safe_post ?_ (safe_announceAll notices empty)
  rintro b' u ⟨backlight', led', drawn⟩
  refine ⟨by rw [led', led], fun alive => ?_⟩
  obtain ⟨worked, shown⟩ := drawn alive
  obtain rfl : ready = true := worked
  exact ⟨backlight'.trans backlight, shown⟩

end

/-- While the display works its backlight is on and it shows the last announcement, whatever the
    panel held at reset; once it has failed it is left alone. The LED follows what is announced
    either way. -/
theorem screen_follows (notices : List (UInt32 × Notice)) (g t : Glass) (b : BoardStatus)
    (run : Exec lcdDevice (session notices) g b t) :
    (b.lcdReady = true → t.backlight = false ∧ t.shows (screen notices)) ∧
    t.led = (notices.map Prod.snd).foldl lamp false ∧
    ∀ more b' u, b.lcdReady = false → Exec lcdDevice (announceAll more b) t b' u →
      u.panel = t.panel ∧ b'.lcdReady = false := by
  obtain ⟨led, shown⟩ := safe_exec _ _ _ _ _ (safe_session notices) run
  refine ⟨shown, led, fun more b' u dead later => ?_⟩
  have left := safe_exec _ _ _ _ _ (@safe_dead t b more dead) later
  exact left

def lcdEval : (c : LcdCall) → Glass → c.Reply × Glass
  | .writeDc set, s => ((), { s with dc := set })
  | .writeCs set, s => ((), { s with cs := set })
  | .spiTransmit bytes, s => (true, s.send bytes)
  | .writeBacklight set, s => ((), { s with backlight := set })
  | .writeLed on, s => ((), { s with led := on })
  | .periphClockConfig, s | .spiInit, s => (true, s)
  | .delay _, s => ((), s)

theorem lcdEval_answers (c : LcdCall) (s : Glass) :
    lcdDevice.answers c s (lcdEval c s).1 (lcdEval c s).2 := by
  cases c with
  | spiTransmit bytes => exact ⟨bytes.length, fun _ => Nat.le_refl _, by rw [List.take_length]; rfl⟩
  | _ => rfl

section
variable {p q : LcdProg Bool}

def Sure (p : LcdProg Bool) : Prop := ∀ s, (p.eval lcdEval s).1 = true

theorem sure_andThen (hp : Sure p) (hq : Sure q) : Sure (andThen p q) := by
  intro s
  rw [andThen, Prog.eval_bind, hp s]
  exact hq _

theorem sure_true : Sure (pure true) := fun _ => rfl

theorem sure_transfer (data : Bool) (bytes : List UInt8) : Sure (transfer data bytes) := fun _ => rfl

theorem sure_command (cmd : UInt8) (bytes : List UInt8) : Sure (command cmd bytes) := by
  refine sure_andThen (sure_transfer _ _) ?_
  split
  · exact sure_true
  · exact sure_transfer _ _

theorem sure_commands (cmds : List (UInt8 × List UInt8)) : Sure (commands cmds) := by
  induction cmds with
  | nil => exact sure_true
  | cons x cmds ih => exact sure_andThen (sure_command _ _) ih

theorem sure_window (x y w h : ℕ) : Sure (window x y w h) :=
  sure_andThen (sure_command _ _) (sure_andThen (sure_command _ _) (sure_command _ _))

theorem sure_fill (color : UInt16) : Sure (fill color) := by
  refine sure_andThen (sure_window _ _ _ _) ?_
  generalize (80 : ℕ) = n
  induction n with
  | zero => exact sure_true
  | succ n ih => exact sure_andThen (sure_transfer _ _) ih

theorem sure_text (y : ℕ) (s : List Char) (color : UInt16) : Sure (text y s color) := by
  unfold text
  generalize (4 : ℕ) = x
  induction s generalizing x with
  | nil => exact sure_true
  | cons c s ih =>
    unfold textFrom
    split
    · exact sure_andThen (sure_andThen (sure_window _ _ _ _) (sure_transfer _ _)) (ih _)
    · exact sure_true

theorem sure_error (title : List Char) (error : ℕ) : Sure (lcdError title true error) :=
  sure_andThen (sure_fill _) (sure_andThen (sure_text _ _ _) (sure_text _ _ _))

theorem sure_phase (loadedCounter : UInt32) (phase : AuthPhase) :
    Sure (boardLcdPhase true loadedCounter phase) := by
  refine sure_andThen (sure_fill _) (sure_andThen (sure_text _ _ _) (sure_andThen (sure_text _ _ _) ?_))
  split
  · exact sure_text _ _ _
  · exact sure_true

theorem sure_init : Sure boardLcdInit := by
  have drawn := sure_andThen (p := Prog.ask LcdCall.periphClockConfig) (fun _ => rfl)
    (sure_andThen (p := Prog.ask LcdCall.spiInit) (fun _ => rfl) (sure_andThen (sure_command 0x01 [])
    (sure_andThen (p := sleep 150) (fun _ => rfl) (sure_andThen (sure_command 0x11 [])
    (sure_andThen (p := sleep 120) (fun _ => rfl) (sure_andThen (sure_commands initCommands)
    (sure_andThen (sure_commands gammaCommands) (sure_fill 0))))))))
  intro s
  unfold boardLcdInit
  rw [Prog.ask_bind, Prog.eval_call, Prog.ask_bind, Prog.eval_call, Prog.eval_bind, drawn]
  rfl

theorem sure_session (notices : List (UInt32 × Notice)) (g : Glass) :
    ((session notices).eval lcdEval g).1.lcdReady = true := by
  have all : ∀ (b : BoardStatus) (s : Glass), b.lcdReady = true →
      ((announceAll notices b).eval lcdEval s).1.lcdReady = true := by
    induction notices with
    | nil => exact fun b s ready => ready
    | cons x rest ih =>
      intro b s ready
      have first : ((announce x.1 b x.2).eval lcdEval s).1.lcdReady = true := by
        obtain ⟨phase, errorCode, lcdReady⟩ := b
        obtain rfl : lcdReady = true := ready
        cases x.2 with
        | ui phase =>
          rw [announce, boardUi, Prog.ask_bind, Prog.eval_call, Prog.eval_bind, Prog.pure_eq, Prog.eval_done]
          dsimp only
          exact sure_phase x.1 phase _
        | error code =>
          rw [announce, boardReportError, Prog.ask_bind, Prog.eval_call, Prog.eval_bind, Prog.pure_eq,
            Prog.eval_done]
          dsimp only
          exact sure_error TITLE (reportedCode code) _
        | peer code =>
          rw [announce, boardPeerError, Prog.eval_bind, Prog.pure_eq, Prog.eval_done]
          dsimp only
          exact sure_error PEER_TITLE code _
      rw [announceAll, Prog.eval_bind]
      exact ih _ _ first
  unfold session
  rw [Prog.ask_bind, Prog.eval_call, Prog.eval_bind]
  have ready := sure_init (lcdEval (.writeLed false) g).2
  exact all _ _ ready

end

def smallGlass : Glass := ⟨⟨0, [], (0, 0), (0, 0), none, 0, fun _ _ => 0xffff⟩, false, false, false, true⟩

def smallNotices : List (UInt32 × Notice) := [(7, .ui .ready), (7, .error 9)]

theorem screen_follows_small :
    ((session smallNotices).eval lcdEval smallGlass).2.shows (page 7 (.error 9)) ∧
      ((session smallNotices).eval lcdEval smallGlass).2.led = false := by
  obtain ⟨shown, led, -⟩ := screen_follows smallNotices smallGlass _ _
    (eval_exec lcdEval lcdEval_answers (session smallNotices) smallGlass)
  exact ⟨(shown (sure_session _ _)).2, led⟩

end SimpleAttestation.DisplayNotices
