import SimpleAttestation.DisplayPanel
import SimpleAttestation.Platform

set_option autoImplicit false

/-!
# The display of the prover (st7735_h7.c)

A transfer may fail and leave any part of its bytes behind. After the first that does, the
driver leaves the display alone.
-/
namespace SimpleAttestation.Display
open CallProgram Platform DisplayPanel DisplayPanel.Panel

/-- What the driver asks of the hardware abstraction layer, and the LED of board.c. -/
inductive LcdCall where
  | writeDc (set : Bool)
  | writeCs (set : Bool)
  | spiTransmit (bytes : List UInt8)
  | writeBacklight (set : Bool)
  | writeLed (on : Bool)
  | periphClockConfig
  | spiInit
  | delay (ms : ℕ)

@[reducible] def LcdCall.Reply : LcdCall → Type
  | spiTransmit _ | periphClockConfig | spiInit => Bool
  | writeDc _ | writeCs _ | writeBacklight _ | writeLed _ | delay _ => Unit

abbrev LcdProg := Prog LcdCall LcdCall.Reply

def AUTH_LCD_X_OFFSET : ℕ := 1

def AUTH_LCD_Y_OFFSET : ℕ := 26

def transfer (data : Bool) (bytes : List UInt8) : LcdProg Bool := do
  Prog.ask (LcdCall.writeDc data)
  Prog.ask (LcdCall.writeCs false)
  let ok ← Prog.ask (LcdCall.spiTransmit bytes)
  Prog.ask (LcdCall.writeCs true)
  pure ok

/-- The `&&` of the source. -/
def andThen (p q : LcdProg Bool) : LcdProg Bool := do
  let ok ← p
  if ok then q else pure false

def command (cmd : UInt8) (bytes : List UInt8) : LcdProg Bool :=
  andThen (transfer false [cmd]) (if bytes.isEmpty then pure true else transfer true bytes)

def window (x y w h : ℕ) : LcdProg Bool :=
  let x := x + AUTH_LCD_X_OFFSET
  let y := y + AUTH_LCD_Y_OFFSET
  andThen (command CASET [0, .ofNat x, 0, .ofNat (x + w - 1)])
    (andThen (command RASET [0, .ofNat y, 0, .ofNat (y + h - 1)]) (command RAMWR []))

def sendRows (row : List UInt8) : ℕ → LcdProg Bool
  | 0 => pure true
  | n + 1 => andThen (transfer true row) (sendRows row n)

def fill (color : UInt16) : LcdProg Bool :=
  andThen (window 0 0 160 80) (sendRows ((List.replicate 160 color).flatMap pixelBytes) 80)

def letters : List (List ℕ) :=
  [[14, 17, 17, 31, 17, 17, 17], [30, 17, 17, 30, 17, 17, 30], [14, 17, 16, 16, 16, 17, 14],
   [30, 17, 17, 17, 17, 17, 30], [31, 16, 16, 30, 16, 16, 31], [31, 16, 16, 30, 16, 16, 16],
   [14, 17, 16, 23, 17, 17, 15], [17, 17, 17, 31, 17, 17, 17], [14, 4, 4, 4, 4, 4, 14],
   [7, 2, 2, 2, 18, 18, 12], [17, 18, 20, 24, 20, 18, 17], [16, 16, 16, 16, 16, 16, 31],
   [17, 27, 21, 21, 17, 17, 17], [17, 25, 21, 19, 17, 17, 17], [14, 17, 17, 17, 17, 17, 14],
   [30, 17, 17, 30, 16, 16, 16], [14, 17, 17, 17, 21, 18, 13], [30, 17, 17, 30, 20, 18, 17],
   [15, 16, 16, 14, 1, 1, 30], [31, 4, 4, 4, 4, 4, 4], [17, 17, 17, 17, 17, 17, 14],
   [17, 17, 17, 17, 17, 10, 4], [17, 17, 17, 21, 21, 21, 10], [17, 17, 10, 4, 10, 17, 17],
   [17, 17, 10, 4, 4, 4, 4], [31, 1, 2, 4, 8, 16, 31]]

def digits : List (List ℕ) :=
  [[14, 17, 19, 21, 25, 17, 14], [4, 12, 4, 4, 4, 4, 14], [14, 17, 1, 2, 4, 8, 31],
   [30, 1, 1, 14, 1, 1, 30], [2, 6, 10, 18, 31, 2, 2], [31, 16, 16, 30, 1, 1, 30],
   [14, 16, 16, 30, 17, 17, 14], [31, 1, 2, 4, 8, 8, 8], [14, 17, 17, 14, 17, 17, 14],
   [14, 17, 17, 15, 1, 1, 14]]

def bits (c : Char) (row : ℕ) : ℕ :=
  if 'A' ≤ c ∧ c ≤ 'Z' then (letters.getD (c.toNat - 'A'.toNat) []).getD row 0
  else if '0' ≤ c ∧ c ≤ '9' then (digits.getD (c.toNat - '0'.toNat) []).getD row 0
  else 0

/-- A glyph is five by seven points of two by two pixels each, and two columns of space. -/
def on (c : Char) (row col : ℕ) : Bool := decide (col < 10) && (bits c (row / 2)).testBit (4 - col / 2)

def pixels (c : Char) (color : UInt16) : List UInt16 :=
  (List.range (14 * 12)).map fun i => if on c (i / 12) (i % 12) then color else 0

/-- The loop of `text`. -/
def textFrom (y : ℕ) (color : UInt16) : ℕ → List Char → LcdProg Bool
  | _, [] => pure true
  | x, c :: s =>
    if x + 12 ≤ 160 then
      andThen (andThen (window x y 12 14) (transfer true ((pixels c color).flatMap pixelBytes)))
        (textFrom y color (x + 12) s)
    else pure true

def text (y : ℕ) (s : List Char) (color : UInt16) : LcdProg Bool := textFrom y color 4 s

def initCommands : List (UInt8 × List UInt8) :=
  [(0xb1, [1, 0x2c, 0x2d]), (0xb2, [1, 0x2c, 0x2d]), (0xb4, [7]), (0xc0, [0xa2, 2, 0x84]), (0xc1, [0xc5]),
   (0xc2, [0x0a, 0]), (0xc3, [0x8a, 0x2a]), (0xc4, [0x8a, 0xee]), (0xc5, [0x0e]), (0x3a, [5]), (0x36, [0xa8])]

def gammaCommands : List (UInt8 × List UInt8) :=
  [(0xb3, [1, 0x2c, 0x2d, 1, 0x2c, 0x2d]),
   (0xe0, [2, 0x1c, 7, 0x12, 0x37, 0x32, 0x29, 0x2d, 0x29, 0x25, 0x2b, 0x39, 0, 1, 3, 0x10]),
   (0xe1, [3, 0x1d, 7, 6, 0x2e, 0x2c, 0x29, 0x2d, 0x2e, 0x2e, 0x37, 0x3f, 0, 0, 2, 0x10]),
   (0x21, []), (0x13, []), (0x29, [])]

def commands : List (UInt8 × List UInt8) → LcdProg Bool
  | [] => pure true
  | (cmd, bytes) :: rest => andThen (command cmd bytes) (commands rest)

def sleep (ms : ℕ) : LcdProg Bool := do
  Prog.ask (LcdCall.delay ms)
  pure true

/-- From `periph` clocks on; the answer is `lcd_ready`. -/
def boardLcdInit : LcdProg Bool := do
  Prog.ask (LcdCall.writeCs true)
  Prog.ask (LcdCall.writeBacklight true)
  let ok ← andThen (Prog.ask LcdCall.periphClockConfig) (andThen (Prog.ask LcdCall.spiInit)
    (andThen (command 0x01 []) (andThen (sleep 150) (andThen (command 0x11 []) (andThen (sleep 120)
    (andThen (commands initCommands) (andThen (commands gammaCommands) (fill 0))))))))
  if !ok then pure false
  else do
    Prog.ask (LcdCall.delay 20)
    Prog.ask (LcdCall.writeBacklight false)
    pure true

def phaseLabel : AuthPhase → List Char
  | .ready => "READY".toList
  | .request => "REQUEST".toList
  | .measuring => "MEASURING".toList
  | .pass => "PASS".toList
  | .mismatch => "MISMATCH".toList
  | .rejected => "REJECTED".toList
  | .timeout => "TIMEOUT".toList
  | .error => "ERROR".toList

def phaseColor : AuthPhase → UInt16
  | .pass => 0x07e0
  | .mismatch | .rejected | .timeout | .error => 0xf800
  | .ready | .request | .measuring => 0xffe0

def errorLabels : List (List Char) :=
  ["E19 INTERNAL", "E01 CLOCK", "E02 UART INIT", "E03 RNG", "E04 LCD", "E05 PROTECT", "E06 PROVISION",
   "E07 JOURNAL", "E08 UART RX", "E09 FRAME", "E10 TYPE", "E11 LENGTH", "E12 STALE", "E13 AUTH",
   "E14 COUNTER", "E15 MEASURE", "E16 RESPONSE", "E17 CHALLENGE", "E18 UART TX", "E19 INTERNAL",
   "E20 FLASH SIZE", "E21 BANK MAP", "E22 RDP", "E23 CODE WRP", "E24 KEY WRP", "E25 FLASH OPEN",
   "E26 FLASH WRP", "E27 FLASH ALIGN", "E28 FLASH WRITE", "E29 FLASH CHECK", "E30 FLASH ERASE",
   "E31 WRITE SIZE", "E32 FLASH SEQ"].map String.toList

def errorLabel (error : ℕ) : List Char :=
  errorLabels.getD (if errorLabels.length ≤ error then AuthError.internal.code else error) []

def hexDigit (nibble : ℕ) : Char :=
  Char.ofNat (if nibble < 10 then '0'.toNat + nibble else 'A'.toNat + nibble - 10)

def counterText (value : UInt32) : List Char :=
  'C' :: (List.range 8).map fun i => hexDigit (value.toNat >>> (28 - 4 * i) % 16)

def TITLE : List Char := "SIMPLE PROVER".toList

def PEER_TITLE : List Char := "VERIFIER".toList

/-- `loadedCounter` is `board_loaded_counter`, and the answer the new `lcd_ready`. -/
def boardLcdPhase (lcdReady : Bool) (loadedCounter : UInt32) (phase : AuthPhase) : LcdProg Bool :=
  if !lcdReady then pure lcdReady
  else andThen (fill 0) (andThen (text 4 TITLE 0xffff) (andThen (text 34 (phaseLabel phase) (phaseColor phase))
    (if phase = .ready then text 56 (counterText loadedCounter) 0x07ff else pure true)))

def lcdError (title : List Char) (lcdReady : Bool) (error : ℕ) : LcdProg Bool :=
  if !lcdReady then pure lcdReady
  else andThen (fill 0) (andThen (text 4 title 0xffff) (text 34 (errorLabel error) 0xf800))

def boardLcdError : Bool → ℕ → LcdProg Bool := lcdError TITLE

def boardLcdPeerError : Bool → ℕ → LcdProg Bool := lcdError PEER_TITLE

end SimpleAttestation.Display
