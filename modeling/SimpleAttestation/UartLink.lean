import Mathlib.Logic.Relation
import SimpleAttestation.Runs
import SimpleAttestation.Transport

set_option autoImplicit false

/-!
# The receiving end of the UART (link_read, board.c)

Bytes end on the line at any time, also between two register accesses of one call. A
byte that is lost or comes in wrong is flagged, and the flag is seen before any later byte.
-/
namespace SimpleAttestation.UartLink
open CallProgram Runs Transport

structure Isr where
  ore : Bool
  fe : Bool
  ne : Bool
  pe : Bool
  rxne : Bool

def Isr.faulty (i : Isr) : Bool := i.ore || i.fe || i.ne || i.pe

inductive UartCall where
  | readIsr
  /-- `ICR = ORECF | FECF | NECF | PECF` -/
  | clearErrors
  | flushRxData
  | readRdr

@[reducible] def UartCall.Reply : UartCall → Type
  | readIsr => Isr
  | clearErrors | flushRxData => Unit
  | readRdr => UInt8

abbrev UartProg := Prog UartCall UartCall.Reply

def linkRead : UartProg ReadOutcome := do
  let status ← Prog.ask UartCall.readIsr
  if status.faulty then do
    Prog.ask UartCall.clearErrors
    Prog.ask UartCall.flushRxData
    pure .error
  else if !status.rxne then pure .none
  else do
    let byte ← Prog.ask UartCall.readRdr
    pure (.byte byte)

/-- The registers, and all that has ended on the line. -/
structure Usart where
  isr : Isr
  rdr : UInt8
  line : List UInt8

def Usart.waiting (s : Usart) : List UInt8 := if s.isr.rxne then [s.rdr] else []

inductive Hears (s : Usart) : Usart → Prop where
  | byte (b : UInt8) (empty : s.isr.rxne = false) :
      Hears s ⟨{ s.isr with rxne := true }, b, s.line ++ [b]⟩
  /-- A framing, noise or parity error. What is read need not be what was sent. -/
  | wrong (sent : List UInt8) (read : UInt8) (isr : Isr) (empty : s.isr.rxne = false)
      (flagged : isr.faulty = true) : Hears s ⟨isr, read, s.line ++ sent⟩
  /-- An overrun keeps the byte in `RDR`. -/
  | lost (sent : List UInt8) (isr : Isr) (full : s.isr.rxne = true) (flagged : isr.faulty = true)
      (kept : isr.rxne = true) : Hears s ⟨isr, s.rdr, s.line ++ sent⟩

/-- Any number of bytes end before each access. -/
def uartDevice : Device UartCall UartCall.Reply Usart where
  answers c s r t := ∃ u, Relation.ReflTransGen Hears s u ∧
    match c, r with
    | .readIsr, r => r = u.isr ∧ t = u
    | .clearErrors, _ =>
      t = { u with isr := { u.isr with ore := false, fe := false, ne := false, pe := false } }
    | .flushRxData, _ => t = { u with isr := { u.isr with rxne := false } }
    | .readRdr, r => r = u.rdr ∧ t = { u with isr := { u.isr with rxne := false } }
  tears _ _ _ := False

/-- Behind `front` nothing is on the line but what waits, unless an error is flagged. -/
def Taken (front : List UInt8) (s : Usart) : Prop :=
  ∃ post, s.line = front ++ post ∧ (s.isr.faulty = false → post = s.waiting)

section
variable {s t u : Usart} {front : List UInt8}

theorem taken_hears (h : Taken front s) (hears : Hears s t) : Taken front t := by
  obtain ⟨post, line, clean⟩ := h
  cases hears with
  | byte b empty =>
    refine ⟨post ++ [b], by rw [line, List.append_assoc], fun still => ?_⟩
    rw [clean still, Usart.waiting, empty]
    rfl
  | wrong sent read isr empty flagged =>
    refine ⟨post ++ sent, by rw [line, List.append_assoc], fun still => ?_⟩
    rw [flagged] at still
    cases still
  | lost sent isr full flagged kept =>
    refine ⟨post ++ sent, by rw [line, List.append_assoc], fun still => ?_⟩
    rw [flagged] at still
    cases still

theorem taken_later (h : Taken front s) (later : Relation.ReflTransGen Hears s t) : Taken front t := by
  induction later with
  | refl => exact h
  | tail before last ih => exact taken_hears ih last

theorem full_later (full : s.isr.rxne = true) (later : Relation.ReflTransGen Hears s t) :
    t.isr.rxne = true ∧ t.rdr = s.rdr ∧ (t.isr.faulty = false → t.line = s.line) := by
  induction later with
  | refl => exact ⟨full, rfl, fun _ => rfl⟩
  | tail before last ih =>
    obtain ⟨rxne, rdr, -⟩ := ih
    cases last with
    | byte b empty | wrong sent read isr empty flagged =>
      rw [rxne] at empty
      cases empty
    | lost sent isr full flagged kept =>
      refine ⟨kept, rdr, fun still => ?_⟩
      rw [flagged] at still
      cases still

theorem line_later (later : Relation.ReflTransGen Hears s t) : s.line <+: t.line := by
  induction later with
  | refl => exact List.prefix_rfl
  | tail before last ih => cases last <;> exact ih.trans (List.prefix_append _ _)

def TakenBy (front : List UInt8) (o : ReadOutcome) (t : Usart) : Prop :=
  match o with
  | .error => ∃ more, Taken (front ++ more) t
  | .none => Taken front t
  | .byte b => Taken (front ++ [b]) t

/-- Between two bytes that `link_read` returns without an error, nothing was on the line. -/
theorem safe_linkRead (h : Taken front s) :
    Safe uartDevice (fun _ _ => True) (fun _ => True) linkRead (TakenBy front) s := by
  refine ⟨trivial, trivial, fun _ torn => torn.elim, ?_⟩
  rintro status t ⟨u, heard, rfl, rfl⟩
  have taken := taken_later h heard
  change Safe _ _ _ (if t.isr.faulty then _ else if !t.isr.rxne then _ else _) _ t
  by_cases faulty : t.isr.faulty = true
  · rw [if_pos faulty]
    refine ⟨trivial, trivial, fun _ torn => torn.elim, ?_⟩
    rintro - v ⟨u, heard, rfl⟩
    refine ⟨trivial, trivial, fun _ torn => torn.elim, ?_⟩
    rintro - v ⟨w, heard', rfl⟩
    obtain ⟨post, line, -⟩ := taken
    obtain ⟨more, line'⟩ := line_later heard
    obtain ⟨more', line''⟩ := line_later heard'
    refine ⟨trivial, post ++ more ++ more', [], ?_, fun _ => rfl⟩
    change w.line = _
    rw [← line'', ← line', line]
    simp only [List.append_assoc, List.append_nil]
  · rw [if_neg faulty]
    by_cases full : t.isr.rxne = true
    · rw [if_neg (by simp [full])]
      refine ⟨trivial, trivial, fun _ torn => torn.elim, ?_⟩
      rintro byte v ⟨u, heard', rfl, rfl⟩
      obtain ⟨post, line, clean⟩ := taken
      obtain ⟨-, rdr, still⟩ := full_later full heard'
      obtain ⟨more, line'⟩ := line_later heard'
      have waits : post = [t.rdr] := by
        rw [clean (Bool.not_eq_true _ ▸ faulty), Usart.waiting, if_pos full]
      refine ⟨trivial, more, ?_, fun quiet => ?_⟩
      · change u.line = _
        rw [← line', line, waits, rdr]
      · exact List.append_cancel_left (line'.trans ((still quiet).trans (List.append_nil _).symm))
    · rw [if_pos (by simp [full])]
      exact ⟨trivial, taken⟩

theorem linkRead_takes {o : ReadOutcome} (h : Taken front s) (read : Exec uartDevice linkRead s o t) :
    TakenBy front o t := safe_exec _ _ _ _ _ (safe_linkRead h) read

end

end SimpleAttestation.UartLink
