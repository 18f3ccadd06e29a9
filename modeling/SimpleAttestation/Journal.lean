import SimpleAttestation.CallProgram
import SimpleAttestation.Crypto
import Mathlib.Algebra.Order.Monoid.Unbundled.Basic

set_option autoImplicit false

/-!
# The two-block counter journal (auth_journal.c) and the flash under it

The journal's three callbacks are the calls of its programs. `flashDevice` is the
flash: a call that reports success did its job, and `tear` is what a failed or an
interrupted one may leave.
-/
namespace SimpleAttestation.Journal
open ByteStrings Wire Crypto CallProgram

inductive FlashCall where
  | read (block off : ℕ)
  | program (block off : ℕ) (data : Bytes 32)
  | erase (block : ℕ)

@[reducible] def FlashCall.Reply : FlashCall → Type
  | read _ _ => Option (Bytes 32)
  | program _ _ _ | erase _ => Bool

abbrev FlashProg := Prog FlashCall FlashCall.Reply

/-- `callbacks` says that `read`, `program` and `erase` are all set. -/
structure AuthJournal where
  blockSize : ℕ
  callbacks : Bool
  key : Bytes 32
  counter : UInt32
  active : ℕ
  next : ℕ
  ready : Bool
deriving DecidableEq

def AuthJournal.zero : AuthJournal := ⟨0, false, .fill 32 0, 0, 0, 0, false⟩

def erased (record : Bytes 32) : Bool := record.data.all (· == 255)

def recordMac (tc : TinyCrypt) (key : Bytes 32) (counter : UInt32) : Option (Bytes 32) :=
  cryptoHmacCompute tc key.data ([0x43, 0x54, 0x52, 0x31] ++ simplePutU32 counter)

structure Scan where
  journal : AuthJournal
  found : Bool
  gap : Bool
  last : UInt32

/-- The three assignments that move a journal to a new newest record. -/
def AuthJournal.moveTo (j : AuthJournal) (counter : UInt32) (block next : ℕ) : AuthJournal :=
  { j with counter := counter, active := block, next := next }

def Scan.note (s : Scan) (block off : ℕ) (c : UInt32) : Scan :=
  if s.journal.counter ≤ c then
    { s with last := c, journal := s.journal.moveTo c block (off + 32), found := true }
  else { s with last := c }

/-- One iteration of the inner loop of the load; `none` is its `return 0`. -/
def scanSlot (tc : TinyCrypt) (block off : ℕ) (s : Scan) (record : Bytes 32) : Option Scan :=
  if erased record then some { s with gap := true }
  else
    let c := simpleGetU32 record.data
    if s.gap || c == 0 || decide (c ≤ s.last) || simpleGetU32 (record.data.drop 4) != ~~~c then none
    else match recordMac tc s.journal.key c with
      | none => none
      | some mac =>
        if !simpleCtCompare (record.data.drop 8) mac.data 24 then none
        else some (s.note block off c)

/-- The inner loop: `slots` records are left from `off` to the end of the block. -/
def scanBlock (tc : TinyCrypt) (block : ℕ) : ℕ → ℕ → Scan → FlashProg (Scan × Bool)
  | 0, _, s => pure (s, true)
  | slots + 1, off, s => do
    let record ← Prog.ask (FlashCall.read block off)
    match record.bind (scanSlot tc block off s) with
    | none => pure (s, false)
    | some s => scanBlock tc block slots (off + 32) s

def AuthJournal.valid (j : AuthJournal) : Bool :=
  j.callbacks && decide (32 ≤ j.blockSize) && j.blockSize % 32 == 0

def authJournalLoad (tc : TinyCrypt) (j : AuthJournal) (initialCounter : UInt32) :
    FlashProg (AuthJournal × Bool) :=
  if !j.valid then pure (j, false)
  else do
    let j := { j with ready := false }.moveTo initialCounter 0 0
    let (s, scanned) ← scanBlock tc 0 (j.blockSize / 32) 0 ⟨j, false, false, 0⟩
    if !scanned then pure (s.journal, false)
    else do
      let (s, scanned) ← scanBlock tc 1 (j.blockSize / 32) 0 { s with gap := false, last := 0 }
      if !scanned || !s.found then pure (s.journal, false)
      else pure ({ s.journal with ready := true }, true)

def makeRecord (counter : UInt32) (mac : Bytes 32) : Bytes 32 :=
  ⟨simplePutU32 counter ++ simplePutU32 (~~~counter) ++ mac.data.take 24, by simp⟩

/-- The second half of the save: program the slot and read it back. -/
def appendRecord (tc : TinyCrypt) (j : AuthJournal) (counter : UInt32) (block off : ℕ) :
    FlashProg (AuthJournal × Bool) :=
  match recordMac tc j.key counter with
  | none => pure (j, false)
  | some mac => do
    let record := makeRecord counter mac
    let programmed ← Prog.ask (FlashCall.program block off record)
    if !programmed then pure (j, false)
    else do
      let check ← Prog.ask (FlashCall.read block off)
      match check with
      | none => pure (j, false)
      | some check =>
        if !simpleCtCompare record.data check.data 32 then pure (j, false)
        else pure ({ j.moveTo counter block (off + 32) with ready := true }, true)

def authJournalSave (tc : TinyCrypt) (j : AuthJournal) (counter : UInt32) :
    FlashProg (AuthJournal × Bool) :=
  if !j.ready || decide (counter ≤ j.counter) then pure (j, false)
  else
    let unready := { j with ready := false }
    if j.next = j.blockSize then do
      let block := j.active ^^^ 1
      let done ← Prog.ask (FlashCall.erase block)
      if !done then pure (unready, false)
      else appendRecord tc unready counter block 0
    else appendRecord tc unready counter j.active j.next

abbrev Flash := ℕ → ℕ → UInt8

def blank : Bytes 32 := .fill 32 255

def slotAt (f : Flash) (block off : ℕ) : Bytes 32 :=
  ⟨(List.range 32).map fun i => f block (off + i), by simp⟩

def writeSlot (f : Flash) (block off : ℕ) (data : Bytes 32) : Flash := fun b o =>
  if b = block ∧ off ≤ o ∧ o < off + 32 then data.data.getD (o - off) 0 else f b o

def setBlock (blockSize : ℕ) (f : Flash) (block : ℕ) (bytes : ℕ → UInt8) : Flash := fun b o =>
  if b = block ∧ o < blockSize then bytes o else f b o

def eraseBlock (blockSize : ℕ) (f : Flash) (block : ℕ) : Flash :=
  setBlock blockSize f block fun _ => 255

def RaisedBytes (target actual : Bytes 32) : Prop := List.Forall₂ Raised target.data actual.data

/-- A failed or interrupted program leaves every bit of its slot one or as intended, a
    failed or interrupted erase every bit of its block as it was or one. -/
def bitTear (blockSize : ℕ) : FlashCall → Flash → Flash → Prop
  | .read _ _, s, t => t = s
  | .program block off data, s, t => ∃ d, RaisedBytes data d ∧ t = writeSlot s block off d
  | .erase block, s, t =>
    ∃ bytes : ℕ → UInt8, (∀ o, Raised (s block o) (bytes o)) ∧ t = setBlock blockSize s block bytes

/-- Program and erase are each all-or-nothing. -/
def wholeTear (blockSize : ℕ) : FlashCall → Flash → Flash → Prop
  | .read _ _, s, t => t = s
  | .program block off data, s, t => t = s ∨ t = writeSlot s block off data
  | .erase block, s, t => t = s ∨ t = eraseBlock blockSize s block

def flashDevice (blockSize : ℕ) (tear : FlashCall → Flash → Flash → Prop) :
    Device FlashCall FlashCall.Reply Flash where
  answers
    | .read block off, s, r, t => t = s ∧ (r = none ∨ r = some (slotAt s block off))
    | .program block off data, s, r, t =>
      if r then t = writeSlot s block off data else tear (.program block off data) s t
    | .erase block, s, r, t =>
      if r then t = eraseBlock blockSize s block else tear (.erase block) s t
  tears := tear

def flashEval (blockSize : ℕ) : (c : FlashCall) → Flash → c.Reply × Flash
  | .read block off, s => (some (slotAt s block off), s)
  | .program block off data, s => (true, writeSlot s block off data)
  | .erase block, s => (true, eraseBlock blockSize s block)

def slots (blockSize : ℕ) (f : Flash) (block : ℕ) : List (Bytes 32) :=
  (List.range (blockSize / 32)).map fun k => slotAt f block (32 * k)

@[simp] theorem length_slots (blockSize : ℕ) (f : Flash) (block : ℕ) :
    (slots blockSize f block).length = blockSize / 32 := by
  simp [slots]

theorem slots_get (blockSize : ℕ) (f : Flash) (block k : ℕ) (h : k < blockSize / 32) :
    (slots blockSize f block)[k]? = some (slotAt f block (32 * k)) := by
  simp [slots, h]

theorem slotAt_write (f : Flash) (block off : ℕ) (data : Bytes 32) :
    slotAt (writeSlot f block off data) block off = data := by
  ext1
  apply List.ext_getElem
  · simp
  · intro i hi _
    have hi' : i < 32 := by simpa using hi
    simp [slotAt, writeSlot, hi']

theorem slotAt_write_other (f : Flash) (block off b o : ℕ) (data : Bytes 32)
    (h : b ≠ block ∨ o + 32 ≤ off ∨ off + 32 ≤ o) :
    slotAt (writeSlot f block off data) b o = slotAt f b o := by
  ext1
  simp only [slotAt]
  apply List.map_congr_left
  intro i hi
  have hi' := List.mem_range.mp hi
  have out : ¬ (b = block ∧ off ≤ o + i ∧ o + i < off + 32) := by omega
  simp [writeSlot, out]

theorem slots_write (blockSize : ℕ) (f : Flash) (block k : ℕ) (data : Bytes 32) :
    slots blockSize (writeSlot f block (32 * k) data) block =
      (slots blockSize f block).set k data := by
  apply List.ext_getElem
  · simp
  · intro i hi _
    rw [List.getElem_set]
    by_cases hk : k = i
    · subst hk
      simp [slots, slotAt_write]
    · simp [slots, hk, slotAt_write_other f block (32 * k) block (32 * i) data (by omega)]

theorem slots_write_other (blockSize : ℕ) (f : Flash) (block b off : ℕ) (data : Bytes 32)
    (h : b ≠ block) : slots blockSize (writeSlot f block off data) b = slots blockSize f b :=
  List.map_congr_left fun _ _ => slotAt_write_other f block off b _ data (Or.inl h)

theorem slotAt_setBlock_other (blockSize : ℕ) (f : Flash) (block b o : ℕ) (bytes : ℕ → UInt8)
    (h : b ≠ block) : slotAt (setBlock blockSize f block bytes) b o = slotAt f b o := by
  simp [slotAt, setBlock, h]

theorem slots_setBlock_other (blockSize : ℕ) (f : Flash) (block b : ℕ) (bytes : ℕ → UInt8)
    (h : b ≠ block) : slots blockSize (setBlock blockSize f block bytes) b = slots blockSize f b :=
  List.map_congr_left fun _ _ => slotAt_setBlock_other blockSize f block b _ bytes h

theorem slotAt_setBlock (blockSize : ℕ) (f : Flash) (block off : ℕ) (bytes : ℕ → UInt8)
    (h : off + 32 ≤ blockSize) : (slotAt (setBlock blockSize f block bytes) block off).data =
      (List.range 32).map fun i => bytes (off + i) := by
  apply List.map_congr_left
  intro i hi
  have hi' := List.mem_range.mp hi
  have inside : off + i < blockSize := by omega
  simp [setBlock, inside]

theorem slots_erase (blockSize : ℕ) (f : Flash) (block : ℕ) :
    slots blockSize (eraseBlock blockSize f block) block =
      List.replicate (blockSize / 32) blank := by
  rw [List.eq_replicate_iff]
  refine ⟨by simp, fun r hr => ?_⟩
  obtain ⟨k, hk, rfl⟩ := List.mem_map.mp hr
  have hk' := List.mem_range.mp hk
  ext1
  rw [eraseBlock, slotAt_setBlock blockSize f block (32 * k) _ (by omega)]
  rfl

theorem slots_torn_erase (blockSize : ℕ) (f : Flash) (block : ℕ) (bytes : ℕ → UInt8)
    (h : ∀ o, Raised (f block o) (bytes o)) :
    List.Forall₂ RaisedBytes (slots blockSize f block)
      (slots blockSize (setBlock blockSize f block bytes) block) := by
  rw [slots, slots, List.forall₂_map_left_iff, List.forall₂_map_right_iff, List.forall₂_same]
  intro k hk
  have hk' := List.mem_range.mp hk
  rw [RaisedBytes, slotAt_setBlock blockSize f block (32 * k) bytes (by omega)]
  simp only [slotAt, List.forall₂_map_left_iff, List.forall₂_map_right_iff, List.forall₂_same]
  exact fun i _ => h _

theorem erased_iff (r : Bytes 32) : erased r = true ↔ r = blank := by
  have fill : r = blank ↔ r.data = List.replicate 32 255 := Bytes.ext_iff
  rw [fill, List.eq_replicate_iff]
  simp [erased]

end SimpleAttestation.Journal
