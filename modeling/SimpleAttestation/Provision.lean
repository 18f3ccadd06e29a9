import SimpleAttestation.ByteStrings
import SimpleAttestation.HexText
import Mathlib.Data.List.Sort
import Mathlib.Data.UInt

set_option autoImplicit false

/-!
# The provisioning tool (provision.py)

`hashlib` and `hmac` are the parameters `sha256` and `hmac`; an exception is its text. The
firmware files, the keys and the counter are arguments of `generate`, and the files it writes
are its result, the JSON ones left out.
-/
namespace SimpleAttestation.Provision
open ByteStrings HexText

def MEASURE_START : ℕ := 0x08000000

def MEASURE_LENGTH : ℕ := 128 * 1024

structure BoardConfig where
  role : ℕ
  keys : ℕ
  journals : List ℕ
  imageLength : ℕ
  ramEnd : ℕ

/-- `BOARDS['h743']` -/
def h743 : BoardConfig := ⟨1, 0x081A0000, [0x081C0000, 0x081E0000], 128 * 1024, 0x20020000⟩

/-- `BOARDS['g431']` -/
def g431 : BoardConfig := ⟨2, 0x0801F800, [0x0801C000, 0x0801C800], 112 * 1024, 0x20008000⟩

def ljust (bytes : List UInt8) (width : ℕ) (fill : UInt8) : List UInt8 :=
  bytes ++ List.replicate (width - bytes.length) fill

/-- `struct.unpack_from('<I', bytes, off)` -/
def unpackLe (bytes : List UInt8) (off : ℕ) : ℕ :=
  (bytes.getD off 0).toNat + 256 * (bytes.getD (off + 1) 0).toNat +
    65536 * (bytes.getD (off + 2) 0).toNat + 16777216 * (bytes.getD (off + 3) 0).toNat

/-- `struct.pack('>I', n)` -/
def pack32 (n : ℕ) : List UInt8 :=
  [UInt8.ofNat (n / 16777216), UInt8.ofNat (n / 65536), UInt8.ofNat (n / 256), UInt8.ofNat n]

/-- `struct.pack('>H', n)` -/
def pack16 (n : ℕ) : List UInt8 := [UInt8.ofNat (n / 256), UInt8.ofNat n]

def padImage (image : List UInt8) (imageLength ramEnd : ℕ) : Except String (List UInt8) := do
  if image.length < 8 ∨ imageLength < image.length then
    throw ("Firmware must contain a vector table and fit in " ++ toString (imageLength / 1024) ++ " KiB")
  let sp := unpackLe image 0
  let reset := unpackLe image 4
  if ¬ (0x20000000 < sp ∧ sp ≤ ramEnd) ∨ sp % 8 ≠ 0 then
    throw "Invalid initial stack pointer"
  if reset % 2 = 0 ∨ ¬ (MEASURE_START ≤ reset - reset % 2 ∧
      reset - reset % 2 < MEASURE_START + image.length) then
    throw "Reset vector must point into this internal-flash image"
  pure (ljust image imageLength 0xFF)

def makeRecord (hmac : List UInt8 → List UInt8 → Bytes 32) (key : List UInt8) (counter : ℤ) :
    Except String (List UInt8) := do
  if ¬ (1 ≤ counter ∧ counter < 0xFFFFFFFF) then
    throw "Initial counter must be between 1 and 0xfffffffe"
  let encoded := pack32 counter.toNat
  let mac := (hmac key ([0x43, 0x54, 0x52, 0x31] ++ encoded)).data.take 24
  pure (encoded ++ pack32 (counter.toNat ^^^ 0xFFFFFFFF) ++ mac)

def materialBody (role : ℕ) (kAuth kAttest reference : List UInt8) (counter : ℕ) : List UInt8 :=
  [0x53, 0x49, 0x4D, 0x50, 0x4C, 0x45, 0x30, 0x31] ++ (pack32 1 ++ pack32 role) ++ kAuth ++ kAttest ++
    reference ++ (pack32 MEASURE_START ++ pack32 MEASURE_LENGTH ++ pack32 counter)

/-- A failed assertion has no text. -/
def makeMaterial (sha256 : List UInt8 → Bytes 32) (role : ℕ) (kAuth kAttest reference : List UInt8)
    (counter : ℕ) : Except String (List UInt8) := do
  let body := materialBody role kAuth kAttest reference counter
  if body.length ≠ 124 then throw ""
  pure (ljust (body ++ (sha256 body).data) 160 0xFF)

def ihexRecord (address : ℕ) (kind : UInt8) (data : List UInt8) : List Char :=
  let raw := [UInt8.ofNat data.length] ++ pack16 address ++ [kind] ++ data
  [':'] ++ toHex (raw ++ [-raw.sum]) ++ ['\n']

structure HexWriter where
  result : List (List Char)
  upper : Option ℕ

def writeChunk (address : ℕ) (data : List UInt8) (w : HexWriter) (offset : ℕ) : HexWriter :=
  let current := address + offset
  let w := if some (current / 65536) ≠ w.upper then
      ⟨w.result ++ [ihexRecord 0 4 (pack16 (current / 65536))], some (current / 65536)⟩
    else w
  { w with result := w.result ++ [ihexRecord (current % 65536) 0 ((data.drop offset).take 16)] }

/-- `range(0, n, 16)` -/
def chunkOffsets (n : ℕ) : List ℕ := (List.range ((n + 15) / 16)).map (16 * ·)

/-- The outer loop's body on a writer and `previous_end`. -/
def writeSegment (s : HexWriter × ℕ) (segment : ℕ × List UInt8) : Except String (HexWriter × ℕ) := do
  let (address, data) := segment
  if address < s.2 then throw "Overlapping image segments"
  pure ((chunkOffsets data.length).foldl (writeChunk address data) s.1, address + data.length)

/-- The order of tuples. -/
def segmentLe (a b : ℕ × List UInt8) : Prop := a.1 < b.1 ∨ a.1 = b.1 ∧ a.2 ≤ b.2

instance : DecidableRel segmentLe := fun a b =>
  inferInstanceAs (Decidable (a.1 < b.1 ∨ a.1 = b.1 ∧ a.2 ≤ b.2))

def ihex (segments : List (ℕ × List UInt8)) : Except String (List Char) := do
  let (w, _) ← (segments.insertionSort segmentLe).foldlM writeSegment (⟨[], none⟩, 0)
  pure (w.result ++ [ihexRecord 0 1 []]).flatten

structure BoardFiles where
  hex : List Char
  provision : List UInt8
  journalA : List UInt8
  journalB : List UInt8
  image : List UInt8

structure Generated where
  reference : List UInt8
  h743 : BoardFiles
  g431 : BoardFiles

/-- One iteration of the loop over the boards. -/
def boardFiles (sha256 : List UInt8 → Bytes 32) (config : BoardConfig) (rawImage image : List UInt8)
    (kAuth kAttest reference seed : List UInt8) (counter : ℕ) : Except String BoardFiles := do
  let material ← makeMaterial sha256 config.role kAuth kAttest reference counter
  let segments := [(MEASURE_START, rawImage), (config.keys, material)] ++
    config.journals.map fun address => (address, seed)
  let hex ← ihex segments
  pure ⟨hex, material, seed, seed, image⟩

def generate (sha256 : List UInt8 → Bytes 32) (hmac : List UInt8 → List UInt8 → Bytes 32)
    (h7 g4 kAuth kAttest : List UInt8) (counter : ℤ) : Except String Generated := do
  let image7 ← padImage h7 h743.imageLength h743.ramEnd
  let image4 ← padImage g4 g431.imageLength g431.ramEnd
  if kAuth.length ≠ 32 ∨ kAttest.length ≠ 32 ∨ kAuth = kAttest then
    throw "Provide two distinct 32-byte keys"
  let seed ← makeRecord hmac kAuth counter
  let reference := (hmac kAttest image7).data
  let files7 ← boardFiles sha256 h743 h7 image7 kAuth kAttest reference seed counter.toNat
  let files4 ← boardFiles sha256 g431 g4 image4 kAuth kAttest reference seed counter.toNat
  pure ⟨reference, files7, files4⟩

end SimpleAttestation.Provision
