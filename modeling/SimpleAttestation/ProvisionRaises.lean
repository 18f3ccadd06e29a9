import SimpleAttestation.ProvisionHex

set_option autoImplicit false

/-!
# What the provisioning tool can raise

The functions of provision.py once more, with every exception they can raise: their own checks,
the range checks of `struct.pack` and `bytes`, and the assertion.
-/
namespace SimpleAttestation.ProvisionRaises
open ByteStrings HexText
open Provision (MEASURE_START MEASURE_LENGTH HexWriter chunkOffsets segmentLe ljust)

inductive PyError where
  | valueError (text : String)
  | structError
  | assertionError
  | keyError
  | typeError
  | fileExistsError
  | fileNotFoundError
deriving DecidableEq

/-- `bytes([n])` -/
def byte (n : ℕ) : Except PyError (List UInt8) :=
  if n < 256 then .ok [UInt8.ofNat n] else .error (.valueError "bytes must be in range(0, 256)")

/-- `struct.pack('>H', n)` -/
def packH (n : ℕ) : Except PyError (List UInt8) :=
  if n < 65536 then .ok (Provision.pack16 n) else .error .structError

/-- `struct.pack('>I', n)` -/
def packI (n : ℤ) : Except PyError (List UInt8) :=
  if 0 ≤ n ∧ n < 4294967296 then .ok (Provision.pack32 n.toNat) else .error .structError

def padImage (image : List UInt8) (imageLength ramEnd : ℕ) : Except PyError (List UInt8) :=
  (Provision.padImage image imageLength ramEnd).mapError .valueError

def makeRecord (hmac : List UInt8 → List UInt8 → Bytes 32) (key : List UInt8) (counter : ℤ) :
    Except PyError (List UInt8) := do
  if ¬ (1 ≤ counter ∧ counter < 0xFFFFFFFF) then
    throw (.valueError "Initial counter must be between 1 and 0xfffffffe")
  let encoded ← packI counter
  let mac := (hmac key ([0x43, 0x54, 0x52, 0x31] ++ encoded)).data.take 24
  let inverse ← packI (counter.toNat ^^^ 0xFFFFFFFF : ℕ)
  pure (encoded ++ inverse ++ mac)

def makeMaterial (sha256 : List UInt8 → Bytes 32) (role : ℕ) (kAuth kAttest reference : List UInt8)
    (counter : ℤ) : Except PyError (List UInt8) := do
  let version ← packI 1
  let role ← packI role
  let body := [0x53, 0x49, 0x4D, 0x50, 0x4C, 0x45, 0x30, 0x31] ++ (version ++ role) ++ kAuth ++ kAttest ++
    reference
  let start ← packI MEASURE_START
  let length ← packI MEASURE_LENGTH
  let counter ← packI counter
  let body := body ++ (start ++ length ++ counter)
  if body.length ≠ 124 then throw .assertionError
  pure (ljust (body ++ (sha256 body).data) 160 0xFF)

def ihexRecord (address kind : ℕ) (data : List UInt8) : Except PyError (List Char) := do
  let size ← byte data.length
  let offset ← packH address
  let tag ← byte kind
  let raw := size ++ offset ++ tag ++ data
  pure ([':'] ++ toHex (raw ++ [-raw.sum]) ++ ['\n'])

def writeChunk (address : ℕ) (data : List UInt8) (w : HexWriter) (offset : ℕ) :
    Except PyError HexWriter := do
  let current := address + offset
  let w ← if some (current / 65536) ≠ w.upper then do
      let upper ← packH (current / 65536)
      let line ← ihexRecord 0 4 upper
      pure ⟨w.result ++ [line], some (current / 65536)⟩
    else pure w
  let line ← ihexRecord (current % 65536) 0 ((data.drop offset).take 16)
  pure { w with result := w.result ++ [line] }

def writeSegment (s : HexWriter × ℕ) (segment : ℕ × List UInt8) : Except PyError (HexWriter × ℕ) := do
  let (address, data) := segment
  if address < s.2 then throw (.valueError "Overlapping image segments")
  let w ← (chunkOffsets data.length).foldlM (writeChunk address data) s.1
  pure (w, address + data.length)

def ihex (segments : List (ℕ × List UInt8)) : Except PyError (List Char) := do
  let (w, _) ← (segments.insertionSort segmentLe).foldlM writeSegment (⟨[], none⟩, 0)
  let line ← ihexRecord 0 1 []
  pure (w.result ++ [line]).flatten

theorem packI_ok {n : ℕ} (h : n < 4294967296) : packI n = .ok (Provision.pack32 n) :=
  if_pos ⟨Int.natCast_nonneg n, by omega⟩

theorem ihexRecord_ok {address kind : ℕ} {data : List UInt8} (low : address < 65536)
    (small : kind < 256) (short : data.length < 256) :
    ihexRecord address kind data = .ok (Provision.ihexRecord address (.ofNat kind) data) := by
  rw [ihexRecord, byte, byte, packH, if_pos low, if_pos small, if_pos short]
  rfl

theorem writeChunk_ok {address offset : ℕ} {data : List UInt8} (w : HexWriter)
    (bound : address + offset < 4294967296) :
    writeChunk address data w offset = .ok (Provision.writeChunk address data w offset) := by
  have low : (address + offset) % 65536 < 65536 := Nat.mod_lt _ (by decide)
  have high : (address + offset) / 65536 < 65536 := by omega
  have short : ((data.drop offset).take 16).length < 256 := by
    rw [List.length_take]
    omega
  rw [writeChunk, packH, if_pos high]
  dsimp only
  rw [ihexRecord_ok low (by decide) short]
  by_cases changed : some ((address + offset) / 65536) ≠ w.upper
  · rw [if_pos changed, Provision.writeChunk, if_pos changed]
    have line := @ihexRecord_ok 0 4 (Provision.pack16 ((address + offset) / 65536)) (by decide)
      (by decide) (by simp [Provision.pack16])
    simp only [line, bind, Except.bind]
    rfl
  · rw [if_neg changed, Provision.writeChunk, if_neg changed]
    rfl

theorem writeChunks_ok {address : ℕ} {data : List UInt8} (offsets : List ℕ) (w : HexWriter)
    (bounds : ∀ offset ∈ offsets, address + offset < 4294967296) :
    offsets.foldlM (writeChunk address data) w =
      .ok (offsets.foldl (Provision.writeChunk address data) w) := by
  induction offsets generalizing w with
  | nil => rfl
  | cons offset offsets ih =>
    obtain ⟨bound, bounds⟩ := List.forall_mem_cons.mp bounds
    rw [List.foldlM_cons, writeChunk_ok w bound, List.foldl_cons]
    exact ih _ bounds

theorem writeSegment_eq (s : HexWriter × ℕ) {segment : ℕ × List UInt8}
    (bound : segment.1 + segment.2.length ≤ 4294967296) :
    writeSegment s segment = (Provision.writeSegment s segment).mapError .valueError := by
  obtain ⟨address, data⟩ := segment
  have inside : ∀ offset ∈ chunkOffsets data.length, address + offset < 4294967296 := by
    intro offset h
    obtain ⟨k, hk, rfl⟩ := List.mem_map.mp h
    have below := List.mem_range.mp hk
    change address + data.length ≤ 4294967296 at bound
    omega
  rw [writeSegment, Provision.writeSegment]
  by_cases overlap : address < s.2
  · rw [if_pos overlap, if_pos overlap]
    rfl
  · rw [if_neg overlap, if_neg overlap, writeChunks_ok _ _ inside]
    rfl

theorem segments_eq (segments : List (ℕ × List UInt8)) (s : HexWriter × ℕ)
    (bounds : ∀ seg ∈ segments, seg.1 + seg.2.length ≤ 4294967296) :
    segments.foldlM writeSegment s = (segments.foldlM Provision.writeSegment s).mapError .valueError := by
  induction segments generalizing s with
  | nil => rfl
  | cons segment segments ih =>
    obtain ⟨bound, bounds⟩ := List.forall_mem_cons.mp bounds
    rw [List.foldlM_cons, List.foldlM_cons, writeSegment_eq s bound]
    cases Provision.writeSegment s segment with
    | error e => rfl
    | ok s => exact ih s bounds

theorem ihex_eq {segments : List (ℕ × List UInt8)}
    (bounds : ∀ seg ∈ segments, seg.1 + seg.2.length ≤ 4294967296) :
    ihex segments = (Provision.ihex segments).mapError .valueError := by
  have same : ∀ seg, seg ∈ segments.insertionSort segmentLe ↔ seg ∈ segments :=
    fun seg => (List.perm_insertionSort segmentLe segments).mem_iff
  rw [ihex, Provision.ihex, segments_eq _ _ fun seg h => bounds seg ((same seg).mp h)]
  cases (segments.insertionSort segmentLe).foldlM Provision.writeSegment (⟨[], none⟩, 0) with
  | error e => rfl
  | ok r =>
    have line := @ihexRecord_ok 0 1 [] (by decide) (by decide) (by decide)
    simp only [line, bind, Except.bind, Except.mapError]
    rfl

theorem ok_bind {α β : Type} (a : α) (f : α → Except PyError β) : (Except.ok a >>= f) = f a := rfl

theorem makeRecord_ok (hmac : List UInt8 → List UInt8 → Bytes 32) (key : List UInt8) {counter : ℕ}
    (low : 1 ≤ counter) (high : counter ≤ 0xFFFFFFFE) :
    makeRecord hmac key counter = (Provision.makeRecord hmac key counter).mapError .valueError := by
  have inside : (1 : ℤ) ≤ counter ∧ (counter : ℤ) < 0xFFFFFFFF := by omega
  have inverse : counter ^^^ 0xFFFFFFFF < 4294967296 :=
    @Nat.xor_lt_two_pow counter 0xFFFFFFFF 32 (by omega) (by omega)
  have first := @packI_ok counter (by omega)
  rw [makeRecord, if_neg (not_not.mpr inside), Int.toNat_natCast, first, ok_bind, packI_ok inverse,
    ok_bind, Provision.makeRecord, if_neg (not_not.mpr inside), Int.toNat_natCast]
  rfl

theorem makeMaterial_ok (sha256 : List UInt8 → Bytes 32) {role counter : ℕ}
    (kAuth kAttest reference : List UInt8) (small : role < 4294967296) (below : counter < 4294967296) :
    makeMaterial sha256 role kAuth kAttest reference counter =
      (Provision.makeMaterial sha256 role kAuth kAttest reference counter).mapError
        fun _ => .assertionError := by
  have version := @packI_ok 1 (by decide)
  have start := @packI_ok MEASURE_START (by decide)
  have length := @packI_ok MEASURE_LENGTH (by decide)
  rw [Nat.cast_one] at version
  rw [makeMaterial, version, ok_bind, packI_ok small, ok_bind, start, ok_bind, length, ok_bind,
    packI_ok below, ok_bind, Provision.makeMaterial, Provision.materialBody]
  dsimp only
  generalize [0x53, 0x49, 0x4D, 0x50, 0x4C, 0x45, 0x30, 0x31] ++ (Provision.pack32 1 ++ Provision.pack32 role) ++
    kAuth ++ kAttest ++ reference ++ (Provision.pack32 MEASURE_START ++ Provision.pack32 MEASURE_LENGTH ++
      Provision.pack32 counter) = body
  by_cases short : body.length ≠ 124
  · rw [if_pos short, if_pos short]
    rfl
  · rw [if_neg short, if_neg short]
    rfl

end SimpleAttestation.ProvisionRaises
