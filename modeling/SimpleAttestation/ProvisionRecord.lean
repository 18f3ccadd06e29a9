import SimpleAttestation.Provision
import SimpleAttestation.Store

set_option autoImplicit false

/-!
# The records of the tool as the firmware reads them
-/
namespace SimpleAttestation.ProvisionRecord
open ByteStrings Wire Crypto Platform Journal JournalScan Store

theorem pack32_put (n : ℕ) : Provision.pack32 n = simplePutU32 (UInt32.ofNat n) := by
  have byte : ∀ (k : UInt32) (m : ℕ), k.toNat < 32 →
      n % 4294967296 / 2 ^ k.toNat % 256 = m % 256 →
      UInt8.ofNat m = (UInt32.ofNat n >>> k).toUInt8 := by
    intro k m hk same
    apply UInt8.toNat_inj.mp
    rw [UInt8.toNat_ofNat', UInt32.toNat_toUInt8, UInt32.toNat_shiftRight, UInt32.toNat_ofNat',
      Nat.mod_eq_of_lt hk, Nat.shiftRight_eq_div_pow]
    exact same.symm
  have low : UInt8.ofNat n = (UInt32.ofNat n).toUInt8 := by
    apply UInt8.toNat_inj.mp
    rw [UInt8.toNat_ofNat', UInt32.toNat_toUInt8, UInt32.toNat_ofNat']
    omega
  rw [Provision.pack32, simplePutU32, low, byte 24 _ (by decide), byte 16 _ (by decide),
    byte 8 _ (by decide)]
  · change n % 4294967296 / 2 ^ 8 % 256 = _
    omega
  · change n % 4294967296 / 2 ^ 16 % 256 = _
    omega
  · change n % 4294967296 / 2 ^ 24 % 256 = _
    omega

section
variable {tc : TinyCrypt} {sha256 : List UInt8 → Bytes 32} {hmac : List UInt8 → List UInt8 → Bytes 32}

/-- `make_record` makes the record that `auth_journal_save` would. -/
theorem makeRecord_seed (computes : tc.Computes sha256 hmac) (key : Bytes 32) {counter : ℕ}
    (low : 1 ≤ counter) (high : counter ≤ 0xFFFFFFFE) :
    ∃ r, recordOf tc key (UInt32.ofNat counter) = some r ∧
      Provision.makeRecord hmac key.data counter = .ok r.data := by
  have bounds : (1 : ℤ) ≤ counter ∧ (counter : ℤ) < 0xFFFFFFFF := by omega
  have complement : UInt32.ofNat (counter ^^^ 0xFFFFFFFF) = ~~~UInt32.ofNat counter := by
    rw [UInt32.ofNat_xor]
    exact UInt32.xor_neg_one
  have mac := @hmacCompute_bytes _ _ _ computes key
    ([0x43, 0x54, 0x52, 0x31] ++ simplePutU32 (UInt32.ofNat counter)) (by simp [UINT_MAX])
  refine ⟨Journal.makeRecord (UInt32.ofNat counter)
    (hmac key.data ([0x43, 0x54, 0x52, 0x31] ++ simplePutU32 (UInt32.ofNat counter))), ?_, ?_⟩
  · rw [recordOf, recordMac, mac]
    rfl
  · rw [Provision.makeRecord, if_neg (not_not.mpr bounds), Int.toNat_natCast, pack32_put, pack32_put,
      complement]
    rfl

def recordBytes (sha256 : List UInt8 → Bytes 32) (role : ℕ) (kAuth kAttest reference : Bytes 32)
    (counter : ℕ) : List UInt8 :=
  let body := Provision.materialBody role kAuth.data kAttest.data reference.data counter
  Provision.ljust (body ++ (sha256 body).data) 160 0xFF

variable {role counter : ℕ} {kAuth kAttest reference : Bytes 32}

theorem materialBody_put (role : ℕ) (kAuth kAttest reference : Bytes 32) (counter : ℕ) :
    Provision.materialBody role kAuth.data kAttest.data reference.data counter =
      magic ++ (simplePutU32 1 ++ (simplePutU32 (UInt32.ofNat role) ++ (kAuth.data ++ (kAttest.data ++
        (reference.data ++ (simplePutU32 0x08000000 ++ (simplePutU32 0x20000 ++
          simplePutU32 (UInt32.ofNat counter)))))))) := by
  simp only [Provision.materialBody, pack32_put, magic, List.append_assoc]
  rfl

theorem length_materialBody (role : ℕ) (kAuth kAttest reference : Bytes 32) (counter : ℕ) :
    (Provision.materialBody role kAuth.data kAttest.data reference.data counter).length = 124 := by
  simp [materialBody_put, magic]

theorem makeMaterial_record (sha256 : List UInt8 → Bytes 32) (role : ℕ) (kAuth kAttest reference : Bytes 32)
    (counter : ℕ) : Provision.makeMaterial sha256 role kAuth.data kAttest.data reference.data counter =
      .ok (recordBytes sha256 role kAuth kAttest reference counter) := by
  rw [Provision.makeMaterial]
  exact if_neg (not_not.mpr (length_materialBody role kAuth kAttest reference counter))

theorem recordBytes_eq : recordBytes sha256 role kAuth kAttest reference counter =
    magic ++ (simplePutU32 1 ++ (simplePutU32 (UInt32.ofNat role) ++ (kAuth.data ++ (kAttest.data ++
      (reference.data ++ (simplePutU32 0x08000000 ++ (simplePutU32 0x20000 ++
        (simplePutU32 (UInt32.ofNat counter) ++ ((sha256 (Provision.materialBody role kAuth.data
          kAttest.data reference.data counter)).data ++ List.replicate 4 0xFF))))))))) := by
  rw [recordBytes, Provision.ljust, List.length_append, length_materialBody,
    Bytes.length_data]
  generalize sha256 _ = digest
  rw [materialBody_put]
  simp only [List.append_assoc]

theorem length_recordBytes :
    (recordBytes sha256 role kAuth kAttest reference counter).length = 160 := by
  simp [recordBytes_eq, magic]

theorem drop_put (v : UInt32) {n : ℕ} (h : 4 ≤ n) : (simplePutU32 v).drop n = [] :=
  List.drop_of_length_le h

theorem drop_bytes (b : Bytes 32) {n : ℕ} (h : 32 ≤ n) : b.data.drop n = [] :=
  List.drop_of_length_le (b.length_data.trans_le h)

theorem record_initial : initialOf (recordBytes sha256 role kAuth kAttest reference counter) =
    UInt32.ofNat counter := by
  simp [initialOf, recordBytes_eq, magic, List.drop_append, drop_put, drop_bytes]

theorem record_material (c : UInt32) :
    materialOf (recordBytes sha256 role kAuth kAttest reference counter) c =
      ⟨kAuth, kAttest, reference, c⟩ := by
  have field : ∀ (b : Bytes 32) (off : ℕ), off + 32 ≤ 160 →
      ((recordBytes sha256 role kAuth kAttest reference counter).drop off).take 32 = b.data →
      bytesAt 32 (recordBytes sha256 role kAuth kAttest reference counter) off = b := by
    intro b off inside there
    ext1
    rw [bytesAt_data (by rw [length_recordBytes]; exact inside), there]
  rw [materialOf, field kAuth 16 (by omega) ?_, field kAttest 48 (by omega) ?_,
    field reference 80 (by omega) ?_]
  all_goals simp [recordBytes_eq, magic, List.drop_append, drop_put, drop_bytes]

theorem take_bytes (b : Bytes 32) : b.data.take 32 = b.data :=
  List.take_of_length_le b.length_data.le

/-- `make_material` passes every check of `board_store_load`. -/
theorem record_valid (computes : tc.Computes sha256 hmac) {board : Board}
    (hrole : UInt32.ofNat role = board.roleId) (start : board.measureStart = 0x08000000)
    (length : board.measureLength = 0x20000) (pos : UInt32.ofNat counter ≠ 0) :
    recordValid tc board (recordBytes sha256 role kAuth kAttest reference counter) = true := by
  have body : (recordBytes sha256 role kAuth kAttest reference counter).take 124 =
      Provision.materialBody role kAuth.data kAttest.data reference.data counter := by
    rw [recordBytes, Provision.ljust, List.append_assoc]
    exact List.take_left' (length_materialBody role kAuth kAttest reference counter)
  have digest : cryptoSha256 tc (Provision.materialBody role kAuth.data kAttest.data reference.data
      counter) = some (sha256 (Provision.materialBody role kAuth.data kAttest.data reference.data
        counter)) := by
    refine sha256_eq computes ?_
    rw [length_materialBody]
    decide
  have initial := @record_initial sha256 role counter kAuth kAttest reference
  rw [initialOf] at initial
  have compared : simpleCtCompare (sha256 (Provision.materialBody role kAuth.data kAttest.data
      reference.data counter)).data
      ((recordBytes sha256 role kAuth kAttest reference counter).drop 124) 32 = true := by
    rw [ctCompare_iff _ _ _ (by simp) (by rw [List.length_drop, length_recordBytes]; omega)]
    simp [recordBytes_eq, magic, List.drop_append, drop_put, drop_bytes, take_bytes]
  rw [recordValid, body, digest, initial, start, length, ← hrole]
  simp only [compared, Bool.and_true, Bool.and_eq_true, beq_iff_eq, bne_iff_ne]
  refine ⟨⟨⟨⟨⟨?_, ?_⟩, ?_⟩, ?_⟩, ?_⟩, pos⟩
  · simp [recordBytes_eq, magic]
  all_goals simp [recordBytes_eq, magic, List.drop_append, drop_put, drop_bytes]

end

end SimpleAttestation.ProvisionRecord
