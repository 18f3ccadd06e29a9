import SimpleAttestation.Wire
import SimpleAttestation.Sha256

set_option autoImplicit false

/-!
# The checked HMAC and SHA-256 calls (crypto_hmac.c, crypto_sha256.c)

TinyCrypt is not part of the repository. `TinyCrypt` is its interface, every call
failing or not as it likes; `Computes` is what its documentation promises.
-/
namespace SimpleAttestation.Crypto
open ByteStrings Wire

def UINT_MAX : ℕ := 4294967295

/-- `none` stands for every status but `TC_CRYPTO_SUCCESS`. -/
structure TinyCrypt where
  HmacState : Type
  hmacZero : HmacState
  tcHmacSetKey : HmacState → List UInt8 → Option HmacState
  tcHmacInit : HmacState → Option HmacState
  tcHmacUpdate : HmacState → List UInt8 → Option HmacState
  tcHmacFinal : HmacState → Option (Bytes 32)
  ShaState : Type
  tcSha256Init : Option ShaState
  tcSha256Update : ShaState → List UInt8 → Option ShaState
  tcSha256Final : ShaState → Option (Bytes 32)

structure TinyCrypt.Computes (tc : TinyCrypt) (sha256 : List UInt8 → Bytes 32)
    (hmac : List UInt8 → List UInt8 → Bytes 32) : Prop where
  /-- Updates concatenate, and valid arguments succeed. -/
  hmac_updates : ∀ (key : List UInt8) (chunks : List (List UInt8)),
    key ≠ [] → key.length ≤ UINT_MAX → (∀ c ∈ chunks, c ≠ [] ∧ c.length ≤ UINT_MAX) →
    (do let h ← tc.tcHmacSetKey tc.hmacZero key
        let h ← tc.tcHmacInit h
        let h ← chunks.foldlM tc.tcHmacUpdate h
        tc.tcHmacFinal h) = some (hmac key chunks.flatten)
  sha256_update : ∀ data : List UInt8, data.length ≤ UINT_MAX →
    (do let s ← tc.tcSha256Init
        let s ← tc.tcSha256Update s data
        tc.tcSha256Final s) = some (sha256 data)

/-- On failure the output array is zeroed; no caller reads it then. -/
def cryptoHmacCompute (tc : TinyCrypt) (key msg : List UInt8) : Option (Bytes 32) :=
  if key.length = 0 ∨ UINT_MAX < key.length ∨ UINT_MAX < msg.length then none
  else do
    let h ← tc.tcHmacSetKey tc.hmacZero key
    let h ← tc.tcHmacInit h
    let h ← if msg.length ≠ 0 then tc.tcHmacUpdate h msg else some h
    tc.tcHmacFinal h

def cryptoHmacVerify (tc : TinyCrypt) (key msg : List UInt8) (expected : Bytes 32) : Bool :=
  match cryptoHmacCompute tc key msg with
  | none => false
  | some computed => simpleCtCompare computed.data expected.data 32

def cryptoSha256 (tc : TinyCrypt) (data : List UInt8) : Option (Bytes 32) := do
  let s ← tc.tcSha256Init
  let s ← tc.tcSha256Update s data
  tc.tcSha256Final s

theorem hmacVerify_iff (tc : TinyCrypt) (key msg : List UInt8) (expected : Bytes 32) :
    cryptoHmacVerify tc key msg expected = true ↔ cryptoHmacCompute tc key msg = some expected := by
  unfold cryptoHmacVerify
  cases cryptoHmacCompute tc key msg with
  | none => simp
  | some computed =>
    rw [Option.some.injEq]
    exact ctCompare_bytes computed expected

section
variable {tc : TinyCrypt} {sha256 : List UInt8 → Bytes 32}
  {hmac : List UInt8 → List UInt8 → Bytes 32}

theorem hmacCompute_eq (h : tc.Computes sha256 hmac) {key msg : List UInt8}
    (hkey : key ≠ []) (hlen : key.length ≤ UINT_MAX) (hmsg : msg.length ≤ UINT_MAX) :
    cryptoHmacCompute tc key msg = some (hmac key msg) := by
  have pos : key.length ≠ 0 := by simpa using hkey
  have hn : ¬ (key.length = 0 ∨ UINT_MAX < key.length ∨ UINT_MAX < msg.length) := by omega
  rw [cryptoHmacCompute, if_neg hn]
  by_cases hz : msg = []
  · subst hz
    have e := h.hmac_updates key [] hkey hlen (by simp)
    simpa using e
  · have hz' : msg.length ≠ 0 := by simpa using hz
    have e := h.hmac_updates key [msg] hkey hlen (by simp [hz, hmsg])
    simpa [hz'] using e

theorem hmacCompute_bytes (h : tc.Computes sha256 hmac) (key : Bytes 32) {msg : List UInt8}
    (hmsg : msg.length ≤ UINT_MAX) :
    cryptoHmacCompute tc key.data msg = some (hmac key.data msg) := by
  refine hmacCompute_eq h ?_ ?_ hmsg
  · intro hz
    have := key.length_data
    rw [hz] at this
    cases this
  · rw [key.length_data]
    decide

theorem sha256_eq (h : tc.Computes sha256 hmac) {data : List UInt8}
    (hlen : data.length ≤ UINT_MAX) : cryptoSha256 tc data = some (sha256 data) :=
  h.sha256_update data hlen

end

def absorb (h : List UInt8 × List UInt8) (data : List UInt8) : Option (List UInt8 × List UInt8) :=
  some (h.1, h.2 ++ data)

def referenceTinyCrypt : TinyCrypt where
  HmacState := List UInt8 × List UInt8
  hmacZero := ([], [])
  tcHmacSetKey := fun _ key => some (key, [])
  tcHmacInit := fun h => some (h.1, [])
  tcHmacUpdate := absorb
  tcHmacFinal := fun h => some ⟨Sha256.hmac h.1 h.2, rfl⟩
  ShaState := List UInt8
  tcSha256Init := some []
  tcSha256Update := fun s data => some (s ++ data)
  tcSha256Final := fun s => some ⟨Sha256.sha256 s, rfl⟩

theorem absorb_chunks (key msg : List UInt8) (chunks : List (List UInt8)) :
    chunks.foldlM absorb (key, msg) = some (key, msg ++ chunks.flatten) := by
  induction chunks generalizing msg with
  | nil => simp
  | cons c cs ih =>
    rw [List.foldlM_cons]
    change cs.foldlM absorb (key, msg ++ c) = _
    rw [ih, List.flatten_cons, List.append_assoc]

theorem reference_computes : referenceTinyCrypt.Computes
    (fun data => ⟨Sha256.sha256 data, rfl⟩) (fun key msg => ⟨Sha256.hmac key msg, rfl⟩) where
  hmac_updates := by
    intro key chunks _ _ _
    change (chunks.foldlM absorb (key, []) >>= referenceTinyCrypt.tcHmacFinal) = _
    rw [absorb_chunks]
    rfl
  sha256_update := fun _ _ => rfl

end SimpleAttestation.Crypto
