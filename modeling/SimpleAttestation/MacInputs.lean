import SimpleAttestation.Journal

set_option autoImplicit false

/-!
# One key, three uses

Requests, responses and journal records are authenticated under the same key, and nothing
but their layout keeps a tag of one from being a tag of another.
-/
namespace SimpleAttestation.MacInputs
open ByteStrings Wire Crypto Journal

/-- An encoder and a decoder of payloads of `len` bytes: what is decoded is what was encoded, and
    exactly the payloads that are `wellFormed` are encodings, each of one value. -/
structure Exact {α : Type} (len : ℕ) (valid : α → Prop) (wellFormed : List UInt8 → Prop)
    (serialize : α → List UInt8 → List UInt8 × ℕ) (parse : List UInt8 → Option α) : Prop where
  written : ∀ a out, valid a → len ≤ out.length → (serialize a out).2 = len
  parsed : ∀ a out, valid a → len ≤ out.length → parse ((serialize a out).1.take len) = some a
  accepts : ∀ buf, (∃ a, parse buf = some a) ↔ buf.length = len ∧ wellFormed buf
  serialized : ∀ buf a out, parse buf = some a → len ≤ out.length →
    (serialize a out).2 = len ∧ (serialize a out).1.take len = buf

theorem exact_of_bytes {α : Type} {len : ℕ} {valid : α → Prop} {wellFormed : List UInt8 → Prop}
    {serialize : α → List UInt8 → List UInt8 × ℕ} {parse : List UInt8 → Option α}
    (bytes : α → List UInt8) (length : ∀ a, (bytes a).length = len)
    (serialize_eq : ∀ a out, valid a → len ≤ out.length →
      serialize a out = (bytes a ++ out.drop len, len))
    (parse_eq : ∀ buf a, parse buf = some a ↔ buf = bytes a ∧ valid a)
    (accepts : ∀ buf, (∃ a, parse buf = some a) ↔ buf.length = len ∧ wellFormed buf) :
    Exact len valid wellFormed serialize parse := by
  have front : ∀ a out, valid a → len ≤ out.length → (serialize a out).1.take len = bytes a := by
    intro a out ok room
    rw [serialize_eq a out ok room]
    exact List.take_left' (length a)
  refine ⟨fun a out ok room => by rw [serialize_eq a out ok room], fun a out ok room => ?_, accepts,
    fun buf a out parsed room => ?_⟩
  · rw [front a out ok room]
    exact (parse_eq _ a).mpr ⟨rfl, ok⟩
  · obtain ⟨rfl, ok⟩ := (parse_eq buf a).mp parsed
    exact ⟨by rw [serialize_eq a out ok room], front a out ok room⟩

theorem msg_exact : Exact SIMPLE_REQUEST_LEN (fun _ => True) (fun _ => True) simpleSerializeMsg
    simpleParseMsg := by
  refine exact_of_bytes msgBytes length_msgBytes (fun m out _ room => serializeMsg_eq m room)
    (fun buf m => by rw [parseMsg_eq_some, and_true]) fun buf => ?_
  rw [and_true]
  constructor
  · rintro ⟨m, parsed⟩
    rw [parseMsg_eq_some.mp parsed]
    exact length_msgBytes m
  · intro len
    exact ⟨_, if_neg (not_not.mpr len)⟩

theorem report_exact : Exact SIMPLE_REPORT_LEN (fun r : SimpleReport => r.result ≤ 1)
    (fun buf => buf.getD 0 0 ≤ 1) simpleSerializeReport simpleParseReport := by
  refine exact_of_bytes reportBytes length_reportBytes
    (fun r out small room => serializeReport_eq r room small) (fun buf r => parseReport_eq_some)
    fun buf => ?_
  constructor
  · rintro ⟨r, parsed⟩
    obtain ⟨rfl, small⟩ := parseReport_eq_some.mp parsed
    exact ⟨length_reportBytes r, small⟩
  · rintro ⟨len, small⟩
    refine ⟨_, if_neg ?_⟩
    rw [not_or, not_not]
    exact ⟨len, UInt8.not_lt.mpr small⟩

def recordInput (counter : UInt32) : List UInt8 :=
  [0x43, 0x54, 0x52, 0x31] ++ simplePutU32 counter

inductive Purpose where
  | request (counter : UInt32) (vs : Bytes 32) (nonce : Bytes 16)
  | response (result : UInt8) (counter : UInt32) (nonce : Bytes 16)
  | record (counter : UInt32)
deriving DecidableEq

inductive Authenticates : Purpose → List UInt8 → Prop where
  | request (m : SimpleMsg) (out : List UInt8) (room : SIMPLE_REQUEST_LEN ≤ out.length) :
      Authenticates (.request m.counter m.vs m.nonce)
        ((simpleSerializeMsg m out).1.take SIMPLE_MSG_LEN)
  | response {result : UInt8} {counter : UInt32} {nonce : Bytes 16}
      {input : Bytes SIMPLE_REPORT_AUTH_LEN}
      (built : simpleReportAuth result counter nonce = some input) :
      Authenticates (.response result counter nonce) input.data
  | record (counter : UInt32) : Authenticates (.record counter) (recordInput counter)

def Purpose.Valid : Purpose → Prop
  | response result _ _ => result ≤ 1
  | _ => True

def Purpose.bytes : Purpose → List UInt8
  | request counter vs nonce => simplePutU32 counter ++ vs.data ++ nonce.data
  | response result counter nonce => result :: (simplePutU32 counter ++ nonce.data)
  | record counter => recordInput counter

section
variable {p q : Purpose} {x y : List UInt8}

theorem authenticates_bytes (h : Authenticates p x) : x = p.bytes := by
  cases h with
  | request m out room =>
    rw [serializeMsg_eq m room]
    change (msgBytes m ++ _).take 52 = _
    rw [List.take_append_of_le_length (by simp), take_msgBytes]
    rfl
  | response built => exact (reportAuth_eq_some.mp built).2
  | record counter => rfl

theorem authenticates_exists : (∃ x, Authenticates p x) ↔ p.Valid := by
  cases p with
  | request counter vs nonce =>
    exact ⟨fun _ => trivial, fun _ => ⟨_, .request ⟨counter, vs, nonce, .fill 32 0⟩
      (List.replicate SIMPLE_REQUEST_LEN 0) (by simp)⟩⟩
  | response result counter nonce =>
    constructor
    · rintro ⟨x, h⟩
      cases h with
      | response built => exact (reportAuth_eq_some.mp built).1
    · intro small
      obtain ⟨input, built, -⟩ := reportAuth_eq counter nonce small
      exact ⟨_, .response built⟩
  | record counter => exact ⟨fun _ => trivial, fun _ => ⟨_, .record counter⟩⟩

theorem length_bytes (p : Purpose) : p.bytes.length =
    match p with
    | .request _ _ _ => 52
    | .response _ _ _ => 21
    | .record _ => 8 := by
  cases p <;> simp [Purpose.bytes, recordInput]

/-- The lengths tell the uses apart, and the offsets the fields of one. -/
theorem bytes_injective (same : p.bytes = q.bytes) : p = q := by
  have len := congrArg List.length same
  rw [length_bytes, length_bytes] at len
  cases p with
  | request counter vs nonce =>
    cases q with
    | request counter' vs' nonce' =>
      obtain ⟨rfl, rfl, rfl⟩ := @msgAuth_injective ⟨counter, vs, nonce, .fill 32 0⟩
        ⟨counter', vs', nonce', .fill 32 0⟩ same
      rfl
    | response => cases len
    | record => cases len
  | response result counter nonce =>
    cases q with
    | request => cases len
    | response result' counter' nonce' =>
      obtain ⟨hresult, rest⟩ := List.cons.inj same
      obtain ⟨hcounter, hnonce⟩ := List.append_inj rest rfl
      rw [hresult, put_injective hcounter, Bytes.ext hnonce]
    | record => cases len
  | record counter =>
    cases q with
    | request => cases len
    | response => cases len
    | record counter' => rw [put_injective (List.append_cancel_left same)]

theorem authenticates_unique (hx : Authenticates p x) (hy : Authenticates q y) : x = y ↔ p = q := by
  rw [authenticates_bytes hx, authenticates_bytes hy]
  exact ⟨bytes_injective, congrArg Purpose.bytes⟩

theorem parsed_authenticates {buf : List UInt8} {m : SimpleMsg}
    (parsed : simpleParseMsg buf = some m) :
    Authenticates (.request m.counter m.vs m.nonce) (buf.take SIMPLE_MSG_LEN) := by
  have room : SIMPLE_REQUEST_LEN ≤ (List.replicate SIMPLE_REQUEST_LEN (0 : UInt8)).length := by simp
  have written := Authenticates.request m _ room
  have front := (msg_exact.serialized buf m _ parsed room).2
  have shorter : ∀ l : List UInt8, l.take SIMPLE_MSG_LEN =
      (l.take SIMPLE_REQUEST_LEN).take SIMPLE_MSG_LEN := by
    intro l
    rw [List.take_take]
    rfl
  rwa [shorter, front] at written

end

/-- Every payload is decoded as it was encoded, and every authenticated string says what it is for
    and what it says. -/
theorem encodings_exact :
    Exact SIMPLE_REQUEST_LEN (fun _ => True) (fun _ => True) simpleSerializeMsg simpleParseMsg ∧
    Exact SIMPLE_REPORT_LEN (fun r : SimpleReport => r.result ≤ 1) (fun buf => buf.getD 0 0 ≤ 1)
      simpleSerializeReport simpleParseReport ∧
    (∀ tc key counter,
      recordMac tc key counter = cryptoHmacCompute tc key.data (recordInput counter)) ∧
    (∀ buf m, simpleParseMsg buf = some m →
      Authenticates (.request m.counter m.vs m.nonce) (buf.take SIMPLE_MSG_LEN)) ∧
    (∀ p : Purpose, (∃ x, Authenticates p x) ↔ p.Valid) ∧
    ∀ p q x y, Authenticates p x → Authenticates q y → (x = y ↔ p = q) :=
  ⟨msg_exact, report_exact, fun _ _ _ => rfl, fun _ _ => parsed_authenticates,
    fun _ => authenticates_exists, fun _ _ _ _ => authenticates_unique⟩

theorem encodings_exact_small :
    simpleParseMsg ((simpleSerializeMsg ⟨7, .fill 32 1, .fill 16 2, .fill 32 3⟩
        (List.replicate 84 0)).1.take 84) = some ⟨7, .fill 32 1, .fill 16 2, .fill 32 3⟩ ∧
      recordInput 7 ≠ recordInput 8 := by
  obtain ⟨msg, -, -, -, -, unique⟩ := encodings_exact
  refine ⟨msg.parsed _ _ trivial (by decide), fun same => ?_⟩
  have equal := (unique _ _ _ _ (.record 7) (.record 8)).mp same
  exact absurd equal (by decide)

end SimpleAttestation.MacInputs
