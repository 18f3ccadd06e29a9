import SimpleAttestation.ByteStrings

set_option autoImplicit false

/-!
# Wire byte order, constant-time comparison and the fixed payloads (simple.c)
-/
namespace SimpleAttestation.Wire
open ByteStrings

abbrev SIMPLE_MSG_LEN : ℕ := 52
abbrev SIMPLE_REQUEST_LEN : ℕ := 84
abbrev SIMPLE_REPORT_LEN : ℕ := 33
abbrev SIMPLE_REPORT_AUTH_LEN : ℕ := 21

structure SimpleMsg where
  counter : UInt32
  vs : Bytes 32
  nonce : Bytes 16
  hmac : Bytes 32
deriving DecidableEq

structure SimpleReport where
  result : UInt8
  hmac : Bytes 32
deriving DecidableEq

/-- `diff |= a[i] ^ b[i]` over the first `len` bytes. -/
def simpleCtCompare (a b : List UInt8) (len : ℕ) : Bool :=
  (List.range len).foldl (fun diff i => diff ||| (a.getD i 0 ^^^ b.getD i 0)) 0 == 0

def simplePutU32 (value : UInt32) : List UInt8 :=
  [(value >>> 24).toUInt8, (value >>> 16).toUInt8, (value >>> 8).toUInt8, value.toUInt8]

def simpleGetU32 (input : List UInt8) : UInt32 :=
  ((input.getD 0 0).toUInt32 <<< 24) ||| ((input.getD 1 0).toUInt32 <<< 16) |||
    ((input.getD 2 0).toUInt32 <<< 8) ||| (input.getD 3 0).toUInt32

/-- The capacity `out_max` is the length of the caller's buffer. -/
def simpleSerializeMsg (m : SimpleMsg) (out : List UInt8) : List UInt8 × ℕ :=
  if out.length < SIMPLE_REQUEST_LEN then (out, 0)
  else
    let out := overwrite out 0 (simplePutU32 m.counter)
    let out := overwrite out 4 m.vs.data
    let out := overwrite out 36 m.nonce.data
    let out := overwrite out 52 m.hmac.data
    (out, SIMPLE_REQUEST_LEN)

def simpleParseMsg (buf : List UInt8) : Option SimpleMsg :=
  if buf.length ≠ SIMPLE_REQUEST_LEN then none
  else some ⟨simpleGetU32 buf, bytesAt 32 buf 4, bytesAt 16 buf 36, bytesAt 32 buf 52⟩

def simpleSerializeReport (r : SimpleReport) (out : List UInt8) : List UInt8 × ℕ :=
  if out.length < SIMPLE_REPORT_LEN ∨ 1 < r.result then (out, 0)
  else
    let out := overwrite out 0 [r.result]
    let out := overwrite out 1 r.hmac.data
    (out, SIMPLE_REPORT_LEN)

def simpleParseReport (buf : List UInt8) : Option SimpleReport :=
  if buf.length ≠ SIMPLE_REPORT_LEN ∨ 1 < buf.getD 0 0 then none
  else some ⟨buf.getD 0 0, bytesAt 32 buf 1⟩

/-- The string both peers authenticate a response over. -/
def simpleReportAuth (result : UInt8) (counter : UInt32) (nonce : Bytes 16) :
    Option (Bytes SIMPLE_REPORT_AUTH_LEN) :=
  if 1 < result then none
  else some ⟨result :: (simplePutU32 counter ++ nonce.data), by simp [simplePutU32]⟩

@[simp] theorem length_simplePutU32 (v : UInt32) : (simplePutU32 v).length = 4 := rfl

theorem get_bit (a b c d : UInt8) (rest : List UInt8) (i : ℕ) (hi : i < 32) :
    (simpleGetU32 (a :: b :: c :: d :: rest)).toBitVec.getLsbD i =
      if i < 8 then bit d i else if i < 16 then bit c (i - 8)
      else if i < 24 then bit b (i - 16) else bit a (i - 24) := by
  have high : ∀ (x : UInt8) (j : ℕ), 8 ≤ j → x.toBitVec.getLsbD j = false :=
    fun x j hj => BitVec.getLsbD_of_ge x.toBitVec j hj
  simp only [simpleGetU32, bit, List.getD_cons_zero, List.getD_cons_succ, UInt32.toBitVec_or,
    UInt32.toBitVec_shiftLeft, UInt8.toBitVec_toUInt32, BitVec.getLsbD_or,
    BitVec.shiftLeft_eq', BitVec.getLsbD_shiftLeft, BitVec.getLsbD_setWidth]
  simp only [UInt32.toBitVec_ofNat, hi, decide_true, Bool.true_and]
  split_ifs with h8 h16 h24
  · simp [show i < 16 by omega, show i < 24 by omega, h8]
  · simp [high d i (by omega), h8, h16, show i < 24 by omega, show i - 8 < 32 by omega]
  · simp [high d i (by omega), high c (i - 8) (by omega), h16, h24, show i - 16 < 32 by omega]
  · simp [high d i (by omega), high c (i - 8) (by omega), high b (i - 16) (by omega), h24,
      show i - 24 < 32 by omega]

/-- Bit `i` of the big-endian byte that starts at bit `k` of a word. -/
theorem put_bit (v : UInt32) (k : UInt32) (i : ℕ) (hi : i < 8) (hk : k.toNat < 32) :
    bit (v >>> k).toUInt8 i = v.toBitVec.getLsbD (k.toNat + i) := by
  have hm : k.toNat % 32 = k.toNat := Nat.mod_eq_of_lt hk
  simp [bit, hi, hm]

@[simp] theorem get_put (v : UInt32) (rest : List UInt8) :
    simpleGetU32 (simplePutU32 v ++ rest) = v := by
  apply UInt32.toBitVec_inj.mp
  apply BitVec.eq_of_getLsbD_eq
  intro i hi
  simp only [simplePutU32, List.cons_append, List.nil_append]
  rw [get_bit _ _ _ _ _ _ hi]
  split_ifs with h8 h16 h24
  · have h := put_bit v 0 i h8 (by decide)
    simpa using h
  · rw [put_bit v 8 (i - 8) (by omega) (by decide)]
    exact congrArg _ (show 8 + (i - 8) = i by omega)
  · rw [put_bit v 16 (i - 16) (by omega) (by decide)]
    exact congrArg _ (show 16 + (i - 16) = i by omega)
  · rw [put_bit v 24 (i - 24) (by omega) (by decide)]
    exact congrArg _ (show 24 + (i - 24) = i by omega)

theorem put_injective {v w : UInt32} (h : simplePutU32 v = simplePutU32 w) : v = w := by
  have hv := get_put v []
  have hw := get_put w []
  rw [← hv, ← hw, h]

theorem put_get (a b c d : UInt8) (rest : List UInt8) :
    simplePutU32 (simpleGetU32 (a :: b :: c :: d :: rest)) = [a, b, c, d] := by
  have byte : ∀ (k : UInt32) (n : ℕ) (x : UInt8), k.toNat = n → n < 32 →
      (∀ i, i < 8 → (simpleGetU32 (a :: b :: c :: d :: rest)).toBitVec.getLsbD (n + i) =
        bit x i) → (simpleGetU32 (a :: b :: c :: d :: rest) >>> k).toUInt8 = x := by
    intro k n x hn hk same
    subst hn
    apply UInt8.toBitVec_inj.mp
    apply BitVec.eq_of_getLsbD_eq
    intro i hi
    exact (put_bit _ k i hi hk).trans (same i hi)
  have h24 := byte 24 24 a rfl (by decide) fun i hi => by
    rw [get_bit _ _ _ _ _ _ (by omega)]
    simp [show ¬ 24 + i < 8 by omega, show ¬ 24 + i < 16 by omega, show ¬ 24 + i < 24 by omega]
  have h16 := byte 16 16 b rfl (by decide) fun i hi => by
    rw [get_bit _ _ _ _ _ _ (by omega)]
    simp [show ¬ 16 + i < 8 by omega, show ¬ 16 + i < 16 by omega, show 16 + i < 24 by omega]
  have h8 := byte 8 8 c rfl (by decide) fun i hi => by
    rw [get_bit _ _ _ _ _ _ (by omega)]
    simp [show ¬ 8 + i < 8 by omega, show 8 + i < 16 by omega]
  have h0 := byte 0 0 d rfl (by decide) fun i hi => by
    rw [get_bit _ _ _ _ _ _ (by omega)]
    simp [hi]
  have h0' : (simpleGetU32 (a :: b :: c :: d :: rest)).toUInt8 = d := by simpa using h0
  simp only [simplePutU32, h24, h16, h8, h0']

theorem put_get_take (buf : List UInt8) (h : 4 ≤ buf.length) :
    simplePutU32 (simpleGetU32 buf) = buf.take 4 := by
  match buf, h with
  | a :: b :: c :: d :: rest, _ => rw [put_get]; rfl

theorem ctCompare_foldl (a b : List UInt8) (is : List ℕ) (diff : UInt8) :
    is.foldl (fun diff i => diff ||| (a.getD i 0 ^^^ b.getD i 0)) diff = 0 ↔
      diff = 0 ∧ ∀ i ∈ is, a.getD i 0 = b.getD i 0 := by
  induction is generalizing diff with
  | nil => simp
  | cons i is ih =>
    rw [List.foldl_cons, ih, List.forall_mem_cons, UInt8.or_eq_zero_iff, UInt8.xor_eq_zero_iff]
    tauto

theorem ctCompare_iff (a b : List UInt8) (len : ℕ) (ha : len ≤ a.length) (hb : len ≤ b.length) :
    simpleCtCompare a b len = true ↔ a.take len = b.take len := by
  rw [simpleCtCompare, beq_iff_eq, ctCompare_foldl]
  constructor
  · rintro ⟨_, same⟩
    apply List.ext_getElem
    · simp [ha, hb]
    · intro i hi _
      have hi' : i < len := by simp only [List.length_take] at hi; omega
      have h := same i (List.mem_range.mpr hi')
      have la : i < a.length := by omega
      have lb : i < b.length := by omega
      simpa [la, lb] using h
  · intro h
    refine ⟨rfl, fun i hi => ?_⟩
    have hi' := List.mem_range.mp hi
    have la : i < a.length := by omega
    have lb : i < b.length := by omega
    have e := congrArg (fun l : List UInt8 => l.getD i 0) h
    simpa [hi', la, lb] using e

theorem ctCompare_bytes {n : ℕ} (a b : Bytes n) : simpleCtCompare a.data b.data n = true ↔ a = b := by
  rw [ctCompare_iff _ _ _ (by simp) (by simp), List.take_of_length_le (by simp),
    List.take_of_length_le (by simp), Bytes.ext_iff]

def msgBytes (m : SimpleMsg) : List UInt8 :=
  simplePutU32 m.counter ++ m.vs.data ++ m.nonce.data ++ m.hmac.data

@[simp] theorem length_msgBytes (m : SimpleMsg) : (msgBytes m).length = 84 := by
  simp [msgBytes]

theorem serializeMsg_eq (m : SimpleMsg) {out : List UInt8} (h : 84 ≤ out.length) :
    simpleSerializeMsg m out = (msgBytes m ++ out.drop 84, 84) := by
  have hn : ¬ out.length < SIMPLE_REQUEST_LEN := by simpa using h
  rw [simpleSerializeMsg, if_neg hn]
  have first := overwrite_append [] out (simplePutU32 m.counter) 0 rfl
  rw [List.nil_append, List.nil_append] at first
  simp only [first]
  rw [overwrite_append _ _ m.vs.data 4 (by simp), overwrite_append _ _ m.nonce.data 36 (by simp),
    overwrite_append _ _ m.hmac.data 52 (by simp)]
  simp only [msgBytes, List.drop_drop, Bytes.length_data, length_simplePutU32]

theorem parseMsg_msgBytes (m : SimpleMsg) : simpleParseMsg (msgBytes m) = some m := by
  have hvs := bytesAt_append (simplePutU32 m.counter) m.vs (m.nonce.data ++ m.hmac.data) 4 rfl
  have hnonce := bytesAt_append (simplePutU32 m.counter ++ m.vs.data) m.nonce m.hmac.data 36
    (by simp)
  have hhmac := bytesAt_append (simplePutU32 m.counter ++ m.vs.data ++ m.nonce.data) m.hmac [] 52
    (by simp)
  rw [List.append_nil] at hhmac
  rw [simpleParseMsg, if_neg (by simp)]
  simp only [msgBytes, List.append_assoc, get_put] at hvs hnonce hhmac ⊢
  rw [hvs, hnonce, hhmac]

theorem parseMsg_eq_some {buf : List UInt8} {m : SimpleMsg} :
    simpleParseMsg buf = some m ↔ buf = msgBytes m := by
  constructor
  · intro h
    rw [simpleParseMsg] at h
    split at h
    · cases h
    · rename_i hn
      have len : buf.length = 84 := by simpa using hn
      obtain rfl := Option.some.inj h
      simp only [msgBytes]
      rw [put_get_take buf (by omega), bytesAt_data (by omega), bytesAt_data (by omega),
        bytesAt_data (by omega)]
      have h1 := List.take_append_drop 4 buf
      have h2 := List.take_append_drop 32 (buf.drop 4)
      have h3 := List.take_append_drop 16 (buf.drop 36)
      have h4 : (buf.drop 52).take 32 = buf.drop 52 := List.take_of_length_le (by simp; omega)
      rw [List.drop_drop] at h2 h3
      rw [h4, List.append_assoc, List.append_assoc, h3, h2, h1]
  · rintro rfl
    exact parseMsg_msgBytes m

theorem parseMsg_counter {buf : List UInt8} {m : SimpleMsg} (h : simpleParseMsg buf = some m) :
    simpleGetU32 buf = m.counter := by
  rw [parseMsg_eq_some.mp h, msgBytes, List.append_assoc, List.append_assoc]
  exact get_put _ _

theorem parseMsg_nonce {buf : List UInt8} {m : SimpleMsg} (h : simpleParseMsg buf = some m) :
    bytesAt 16 buf 36 = m.nonce := by
  rw [simpleParseMsg] at h
  split at h
  · cases h
  · obtain rfl := Option.some.inj h
    rfl

/-- The part of a request its tag authenticates. -/
def msgAuth (m : SimpleMsg) : List UInt8 :=
  simplePutU32 m.counter ++ m.vs.data ++ m.nonce.data

@[simp] theorem length_msgAuth (m : SimpleMsg) : (msgAuth m).length = 52 := by
  simp [msgAuth]

theorem take_msgBytes (m : SimpleMsg) : (msgBytes m).take 52 = msgAuth m :=
  List.take_left' (length_msgAuth m)

theorem msgAuth_injective {m m' : SimpleMsg} (h : msgAuth m = msgAuth m') :
    m.counter = m'.counter ∧ m.vs = m'.vs ∧ m.nonce = m'.nonce := by
  obtain ⟨h, hnonce⟩ := List.append_inj h (by simp)
  obtain ⟨hcounter, hvs⟩ := List.append_inj h (by simp)
  exact ⟨put_injective hcounter, Bytes.ext hvs, Bytes.ext hnonce⟩

def reportBytes (r : SimpleReport) : List UInt8 := r.result :: r.hmac.data

@[simp] theorem length_reportBytes (r : SimpleReport) : (reportBytes r).length = 33 := by
  simp [reportBytes]

theorem serializeReport_eq (r : SimpleReport) {out : List UInt8} (h : 33 ≤ out.length)
    (hr : r.result ≤ 1) : simpleSerializeReport r out = (reportBytes r ++ out.drop 33, 33) := by
  have hn : ¬ (out.length < SIMPLE_REPORT_LEN ∨ 1 < r.result) := by
    rw [not_or]
    exact ⟨by simpa using h, UInt8.not_lt.mpr hr⟩
  rw [simpleSerializeReport, if_neg hn]
  have first := overwrite_append [] out [r.result] 0 rfl
  rw [List.nil_append, List.nil_append] at first
  simp only [first]
  rw [overwrite_append _ _ r.hmac.data 1 rfl]
  simp [reportBytes]

theorem parseReport_eq_some {buf : List UInt8} {r : SimpleReport} :
    simpleParseReport buf = some r ↔ buf = reportBytes r ∧ r.result ≤ 1 := by
  constructor
  · intro h
    rw [simpleParseReport] at h
    split at h
    · cases h
    · rename_i hn
      rw [not_or, not_not] at hn
      obtain ⟨len, small⟩ := hn
      obtain rfl := Option.some.inj h
      refine ⟨?_, UInt8.not_lt.mp small⟩
      match buf, len with
      | b :: rest, len =>
        have hl : rest.length = 32 := Nat.succ.inj len
        simp only [reportBytes]
        rw [bytesAt_data (by simp [hl])]
        simp [hl, List.take_of_length_le]
  · rintro ⟨rfl, small⟩
    have hhmac : bytesAt 32 (reportBytes r) 1 = r.hmac := by
      have h := bytesAt_append [r.result] r.hmac [] 1 rfl
      rwa [List.append_nil] at h
    rw [simpleParseReport, if_neg]
    · rw [hhmac]
      rfl
    · rw [not_or, not_not]
      exact ⟨length_reportBytes r, UInt8.not_lt.mpr small⟩

theorem reportAuth_eq {result : UInt8} (counter : UInt32) (nonce : Bytes 16) (h : result ≤ 1) :
    ∃ input, simpleReportAuth result counter nonce = some input ∧
      input.data = result :: (simplePutU32 counter ++ nonce.data) := by
  rw [simpleReportAuth, if_neg (UInt8.not_lt.mpr h)]
  exact ⟨_, rfl, rfl⟩

theorem reportAuth_eq_some {result : UInt8} {counter : UInt32} {nonce : Bytes 16}
    {input : Bytes SIMPLE_REPORT_AUTH_LEN} : simpleReportAuth result counter nonce = some input ↔
      result ≤ 1 ∧ input.data = result :: (simplePutU32 counter ++ nonce.data) := by
  constructor
  · intro h
    rw [simpleReportAuth] at h
    split at h
    · cases h
    · rename_i small
      obtain rfl := Option.some.inj h
      exact ⟨UInt8.not_lt.mp small, rfl⟩
  · rintro ⟨small, data⟩
    rw [simpleReportAuth, if_neg (UInt8.not_lt.mpr small)]
    exact congrArg some (Bytes.ext data.symm)

theorem reportAuth_injective {r r' : UInt8} {c c' : UInt32} {n n' : Bytes 16}
    {input : Bytes SIMPLE_REPORT_AUTH_LEN} (h : simpleReportAuth r c n = some input)
    (h' : simpleReportAuth r' c' n' = some input) : r = r' ∧ c = c' ∧ n = n' := by
  have same := (reportAuth_eq_some.mp h).2.symm.trans (reportAuth_eq_some.mp h').2
  obtain ⟨hr, rest⟩ := List.cons.inj same
  obtain ⟨hc, hn⟩ := List.append_inj rest rfl
  exact ⟨hr, put_injective hc, Bytes.ext hn⟩

end SimpleAttestation.Wire
