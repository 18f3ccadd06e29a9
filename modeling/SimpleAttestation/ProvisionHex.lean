import SimpleAttestation.Provision

set_option autoImplicit false

/-!
# What the HEX files load as

`decodeHex` is the reader of the tool's tests. It fails where one of its assertions does.
-/
namespace SimpleAttestation.ProvisionHex
open ByteStrings HexText Provision

/-- Addresses without a byte are not in the file. -/
abbrev HexMemory := ℕ → Option UInt8

structure HexReader where
  memory : HexMemory
  base : ℕ

/-- `memory[start + i] = value`, no address twice. -/
def storeBytes (memory : HexMemory) (start : ℕ) : List UInt8 → Option HexMemory
  | [] => some memory
  | b :: rest =>
    if (memory start).isSome then none
    else storeBytes (fun a => if a = start then some b else memory a) (start + 1) rest

/-- `int.from_bytes(bytes, 'big')` -/
def fromBytesBig (bytes : List UInt8) : ℕ := bytes.foldl (fun n b => n * 256 + b.toNat) 0

def decodeLine (s : HexReader) (line : List Char) : Option HexReader := do
  let raw ← fromHex line.tail
  if raw.sum ≠ 0 then none
  else if raw.length ≠ (raw.getD 0 0).toNat + 5 then none
  else
    let address := fromBytesBig ((raw.drop 1).take 2)
    let data := (raw.drop 4).dropLast
    let kind := raw.getD 3 0
    if kind = 4 then some { s with base := fromBytesBig data * 65536 }
    else if kind = 0 then (storeBytes s.memory (s.base + address) data).map fun m => { s with memory := m }
    else if kind = 1 then some s
    else none

def decodeHex (text : List Char) : Option HexMemory :=
  ((splitLines text).foldlM decodeLine ⟨fun _ => none, 0⟩).map (·.memory)

def placed (memory : HexMemory) (start : ℕ) (data : List UInt8) : HexMemory := fun a =>
  if start ≤ a ∧ a < start + data.length then data[a - start]? else memory a

theorem placed_nil (memory : HexMemory) (start : ℕ) : placed memory start [] = memory := by
  funext a
  exact if_neg fun h => absurd h.2 (by simpa using h.1)

theorem placed_append (memory : HexMemory) (start : ℕ) (xs ys : List UInt8) :
    placed (placed memory start xs) (start + xs.length) ys = placed memory start (xs ++ ys) := by
  funext a
  unfold placed
  rw [List.length_append]
  by_cases first : start ≤ a ∧ a < start + xs.length
  · rw [if_neg (by omega), if_pos first, if_pos (by omega), List.getElem?_append_left (by omega)]
  · by_cases second : start + xs.length ≤ a ∧ a < start + xs.length + ys.length
    · rw [if_pos second, if_pos (by omega), List.getElem?_append_right (by omega)]
      exact congrArg (ys[·]?) (by omega)
    · rw [if_neg second, if_neg first, if_neg (by omega)]

theorem storeBytes_fresh (memory : HexMemory) (start : ℕ) (data : List UInt8)
    (fresh : ∀ i < data.length, memory (start + i) = none) :
    storeBytes memory start data = some (placed memory start data) := by
  induction data generalizing memory start with
  | nil => rw [placed_nil, storeBytes]
  | cons b data ih =>
    have first := fresh 0 (by simp)
    rw [Nat.add_zero] at first
    have single : (fun a => if a = start then some b else memory a) = placed memory start [b] := by
      funext a
      unfold placed
      by_cases here : a = start
      · subst here
        simp
      · rw [if_neg here, if_neg (by simp; omega)]
    rw [storeBytes, first, Option.isSome_none, if_neg Bool.false_ne_true, single, ih]
    · exact congrArg some (placed_append memory start [b] data)
    · intro i hi
      have out : ¬ (start ≤ start + 1 + i ∧ start + 1 + i < start + [b].length) := by
        rw [List.length_singleton]
        omega
      rw [placed, if_neg out]
      have later := fresh (i + 1) (by simpa using hi)
      rwa [Nat.add_comm i 1, ← Nat.add_assoc] at later

theorem fromBytesBig_pack16 {n : ℕ} (h : n < 65536) : fromBytesBig (pack16 n) = n := by
  have high : n / 256 % 256 = n / 256 := Nat.mod_eq_of_lt (by omega)
  simp [fromBytesBig, pack16, high]
  omega

def recordLine (address : ℕ) (kind : UInt8) (data : List UInt8) : List Char :=
  let raw := [UInt8.ofNat data.length] ++ pack16 address ++ [kind] ++ data
  ':' :: toHex (raw ++ [-raw.sum])

theorem ihexRecord_eq (address : ℕ) (kind : UInt8) (data : List UInt8) :
    ihexRecord address kind data = recordLine address kind data ++ ['\n'] := rfl

theorem recordLine_no_newline (address : ℕ) (kind : UInt8) (data : List UInt8) :
    '\n' ∉ recordLine address kind data := by
  intro h
  rcases List.mem_cons.mp h with h | h
  · cases h
  · exact toHex_no_newline _ h

theorem decodeLine_record (s : HexReader) {address : ℕ} (kind : UInt8) {data : List UInt8}
    (low : address < 65536) (short : data.length < 256) :
    decodeLine s (recordLine address kind data) =
      if kind = 4 then some { s with base := fromBytesBig data * 65536 }
      else if kind = 0 then (storeBytes s.memory (s.base + address) data).map fun m => { s with memory := m }
      else if kind = 1 then some s
      else none := by
  have sum : ∀ raw : List UInt8, (raw ++ [-raw.sum]).sum = 0 := by
    intro raw
    rw [List.sum_append, List.sum_singleton]
    exact UInt8.add_right_neg _
  have len : (UInt8.ofNat data.length).toNat = data.length := by
    rw [UInt8.toNat_ofNat']
    exact Nat.mod_eq_of_lt short
  rw [decodeLine, recordLine, List.tail_cons, fromHex_toHex]
  simp only [Option.bind_eq_bind, Option.bind_some, sum, ne_eq, not_true, if_false]
  rw [if_neg]
  · have address_ := fromBytesBig_pack16 low
    rw [pack16] at address_
    simp only [pack16, List.cons_append, List.nil_append, List.drop_succ_cons, List.drop_zero,
      List.take_succ_cons, List.take_zero, List.getD_cons_succ, List.getD_cons_zero, address_,
      List.dropLast_concat]
  · simp [pack16, len]

/-- What has been written so far reads as `s`. -/
structure Decoded (w : HexWriter) (s : HexReader) : Prop where
  lines : ∃ ls : List (List Char), (∀ l ∈ ls, '\n' ∉ l) ∧ w.result = ls.map (· ++ ['\n']) ∧
    ls.foldlM decodeLine ⟨fun _ => none, 0⟩ = some s
  base : ∀ u, w.upper = some u → s.base = u * 65536

theorem decoded_snoc {w : HexWriter} {s s' : HexReader} (h : Decoded w s) {address : ℕ} {kind : UInt8}
    {data : List UInt8} {upper : Option ℕ} (read : decodeLine s (recordLine address kind data) = some s')
    (base : ∀ u, upper = some u → s'.base = u * 65536) :
    Decoded ⟨w.result ++ [ihexRecord address kind data], upper⟩ s' := by
  obtain ⟨⟨ls, clean, result, run⟩, -⟩ := h
  refine ⟨⟨ls ++ [recordLine address kind data], ?_, ?_, ?_⟩, base⟩
  · intro l hl
    rcases List.mem_append.mp hl with hl | hl
    · exact clean l hl
    · rw [List.mem_singleton.mp hl]
      exact recordLine_no_newline address kind data
  · rw [List.map_append, List.map_singleton, ← ihexRecord_eq, result]
  · rw [List.foldlM_append, run]
    change List.foldlM decodeLine s [_] = _
    rw [List.foldlM_cons, read]
    rfl

theorem decoded_chunk {w : HexWriter} {s : HexReader} (h : Decoded w s) {address offset : ℕ}
    {data : List UInt8} (bound : address + offset < 4294967296)
    (fresh : ∀ i < ((data.drop offset).take 16).length, s.memory (address + offset + i) = none) :
    ∃ s', Decoded (writeChunk address data w offset) s' ∧
      s'.memory = placed s.memory (address + offset) ((data.drop offset).take 16) := by
  have halves := Nat.div_add_mod (address + offset) 65536
  have split : (address + offset) / 65536 * 65536 + (address + offset) % 65536 = address + offset := by
    omega
  -- The record of the upper half, written where it changed.
  have upper : ∃ s₁, Decoded (if some ((address + offset) / 65536) ≠ w.upper then
      ⟨w.result ++ [ihexRecord 0 4 (pack16 ((address + offset) / 65536))],
        some ((address + offset) / 65536)⟩ else w) s₁ ∧ s₁.memory = s.memory ∧
      s₁.base = (address + offset) / 65536 * 65536 := by
    by_cases changed : some ((address + offset) / 65536) ≠ w.upper
    · rw [if_pos changed]
      refine ⟨{ s with base := (address + offset) / 65536 * 65536 }, decoded_snoc h ?_ ?_, rfl, rfl⟩
      · rw [decodeLine_record s 4 (by omega) (by simp [pack16]), if_pos rfl,
          fromBytesBig_pack16 (by omega)]
      · intro u hu
        obtain rfl := Option.some.inj hu
        rfl
    · rw [if_neg changed]
      exact ⟨s, h, rfl, h.base _ (not_ne_iff.mp changed).symm⟩
  obtain ⟨s₁, decoded, memory, base⟩ := upper
  have short : ((data.drop offset).take 16).length < 256 := by
    rw [List.length_take]
    omega
  have stored := storeBytes_fresh s₁.memory (address + offset) ((data.drop offset).take 16)
    (by rw [memory]; exact fresh)
  refine ⟨{ s₁ with memory := placed s.memory (address + offset) ((data.drop offset).take 16) },
    decoded_snoc decoded ?_ decoded.base, rfl⟩
  rw [decodeLine_record s₁ 0 (by omega) short, if_neg (by decide), if_pos rfl, base, split, stored,
    Option.map_some, memory]

theorem decoded_chunks {w : HexWriter} {s : HexReader} (h : Decoded w s) {address : ℕ}
    {data : List UInt8} (bound : address + data.length ≤ 4294967296)
    (fresh : ∀ i < data.length, s.memory (address + i) = none) (n : ℕ)
    (inside : ∀ k < n, 16 * k < data.length) :
    ∃ s', Decoded (((List.range n).map (16 * ·)).foldl (writeChunk address data) w) s' ∧
      s'.memory = placed s.memory address (data.take (16 * n)) := by
  induction n with
  | zero => exact ⟨s, h, by rw [Nat.mul_zero, List.take_zero, placed_nil]⟩
  | succ n ih =>
    obtain ⟨s₁, decoded, memory⟩ := ih fun k hk => inside k (by omega)
    have room := inside n (by omega)
    have len : (data.take (16 * n)).length = 16 * n := List.length_take_of_le (by omega)
    rw [List.range_succ, List.map_append, List.foldl_append, List.map_singleton, List.foldl_cons,
      List.foldl_nil]
    have next := @decoded_chunk _ s₁ decoded address (16 * n) data (by omega) ?_
    · obtain ⟨s₂, decoded', memory'⟩ := next
      refine ⟨s₂, decoded', ?_⟩
      have joined := placed_append s.memory address (data.take (16 * n)) ((data.drop (16 * n)).take 16)
      rw [len] at joined
      rw [memory', memory, joined, Nat.mul_succ, List.take_add]
    · intro i hi
      rw [List.length_take, List.length_drop] at hi
      rw [memory, placed, if_neg (by omega), Nat.add_assoc]
      exact fresh (16 * n + i) (by omega)

theorem decoded_segment {w : HexWriter} {s : HexReader} (h : Decoded w s) {address : ℕ}
    {data : List UInt8} (bound : address + data.length ≤ 4294967296)
    (fresh : ∀ i < data.length, s.memory (address + i) = none) :
    ∃ s', Decoded ((chunkOffsets data.length).foldl (writeChunk address data) w) s' ∧
      s'.memory = placed s.memory address data := by
  obtain ⟨s', decoded, memory⟩ := decoded_chunks h bound fresh ((data.length + 15) / 16)
    fun k hk => by omega
  rw [List.take_of_length_le (by omega)] at memory
  exact ⟨s', decoded, memory⟩

theorem decoded_segments (segments : List (ℕ × List UInt8)) {w w' : HexWriter} {previous last : ℕ}
    {s : HexReader} (run : segments.foldlM writeSegment (w, previous) = .ok (w', last))
    (h : Decoded w s) (bounds : ∀ seg ∈ segments, seg.1 + seg.2.length ≤ 4294967296)
    (high : ∀ a, previous ≤ a → s.memory a = none) :
    ∃ s', Decoded w' s' ∧ (∀ a < previous, s'.memory a = s.memory a) ∧
      (∀ seg ∈ segments, ∀ i < seg.2.length, s'.memory (seg.1 + i) = seg.2[i]?) ∧
      ∀ a, previous ≤ a → (∀ seg ∈ segments, ¬ (seg.1 ≤ a ∧ a < seg.1 + seg.2.length)) →
        s'.memory a = none := by
  induction segments generalizing w previous s with
  | nil =>
    obtain ⟨rfl, rfl⟩ := Prod.mk.inj (Except.ok.inj run)
    exact ⟨s, h, fun _ _ => rfl, fun _ hseg => absurd hseg List.not_mem_nil, fun a ha _ => high a ha⟩
  | cons segment segments ih =>
    obtain ⟨address, data⟩ := segment
    obtain ⟨bound, bounds⟩ := List.forall_mem_cons.mp bounds
    change address + data.length ≤ 4294967296 at bound
    by_cases overlap : address < previous
    · rw [List.foldlM_cons, writeSegment, if_pos overlap] at run
      cases run
    · have ahead : previous ≤ address := Nat.not_lt.mp overlap
      rw [List.foldlM_cons, writeSegment, if_neg overlap] at run
      obtain ⟨s₁, decoded, memory⟩ := decoded_segment h bound
        fun i _ => high (address + i) (Nat.le_add_right_of_le ahead)
      have high₁ : ∀ a, address + data.length ≤ a → s₁.memory a = none := by
        intro a ha
        rw [memory, placed, if_neg (by omega)]
        exact high a (by omega)
      obtain ⟨s₂, decoded', low, held, none_⟩ := ih run decoded bounds high₁
      refine ⟨s₂, decoded', ?_, List.forall_mem_cons.mpr ⟨?_, held⟩, ?_⟩
      · intro a ha
        rw [low a (by omega), memory, placed, if_neg (by omega)]
      · intro i hi
        change i < data.length at hi
        rw [low _ (by simpa using hi), memory, placed, if_pos (by simpa using hi),
          Nat.add_sub_cancel_left]
      · intro a ha out
        obtain ⟨outside, out⟩ := List.forall_mem_cons.mp out
        by_cases below : a < address + data.length
        · rw [low a below, memory, placed, if_neg outside]
          exact high a ha
        · exact none_ a (Nat.not_lt.mp below) out

theorem ihex_decodes {segments : List (ℕ × List UInt8)} {text : List Char}
    (written : ihex segments = .ok text)
    (bounds : ∀ seg ∈ segments, seg.1 + seg.2.length ≤ 4294967296) :
    ∃ memory, decodeHex text = some memory ∧
      (∀ seg ∈ segments, ∀ i < seg.2.length, memory (seg.1 + i) = seg.2[i]?) ∧
      ∀ a, (∀ seg ∈ segments, ¬ (seg.1 ≤ a ∧ a < seg.1 + seg.2.length)) → memory a = none := by
  have same : ∀ seg, seg ∈ segments.insertionSort segmentLe ↔ seg ∈ segments :=
    fun seg => (List.perm_insertionSort segmentLe segments).mem_iff
  unfold ihex at written
  cases run : (segments.insertionSort segmentLe).foldlM writeSegment (⟨[], none⟩, 0) with
  | error e =>
    rw [run] at written
    cases written
  | ok r =>
    obtain ⟨w, last⟩ := r
    rw [run] at written
    obtain rfl := Except.ok.inj written
    have start : Decoded ⟨[], none⟩ ⟨fun _ => none, 0⟩ :=
      ⟨⟨[], by simp, rfl, rfl⟩, fun u hu => by cases hu⟩
    obtain ⟨s, decoded, -, held, none_⟩ := decoded_segments _ run start
      (fun seg hseg => bounds seg ((same seg).mp hseg)) fun _ _ => rfl
    have ended : Decoded ⟨w.result ++ [ihexRecord 0 1 []], w.upper⟩ s := by
      refine decoded_snoc decoded ?_ decoded.base
      rw [decodeLine_record s 1 (by omega) (by simp), if_neg (by decide), if_neg (by decide), if_pos rfl]
    obtain ⟨ls, clean, result, reads⟩ := ended.lines
    refine ⟨s.memory, ?_, fun seg hseg => held seg ((same seg).mpr hseg), fun a out =>
      none_ a (Nat.zero_le a) fun seg hseg => out seg ((same seg).mp hseg)⟩
    change w.result ++ [ihexRecord 0 1 []] = _ at result
    rw [decodeHex, result, splitLines_flatten ls clean, reads, Option.map_some]

/-- Segments in order, none below `previous` or into the next. -/
def Ascending : ℕ → List (ℕ × List UInt8) → Prop
  | _, [] => True
  | previous, segment :: rest => previous ≤ segment.1 ∧ Ascending (segment.1 + segment.2.length) rest

theorem segments_written {segments : List (ℕ × List UInt8)} {previous : ℕ}
    (h : Ascending previous segments) (w : HexWriter) :
    ∃ r, segments.foldlM writeSegment (w, previous) = .ok r := by
  induction segments generalizing previous w with
  | nil => exact ⟨_, rfl⟩
  | cons segment segments ih =>
    obtain ⟨above, rest⟩ := h
    rw [List.foldlM_cons, writeSegment, if_neg (Nat.not_lt.mpr above)]
    exact ih rest _

theorem ihex_written {segments : List (ℕ × List UInt8)}
    (h : Ascending 0 (segments.insertionSort segmentLe)) : ∃ text, ihex segments = .ok text := by
  obtain ⟨r, run⟩ := segments_written h ⟨[], none⟩
  rw [ihex, run]
  exact ⟨_, rfl⟩

end SimpleAttestation.ProvisionHex
