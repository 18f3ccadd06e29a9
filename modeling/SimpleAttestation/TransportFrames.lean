import SimpleAttestation.Transport

set_option autoImplicit false

/-!
# The decoder accepts what the encoder produces
-/
namespace SimpleAttestation.TransportFrames
open ByteStrings Wire Platform Cobs Transport

def rawFrame (type : UInt8) (payload : List UInt8) : List UInt8 :=
  type :: UInt8.ofNat payload.length :: payload

theorem legal_length {type : UInt8} {len : ℕ} (h : legalFrame type len = true) : len ≤ 84 := by
  simp only [legalFrame, Bool.or_eq_true, Bool.and_eq_true, beq_iff_eq] at h
  rcases h with (⟨-, rfl⟩ | ⟨-, rfl⟩) | ⟨-, rfl⟩ <;> decide

theorem set_middle {α : Type} (pre post : List α) (x y : α) (n : ℕ) (h : n = pre.length) :
    (pre ++ x :: post).set n y = pre ++ y :: post := by
  subst h
  rw [List.set_append_right _ _ (Nat.le_refl _), Nat.sub_self, List.set_cons_zero]

/-- The loop has finished the blocks `done`, left the place of the next code at `x` and
    written `block` behind it. -/
theorem encode_loop (raw done block tail : List UInt8) (x : UInt8) (room : raw.length < tail.length) :
    let s := raw.foldl encodeByte ⟨done ++ x :: (block ++ tail), done.length + 1 + block.length,
      done.length, code block⟩
    (s.out.set s.codePos s.code).set s.pos 0 =
        done ++ stuffFrom block raw ++ 0 :: tail.drop (raw.length + 1) ∧
      s.pos = done.length + 1 + block.length + raw.length := by
  obtain ⟨t, tail, rfl⟩ := List.exists_cons_of_length_pos (by omega : 0 < tail.length)
  induction raw generalizing done block tail x t with
  | nil =>
    refine ⟨?_, rfl⟩
    simp only [List.foldl_nil]
    rw [set_middle _ _ _ _ _ rfl, stuffFrom_nil]
    have e := set_middle (done ++ code block :: block) tail t 0 (done.length + 1 + block.length)
      (by simp; omega)
    simpa using e
  | cons b raw ih =>
    rw [List.length_cons, List.length_cons] at room
    obtain ⟨t', tail, rfl⟩ := List.exists_cons_of_length_pos (by omega : 0 < tail.length)
    by_cases hb : b = 0
    · subst hb
      have step : encodeByte ⟨done ++ x :: (block ++ t :: t' :: tail), done.length + 1 + block.length,
          done.length, code block⟩ 0 = ⟨(done ++ code block :: block) ++ t :: ([] ++ t' :: tail),
            (done ++ code block :: block).length + 1 + ([] : List UInt8).length,
            (done ++ code block :: block).length, code []⟩ := by
        rw [encodeByte, if_pos rfl, set_middle _ _ _ _ _ rfl]
        simp [code]
        omega
      have rest := ih (done ++ code block :: block) [] t t' tail (by simpa using room)
      rw [List.foldl_cons, step]
      simp only [stuffFrom_zero] at rest ⊢
      refine ⟨rest.1.trans ?_, rest.2.trans ?_⟩
      · simp [stuff]
      · simp
        omega
    · have step : encodeByte ⟨done ++ x :: (block ++ t :: t' :: tail), done.length + 1 + block.length,
          done.length, code block⟩ b = ⟨done ++ x :: ((block ++ [b]) ++ t' :: tail),
            done.length + 1 + (block ++ [b]).length, done.length, code (block ++ [b])⟩ := by
        have e := set_middle (done ++ x :: block) (t' :: tail) t b (done.length + 1 + block.length)
          (by simp; omega)
        rw [encodeByte, if_neg hb]
        simp only [List.append_assoc, List.cons_append] at e
        simp [e, code, UInt8.ofNat_add]
        omega
      have rest := ih done (block ++ [b]) x t' tail (by simpa using room)
      rw [List.foldl_cons, step, stuffFrom_cons block hb]
      refine ⟨rest.1.trans ?_, rest.2.trans ?_⟩
      · simp
      · simp
        omega

theorem encode_eq {type : UInt8} {payload out : List UInt8}
    (legal : legalFrame type payload.length = true) (room : payload.length + 4 ≤ out.length) :
    authFrameEncode type payload out =
      (stuff (rawFrame type payload) ++ 0 :: out.drop (payload.length + 4), payload.length + 4) := by
  obtain ⟨x, tail, rfl⟩ := List.exists_cons_of_length_pos (by omega : 0 < out.length)
  rw [List.length_cons] at room
  have loop := encode_loop (rawFrame type payload) [] [] tail x (by simp [rawFrame]; omega)
  rw [authFrameEncode, if_neg]
  · obtain ⟨bytes, pos⟩ := loop
    simp only [List.nil_append] at bytes pos
    change ((_ : List UInt8), (_ : ℕ) + 1) = _
    refine Prod.ext (bytes.trans ?_) (congrArg (· + 1) pos |>.trans ?_)
    · simp [stuff, rawFrame]
    · simp [rawFrame]
      omega
  · simp [legal]
    omega

theorem copyBlock_eq (j : ℕ) (encoded raw : List UInt8) (short : j ≤ encoded.length)
    (room : raw.length ≤ RAW_MAX) : copyBlock j encoded raw =
      if raw.length + j ≤ RAW_MAX then some (encoded.drop j, raw ++ encoded.take j) else none := by
  induction j generalizing encoded raw with
  | zero => simp [copyBlock, room]
  | succ j ih =>
    obtain ⟨b, encoded, rfl⟩ := List.exists_cons_of_length_pos (by omega : 0 < encoded.length)
    rw [copyBlock]
    by_cases full : RAW_MAX ≤ raw.length
    · rw [if_pos full, if_neg (by omega)]
    · rw [if_neg full, ih encoded (raw ++ [b]) (by simpa using short) (by simp; omega)]
      simp only [List.length_append, List.length_singleton, List.drop_succ_cons, List.take_succ_cons,
        List.append_assoc, List.singleton_append, Nat.add_assoc, Nat.add_comm 1 j]

section
variable {w raw out : List UInt8}

theorem decode_sound (fuel : ℕ) (acc : List UInt8) (some_ : w ≠ []) (nonzero : ∀ b ∈ w, b ≠ 0)
    (short : w.length ≤ 254) (room : acc.length ≤ RAW_MAX)
    (h : decodeBlocks fuel w acc = some out) :
    ∃ raw, out = acc ++ raw ∧ stuff raw = w := by
  induction fuel generalizing w acc with
  | zero =>
    obtain ⟨c, encoded, rfl⟩ := List.exists_cons_of_ne_nil some_
    cases h
  | succ fuel ih =>
    obtain ⟨c, encoded, rfl⟩ := List.exists_cons_of_ne_nil some_
    obtain ⟨hc, nonzero⟩ := List.forall_mem_cons.mp nonzero
    rw [List.length_cons] at short
    rw [decodeBlocks] at h
    split at h
    · cases h
    · rename_i fits
      simp only [Bool.or_eq_true, decide_eq_true_eq, hc, false_or, Nat.not_lt] at fits
      have pos : c.toNat ≠ 0 := fun e => hc (UInt8.toNat_inj.mp e)
      generalize hj : c.toNat - 1 = j at h fits
      have hcode : c = code (encoded.take j) := by
        have len : (encoded.take j).length = j := List.length_take_of_le fits
        apply UInt8.toNat_inj.mp
        rw [toNat_code (by omega), len]
        omega
      have block : ∀ b ∈ encoded.take j, b ≠ 0 := fun b hb => nonzero b (List.mem_of_mem_take hb)
      rw [copyBlock_eq j encoded acc fits room] at h
      by_cases fit : acc.length + j ≤ RAW_MAX
      · rw [if_pos fit] at h
        have small : c ≠ 255 := by
          rintro rfl
          have e : (255 : UInt8).toNat = 255 := rfl
          omega
        have len : (acc ++ encoded.take j).length ≤ RAW_MAX := by
          rw [List.length_append, List.length_take_of_le fits]
          exact fit
        by_cases last : encoded.drop j = []
        · simp only [last, List.isEmpty_nil, Bool.not_true, Bool.and_false, Bool.false_eq_true,
            if_false] at h
          have all : encoded.take j = encoded := by
            rw [← List.append_nil (encoded.take j), ← last, List.take_append_drop]
          rw [all] at hcode block h
          have e : decodeBlocks fuel [] (acc ++ encoded) = some (acc ++ encoded) := by
            cases fuel <;> rfl
          rw [e] at h
          exact ⟨encoded, (Option.some.inj h).symm, by rw [stuff_block block, ← hcode]⟩
        · have more : (decide (c ≠ 255) && !(encoded.drop j).isEmpty) = true := by simp [small, last]
          simp only [more, if_true] at h
          by_cases full : RAW_MAX ≤ (acc ++ encoded.take j).length
          · rw [if_pos full] at h
            cases h
          · rw [if_neg full] at h
            obtain ⟨raw, rfl, stuffed⟩ := ih (acc ++ encoded.take j ++ [0]) last
              (fun b hb => nonzero b (List.mem_of_mem_drop hb)) (by simp; omega) (by
                rw [List.length_append, List.length_singleton]
                omega) h
            refine ⟨encoded.take j ++ 0 :: raw, by simp, ?_⟩
            rw [stuff_blocks block, stuffed, List.take_append_drop, ← hcode]
      · rw [if_neg fit] at h
        cases h

theorem decode_complete (raw : List UInt8) (fuel : ℕ) (acc : List UInt8)
    (enough : raw.length < fuel) (room : acc.length + raw.length ≤ RAW_MAX) :
    decodeBlocks fuel (stuff raw) acc = some (acc ++ raw) := by
  have max : RAW_MAX = 86 := rfl
  induction raw using blocks_induction generalizing fuel acc with
  | last block nonzero =>
    obtain ⟨fuel, rfl⟩ := Nat.exists_eq_succ_of_ne_zero (by omega : fuel ≠ 0)
    have short : block.length ≤ 254 := by omega
    have e : decodeBlocks fuel [] (acc ++ block) = some (acc ++ block) := by cases fuel <;> rfl
    rw [stuff_block nonzero, Nat.succ_eq_add_one, decodeBlocks, toNat_code short, Nat.add_sub_cancel,
      copyBlock_eq _ _ _ (Nat.le_refl _) (by omega), if_pos room]
    simp [code_ne_zero short, e]
  | more block raw nonzero ih =>
    rw [List.length_append, List.length_cons] at enough room
    obtain ⟨fuel, rfl⟩ := Nat.exists_eq_succ_of_ne_zero (by omega : fuel ≠ 0)
    have short : block.length ≤ 254 := by omega
    have small : code block ≠ 255 := by
      intro e
      have n := toNat_code short
      rw [e] at n
      change 255 = _ at n
      omega
    have len : (acc ++ block ++ [0]).length = acc.length + block.length + 1 := by
      simp only [List.length_append, List.length_singleton]
    have rest := ih fuel (acc ++ block ++ [0]) (by omega) (by omega)
    have full : ¬ RAW_MAX ≤ (acc ++ block).length := by
      rw [List.length_append]
      omega
    have opens : ¬ (decide (code block = 0) ||
        decide ((block ++ stuff raw).length < (code block).toNat - 1)) = true := by
      simp [code_ne_zero short, toNat_code short]
    have more : (decide (code block ≠ 255) && !(stuff raw).isEmpty) = true := by
      simp [small, stuff_ne_nil]
    have copied := copyBlock_eq block.length (block ++ stuff raw) acc (by simp) (by omega)
    rw [if_pos (by omega), List.drop_left, List.take_left] at copied
    rw [stuff_blocks nonzero, Nat.succ_eq_add_one, decodeBlocks, if_neg opens, toNat_code short,
      Nat.add_sub_cancel, copied]
    simp only [more, if_true, full, if_false]
    rw [rest]
    simp

theorem accepts_iff {capacity : ℕ} : acceptsRaw raw capacity = true ↔ ∃ type payload,
    raw = rawFrame type payload ∧ legalFrame type payload.length = true ∧
      payload.length ≤ capacity := by
  constructor
  · intro h
    match raw, h with
    | type :: len :: payload, h =>
      have e : (type :: len :: payload).length - 2 = payload.length := rfl
      simp only [acceptsRaw, e, List.getD_cons_zero, List.getD_cons_succ, Bool.not_eq_true',
        Bool.or_eq_false_iff, decide_eq_false_iff_not, bne_eq_false_iff_eq, Bool.not_eq_false',
        Nat.not_lt] at h
      obtain ⟨⟨⟨-, hlen⟩, fits⟩, legal⟩ := h
      rw [hlen] at legal
      refine ⟨type, payload, ?_, legal, fits⟩
      rw [rawFrame, ← hlen, UInt8.ofNat_toNat]
  · rintro ⟨type, payload, rfl, legal, fits⟩
    have small := legal_length legal
    have len : payload.length % 256 = payload.length := Nat.mod_eq_of_lt (by omega)
    simp [acceptsRaw, rawFrame, len, legal, fits, Nat.not_lt_of_le (Nat.le_add_left 2 _)]

end

/-- The receiver holds the nonzero bytes `w` of a frame that started at `started`, or has
    given it up because it is too long. -/
structure Holding (w : List UInt8) (started : UInt32) (r : AuthReceiver) : Prop where
  started : r.startedMs = started
  discard : r.discard = decide (AUTH_FRAME_MAX < w.length)
  held : w.length ≤ AUTH_FRAME_MAX → r.used = w.length ∧ r.encoded.data.take r.used = w

section
variable {r : AuthReceiver} {w : List UInt8} {b : UInt8} {now started timeout : UInt32} {out : FrameOut}

def frameResult (frame : List UInt8) (discard : Bool) (out : FrameOut) : ℤ × FrameOut :=
  if discard then (-1, out)
  else if frame.isEmpty then (0, out)
  else match decodeBlocks frame.length frame [] with
    | none => (-1, out)
    | some raw =>
      if acceptsRaw raw out.payload.length then
        (1, ⟨raw.getD 0 0, overwrite out.payload 0 (raw.drop 2), raw.length - 2⟩)
      else (-1, out)

theorem endFrame_eq (r : AuthReceiver) (out : FrameOut) : endFrame r out =
    ({ r with used := 0, discard := false, used_le := Nat.zero_le _ },
      frameResult (r.encoded.data.take r.used) r.discard out) := by
  obtain ⟨encoded, used, startedMs, discard, used_le⟩ := r
  cases discard with
  | true => rfl
  | false =>
    simp only [endFrame, frameResult, Bool.false_eq_true, if_false]
    split
    · rfl
    · cases decodeBlocks _ (encoded.data.take used) [] with
      | none => rfl
      | some raw =>
        dsimp only
        split <;> rfl

theorem positive_of_punctual (h : authExpired now started timeout = false) : timeout ≠ 0 := by
  rintro rfl
  have e : (0 : UInt32) ≤ now - started := by
    rw [UInt32.le_iff_toNat_le]
    exact Nat.zero_le _
  rw [authExpired, decide_eq_true e] at h
  cases h

def expire (r : AuthReceiver) (now timeout : UInt32) : AuthReceiver :=
  { r with discard := r.discard || (r.used ≠ 0 && authExpired now r.startedMs timeout) }

theorem feed_eq (positive : timeout ≠ 0) : authFrameFeed r b now timeout out =
    if b ≠ 0 then (takeByte (expire r now timeout) b now, 0, { out with length := 0 })
    else endFrame (expire r now timeout) { out with length := 0 } := by
  rw [authFrameFeed, if_neg positive]
  rfl

theorem feed_punctual (positive : timeout ≠ 0)
    (punctual : r.used = 0 ∨ authExpired now r.startedMs timeout = false) :
    authFrameFeed r b now timeout out =
      if b ≠ 0 then (takeByte r b now, 0, { out with length := 0 })
      else endFrame r { out with length := 0 } := by
  have late : (decide (r.used ≠ 0) && authExpired now r.startedMs timeout) = false := by
    rcases punctual with h | h <;> simp [h]
  have same : expire r now timeout = r := by rw [expire, late, Bool.or_false]
  rw [feed_eq positive, same]

theorem take_push (room : r.used < AUTH_FRAME_MAX) :
    (r.push b room).encoded.data.take (r.used + 1) = r.encoded.data.take r.used ++ [b] := by
  have len : r.used < r.encoded.data.length := by
    rw [r.encoded.length_data]
    exact room
  exact take_set_next len b

theorem feed_first (positive : timeout ≠ 0) (used : r.used = 0) (discard : r.discard = false)
    (hb : b ≠ 0) : ∃ r', authFrameFeed r b now timeout out = (r', 0, { out with length := 0 }) ∧
      Holding [b] now r' := by
  refine ⟨takeByte r b now, by rw [feed_punctual positive (Or.inl used), if_pos hb], ?_⟩
  have room : ({ r with startedMs := now } : AuthReceiver).used < AUTH_FRAME_MAX := by simp [used]
  have e : takeByte r b now = ({ r with startedMs := now } : AuthReceiver).push b room := by
    simp [takeByte, used, discard]
  have empty : r.encoded.data.take r.used = [] := by rw [used, List.take_zero]
  rw [e]
  refine ⟨rfl, discard, fun _ => ⟨congrArg (· + 1) used, (take_push room).trans ?_⟩⟩
  change r.encoded.data.take r.used ++ [b] = [b]
  rw [empty, List.nil_append]

theorem feed_next (positive : timeout ≠ 0) (some_ : w ≠ []) (h : Holding w started r) (hb : b ≠ 0)
    (inTime : authExpired now started timeout = false) :
    ∃ r', authFrameFeed r b now timeout out = (r', 0, { out with length := 0 }) ∧
      Holding (w ++ [b]) started r' := by
  obtain ⟨begun, discard, held⟩ := h
  rw [← begun] at inTime
  refine ⟨takeByte r b now, by rw [feed_punctual positive (Or.inr inTime), if_pos hb], ?_⟩
  have len : (w ++ [b]).length = w.length + 1 := by simp
  by_cases long : AUTH_FRAME_MAX < w.length
  · have gone : r.discard = true := by rw [discard, decide_eq_true long]
    have e : takeByte r b now = r := by simp [takeByte, gone]
    rw [e]
    refine ⟨begun, ?_, fun le => by omega⟩
    rw [gone, decide_eq_true (by omega)]
  · obtain ⟨used, bytes⟩ := held (by omega)
    have kept : r.discard = false := by rw [discard, decide_eq_false long]
    have going : r.used ≠ 0 := by
      rw [used]
      exact fun e => some_ (List.length_eq_zero_iff.mp e)
    by_cases room : r.used < AUTH_FRAME_MAX
    · have e : takeByte r b now = r.push b room := by simp [takeByte, kept, going, room]
      rw [e]
      refine ⟨begun, ?_, fun _ => ⟨?_, ?_⟩⟩
      · change r.discard = _
        rw [kept, decide_eq_false (by omega)]
      · change r.used + 1 = _
        omega
      · have pushed := @take_push _ b room
        rw [bytes] at pushed
        exact pushed
    · have e : takeByte r b now = { r with discard := true } := by simp [takeByte, kept, going, room]
      rw [e]
      refine ⟨begun, ?_, fun le => by omega⟩
      change true = _
      rw [decide_eq_true (by omega)]

/-- The bytes the encoder produces in a buffer of the size the sender has. -/
def encodedBytes (type : UInt8) (payload : List UInt8) (buf : Bytes AUTH_FRAME_MAX) : List UInt8 :=
  (authFrameEncode type payload buf.data).1.take (authFrameEncode type payload buf.data).2

theorem encodedBytes_eq {type : UInt8} {payload : List UInt8} (buf : Bytes AUTH_FRAME_MAX)
    (legal : legalFrame type payload.length = true) :
    encodedBytes type payload buf = stuff (rawFrame type payload) ++ [0] := by
  have small := legal_length legal
  have max : AUTH_FRAME_MAX = 88 := rfl
  have len : (stuff (rawFrame type payload)).length = payload.length + 3 := by
    rw [length_stuff]
    rfl
  rw [encodedBytes, encode_eq legal (by rw [buf.length_data]; omega)]
  rw [List.append_cons]
  exact List.take_left' (by simp [len])

theorem frame_unique {type type' : UInt8} {payload payload' : List UInt8}
    (legal : legalFrame type payload.length = true) (legal' : legalFrame type' payload'.length = true)
    (h : stuff (rawFrame type payload) = stuff (rawFrame type' payload')) :
    type = type' ∧ payload = payload' := by
  have decoded : ∀ t p, legalFrame t p.length = true →
      decodeBlocks 87 (stuff (rawFrame t p)) [] = some (rawFrame t p) := by
    intro t p legal
    have small := legal_length legal
    have len : (rawFrame t p).length = p.length + 2 := rfl
    have fits : ([] : List UInt8).length + (rawFrame t p).length ≤ 86 := by
      rw [List.length_nil]
      omega
    exact decode_complete _ _ [] (by omega) fits
  have same := decoded type payload legal
  rw [h, decoded type' payload' legal'] at same
  obtain ⟨rfl, rest⟩ := List.cons.inj (Option.some.inj same)
  exact ⟨rfl, (List.cons.inj rest).2.symm⟩

def Delivers (result : ℤ × FrameOut) (type : UInt8) (payload : List UInt8) : Prop :=
  result.1 = 1 ∧ result.2.type = type ∧ result.2.length = payload.length ∧
    result.2.payload.take result.2.length = payload

/-- What a call leaves: an empty result, or a frame in front of the old payload. -/
inductive FeedResult (out : FrameOut) : ℤ × FrameOut → Prop where
  | empty {n : ℤ} (h : n ≤ 0) : FeedResult out (n, { out with length := 0 })
  | frame {type : UInt8} {payload : List UInt8} (legal : legalFrame type payload.length = true)
      (fits : payload.length ≤ out.payload.length) :
      FeedResult out (1, ⟨type, payload ++ out.payload.drop payload.length, payload.length⟩)

theorem feed_result (positive : timeout ≠ 0) :
    FeedResult out (authFrameFeed r b now timeout out).2 := by
  rw [feed_eq positive]
  split
  · exact .empty (Int.le_refl 0)
  · rw [endFrame_eq]
    dsimp only
    generalize (expire r now timeout).encoded.data.take (expire r now timeout).used = frame
    unfold frameResult
    split
    · exact .empty (by decide)
    · split
      · exact .empty (Int.le_refl 0)
      · cases decodeBlocks frame.length frame [] with
        | none => exact .empty (by decide)
        | some raw =>
          dsimp only
          split
          · rename_i accepted
            obtain ⟨type, payload, rfl, legal, fits⟩ := accepts_iff.mp accepted
            simpa [rawFrame, overwrite] using FeedResult.frame legal fits
          · exact .empty (by decide)

theorem feed_room (positive : timeout ≠ 0) :
    (authFrameFeed r b now timeout out).2.2.payload.length = out.payload.length := by
  have result := @feed_result r b now timeout out positive
  generalize authFrameFeed r b now timeout out = fed at result
  obtain ⟨_, _, _⟩ := fed
  cases result with
  | empty => rfl
  | frame legal fits => simp [Nat.add_sub_cancel' fits]

theorem feed_encoded {type : UInt8} {payload : List UInt8} (positive : timeout ≠ 0)
    (legal : legalFrame type payload.length = true) (h : Holding (stuff (rawFrame type payload)) started r)
    (inTime : authExpired now started timeout = false) (fits : payload.length ≤ out.payload.length) :
    Delivers (authFrameFeed r 0 now timeout out).2 type payload := by
  have max : AUTH_FRAME_MAX = 88 ∧ RAW_MAX = 86 := ⟨rfl, rfl⟩
  have small := legal_length legal
  have short : (rawFrame type payload).length ≤ RAW_MAX := by simp [rawFrame]; omega
  have len := length_stuff (rawFrame type payload)
  obtain ⟨begun, discard, held⟩ := h
  rw [← begun] at inTime
  rw [feed_punctual positive (Or.inr inTime), if_neg (by simp)]
  obtain ⟨used, bytes⟩ := held (by omega)
  rw [decide_eq_false (by omega)] at discard
  have some_ : (stuff (rawFrame type payload)).isEmpty = false := by
    rw [List.isEmpty_eq_false_iff, ← List.length_pos_iff]
    omega
  rw [endFrame_eq, bytes, discard]
  simp only [frameResult, some_, Bool.false_eq_true, if_false]
  rw [decode_complete _ _ [] (by omega) (by simpa using short)]
  have accepted := accepts_iff.mpr ⟨type, payload, rfl, legal, fits⟩
  rw [List.nil_append]
  simp only [accepted, if_true]
  exact ⟨rfl, rfl, rfl, by simp [rawFrame, overwrite]⟩

theorem feed_zero (positive : timeout ≠ 0) (some_ : w ≠ []) (nonzero : ∀ b ∈ w, b ≠ 0)
    (h : Holding w started r) (inTime : authExpired now started timeout = false)
    (capacity : 84 ≤ out.payload.length) :
    (∃ type payload, legalFrame type payload.length = true ∧ w = stuff (rawFrame type payload) ∧
      Delivers (authFrameFeed r 0 now timeout out).2 type payload) ∨
    (∀ type payload, legalFrame type payload.length = true → w ≠ stuff (rawFrame type payload)) ∧
      (authFrameFeed r 0 now timeout out).2 = (-1, { out with length := 0 }) := by
  by_cases encoded : ∃ type payload, legalFrame type payload.length = true ∧ w = stuff (rawFrame type payload)
  · obtain ⟨type, payload, legal, rfl⟩ := encoded
    have small := legal_length legal
    exact Or.inl ⟨type, payload, legal, rfl, feed_encoded positive legal h inTime (by omega)⟩
  refine Or.inr ⟨fun type payload legal e => encoded ⟨type, payload, legal, e⟩, ?_⟩
  have max : AUTH_FRAME_MAX = 88 := rfl
  obtain ⟨begun, discard, held⟩ := h
  rw [← begun] at inTime
  rw [feed_punctual positive (Or.inr inTime), if_neg (by simp)]
  by_cases long : AUTH_FRAME_MAX < w.length
  · rw [decide_eq_true long] at discard
    rw [endFrame_eq, discard]
    rfl
  · rw [decide_eq_false long] at discard
    obtain ⟨used, bytes⟩ := held (by omega)
    have more : w.isEmpty = false := List.isEmpty_eq_false_iff.mpr some_
    rw [endFrame_eq, bytes, discard]
    simp only [frameResult, more, Bool.false_eq_true, if_false]
    cases decoded : decodeBlocks w.length w [] with
    | none => rfl
    | some raw =>
      obtain ⟨raw', e, stuffed⟩ := decode_sound w.length [] some_ nonzero (by omega) (Nat.zero_le _)
        decoded
      obtain rfl : raw = raw' := e
      have rejected : acceptsRaw raw out.payload.length = false := by
        rw [← Bool.not_eq_true]
        intro accepted
        obtain ⟨type, payload, rfl, legal, -⟩ := accepts_iff.mp accepted
        exact encoded ⟨type, payload, legal, stuffed.symm⟩
      simp only [rejected]
      rfl

theorem feed_bytes (positive : timeout ≠ 0) (xs : List FeedCall) (some_ : w ≠ [])
    (h : Holding w started r)
    (nonzero : ∀ x ∈ xs, x.byte ≠ 0) (inTime : ∀ x ∈ xs, authExpired x.nowMs started timeout = false) :
    ∃ r', streamRun timeout r (xs.map .feed) = (r', xs.map fun x => (0, { x.out with length := 0 })) ∧
      Holding (w ++ xs.map (·.byte)) started r' := by
  induction xs generalizing w r with
  | nil => exact ⟨r, rfl, by simpa using h⟩
  | cons x xs ih =>
    obtain ⟨hx, nonzero⟩ := List.forall_mem_cons.mp nonzero
    obtain ⟨now, inTime⟩ := List.forall_mem_cons.mp inTime
    obtain ⟨r₁, first, held⟩ := @feed_next r w x.byte x.nowMs started timeout x.out positive some_ h hx now
    obtain ⟨r₂, rest, held'⟩ := ih (by simp) held nonzero inTime
    refine ⟨r₂, ?_, by simpa using held'⟩
    rw [List.map_cons, streamRun, streamStep, first]
    simp only [rest, List.map_cons, List.singleton_append]

theorem feed_frame (positive : timeout ≠ 0) (used : r.used = 0) (discard : r.discard = false)
    (x : FeedCall) (xs : List FeedCall) (nonzero : ∀ y ∈ x :: xs, y.byte ≠ 0)
    (inTime : ∀ y ∈ xs, authExpired y.nowMs x.nowMs timeout = false) :
    ∃ r', streamRun timeout r ((x :: xs).map .feed) =
        (r', (x :: xs).map fun y => (0, { y.out with length := 0 })) ∧
      Holding ((x :: xs).map (·.byte)) x.nowMs r' := by
  obtain ⟨hx, nonzero⟩ := List.forall_mem_cons.mp nonzero
  obtain ⟨r₁, first, held⟩ := @feed_first r x.byte x.nowMs timeout x.out positive used discard hx
  obtain ⟨r₂, rest, held'⟩ := feed_bytes positive xs (by simp) held nonzero inTime
  refine ⟨r₂, ?_, by simpa using held'⟩
  rw [List.map_cons, streamRun, streamStep, first]
  simp only [rest, List.map_cons, List.singleton_append]

theorem streamRun_append (xs ys : List StreamInput) : streamRun timeout r (xs ++ ys) =
    ((streamRun timeout (streamRun timeout r xs).1 ys).1,
      (streamRun timeout r xs).2 ++ (streamRun timeout (streamRun timeout r xs).1 ys).2) := by
  induction xs generalizing r with
  | nil => rfl
  | cons x xs ih => simp only [List.cons_append, streamRun, ih, List.append_assoc]

end

theorem encoded_nonzero {type : UInt8} {payload : List UInt8} (buf : Bytes AUTH_FRAME_MAX)
    (legal : legalFrame type payload.length = true) :
    ∃ w, w ≠ [] ∧ (∀ b ∈ w, b ≠ 0) ∧ encodedBytes type payload buf = w ++ [0] := by
  have small := legal_length legal
  refine ⟨stuff (rawFrame type payload), ?_, stuff_nonzero (by simp [rawFrame]; omega),
    encodedBytes_eq buf legal⟩
  rw [← List.length_pos_iff, length_stuff]
  exact Nat.succ_pos _

/-- The round trip: every legal frame has an encoding without zeros, which decodes to the frame. -/
theorem decode_encode {type : UInt8} {payload : List UInt8} (legal : legalFrame type payload.length = true)
    (buf : Bytes AUTH_FRAME_MAX) (timeout : UInt32) (r : AuthReceiver) (used : r.used = 0)
    (discard : r.discard = false) (x z : FeedCall) (xs : List FeedCall)
    (bytes : (x :: xs ++ [z]).map (·.byte) = encodedBytes type payload buf)
    (inTime : ∀ y ∈ xs ++ [z], authExpired y.nowMs x.nowMs timeout = false)
    (fits : payload.length ≤ z.out.payload.length) :
    (∀ y ∈ x :: xs, y.byte ≠ 0) ∧ z.byte = 0 ∧
    ∃ last, (streamRun timeout r ((x :: xs ++ [z]).map .feed)).2 =
        (x :: xs).map (fun y => (0, { y.out with length := 0 })) ++ [last] ∧
      Delivers last type payload := by
  have positive := positive_of_punctual (inTime z (by simp))
  obtain ⟨w, -, stuffed, encoded⟩ := encoded_nonzero buf legal
  rw [encoded, List.map_append] at bytes
  obtain ⟨wire, zero⟩ := List.append_inj' bytes rfl
  have zero : z.byte = 0 := (List.cons.inj zero).1
  have nonzero : ∀ y ∈ x :: xs, y.byte ≠ 0 := by
    rw [← wire] at stuffed
    exact fun y hy => stuffed y.byte (List.mem_map_of_mem hy)
  obtain ⟨r', run, held⟩ := feed_frame positive used discard x xs nonzero fun y hy => inTime y (by simp [hy])
  have same : stuff (rawFrame type payload) = w :=
    List.append_cancel_right ((encodedBytes_eq buf legal).symm.trans encoded)
  rw [wire, ← same] at held
  refine ⟨nonzero, zero, _, ?_, feed_encoded positive legal held (inTime z (by simp)) fits⟩
  rw [List.map_append, streamRun_append, run, List.map_singleton, streamRun, streamStep, zero]
  rfl

/-- A frame that arrives in time is delivered exactly when it is the encoding of what is
    delivered, and rejected otherwise. -/
theorem accepts_exactly_encodings (timeout : UInt32) (r : AuthReceiver)
    (used : r.used = 0) (discard : r.discard = false) (x : FeedCall) (xs : List FeedCall)
    (nonzero : ∀ y ∈ x :: xs, y.byte ≠ 0)
    (inTime : ∀ y ∈ xs, authExpired y.nowMs x.nowMs timeout = false) (now : UInt32)
    (lastInTime : authExpired now x.nowMs timeout = false) (out : FrameOut)
    (capacity : 84 ≤ out.payload.length) :
    (streamRun timeout r ((x :: xs).map .feed)).2 =
      (x :: xs).map (fun y => (0, { y.out with length := 0 })) ∧
    (∀ type payload buf, legalFrame type payload.length = true →
      ∃ w, w ≠ [] ∧ (∀ b ∈ w, b ≠ 0) ∧ encodedBytes type payload buf = w ++ [0]) ∧
    ∃ result, (authFrameFeed (streamRun timeout r ((x :: xs).map .feed)).1 0 now timeout out).2 =
        result ∧
      ((∃ type payload, Delivers result type payload) ∨ result = (-1, { out with length := 0 })) ∧
      ∀ type payload buf, Delivers result type payload ↔ legalFrame type payload.length = true ∧
        (x :: xs).map (·.byte) ++ [0] = encodedBytes type payload buf := by
  have positive := positive_of_punctual lastInTime
  obtain ⟨r', run, held⟩ := feed_frame positive used discard x xs nonzero inTime
  rw [run]
  refine ⟨rfl, fun type payload buf => encoded_nonzero buf, _, rfl, ?_⟩
  have bytes : ∀ b ∈ (x :: xs).map (·.byte), b ≠ 0 := by
    intro b hb
    obtain ⟨y, hy, rfl⟩ := List.mem_map.mp hb
    exact nonzero y hy
  rcases feed_zero positive (by simp) bytes held lastInTime capacity with
    ⟨type, payload, legal, wire, delivers⟩ | ⟨none, rejected⟩
  · refine ⟨Or.inl ⟨type, payload, delivers⟩, fun type' payload' buf => ⟨?_, ?_⟩⟩
    · rintro ⟨-, htype, hlen, hpayload⟩
      obtain rfl : type = type' := delivers.2.1.symm.trans htype
      obtain rfl : payload = payload' := delivers.2.2.2.symm.trans hpayload
      exact ⟨legal, by rw [encodedBytes_eq buf legal, wire]⟩
    · rintro ⟨legal', e⟩
      rw [encodedBytes_eq buf legal', List.append_left_inj, wire] at e
      obtain ⟨rfl, rfl⟩ := frame_unique legal legal' e
      exact delivers
  · refine ⟨Or.inr rejected, fun type payload buf => ⟨?_, ?_⟩⟩
    · rintro ⟨one, -⟩
      rw [rejected] at one
      cases one
    · rintro ⟨legal, e⟩
      rw [encodedBytes_eq buf legal, List.append_left_inj] at e
      exact absurd e (none type payload legal)

def smallOut : FrameOut := ⟨0, List.replicate 84 0, 0⟩

theorem accepts_diagnostic : Delivers (authFrameFeed (streamRun 100 .zero
    ([4, 3, 1, 12].map fun b => .feed ⟨b, 0, smallOut⟩)).1 0 99 100 smallOut).2 3 [12] := by
  obtain ⟨-, -, _, rfl, -, delivers⟩ := accepts_exactly_encodings 100 .zero rfl rfl ⟨4, 0, smallOut⟩
    ([3, 1, 12].map fun b => ⟨b, 0, smallOut⟩) (by decide) (by decide) 99 (by decide) smallOut (by decide)
  exact (delivers 3 [12] (.fill 88 0)).mpr ⟨by decide, by decide⟩

end SimpleAttestation.TransportFrames
