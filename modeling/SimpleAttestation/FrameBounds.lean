import SimpleAttestation.FrameArrays
import SimpleAttestation.TransportStream

set_option autoImplicit false

/-!
# The frame functions stay inside their arrays
-/
namespace SimpleAttestation.FrameBounds
open ByteStrings Wire CallProgram CallTraces Cobs Platform TransportFrames TransportStream
  ArrayPrograms FrameArrays
open Transport hiding authFrameEncode acceptsRaw endFrame takeByte authFrameFeed

@[reducible] def encodeSize (len capacity : ℕ) : EncodeArray → ℕ
  | .raw => RAW_MAX
  | .payload => len
  | .out => capacity

/-- `stack` is what `raw` holds at entry. -/
def encodeMemory (payload out : List UInt8) (stack : Bytes RAW_MAX) :
    Memory (encodeSize payload.length out.length)
  | .raw => stack
  | .payload => ⟨payload, rfl⟩
  | .out => ⟨out, rfl⟩

section
variable {len capacity : ℕ}

theorem encode_legal {op : ArrayOp EncodeArray} (small : len ≤ 84) (room : len + 4 ≤ capacity)
    (inside : EncodeInside len op) : Legal (encodeSize len capacity) op := by
  have max : RAW_MAX = 86 := rfl
  cases op with
  | load a i =>
    cases a with
    | raw => exact Nat.lt_of_lt_of_le inside (by change len + 2 ≤ RAW_MAX; omega)
    | payload => exact inside
    | out => exact inside.elim
  | store a i b =>
    cases a with
    | raw => exact Nat.lt_of_lt_of_le inside (by change len + 2 ≤ RAW_MAX; omega)
    | payload => exact inside.elim
    | out => exact Nat.lt_of_lt_of_le inside room
  | sub m n => exact inside.elim
  | increment code =>
    rintro rfl
    have bound : 255 + 1 ≤ len + 3 := inside
    omega

theorem encodeLoop_act (left i : ℕ) (s : EncodeVars) (m : Memory (encodeSize len capacity))
    (short : i + left ≤ RAW_MAX) :
    let x := (encodeLoop left i s).eval act m
    let t := (((m .raw).data.drop i).take left).foldl encodeByte
      ⟨(m .out).data, s.pos, s.codePos, s.code⟩
    x.1 = ⟨t.pos, t.codePos, t.code⟩ ∧ (x.2 .out).data = t.out := by
  induction left generalizing i s m with
  | zero => exact ⟨rfl, rfl⟩
  | succ left ih =>
    have inside : i < (m .raw).data.length := by
      rw [Bytes.length_data]
      change i < RAW_MAX
      omega
    rw [List.drop_eq_getElem_cons inside, List.take_succ_cons, List.foldl_cons, encodeLoop, eval_load,
      List.getD_eq_getElem _ 0 inside]
    by_cases zero : (m .raw).data[i] = 0
    · rw [if_pos zero, eval_store, encodeByte, if_pos zero]
      have rest := ih (i + 1) ⟨s.pos + 1, s.pos, 1⟩ (stored m .out s.codePos s.code) (by omega)
      rw [stored_same, stored_other m (by decide)] at rest
      exact rest
    · rw [if_neg zero, eval_load, eval_store, eval_increment, encodeByte, if_neg zero,
        List.getD_eq_getElem _ 0 inside]
      have rest := ih (i + 1) ⟨s.pos + 1, s.codePos, s.code + 1⟩
        (stored m .out s.pos (m .raw).data[i]) (by omega)
      rw [stored_same, stored_other m (by decide)] at rest
      exact rest

theorem encode_ops (undefined : Behaviour (encodeSize len capacity)) (pointers : Bool) (type : UInt8)
    (m : Memory (encodeSize len capacity)) :
    ∀ op ∈ ops undefined (authFrameEncode pointers type len capacity) m,
      EncodeInside len op ∧ Legal (encodeSize len capacity) op := by
  refine ops_of_traces undefined (fun es n traced => ?_) m
  rcases traced_encode traced with ⟨-, rfl⟩ | ⟨⟨-, legal, room⟩, inside, -⟩
  · simp
  · exact fun e he => ⟨inside e he, encode_legal (legal_length legal) room (inside e he)⟩

end

theorem take_raw {stack : List UInt8} (two : 2 ≤ stack.length) (type len : UInt8)
    (payload : List UInt8) :
    (overwrite ((stack.set 0 type).set 1 len) 2 payload).take (payload.length + 2) =
      type :: len :: payload := by
  match stack, two with
  | _ :: _ :: rest, _ =>
    change (type :: len :: (payload ++ _)).take (payload.length + 2) = _
    rw [List.take_succ_cons, List.take_succ_cons, List.take_left]

section
variable (type : UInt8) (payload out : List UInt8) (stack : Bytes RAW_MAX)
  (undefined : Behaviour (encodeSize payload.length out.length))

def encodeRun (pointers : Bool) : ℕ × List UInt8 :=
  let (n, m) := (authFrameEncode pointers type payload.length out.length).eval (perform undefined)
    (encodeMemory payload out stack)
  (n, (m .out).data)

def encodeOps (pointers : Bool) : List (ArrayOp EncodeArray) :=
  ops undefined (authFrameEncode pointers type payload.length out.length)
    (encodeMemory payload out stack)

theorem encode_refines : encodeRun type payload out stack undefined true =
    (Transport.authFrameEncode type payload out).swap := by
  have defined := eval_defined undefined (authFrameEncode true type payload.length out.length)
    (encodeMemory payload out stack) fun op here => (encode_ops undefined true type _ op here).2
  rw [encodeRun, defined, authFrameEncode, Transport.authFrameEncode]
  by_cases refused :
      (!legalFrame type payload.length || decide (out.length < payload.length + 4)) = true
  · have closed : (!true || !legalFrame type payload.length ||
        decide (out.length < payload.length + 4)) = true := refused
    rw [if_pos refused, if_pos closed]
    rfl
  · have opens : ¬ (!true || !legalFrame type payload.length ||
        decide (out.length < payload.length + 4)) = true := refused
    have room : payload.length + 4 ≤ out.length ∧ legalFrame type payload.length = true := by
      simpa [and_comm] using refused
    have small := legal_length room.2
    have max : RAW_MAX = 86 := rfl
    rw [if_neg refused, if_neg opens, eval_store, eval_store, Prog.eval_bind]
    have start := @memcpy_act _ _ (encodeSize payload.length out.length) .raw .payload (by decide) 2 0
      payload.length (stored (stored (encodeMemory payload out stack) .raw 0 type) .raw 1
        (UInt8.ofNat payload.length)) (by change 2 + _ ≤ RAW_MAX; omega)
      (by change 0 + _ ≤ payload.length; omega)
    generalize ((memcpy EncodeArray.raw 2 .payload 0 payload.length).eval act _).2 = m at start ⊢
    obtain ⟨raw, others⟩ := start
    have filled : ((m .raw).data.drop 0).take (payload.length + 2) = rawFrame type payload := by
      rw [List.drop_zero, raw, stored_same, stored_same, stored_other _ (by decide),
        stored_other _ (by decide)]
      change (overwrite ((stack.data.set 0 type).set 1 _) 2 ((payload.drop 0).take _)).take _ = _
      rw [List.drop_zero, List.take_length]
      exact take_raw (by rw [stack.length_data]; decide) type _ payload
    have fresh : (m .out).data = out := by
      rw [others .out (by decide), stored_other _ (by decide), stored_other _ (by decide)]
      rfl
    obtain ⟨vars, written⟩ := encodeLoop_act (payload.length + 2) 0 ⟨1, 0, 1⟩ m (by omega)
    rw [filled, fresh] at vars written
    rw [Prog.eval_bind, vars, eval_store, eval_store, Prog.pure_eq, Prog.eval_done]
    dsimp only
    rw [stored_same, stored_same, written]
    rfl

end

@[reducible] def feedSize (capacity : ℕ) : FeedArray → ℕ
  | .encoded => AUTH_FRAME_MAX
  | .raw => RAW_MAX
  | .payload => capacity

section
variable {capacity used : ℕ}

theorem feed_legal {op : ArrayOp FeedArray} (bound : used ≤ AUTH_FRAME_MAX)
    (inside : FeedInside used capacity op) : Legal (feedSize capacity) op := by
  cases op with
  | load a i =>
    cases a with
    | encoded => exact Nat.lt_of_lt_of_le inside bound
    | raw => exact inside
    | payload => exact inside.elim
  | store a i b => cases a <;> exact inside
  | sub m n => exact inside
  | increment code => exact inside.elim

theorem getD_take {bytes : List UInt8} {k n : ℕ} (below : k < n) :
    (bytes.take n).getD k 0 = bytes.getD k 0 := by
  rw [List.getD_eq_getElem?_getD, List.getD_eq_getElem?_getD, List.getElem?_take_of_lt below]

structure Kept (m m' : Memory (feedSize capacity)) : Prop where
  encoded : m' .encoded = m .encoded
  payload : m' .payload = m .payload

theorem Kept.trans {m m' m'' : Memory (feedSize capacity)} (first : Kept m m') (next : Kept m' m'') :
    Kept m m'' :=
  ⟨next.encoded.trans first.encoded, next.payload.trans first.payload⟩

theorem kept_stored (m : Memory (feedSize capacity)) (i : ℕ) (b : UInt8) :
    Kept m (stored m .raw i b) :=
  ⟨stored_other m (by decide) i b, stored_other m (by decide) i b⟩

theorem copyLoop_act (j i n : ℕ) (m : Memory (feedSize capacity)) (short : i + j ≤ AUTH_FRAME_MAX)
    (room : n ≤ RAW_MAX) :
    let x := (copyLoop j i n).eval act m
    x.1 = (if n + j ≤ RAW_MAX then some (n + j) else none) ∧
      (n + j ≤ RAW_MAX → (x.2 .raw).data.take (n + j) =
        (m .raw).data.take n ++ ((m .encoded).data.drop i).take j) ∧ Kept m x.2 := by
  induction j generalizing i n m with
  | zero => exact ⟨by simp [copyLoop, room], fun _ => by simp [copyLoop], rfl, rfl⟩
  | succ j ih =>
    rw [copyLoop]
    by_cases full : RAW_MAX ≤ n
    · rw [if_pos full, if_neg (by omega)]
      exact ⟨rfl, fun fits => by omega, rfl, rfl⟩
    · have inside : i < (m .encoded).data.length := by
        rw [Bytes.length_data]
        change i < AUTH_FRAME_MAX
        omega
      rw [if_neg full, eval_load, eval_store]
      obtain ⟨result, bytes, kept⟩ := ih (i + 1) (n + 1)
        (stored m .raw n ((m .encoded).data.getD i 0)) (by omega) (by omega)
      rw [take_stored (show n < feedSize capacity .raw from Nat.not_le.mp full),
        stored_other m (by decide)] at bytes
      have next : n + (j + 1) = n + 1 + j := by omega
      refine ⟨by rw [next]; exact result, fun fits => ?_, (kept_stored m n _).trans kept⟩
      rw [next, bytes (by omega), List.drop_eq_getElem_cons inside, List.take_succ_cons,
        List.getD_eq_getElem _ 0 inside, List.append_assoc, List.singleton_append]

theorem decodeBlocks_at {frame raw : List UInt8} {i : ℕ} {c : UInt8} (here : frame[i]? = some c)
    (room : raw.length ≤ RAW_MAX) (fuel : ℕ) :
    decodeBlocks (fuel + 1) (frame.drop i) raw =
      if c = 0 then none
      else if frame.length - (i + 1) < c.toNat - 1 then none
      else if raw.length + (c.toNat - 1) ≤ RAW_MAX then
        if c ≠ 255 && decide (i + 1 + (c.toNat - 1) < frame.length) then
          if RAW_MAX ≤ raw.length + (c.toNat - 1) then none
          else decodeBlocks fuel (frame.drop (i + 1 + (c.toNat - 1)))
            (raw ++ (frame.drop (i + 1)).take (c.toNat - 1) ++ [0])
        else decodeBlocks fuel (frame.drop (i + 1 + (c.toNat - 1)))
          (raw ++ (frame.drop (i + 1)).take (c.toNat - 1))
      else none := by
  obtain ⟨inside, code⟩ := List.getElem?_eq_some_iff.mp here
  rw [List.drop_eq_getElem_cons inside, decodeBlocks, code, List.length_drop]
  by_cases zero : c = 0
  · rw [if_pos zero, if_pos (by simp [zero])]
  · by_cases long : frame.length - (i + 1) < c.toNat - 1
    · rw [if_neg zero, if_pos long, if_pos (by simp [long])]
    · rw [if_neg zero, if_neg long, if_neg (by simp [zero, long]),
        copyBlock_eq _ _ _ (by rw [List.length_drop]; omega) room]
      generalize c.toNat - 1 = j at long ⊢
      by_cases fits : raw.length + j ≤ RAW_MAX
      · have more : (!((frame.drop (i + 1)).drop j).isEmpty) = decide (i + 1 + j < frame.length) := by
          rw [List.drop_drop, Bool.eq_iff_iff]
          simp
        have len : (raw ++ (frame.drop (i + 1)).take j).length = raw.length + j := by
          rw [List.length_append, List.length_take_of_le (by rw [List.length_drop]; omega)]
        rw [if_pos fits, if_pos fits]
        dsimp only
        rw [more, len, List.drop_drop]
      · rw [if_neg fits, if_neg fits]

theorem decodeLoop_act (fuel i n : ℕ) (m : Memory (feedSize capacity)) (bound : used ≤ AUTH_FRAME_MAX)
    (enough : used - i ≤ fuel) (room : n ≤ RAW_MAX) :
    let x := (decodeLoop used i n).eval act m
    decodeBlocks fuel (((m .encoded).data.take used).drop i) ((m .raw).data.take n) =
        x.1.map (fun n' => (x.2 .raw).data.take n') ∧ Kept m x.2 := by
  have len := length_take_bytes (m .encoded) bound
  induction fuel generalizing i n m with
  | zero =>
    rw [decodeLoop, if_neg (by omega), List.drop_eq_nil_of_le (by omega)]
    exact ⟨rfl, rfl, rfl⟩
  | succ fuel ih =>
    by_cases more : i < used
    · have inside : i < (m .encoded).data.length := by
        rw [Bytes.length_data]
        exact more.trans_le bound
      have here : ((m .encoded).data.take used)[i]? = some ((m .encoded).data.getD i 0) := by
        rw [List.getElem?_take_of_lt more, List.getElem?_eq_getElem inside,
          List.getD_eq_getElem _ 0 inside]
      have held := length_take_bytes (m .raw) room
      rw [decodeBlocks_at here (by omega), decodeLoop, if_pos more, eval_load, len, held]
      generalize (m .encoded).data.getD i 0 = c
      by_cases zero : c = 0
      · rw [if_pos zero, if_pos zero]
        exact ⟨rfl, rfl, rfl⟩
      · rw [if_neg zero, if_neg zero, eval_sub, eval_sub]
        by_cases long : used - (i + 1) < c.toNat - 1
        · rw [if_pos long, if_pos long]
          exact ⟨rfl, rfl, rfl⟩
        · rw [if_neg long, if_neg long, Prog.eval_bind]
          have copy := copyLoop_act (c.toNat - 1) (i + 1) n m (by omega) room
          generalize c.toNat - 1 = j at long copy ⊢
          generalize (copyLoop j (i + 1) n).eval act m = x at copy ⊢
          obtain ⟨_, m'⟩ := x
          obtain ⟨rfl, bytes, kept⟩ := copy
          dsimp only at bytes kept
          by_cases fits : n + j ≤ RAW_MAX
          · have block : (((m .encoded).data.take used).drop (i + 1)).take j =
                ((m .encoded).data.drop (i + 1)).take j := by
              rw [List.drop_take, List.take_take, Nat.min_eq_left (by omega)]
            rw [← kept.encoded] at len
            rw [if_pos fits, if_pos fits, block, ← bytes fits, ← kept.encoded]
            dsimp only
            by_cases gap : (decide (c ≠ 255) && decide (i + 1 + j < used)) = true
            · rw [if_pos gap, if_pos gap]
              by_cases full : RAW_MAX ≤ n + j
              · rw [if_pos full, if_pos full]
                exact ⟨rfl, kept⟩
              · rw [if_neg full, if_neg full, eval_store]
                have next := kept_stored m' (n + j) 0
                rw [← next.encoded] at len
                obtain ⟨same, kept'⟩ := ih (i + 1 + j) (n + j + 1) _ (by omega) (by omega) len
                rw [next.encoded, take_stored (show n + j < feedSize capacity .raw from
                  Nat.not_le.mp full)] at same
                exact ⟨same, kept.trans (next.trans kept')⟩
            · rw [if_neg gap, if_neg gap]
              obtain ⟨same, kept'⟩ := ih (i + 1 + j) (n + j) m' (by omega) fits len
              exact ⟨same, kept.trans kept'⟩
          · rw [if_neg fits, if_neg fits]
            exact ⟨rfl, kept⟩
    · rw [decodeLoop, if_neg more, List.drop_eq_nil_of_le (by omega)]
      exact ⟨rfl, rfl, rfl⟩

theorem legalKind_act (m : Memory (feedSize capacity)) : legalKind.eval act m =
    (legalFrame ((m .raw).data.getD 0 0) ((m .raw).data.getD 1 0).toNat, m) := by
  have kind : ∀ type len, (kindIs type len).eval act m =
      ((m .raw).data.getD 0 0 == type && ((m .raw).data.getD 1 0).toNat == len, m) := by
    intro type len
    rw [kindIs, eval_load]
    by_cases same : (m .raw).data.getD 0 0 = type
    · rw [if_neg (not_not.mpr same), same, beq_self_eq_true, Bool.true_and]
      rfl
    · rw [if_pos same, beq_false_of_ne same]
      rfl
  rw [legalKind, Prog.eval_bind, kind, legalFrame]
  cases (m .raw).data.getD 0 0 == AUTH_FRAME_REQUEST &&
      ((m .raw).data.getD 1 0).toNat == SIMPLE_REQUEST_LEN with
  | true => rfl
  | false =>
    simp only [Bool.false_eq_true, if_false, Bool.false_or]
    rw [Prog.eval_bind, kind]
    cases (m .raw).data.getD 0 0 == AUTH_FRAME_RESPONSE &&
        ((m .raw).data.getD 1 0).toNat == SIMPLE_REPORT_LEN with
    | true => rfl
    | false =>
      simp only [Bool.false_eq_true, if_false, Bool.false_or]
      exact kind _ _

theorem acceptsRaw_act {n : ℕ} (m : Memory (feedSize capacity)) (room : n ≤ RAW_MAX) :
    (acceptsRaw n capacity).eval act m =
      (Transport.acceptsRaw ((m .raw).data.take n) capacity, m) := by
  have held := length_take_bytes (m .raw) room
  rw [acceptsRaw, Transport.acceptsRaw, held]
  by_cases short : n < 2
  · rw [if_pos short, decide_eq_true short]
    rfl
  · rw [if_neg short, decide_eq_false short, getD_take (by omega), getD_take (by omega), eval_load,
      eval_sub]
    by_cases len : ((m .raw).data.getD 1 0).toNat = n - 2
    · rw [if_neg (not_not.mpr len), eval_sub, bne_eq_false_iff_eq.mpr len]
      by_cases full : capacity < n - 2
      · rw [if_pos full, decide_eq_true full]
        rfl
      · rw [if_neg full, decide_eq_false full, legalKind_act]
        simp only [Bool.false_or, Bool.not_not]
    · rw [if_pos len, bne_iff_ne.mpr len]
      rfl

end

structure Receiver where
  fields : ReceiverFields
  encoded : Bytes AUTH_FRAME_MAX

def Receiver.zero : Receiver := ⟨⟨0, 0, false⟩, .fill AUTH_FRAME_MAX 0⟩

def plain (r : AuthReceiver) : Receiver := ⟨⟨r.used, r.startedMs, r.discard⟩, r.encoded⟩

/-- What a call leaves in the receiver, returns, and leaves in the caller's variables. -/
def outcome {capacity : ℕ} (x : FeedReturn × Memory (feedSize capacity)) : Receiver × ℤ × FrameOut :=
  (⟨x.1.receiver, x.2 .encoded⟩, x.1.result, ⟨x.1.type, (x.2 .payload).data, x.1.length⟩)

section
variable {r : AuthReceiver} {out : FrameOut} {m : Memory (feedSize out.payload.length)}

theorem outcome_rejected {m' : Memory (feedSize out.payload.length)} (kept : Kept m m')
    (payload : (m .payload).data = out.payload) (cleared : out.length = 0) (result : ℤ)
    (s : ReceiverFields) :
    outcome (⟨s, result, out.type, 0⟩, m') = (⟨s, m .encoded⟩, result, out) := by
  simp only [outcome, kept.encoded, kept.payload, payload, ← cleared]

theorem endFrame_act (encoded : m .encoded = r.encoded) (payload : (m .payload).data = out.payload)
    (cleared : out.length = 0) :
    outcome ((endFrame (plain r).fields out.type out.payload.length).eval act m) =
      Prod.map plain id (Transport.endFrame r out) := by
  obtain ⟨_, used, startedMs, discard, used_le⟩ := r
  obtain rfl : m .encoded = _ := encoded
  have same : Kept m m := ⟨rfl, rfl⟩
  have frame := length_take_bytes (m .encoded) used_le
  rw [endFrame, endFrame_eq]
  dsimp only [plain]
  cases discard with
  | true => exact outcome_rejected same payload cleared _ _
  | false =>
    simp only [frameResult, Bool.false_eq_true, if_false, frame]
    by_cases empty : used = 0
    · have nothing : ((m .encoded).data.take used).isEmpty = true := by simp [empty]
      simp only [empty, if_true] at nothing ⊢
      exact outcome_rejected same payload cleared _ _
    · have something : ((m .encoded).data.take used).isEmpty = false := by
        rw [List.isEmpty_eq_false_iff, ← List.length_pos_iff, frame]
        exact Nat.pos_of_ne_zero empty
      obtain ⟨decoded, kept⟩ := decodeLoop_act used 0 0 m used_le (Nat.sub_le _ _)
        (Nat.zero_le _)
      obtain ⟨es, traced, -⟩ := traced_eval act (decodeLoop used 0 0) m
      have bound := (@traced_decodeLoop es used 0 _ _ _ traced (Nat.zero_le _)).2
      rw [List.drop_zero, List.take_zero] at decoded
      simp only [empty, something, Bool.false_eq_true, if_false]
      rw [Prog.eval_bind, decoded]
      generalize (decodeLoop used 0 0).eval act m = x at kept bound ⊢
      obtain ⟨result, m'⟩ := x
      dsimp only at kept bound ⊢
      cases result with
      | none => exact outcome_rejected kept payload cleared _ _
      | some n =>
        have room := bound n rfl
        rw [Option.map_some]
        dsimp only
        rw [Prog.eval_bind, acceptsRaw_act m' room]
        dsimp only
        cases accepted : Transport.acceptsRaw ((m' .raw).data.take n) out.payload.length with
        | false => exact outcome_rejected kept payload cleared _ _
        | true =>
          obtain ⟨kind, body, taken, -, fits⟩ := accepts_iff.mp accepted
          have len : n = body.length + 2 := by
            have held := congrArg List.length taken
            rwa [length_take_bytes (m' .raw) room] at held
          simp only [Bool.not_true, Bool.false_eq_true, if_false, if_true]
          rw [eval_load, eval_sub, Prog.eval_bind, getD_take (by omega),
            length_take_bytes (m' .raw) room]
          obtain ⟨bytes, others⟩ := @memcpy_act _ _ (feedSize out.payload.length) .payload .raw
            (by decide) 0 2 (n - 2) m' (by change 0 + (n - 2) ≤ out.payload.length; omega)
            (by change 2 + (n - 2) ≤ RAW_MAX; omega)
          rw [kept.payload, payload, ← List.drop_take] at bytes
          have encoded := (others .encoded (by decide)).trans kept.encoded
          simp only [outcome, Prog.pure_eq, Prog.eval_done, bytes, encoded]
          rfl

theorem takeByte_act (byte : UInt8) (now : UInt32) (encoded : m .encoded = r.encoded) :
    let x := (takeByte (plain r).fields byte now).eval act m
    (⟨x.1, x.2 .encoded⟩ : Receiver) = plain (Transport.takeByte r byte now) ∧
      x.2 .payload = m .payload := by
  obtain ⟨_, used, startedMs, discard, used_le⟩ := r
  obtain rfl : m .encoded = _ := encoded
  cases discard with
  | true => exact ⟨by simp [takeByte, plain, Transport.takeByte], by simp [takeByte, plain]⟩
  | false =>
    have started : takeByte ⟨used, startedMs, false⟩ byte now =
        if AUTH_FRAME_MAX ≤ used then pure ⟨used, if used = 0 then now else startedMs, true⟩
        else store .encoded used byte >>= fun _ =>
          pure ⟨used + 1, if used = 0 then now else startedMs, false⟩ := by
      by_cases empty : used = 0 <;> simp [takeByte, empty]
    rw [takeByte_open rfl]
    dsimp only [plain]
    rw [started]
    by_cases full : AUTH_FRAME_MAX ≤ used
    · rw [if_pos full, dif_neg (Nat.not_lt.mpr full)]
      exact ⟨rfl, rfl⟩
    · rw [if_neg full, dif_pos (Nat.not_le.mp full), eval_store, Prog.pure_eq, Prog.eval_done]
      have written : stored m .encoded used byte .encoded =
          ⟨(m .encoded).data.set used byte, by simp⟩ := Bytes.ext (stored_same m .encoded used byte)
      refine ⟨?_, stored_other m (show FeedArray.payload ≠ .encoded by decide) used byte⟩
      dsimp only
      rw [written]
      rfl

end

structure FeedArgs where
  pointers : Bool
  byte : UInt8
  nowMs : UInt32
  frameTimeoutMs : UInt32
  out : FrameOut
  stack : Bytes RAW_MAX

def FeedArgs.program (x : FeedArgs) (r : ReceiverFields) : ArrayProg FeedArray FeedReturn :=
  authFrameFeed x.pointers r x.byte x.nowMs x.frameTimeoutMs x.out.type x.out.length
    x.out.payload.length

def feedMemory (r : Receiver) (x : FeedArgs) : Memory (feedSize x.out.payload.length)
  | .encoded => r.encoded
  | .raw => x.stack
  | .payload => ⟨x.out.payload, rfl⟩

inductive ReceiverInput where
  | discard (b : Bool)
  | feed (x : FeedArgs)

section
variable (undefined : ∀ capacity, Behaviour (feedSize capacity))

def feedRun (r : Receiver) (x : FeedArgs) : Receiver × ℤ × FrameOut :=
  outcome ((x.program r.fields).eval (perform (undefined _)) (feedMemory r x))

def feedOps (r : Receiver) (x : FeedArgs) : List (ArrayOp FeedArray) :=
  ops (undefined _) (x.program r.fields) (feedMemory r x)

def receiverStep (r : Receiver) : ReceiverInput → Receiver
  | .discard b => { r with fields := { r.fields with discard := b } }
  | .feed x => (feedRun undefined r x).1

def receiverAfter (xs : List ReceiverInput) : Receiver :=
  xs.foldl (receiverStep undefined) .zero

theorem feed_ops (r : Receiver) (x : FeedArgs) (bound : r.fields.used ≤ AUTH_FRAME_MAX) :
    ∀ op ∈ feedOps undefined r x, FeedInside r.fields.used x.out.payload.length op :=
  ops_of_traces (undefined _) (fun _ _ traced => (traced_feed traced bound).1) _

theorem feed_refines (r : AuthReceiver) (x : FeedArgs) (valid : x.pointers = true) :
    feedRun undefined (plain r) x = Prod.map plain id
      (Transport.authFrameFeed r x.byte x.nowMs x.frameTimeoutMs x.out) := by
  have defined := eval_defined (undefined _) (x.program (plain r).fields) (feedMemory (plain r) x)
    fun op here => feed_legal r.used_le (feed_ops undefined (plain r) x r.used_le op here)
  rw [feedRun, defined, FeedArgs.program, authFrameFeed, valid]
  by_cases dead : x.frameTimeoutMs = 0
  · rw [if_pos (by simp [dead]), Transport.authFrameFeed, if_pos dead]
    rfl
  · rw [if_neg (by simp [dead]), feed_eq dead]
    have kept : feedMemory (plain r) x .encoded = (expire r x.nowMs x.frameTimeoutMs).encoded := rfl
    by_cases zero : x.byte = 0
    · rw [if_neg (not_not.mpr zero), if_neg (not_not.mpr zero)]
      exact @endFrame_act (expire r x.nowMs x.frameTimeoutMs) { x.out with length := 0 } _ kept
        rfl rfl
    · obtain ⟨taken, payload⟩ := @takeByte_act (expire r x.nowMs x.frameTimeoutMs) x.out _ x.byte
        x.nowMs kept
      rw [if_pos zero, if_pos zero, Prog.eval_bind]
      have same := congrArg (fun bytes : Bytes _ => (⟨x.out.type, bytes.data, 0⟩ : FrameOut)) payload
      exact Prod.ext taken (Prod.ext rfl same)

def ofStream (timeout : UInt32) (stack : Bytes RAW_MAX) : StreamInput → ReceiverInput
  | .feed x => .feed ⟨true, x.byte, x.nowMs, timeout, x.out, stack⟩
  | .uartError => .discard true

theorem run_refines (timeout : UInt32) (stack : Bytes RAW_MAX) (xs : List StreamInput)
    (r : AuthReceiver) : (xs.map (ofStream timeout stack)).foldl (receiverStep undefined) (plain r) =
      plain (streamRun timeout r xs).1 := by
  induction xs generalizing r with
  | nil => rfl
  | cons x xs ih =>
    have step : receiverStep undefined (plain r) (ofStream timeout stack x) =
        plain (streamStep timeout r x).1 := by
      cases x with
      | feed x =>
        have refined := feed_refines undefined r ⟨true, x.byte, x.nowMs, timeout, x.out, stack⟩ rfl
        exact congrArg Prod.fst refined
      | uartError => rfl
    rw [List.map_cons, List.foldl_cons, step, ih, streamRun]

/-- A call that a stream leads to does at its arrays what it does on lists, whatever undefined
    accesses would do. -/
theorem arrays_refine (timeout : UInt32) (stack stack' : Bytes RAW_MAX) (xs : List StreamInput) (byte : UInt8)
    (nowMs limit : UInt32) (out : FrameOut) :
    feedRun undefined (receiverAfter undefined (xs.map (ofStream timeout stack)))
        ⟨true, byte, nowMs, limit, out, stack'⟩ =
      Prod.map plain id (Transport.authFrameFeed (streamRun timeout .zero xs).1 byte nowMs limit out) := by
  have reached : receiverAfter undefined (xs.map (ofStream timeout stack)) = plain (streamRun timeout .zero xs).1 :=
    run_refines undefined timeout stack xs .zero
  rw [reached]
  exact feed_refines undefined _ ⟨true, byte, nowMs, limit, out, stack'⟩ rfl

theorem used_step {r : Receiver} (bound : r.fields.used ≤ AUTH_FRAME_MAX) (x : ReceiverInput) :
    (receiverStep undefined r x).fields.used ≤ AUTH_FRAME_MAX := by
  cases x with
  | discard b => exact bound
  | feed x =>
    obtain ⟨es, traced, -⟩ := traced_eval (perform (undefined _)) (x.program r.fields)
      (feedMemory r x)
    exact (@traced_feed es x.out.payload.length _ _ _ _ _ _ _ _ traced bound).2

theorem used_after (xs : List ReceiverInput) :
    (receiverAfter undefined xs).fields.used ≤ AUTH_FRAME_MAX := by
  have run : ∀ r : Receiver, r.fields.used ≤ AUTH_FRAME_MAX →
      (xs.foldl (receiverStep undefined) r).fields.used ≤ AUTH_FRAME_MAX := by
    induction xs with
    | nil => exact fun r bound => bound
    | cons x xs ih => exact fun r bound => ih _ (used_step undefined bound x)
  exact run .zero (Nat.zero_le _)

end

theorem encode_inside (pointers : Bool) (type : UInt8) (payload out : List UInt8)
    (stack : Bytes RAW_MAX) (undefined : Behaviour (encodeSize payload.length out.length))
    (accepted : (encodeRun type payload out stack undefined pointers).1 ≠ 0) :
    payload.length + 4 ≤ out.length ∧
      (encodeRun type payload out stack undefined pointers).1 = payload.length + 4 ∧
      (∀ q, q < payload.length + 4 →
        ∃ b, .store .out q b ∈ encodeOps type payload out stack undefined pointers) ∧
      ∃ frame : List UInt8, frame.length = payload.length + 3 ∧ (∀ b ∈ frame, b ≠ 0) ∧
        (encodeRun type payload out stack undefined pointers).2 =
          frame ++ 0 :: out.drop (payload.length + 4) := by
  obtain ⟨es, traced, same⟩ := traced_eval (perform undefined)
    (authFrameEncode pointers type payload.length out.length) (encodeMemory payload out stack)
  rcases traced_encode traced with ⟨refused, -⟩ | ⟨⟨rfl, legal, room⟩, -, len, wrote⟩
  · exact absurd refused accepted
  · have small := legal_length legal
    refine ⟨room, len, fun q below => ?_, stuff (rawFrame type payload), length_stuff _,
      stuff_nonzero (by change payload.length + 2 ≤ 254; omega), ?_⟩
    · obtain ⟨e, here, b, call⟩ := wrote q below
      have listed : encodeOps type payload out stack undefined true = es.map Event.call := same
      rw [listed]
      exact ⟨b, List.mem_map.mpr ⟨e, here, call⟩⟩
    · rw [encode_refines, encode_eq legal room]
      rfl

/-- Whatever an illegal operation would do, there is none: the encoder writes the whole frame and
    nothing else, and in every state a receiver can reach a call stays inside the arrays. -/
theorem framing_stays_inside :
    (∀ (pointers : Bool) (type : UInt8) (payload out : List UInt8) (stack : Bytes RAW_MAX)
        (undefined : Behaviour (encodeSize payload.length out.length)),
      (encodeRun type payload out stack undefined pointers).1 ≠ 0 →
      payload.length + 4 ≤ out.length ∧
        (encodeRun type payload out stack undefined pointers).1 = payload.length + 4 ∧
        (∀ op ∈ encodeOps type payload out stack undefined pointers,
          EncodeInside payload.length op ∧ Legal (encodeSize payload.length out.length) op) ∧
        (∀ q, q < payload.length + 4 →
          ∃ b, .store .out q b ∈ encodeOps type payload out stack undefined pointers) ∧
        ∃ frame : List UInt8, frame.length = payload.length + 3 ∧ (∀ b ∈ frame, b ≠ 0) ∧
          (encodeRun type payload out stack undefined pointers).2 =
            frame ++ 0 :: out.drop (payload.length + 4)) ∧
    ∀ (undefined : ∀ capacity, Behaviour (feedSize capacity)) (xs : List ReceiverInput),
      (receiverAfter undefined xs).fields.used ≤ AUTH_FRAME_MAX ∧
        ∀ x, ∀ op ∈ feedOps undefined (receiverAfter undefined xs) x,
          FeedInside (receiverAfter undefined xs).fields.used x.out.payload.length op ∧
            Legal (feedSize x.out.payload.length) op := by
  refine ⟨fun pointers type payload out stack undefined accepted => ?_, fun undefined xs => ?_⟩
  · obtain ⟨room, len, written, frame⟩ :=
      encode_inside pointers type payload out stack undefined accepted
    exact ⟨room, len, encode_ops undefined pointers type _, written, frame⟩
  · have bound := used_after undefined xs
    refine ⟨bound, fun x op here => ?_⟩
    have inside := feed_ops undefined _ x bound op here
    exact ⟨inside, feed_legal bound inside⟩

theorem framing_stays_inside_small :
    (encodeRun 3 [12] [9, 9, 9, 9, 9] (.fill RAW_MAX 7) act true).1 = 5 ∧
      (receiverAfter (fun _ => act)
        [.feed ⟨true, 4, 0, 100, smallOut, .fill RAW_MAX 7⟩, .discard true]).fields.used ≤ 88 :=
  ⟨(framing_stays_inside.1 true 3 [12] [9, 9, 9, 9, 9] (.fill RAW_MAX 7) act
      (by rw [encode_refines]; decide)).2.1,
    (framing_stays_inside.2 (fun _ => act)
      [.feed ⟨true, 4, 0, 100, smallOut, .fill RAW_MAX 7⟩, .discard true]).1⟩

end SimpleAttestation.FrameBounds
