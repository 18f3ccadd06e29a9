import SimpleAttestation.ArrayPrograms
import SimpleAttestation.TransportFrames

set_option autoImplicit false

/-!
# The frame encoder and decoder at their arrays (auth_transport.c)

Every access to an array, every subtraction of two sizes and every increment of the code
byte is an operation of its own here. Nothing is assumed of `used`.
-/
namespace SimpleAttestation.FrameArrays
open ByteStrings Wire CallProgram CallTraces Platform Transport TransportFrames
  ArrayPrograms

inductive EncodeArray where
  | raw | payload | out
deriving DecidableEq

structure EncodeVars where
  pos : ℕ
  codePos : ℕ
  code : UInt8

/-- The loop from `i` on, with `left` bytes of `raw` left. -/
def encodeLoop : ℕ → ℕ → EncodeVars → ArrayProg EncodeArray EncodeVars
  | 0, _, s => pure s
  | left + 1, i, s => do
    let tested ← load .raw i
    if tested = 0 then do
      store .out s.codePos s.code
      encodeLoop left (i + 1) { pos := s.pos + 1, codePos := s.pos, code := 1 }
    else do
      let b ← load .raw i
      store .out s.pos b
      let code ← increment s.code
      encodeLoop left (i + 1) { s with pos := s.pos + 1, code := code }

/-- `pointers` says that none of the arguments is a null pointer. -/
def authFrameEncode (pointers : Bool) (type : UInt8) (len capacity : ℕ) : ArrayProg EncodeArray ℕ :=
  if !pointers || !legalFrame type len || decide (capacity < len + 4) then pure 0
  else do
    store .raw 0 type
    store .raw 1 (UInt8.ofNat len)
    memcpy .raw 2 .payload 0 len
    let s ← encodeLoop (len + 2) 0 { pos := 1, codePos := 0, code := 1 }
    store .out s.codePos s.code
    store .out s.pos 0
    pure (s.pos + 1)

inductive FeedArray where
  | encoded | raw | payload
deriving DecidableEq

/-- Copy `j` bytes from `encoded + i` to `raw + n`; `none` when `raw` is full. -/
def copyLoop : ℕ → ℕ → ℕ → ArrayProg FeedArray (Option ℕ)
  | 0, _, n => pure (some n)
  | j + 1, i, n =>
    if RAW_MAX ≤ n then pure none
    else do
      let b ← load .encoded i
      store .raw n b
      copyLoop j (i + 1) (n + 1)

def decodeLoop (used i n : ℕ) : ArrayProg FeedArray (Option ℕ) :=
  if i < used then do
    let code ← load .encoded i
    if code = 0 then pure none
    else do
      let block ← sub code.toNat 1
      let left ← sub used (i + 1)
      if left < block then pure none
      else do
        let copied ← copyLoop (code.toNat - 1) (i + 1) n
        match copied with
        | none => pure none
        | some n =>
          let i' := i + 1 + (code.toNat - 1)
          if code ≠ 255 && decide (i' < used) then
            if RAW_MAX ≤ n then pure none
            else do
              store .raw n 0
              decodeLoop used i' (n + 1)
          else decodeLoop used i' n
  else pure (some n)
termination_by used - i

def kindIs (type : UInt8) (len : ℕ) : ArrayProg FeedArray Bool := do
  let t ← load .raw 0
  if t ≠ type then pure false
  else do
    let l ← load .raw 1
    pure (l.toNat == len)

def legalKind : ArrayProg FeedArray Bool := do
  let request ← kindIs AUTH_FRAME_REQUEST SIMPLE_REQUEST_LEN
  if request then pure true
  else do
    let response ← kindIs AUTH_FRAME_RESPONSE SIMPLE_REPORT_LEN
    if response then pure true else kindIs AUTH_FRAME_DIAGNOSTIC 1

def acceptsRaw (n capacity : ℕ) : ArrayProg FeedArray Bool :=
  if n < 2 then pure false
  else do
    let len ← load .raw 1
    let rest ← sub n 2
    if len.toNat ≠ rest then pure false
    else do
      let rest ← sub n 2
      if capacity < rest then pure false else legalKind

structure ReceiverFields where
  used : ℕ
  startedMs : UInt32
  discard : Bool

structure FeedReturn where
  receiver : ReceiverFields
  result : ℤ
  type : UInt8
  length : ℕ

def endFrame (r : ReceiverFields) (type : UInt8) (capacity : ℕ) : ArrayProg FeedArray FeedReturn :=
  let used := r.used
  let r := { r with used := 0 }
  if r.discard then pure ⟨{ r with discard := false }, -1, type, 0⟩
  else if used = 0 then pure ⟨r, 0, type, 0⟩
  else do
    let decoded ← decodeLoop used 0 0
    match decoded with
    | none => pure ⟨r, -1, type, 0⟩
    | some n => do
      let accepted ← acceptsRaw n capacity
      if !accepted then pure ⟨r, -1, type, 0⟩
      else do
        let type ← load .raw 0
        let length ← sub n 2
        memcpy .payload 0 .raw 2 length
        pure ⟨r, 1, type, length⟩

def takeByte (r : ReceiverFields) (byte : UInt8) (nowMs : UInt32) :
    ArrayProg FeedArray ReceiverFields :=
  let r := if r.used = 0 && !r.discard then { r with startedMs := nowMs } else r
  if r.discard then pure r
  else if AUTH_FRAME_MAX ≤ r.used then pure { r with discard := true }
  else do
    store .encoded r.used byte
    pure { r with used := r.used + 1 }

/-- `type` and `length` are what the caller's variables hold. -/
def authFrameFeed (pointers : Bool) (r : ReceiverFields) (byte : UInt8)
    (nowMs frameTimeoutMs : UInt32) (type : UInt8) (length capacity : ℕ) :
    ArrayProg FeedArray FeedReturn :=
  if !pointers || frameTimeoutMs == 0 then pure ⟨r, -1, type, length⟩
  else
    let late := r.used ≠ 0 && authExpired nowMs r.startedMs frameTimeoutMs
    let r := { r with discard := r.discard || late }
    if byte ≠ 0 then do
      let r ← takeByte r byte nowMs
      pure ⟨r, 0, type, 0⟩
    else endFrame r type capacity

def EncodeInside (len : ℕ) : ArrayOp EncodeArray → Prop
  | .load .raw i | .store .raw i _ => i < len + 2
  | .load .payload i => i < len
  | .store .out i _ => i < len + 4
  | .increment code => code.toNat + 1 ≤ len + 3
  | _ => False

/-- The operations of a call that finds `used` bytes. -/
def FeedInside (used capacity : ℕ) : ArrayOp FeedArray → Prop
  | .load .encoded i => i < used
  | .store .encoded i _ => i < AUTH_FRAME_MAX
  | .load .raw i | .store .raw i _ => i < RAW_MAX
  | .store .payload i _ => i < capacity
  | .sub m n => n ≤ m
  | _ => False

/-- The variables of the encoder before it reads `raw[i]`. -/
structure Placed (i : ℕ) (s : EncodeVars) : Prop where
  pos : s.pos = i + 1
  codePos : s.codePos ≤ i
  code : s.code.toNat ≤ i + 1

def Wrote (es : List (ArrayEvent EncodeArray)) (q : ℕ) : Prop :=
  ∃ e ∈ es, ∃ b, e.call = .store .out q b

section
variable {len : ℕ} {es fs : List (ArrayEvent EncodeArray)} {s s' : EncodeVars} {q : ℕ}

theorem wrote_subset (sub : es ⊆ fs) (h : Wrote es q) : Wrote fs q := by
  obtain ⟨e, here, wrote⟩ := h
  exact ⟨e, sub here, wrote⟩

theorem toNat_increment {code : UInt8} {n : ℕ} (h : code.toNat ≤ n) (small : n ≤ 254) :
    (code + 1).toNat = code.toNat + 1 := by
  rw [UInt8.toNat_add]
  exact Nat.mod_eq_of_lt (by change code.toNat + 1 < 256; omega)

theorem placed_zero {i : ℕ} (h : Placed i s) :
    Placed (i + 1) { pos := s.pos + 1, codePos := s.pos, code := 1 } :=
  ⟨congrArg (· + 1) h.pos, h.pos.le, Nat.succ_le_succ (Nat.zero_le _)⟩

theorem placed_byte {i : ℕ} (h : Placed i s) (small : i + 1 ≤ 254) :
    Placed (i + 1) { s with pos := s.pos + 1, code := s.code + 1 } := by
  have next := toNat_increment h.code small
  have code := h.code
  refine ⟨congrArg (· + 1) h.pos, h.codePos.trans (Nat.le_succ i), ?_⟩
  dsimp only
  omega

/-- The place of the open code is the only one below `pos` that is still to be written. -/
theorem traced_encodeLoop {left i : ℕ} (h : Traced (encodeLoop left i s) es s')
    (all : i + left = len + 2) (small : len ≤ 84) (placed : Placed i s) :
    (∀ e ∈ es, EncodeInside len e.call) ∧ Placed (len + 2) s' ∧
      ∀ q, q = s.codePos ∨ s.pos ≤ q → q < s'.pos → q = s'.codePos ∨ Wrote es q := by
  induction left generalizing i s es with
  | zero =>
    obtain ⟨rfl, rfl⟩ := h
    obtain rfl : i = len + 2 := all
    refine ⟨by simp, placed, fun q here below => Or.inl ?_⟩
    omega
  | succ left ih =>
    have pos := placed.pos
    have codePos := placed.codePos
    have code := placed.code
    rw [encodeLoop, traced_load] at h
    obtain ⟨tested, _, rfl, h⟩ := h
    have first : i < len + 2 := by omega
    split at h
    · rw [traced_store] at h
      obtain ⟨rest, rfl, h⟩ := h
      obtain ⟨inside, placed, wrote⟩ := ih h (by omega) (placed_zero placed)
      have closes : s.codePos < len + 4 := by omega
      refine ⟨?_, placed, fun q here below => ?_⟩
      · exact List.forall_mem_cons.mpr ⟨first, List.forall_mem_cons.mpr ⟨closes, inside⟩⟩
      · by_cases closed : q = s.codePos
        · exact Or.inr ⟨⟨.store .out s.codePos s.code, ()⟩, by simp, s.code, by rw [closed]⟩
        · refine (wrote q ?_ below).imp id (wrote_subset fun e he => by simp [he])
          dsimp only
          omega
    · rw [traced_load] at h
      obtain ⟨b, _, rfl, h⟩ := h
      rw [traced_store] at h
      obtain ⟨_, rfl, h⟩ := h
      rw [traced_increment] at h
      obtain ⟨rest, rfl, h⟩ := h
      obtain ⟨inside, placed, wrote⟩ := ih h (by omega) (placed_byte placed (by omega))
      have copies : s.pos < len + 4 := by omega
      have counts : s.code.toNat + 1 ≤ len + 3 := by omega
      refine ⟨?_, placed, fun q here below => ?_⟩
      · exact List.forall_mem_cons.mpr ⟨first, List.forall_mem_cons.mpr ⟨first,
          List.forall_mem_cons.mpr ⟨copies, List.forall_mem_cons.mpr ⟨counts, inside⟩⟩⟩⟩
      · by_cases copied : q = s.pos
        · exact Or.inr ⟨⟨.store .out s.pos b, ()⟩, by simp, b, by rw [copied]⟩
        · refine (wrote q ?_ below).imp id (wrote_subset fun e he => by simp [he])
          dsimp only
          omega

theorem traced_encode {pointers : Bool} {type : UInt8} {capacity n : ℕ}
    (h : Traced (authFrameEncode pointers type len capacity) es n) :
    n = 0 ∧ es = [] ∨ (pointers = true ∧ legalFrame type len = true ∧ len + 4 ≤ capacity) ∧
      (∀ e ∈ es, EncodeInside len e.call) ∧ n = len + 4 ∧ ∀ q, q < len + 4 → Wrote es q := by
  rw [authFrameEncode] at h
  split at h
  · obtain ⟨rfl, rfl⟩ := h
    exact Or.inl ⟨rfl, rfl⟩
  · rename_i opens
    simp only [Bool.or_eq_true, Bool.not_eq_true', decide_eq_true_eq, not_or, Bool.not_eq_false,
      Nat.not_lt] at opens
    obtain ⟨⟨pointers, legal⟩, room⟩ := opens
    have small := legal_length legal
    refine Or.inr ⟨⟨pointers, legal, room⟩, ?_⟩
    rw [traced_store] at h
    obtain ⟨_, rfl, h⟩ := h
    rw [traced_store] at h
    obtain ⟨_, rfl, h⟩ := h
    rw [traced_bind] at h
    obtain ⟨_, copies, _, rfl, copied, h⟩ := h
    rw [traced_bind] at h
    obtain ⟨s, loop, _, rfl, looped, h⟩ := h
    rw [traced_store] at h
    obtain ⟨_, rfl, h⟩ := h
    rw [traced_store] at h
    obtain ⟨_, rfl, rfl, rfl⟩ := h
    obtain ⟨inside, ⟨pos, codePos, -⟩, wrote⟩ := traced_encodeLoop looped (Nat.zero_add _) small
      ⟨rfl, Nat.le_refl 0, Nat.le_refl 1⟩
    refine ⟨?_, by omega, fun q below => ?_⟩
    · simp only [List.forall_mem_cons, List.forall_mem_append]
      refine ⟨by simp [EncodeInside], by simp [EncodeInside], fun e he => ?_, inside, ?_, ?_, by simp⟩
      · rcases traced_memcpy copied e he with ⟨i, -, high, same⟩ | ⟨i, b, -, high, same⟩
        · rw [same]
          change i < len
          omega
        · rw [same]
          change i < len + 2
          omega
      · change s.codePos < len + 4
        omega
      · change s.pos < len + 4
        omega
    · by_cases last : q = s.pos
      · exact ⟨⟨.store .out s.pos 0, ()⟩, by simp, 0, by rw [last]⟩
      · rcases wrote q (by dsimp only; omega) (by omega) with closing | earlier
        · exact ⟨⟨.store .out s.codePos s.code, ()⟩, by simp, s.code, by rw [closing]⟩
        · exact wrote_subset (fun e he => by simp [he]) earlier

end

section
variable {es : List (ArrayEvent FeedArray)} {used capacity : ℕ}

theorem traced_copyLoop {j i n : ℕ} {copied : Option ℕ} (h : Traced (copyLoop j i n) es copied)
    (short : i + j ≤ used) : (∀ e ∈ es, FeedInside used capacity e.call) ∧
      ∀ n', copied = some n' → n' = n + j ∧ (n ≤ RAW_MAX → n' ≤ RAW_MAX) := by
  induction j generalizing i n es with
  | zero =>
    obtain ⟨rfl, rfl⟩ := h
    exact ⟨by simp, fun n' same => by cases same; exact ⟨rfl, id⟩⟩
  | succ j ih =>
    rw [copyLoop] at h
    split at h
    · obtain ⟨rfl, rfl⟩ := h
      exact ⟨by simp, fun n' same => by cases same⟩
    · rename_i room
      rw [traced_load] at h
      obtain ⟨b, _, rfl, h⟩ := h
      rw [traced_store] at h
      obtain ⟨_, rfl, h⟩ := h
      obtain ⟨inside, copied⟩ := ih h (by omega)
      refine ⟨List.forall_mem_cons.mpr ⟨?_, List.forall_mem_cons.mpr ⟨?_, inside⟩⟩, fun n' same => ?_⟩
      · change i < used
        omega
      · exact Nat.not_le.mp room
      · obtain ⟨rfl, bound⟩ := copied n' same
        exact ⟨by omega, fun _ => bound (by omega)⟩

theorem traced_decodeLoop {i n : ℕ} {decoded : Option ℕ}
    (h : Traced (decodeLoop used i n) es decoded) (room : n ≤ RAW_MAX) : (∀ e ∈ es, FeedInside used capacity e.call) ∧
      ∀ n', decoded = some n' → n' ≤ RAW_MAX := by
  induction left : used - i using Nat.strong_induction_on generalizing i n es with
  | h left ih =>
    rw [decodeLoop] at h
    split at h
    · rename_i more
      rw [traced_load] at h
      obtain ⟨code, _, rfl, h⟩ := h
      have first : FeedInside used capacity (.load .encoded i) := more
      split at h
      · obtain ⟨rfl, rfl⟩ := h
        exact ⟨by simpa using first, fun n' same => by cases same⟩
      · rename_i some_
        rw [traced_sub] at h
        obtain ⟨_, rfl, h⟩ := h
        rw [traced_sub] at h
        obtain ⟨rest, rfl, h⟩ := h
        have positive : 1 ≤ code.toNat := Nat.pos_of_ne_zero fun e => some_ (UInt8.toNat_inj.mp e)
        suffices inside : (∀ e ∈ rest, FeedInside used capacity e.call) ∧
            ∀ n', decoded = some n' → n' ≤ RAW_MAX by
          refine ⟨?_, inside.2⟩
          refine List.forall_mem_cons.mpr ⟨first, List.forall_mem_cons.mpr ⟨positive,
            List.forall_mem_cons.mpr ⟨?_, inside.1⟩⟩⟩
          exact Nat.succ_le_of_lt more
        split at h
        · obtain ⟨rfl, rfl⟩ := h
          exact ⟨by simp, fun n' same => by cases same⟩
        · rename_i fits
          rw [traced_bind] at h
          obtain ⟨copied, copies, rest, rfl, copy, h⟩ := h
          obtain ⟨copiesInside, bound⟩ :=
            @traced_copyLoop copies used capacity _ _ _ _ copy (by omega)
          suffices inside : (∀ e ∈ rest, FeedInside used capacity e.call) ∧
              ∀ n', decoded = some n' → n' ≤ RAW_MAX from
            ⟨List.forall_mem_append.mpr ⟨copiesInside, inside.1⟩, inside.2⟩
          cases copied with
          | none =>
            obtain ⟨rfl, rfl⟩ := h
            exact ⟨by simp, fun n' same => by cases same⟩
          | some m =>
            have held := (bound m rfl).2 room
            dsimp only at h
            split at h
            · split at h
              · obtain ⟨rfl, rfl⟩ := h
                exact ⟨by simp, fun n' same => by cases same⟩
              · rename_i space
                rw [traced_store] at h
                obtain ⟨rest, rfl, h⟩ := h
                obtain ⟨inside, final⟩ := ih _ (by omega) h (by omega) rfl
                exact ⟨List.forall_mem_cons.mpr ⟨Nat.not_le.mp space, inside⟩, final⟩
            · exact ih _ (by omega) h held rfl
    · obtain ⟨rfl, rfl⟩ := h
      exact ⟨by simp, fun n' same => by cases same; exact room⟩

theorem traced_kindIs {type : UInt8} {len : ℕ} {b : Bool} (h : Traced (kindIs type len) es b) :
    ∀ e ∈ es, FeedInside used capacity e.call := by
  have inside : ∀ i, i < 2 → i < RAW_MAX := fun i below => below.trans (by decide)
  rw [kindIs, traced_load] at h
  obtain ⟨t, _, rfl, h⟩ := h
  refine List.forall_mem_cons.mpr ⟨inside 0 (by decide), ?_⟩
  split at h
  · obtain ⟨rfl, -⟩ := h
    simp
  · rw [traced_load] at h
    obtain ⟨l, _, rfl, rfl, -⟩ := h
    exact List.forall_mem_cons.mpr ⟨inside 1 (by decide), by simp⟩

theorem traced_legalKind {b : Bool} (h : Traced legalKind es b) :
    ∀ e ∈ es, FeedInside used capacity e.call := by
  rw [legalKind, traced_bind] at h
  obtain ⟨request, first, rest, rfl, asked, h⟩ := h
  refine List.forall_mem_append.mpr ⟨traced_kindIs asked, ?_⟩
  split at h
  · obtain ⟨rfl, -⟩ := h
    simp
  · rw [traced_bind] at h
    obtain ⟨response, second, rest, rfl, asked, h⟩ := h
    refine List.forall_mem_append.mpr ⟨traced_kindIs asked, ?_⟩
    split at h
    · obtain ⟨rfl, -⟩ := h
      simp
    · exact traced_kindIs h

theorem traced_acceptsRaw {n : ℕ} {b : Bool} (h : Traced (acceptsRaw n capacity) es b) :
    (∀ e ∈ es, FeedInside used capacity e.call) ∧ (b = true → 2 ≤ n ∧ n - 2 ≤ capacity) := by
  have loads : FeedInside used capacity (.load .raw 1) := by change 1 < RAW_MAX; decide
  rw [acceptsRaw] at h
  split at h
  · obtain ⟨rfl, rfl⟩ := h
    exact ⟨by simp, fun no => by cases no⟩
  · rename_i two
    have two := Nat.not_lt.mp two
    rw [traced_load] at h
    obtain ⟨len, _, rfl, h⟩ := h
    rw [traced_sub] at h
    obtain ⟨_, rfl, h⟩ := h
    split at h
    · obtain ⟨rfl, rfl⟩ := h
      exact ⟨by simpa using ⟨loads, two⟩, fun no => by cases no⟩
    · rw [traced_sub] at h
      obtain ⟨_, rfl, h⟩ := h
      split at h
      · obtain ⟨rfl, rfl⟩ := h
        exact ⟨by simpa using ⟨loads, two⟩, fun no => by cases no⟩
      · rename_i room
        refine ⟨?_, fun _ => ⟨two, Nat.not_lt.mp room⟩⟩
        exact List.forall_mem_cons.mpr ⟨loads, List.forall_mem_cons.mpr ⟨two,
          List.forall_mem_cons.mpr ⟨two, traced_legalKind h⟩⟩⟩

theorem traced_endFrame {r : ReceiverFields} {type : UInt8} {x : FeedReturn}
    (h : Traced (endFrame r type capacity) es x) :
    (∀ e ∈ es, FeedInside r.used capacity e.call) ∧ x.receiver.used = 0 := by
  rw [endFrame] at h
  split at h
  · obtain ⟨rfl, rfl⟩ := h
    exact ⟨by simp, rfl⟩
  · split at h
    · obtain ⟨rfl, rfl⟩ := h
      exact ⟨by simp, rfl⟩
    · rw [traced_bind] at h
      obtain ⟨decoded, first, _, rfl, decode, h⟩ := h
      obtain ⟨inside, bound⟩ := @traced_decodeLoop first r.used capacity _ _ _ decode (Nat.zero_le _)
      cases decoded with
      | none =>
        obtain ⟨rfl, rfl⟩ := h
        exact ⟨by simpa using inside, rfl⟩
      | some n =>
        rw [traced_bind] at h
        obtain ⟨accepted, second, _, rfl, accepts, h⟩ := h
        obtain ⟨acceptsInside, room⟩ := @traced_acceptsRaw second r.used capacity _ _ accepts
        have short := bound n rfl
        split at h
        · obtain ⟨rfl, rfl⟩ := h
          refine ⟨?_, rfl⟩
          simpa using fun e he => Or.elim he (inside e) (acceptsInside e)
        · rename_i yes
          obtain ⟨two, fits⟩ := room (by simpa using yes)
          rw [traced_load] at h
          obtain ⟨kind, _, rfl, h⟩ := h
          rw [traced_sub] at h
          obtain ⟨_, rfl, h⟩ := h
          rw [traced_bind] at h
          obtain ⟨_, copies, _, rfl, copied, rfl, rfl⟩ := h
          refine ⟨?_, rfl⟩
          simp only [List.forall_mem_append, List.forall_mem_cons]
          refine ⟨inside, acceptsInside, by simp [FeedInside], two, fun e he => ?_, by simp⟩
          rcases traced_memcpy copied e he with ⟨i, -, high, same⟩ | ⟨i, b, -, high, same⟩
          · rw [same]
            change i < RAW_MAX
            omega
          · rw [same]
            change i < capacity
            omega

theorem traced_takeByte {r r' : ReceiverFields} {byte : UInt8} {now : UInt32}
    (h : Traced (takeByte r byte now) es r') (bound : r.used ≤ AUTH_FRAME_MAX) :
    (∀ e ∈ es, FeedInside r.used capacity e.call) ∧ r'.used ≤ AUTH_FRAME_MAX := by
  rw [takeByte] at h
  have same : (if r.used = 0 && !r.discard then { r with startedMs := now } else r).used =
      r.used := by
    split <;> rfl
  generalize (if r.used = 0 && !r.discard then { r with startedMs := now } else r) = s at h same
  rw [← same] at bound ⊢
  split at h
  · obtain ⟨rfl, rfl⟩ := h
    exact ⟨by simp, bound⟩
  · split at h
    · obtain ⟨rfl, rfl⟩ := h
      exact ⟨by simp, bound⟩
    · rename_i room
      rw [traced_store] at h
      obtain ⟨_, rfl, rfl, rfl⟩ := h
      exact ⟨List.forall_mem_cons.mpr ⟨Nat.not_le.mp room, by simp⟩, Nat.not_le.mp room⟩

/-- Every operation of a call is inside its arrays, and so is the place of the next byte. -/
theorem traced_feed {pointers : Bool} {r : ReceiverFields} {byte : UInt8} {now timeout : UInt32}
    {type : UInt8} {length : ℕ} {x : FeedReturn}
    (h : Traced (authFrameFeed pointers r byte now timeout type length capacity) es x)
    (bound : r.used ≤ AUTH_FRAME_MAX) :
    (∀ e ∈ es, FeedInside r.used capacity e.call) ∧ x.receiver.used ≤ AUTH_FRAME_MAX := by
  rw [authFrameFeed] at h
  split at h
  · obtain ⟨rfl, rfl⟩ := h
    exact ⟨by simp, bound⟩
  · dsimp only at h
    split at h
    · rw [traced_bind] at h
      obtain ⟨_, _, _, rfl, taken, rfl, rfl⟩ := h
      have inside := @traced_takeByte _ capacity _ _ _ _ taken bound
      rw [List.append_nil]
      exact inside
    · obtain ⟨inside, empty⟩ := @traced_endFrame _ capacity _ _ _ h
      exact ⟨inside, empty.le.trans (Nat.zero_le _)⟩

end

end SimpleAttestation.FrameArrays
