import SimpleAttestation.DisplayNotices

set_option autoImplicit false

/-!
# Reading the screen

A character is recovered from its thirty-five points, a line from its thirteen characters, and
an announcement from its lines.
-/
namespace SimpleAttestation.DisplayReading
open CallProgram Platform Display DisplayScreen DisplayNotices

def dot (c : Char) (row col : ℕ) : Bool := (bits c row).testBit (4 - col)

def points (c : Char) : List Bool := (List.range 35).map fun i => dot c (i / 5) (i % 5)

def alphabet : List Char := " ABCDEFGHIJKLMNOPQRSTUVWXYZ0123456789".toList

theorem glyphs_distinct : (alphabet.map points).Nodup := by decide +kernel

def legible (s : List Char) : Bool := s.all alphabet.contains

def padded (s : List Char) : List Char := (List.range 13).map fun i => s.getD i ' '

section
variable {c d : Char} {s s' : List Char}

theorem char_of_points (hc : c ∈ alphabet) (hd : d ∈ alphabet)
    (same : ∀ row < 7, ∀ col < 5, dot c row col = dot d row col) : c = d := by
  refine List.inj_on_of_nodup_map glyphs_distinct hc hd (List.map_congr_left fun i hi => ?_)
  have small := List.mem_range.mp hi
  exact same _ (by omega) _ (by omega)

theorem legible_iff : legible s = true ↔ ∀ c ∈ s, c ∈ alphabet := by
  simp only [legible, List.all_eq_true, List.contains_iff_mem]

theorem char_mem (h : legible s = true) (i : ℕ) : s.getD i ' ' ∈ alphabet := by
  rcases Nat.lt_or_ge i s.length with inside | outside
  · rw [List.getD_eq_getElem _ _ inside]
    exact legible_iff.mp h _ (List.getElem_mem inside)
  · rw [List.getD_eq_default _ _ outside]
    decide

theorem padded_of_dots (h : legible s = true) (h' : legible s' = true)
    (same : ∀ i < 13, ∀ row < 7, ∀ col < 5, dot (s.getD i ' ') row col = dot (s'.getD i ' ') row col) :
    padded s = padded s' :=
  List.map_congr_left fun i hi =>
    char_of_points (char_mem h i) (char_mem h' i) (same i (List.mem_range.mp hi))

end

section
variable {l : Line} {picture : ℕ → ℕ → ℕ} {a b i row col : ℕ}

theorem over_other (other : b < l.y ∨ l.y + 14 ≤ b) : l.over picture a b = picture a b := by
  rw [Line.over, written, if_neg (by omega)]

theorem over_dot (hrow : row < 7) (hcol : col < 5) (blank : ∀ b, l.y ≤ b → b < l.y + 14 → ∀ a, picture a b = 0) :
    l.over picture (4 + 12 * i + 2 * col) (l.y + 2 * row) =
      if dot (l.text.getD i ' ') row col then l.color.toNat else 0 := by
  have cell : (4 + 12 * i + 2 * col - 4) / 12 = i ∧ (4 + 12 * i + 2 * col - 4) % 12 = 2 * col ∧
      l.y + 2 * row - l.y = 2 * row ∧ 2 * row / 2 = row ∧ 2 * col / 2 = col := by omega
  rw [Line.over, written, blank _ (by omega) (by omega), cell.1, cell.2.1, cell.2.2.1]
  rcases Nat.lt_or_ge i l.text.length with inside | outside
  · have short : 2 * col < 10 := by omega
    rw [if_pos (by omega), on, cell.2.2.2.1, cell.2.2.2.2, decide_eq_true short, Bool.true_and]
    rfl
  · have space : dot ' ' row col = false := by
      rw [dot, show bits ' ' row = 0 from rfl, Nat.zero_testBit]
    rw [if_neg (by omega), List.getD_eq_default _ _ outside, space]
    rfl

theorem lit_of_same {x y : Bool} {m n : ℕ} (hm : m ≠ 0) (hn : n ≠ 0)
    (same : (if x then m else 0) = if y then n else 0) : x = y := by
  cases x <;> cases y <;> simp_all

end

section
variable {loadedCounter other : UInt32} {n n' : Notice} {i row col : ℕ}

theorem page_above {a b : ℕ} (above : b < 56) : page loadedCounter n a b =
    (Line.mk 34 (label n) (color n)).over ((Line.mk 4 (title n) 0xffff).over black) a b := by
  unfold page
  split
  · exact over_other (Or.inl above)
  · rfl

theorem page_title (hrow : row < 7) (hcol : col < 5) :
    page loadedCounter n (4 + 12 * i + 2 * col) (4 + 2 * row) =
      if dot ((title n).getD i ' ') row col then (0xffff : UInt16).toNat else 0 := by
  rw [page_above (by omega), over_other (Or.inl (by change 4 + 2 * row < 34; omega))]
  exact over_dot hrow hcol fun _ _ _ _ => rfl

theorem page_label (hrow : row < 7) (hcol : col < 5) :
    page loadedCounter n (4 + 12 * i + 2 * col) (34 + 2 * row) =
      if dot ((label n).getD i ' ') row col then (color n).toNat else 0 := by
  rw [page_above (by omega)]
  exact over_dot hrow hcol fun b low _ a => over_other (Or.inr (Nat.le_trans (by decide : 18 ≤ 34) low))

theorem page_counter (hrow : row < 7) (hcol : col < 5) :
    page loadedCounter (.ui .ready) (4 + 12 * i + 2 * col) (56 + 2 * row) =
      if dot ((counterText loadedCounter).getD i ' ') row col then (0x07ff : UInt16).toNat else 0 := by
  refine over_dot hrow hcol fun b low _ a => ?_
  rw [over_other (Or.inr (Nat.le_trans (by decide : 48 ≤ 56) low)),
    over_other (Or.inr (Nat.le_trans (by decide : 18 ≤ 56) low))]
  rfl

theorem color_lit (n : Notice) : (color n).toNat ≠ 0 := by
  cases n with
  | ui phase => cases phase <;> decide
  | error code | peer code => exact (by decide : (0xf800 : UInt16).toNat ≠ 0)

end

/-- The number of the label that an error is shown with. -/
def shownError (error : ℕ) : ℕ := if error = 0 ∨ errorLabels.length ≤ error then AuthError.internal.code else error

/-- What of an announcement can be seen. Only the page of `ready` has the counter. -/
def told (loadedCounter : UInt32) : Notice → Notice × Option UInt32
  | .ui phase => (.ui phase, if phase = .ready then some loadedCounter else none)
  | .error code => (.error (shownError code), none)
  | .peer code => (.peer (shownError code), none)

def phases : List AuthPhase := [.ready, .request, .measuring, .pass, .mismatch, .rejected, .timeout, .error]

def codes : List ℕ := (List.range 33).tail

def legend : List Notice := phases.map .ui ++ codes.map .error ++ codes.map .peer

def key (n : Notice) : List Char × List Char := (padded (label n), padded (title n))

theorem keys_distinct : (legend.map key).Nodup := by decide +kernel

theorem labels_legible : (legend.all fun n => legible (label n)) = true := by decide +kernel

theorem digits_legible : ∀ n < 16, hexDigit n ∈ alphabet ∧ ∀ m < 16, hexDigit n = hexDigit m → n = m := by
  decide +kernel

section
variable {loadedCounter other : UInt32} {n n' : Notice} {error : ℕ}

theorem shownError_mem : shownError error ∈ codes := by
  unfold shownError
  split
  · decide
  · rename_i good
    have least : error ≠ 0 := fun zero => good (Or.inl zero)
    have most : error < 33 := Nat.lt_of_not_le fun large => good (Or.inr large)
    have all : ∀ e < 33, e ≠ 0 → e ∈ codes := by decide
    exact all error most least

theorem told_mem : (told loadedCounter n).1 ∈ legend := by
  unfold legend
  cases n with
  | ui phase =>
    have all : phase ∈ phases := by cases phase <;> decide
    exact List.mem_append_left _ (List.mem_append_left _ (List.mem_map_of_mem all))
  | error code => exact List.mem_append_left _ (List.mem_append_right _ (List.mem_map_of_mem shownError_mem))
  | peer code => exact List.mem_append_right _ (List.mem_map_of_mem shownError_mem)

theorem errorLabel_shown : errorLabel (shownError error) = errorLabel error := by
  unfold shownError
  split
  · rename_i odd
    rcases odd with rfl | large
    · decide +kernel
    · rw [errorLabel, errorLabel, if_pos large]
      rfl
  · rfl

theorem label_told : label (told loadedCounter n).1 = label n := by
  have reported : ∀ code, errorLabel (reportedCode code) = errorLabel code := by
    intro code
    unfold reportedCode
    split
    · rfl
    · rename_i zero
      obtain rfl : code = 0 := not_not.mp zero
      decide +kernel
  cases n with
  | ui phase => rfl
  | error code => exact (reported _).trans (errorLabel_shown.trans (reported code).symm)
  | peer code => exact errorLabel_shown

theorem page_told : page loadedCounter (told other n).1 = page loadedCounter n := by
  have label := @label_told other n
  unfold page
  rw [label]
  cases n <;> rfl

theorem told_ready : (told loadedCounter n).1 = .ui .ready ↔ n = .ui .ready := by
  cases n with
  | ui phase => rfl
  | error code | peer code => constructor <;> intro h <;> cases h

theorem title_legible : legible (title n) = true := by
  cases n with
  | ui phase | error code => exact (by decide +kernel : legible TITLE = true)
  | peer code => exact (by decide +kernel : legible PEER_TITLE = true)

theorem label_legible : legible (label n) = true := by
  rw [← @label_told 0 n]
  exact List.all_eq_true.mp labels_legible _ told_mem

theorem counter_legible : legible (counterText loadedCounter) = true := by
  refine legible_iff.mpr fun c hc => ?_
  rcases List.mem_cons.mp hc with rfl | hc
  · decide
  · obtain ⟨i, -, rfl⟩ := List.mem_map.mp hc
    exact (digits_legible _ (Nat.mod_lt _ (by decide))).1

theorem key_told : key (told loadedCounter n).1 = key n := by
  unfold key
  rw [label_told]
  cases n <;> rfl

theorem counter_of_text (same : padded (counterText loadedCounter) = padded (counterText other)) :
    loadedCounter = other := by
  have digit : ∀ k < 8, loadedCounter.toNat / 16 ^ k % 16 = other.toNat / 16 ^ k % 16 := by
    intro k hk
    have at_ : ∀ c : UInt32, (counterText c).getD (8 - k) ' ' = hexDigit (c.toNat / 16 ^ k % 16) := by
      intro c
      have place : 8 - k = 7 - k + 1 ∧ 28 - 4 * (7 - k) = 4 * k := by omega
      rw [counterText, place.1, List.getD_cons_succ, List.getD_eq_getElem _ _ (by simp; omega),
        List.getElem_map, List.getElem_range, place.2, Nat.shiftRight_eq_div_pow, Nat.pow_mul]
    have shown := List.map_inj_left.mp same (8 - k) (List.mem_range.mpr (by omega))
    rw [at_, at_] at shown
    exact (digits_legible _ (Nat.mod_lt _ (by decide))).2 _ (Nat.mod_lt _ (by decide)) shown
  have whole : ∀ k ≤ 8, loadedCounter.toNat % 16 ^ k = other.toNat % 16 ^ k := by
    intro k hk
    induction k with
    | zero => rw [Nat.pow_zero, Nat.mod_one, Nat.mod_one]
    | succ k ih => rw [Nat.mod_pow_succ, Nat.mod_pow_succ, ih (by omega), digit k (by omega)]
  have bound : (16 : ℕ) ^ 8 = UInt32.size := rfl
  have last := whole 8 (Nat.le_refl 8)
  rw [bound, Nat.mod_eq_of_lt loadedCounter.toNat_lt, Nat.mod_eq_of_lt other.toNat_lt] at last
  exact UInt32.toNat_inj.mp last

theorem same_page : (∀ x < 160, ∀ y < 80, page loadedCounter n x y = page other n' x y) ↔
    told loadedCounter n = told other n' := by
  constructor
  · intro same
    have place : ∀ i < 13, ∀ col < 5, 4 + 12 * i + 2 * col < 160 := by omega
    have titles : padded (title n) = padded (title n') := by
      refine padded_of_dots title_legible title_legible fun i hi row hrow col hcol => ?_
      have shown := same _ (place i hi col hcol) (4 + 2 * row) (by omega)
      rw [page_title hrow hcol, page_title hrow hcol] at shown
      exact lit_of_same (by decide) (by decide) shown
    have labels : padded (label n) = padded (label n') := by
      refine padded_of_dots label_legible label_legible fun i hi row hrow col hcol => ?_
      have shown := same _ (place i hi col hcol) (34 + 2 * row) (by omega)
      rw [page_label hrow hcol, page_label hrow hcol] at shown
      exact lit_of_same (color_lit n) (color_lit n') shown
    have keys : key (told loadedCounter n).1 = key (told other n').1 := by
      rw [key_told, key_told, key, key, titles, labels]
    have notices := List.inj_on_of_nodup_map keys_distinct told_mem told_mem keys
    refine Prod.ext notices ?_
    by_cases ready : n = .ui .ready
    · obtain rfl := ready
      obtain rfl := told_ready.mp (notices.symm.trans (told_ready.mpr rfl))
      have counters : padded (counterText loadedCounter) = padded (counterText other) := by
        refine padded_of_dots counter_legible counter_legible fun i hi row hrow col hcol => ?_
        have shown := same _ (place i hi col hcol) (56 + 2 * row) (by omega)
        rw [page_counter hrow hcol, page_counter hrow hcol] at shown
        exact lit_of_same (by decide) (by decide) shown
      rw [counter_of_text counters]
    · have ready' : n' ≠ .ui .ready := fun h => ready (told_ready.mp (notices.trans (told_ready.mpr h)))
      have none_ : ∀ c m, m ≠ Notice.ui .ready → (told c m).2 = none := by
        intro c m hm
        cases m with
        | ui phase => exact if_neg fun h => hm (congrArg Notice.ui h)
        | error code | peer code => rfl
      rw [none_ _ _ ready, none_ _ _ ready']
  · intro same x _ y _
    obtain ⟨notices, counters⟩ := Prod.ext_iff.mp same
    rw [← @page_told loadedCounter loadedCounter n, ← @page_told other other n', ← notices]
    by_cases ready : n = .ui .ready
    · obtain rfl := ready
      obtain rfl := told_ready.mp (notices.symm.trans (told_ready.mpr rfl))
      obtain rfl : loadedCounter = other := Option.some.inj counters
      rfl
    · unfold page
      rw [if_neg (mt told_ready.mp ready), if_neg (mt told_ready.mp ready)]

end

/-- Two boards whose displays work look the same just when their last announcements tell the
    same: the phase, the counter when ready, or whose error it is and its number, 19 for one
    without a label. -/
theorem screen_distinguishes (before before' : List (UInt32 × Notice)) (loadedCounter other : UInt32)
    (n n' : Notice) (g g' t t' : Glass) (b b' : BoardStatus)
    (run : Exec lcdDevice (session (before ++ [(loadedCounter, n)])) g b t)
    (run' : Exec lcdDevice (session (before' ++ [(other, n')])) g' b' t')
    (ready : b.lcdReady = true) (ready' : b'.lcdReady = true) :
    (∀ x < 160, ∀ y < 80, t.visible x y = t'.visible x y) ↔ told loadedCounter n = told other n' := by
  have shown := ((safe_exec _ _ _ _ _ (safe_session _) run).2 ready).2
  have shown' := ((safe_exec _ _ _ _ _ (safe_session _) run').2 ready').2
  rw [screen, List.getLast?_concat] at shown shown'
  rw [← same_page]
  constructor
  · intro same x hx y hy
    exact ((shown x hx y hy).symm.trans (same x hx y hy)).trans (shown' x hx y hy)
  · intro same x hx y hy
    rw [shown x hx y hy, shown' x hx y hy]
    exact same x hx y hy

theorem screen_distinguishes_small : ∃ x < 160, ∃ y < 80,
    ((session [(7, .ui .ready)]).eval lcdEval smallGlass).2.visible x y ≠
      ((session [(8, .ui .ready)]).eval lcdEval smallGlass).2.visible x y := by
  have tells := screen_distinguishes [] [] 7 8 (.ui .ready) (.ui .ready) smallGlass smallGlass _ _ _ _
    (eval_exec lcdEval lcdEval_answers (session [(7, .ui .ready)]) smallGlass)
    (eval_exec lcdEval lcdEval_answers (session [(8, .ui .ready)]) smallGlass)
    (sure_session _ _) (sure_session _ _)
  have other := mt tells.mp (by decide)
  simp only [not_forall] at other
  obtain ⟨x, hx, y, hy, differ⟩ := other
  exact ⟨x, hx, y, hy, differ⟩

end SimpleAttestation.DisplayReading
