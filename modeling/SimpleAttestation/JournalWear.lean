import SimpleAttestation.JournalCrash
import Mathlib.Tactic.Ring

set_option autoImplicit false

/-!
# How often the journal erases

A block takes a record for every save and is erased when the other one is full, so each of
the two is erased once in as many saves as both have slots. Only a save that fails or loses
power can add to that, and by one erase at most.
-/
namespace SimpleAttestation.JournalWear
open ByteStrings Wire Crypto CallProgram Runs Journal JournalScan JournalLoad JournalTorn JournalSave JournalCrash

/-- `w` erases of a block in periods of `p` saves, `age` saves ago at the last one: `s` saves
    were made, and `x` broken off. -/
structure Account (p w s x start age : ℕ) : Prop where
  least : s + start ≤ p * (w + x) + age
  most : p * w + age ≤ s + start + p * x

section
variable {p w w' s x start age age' : ℕ}

theorem account_start : Account p 0 0 0 age age := ⟨by omega, by omega⟩

theorem account_next (h : Account p w s x start age) : Account p w (s + 1) x start (age + 1) := by
  have least := h.least
  have most := h.most
  exact ⟨by omega, by omega⟩

theorem account_erase (h : Account p w s x start age) (full : age + 1 = p) :
    Account p (w + 1) (s + 1) x start 0 := by
  have least := h.least
  have most := h.most
  have spent : p * (w + 1 + x) = p * (w + x) + p := by ring
  have erased : p * (w + 1) = p * w + p := by ring
  exact ⟨by omega, by omega⟩

theorem account_broken (h : Account p w s x start age) (young : age < p) (young' : age' < p)
    (moved : w' = w ∨ w' = w + 1 ∧ age' ≤ age) : Account p w' s (x + 1) start age' := by
  have least := h.least
  have most := h.most
  have spare : p * (x + 1) = p * x + p := by ring
  rcases moved with rfl | ⟨rfl, le⟩
  · have spent : p * (w' + (x + 1)) = p * (w' + x) + p := by ring
    exact ⟨by omega, by omega⟩
  · have spent : p * (w + 1 + (x + 1)) = p * (w + x) + p + p := by ring
    have erased : p * (w + 1) = p * w + p := by ring
    exact ⟨by omega, by omega⟩

end

/-- An account whose age is lost. -/
structure Bounded (p w s x start : ℕ) : Prop where
  least : s + start < p * (w + x + 1)
  most : p * w ≤ s + start + p * x

section
variable {p w w' s x start age : ℕ}

theorem account_bounded (h : Account p w s x start age) (young : age < p) : Bounded p w s x start := by
  have least := h.least
  have most := h.most
  have spare : p * (w + x + 1) = p * (w + x) + p := by ring
  exact ⟨by omega, by omega⟩

theorem bounded_broken (h : Account p w s x start age) (young : age < p) (moved : w' = w ∨ w' = w + 1) :
    Bounded p w' s (x + 1) start := by
  have kept : ∃ age', age' < p ∧ (w' = w ∨ w' = w + 1 ∧ age' ≤ age) := by
    rcases moved with same | more
    · exact ⟨age, young, Or.inl same⟩
    · exact ⟨age, young, Or.inr ⟨more, Nat.le_refl _⟩⟩
  obtain ⟨age', young', moved⟩ := kept
  exact account_bounded (account_broken h young young' moved) young'

end

/-- The saves since `block` was erased for the last time. -/
def age (j : AuthJournal) (block : ℕ) : ℕ :=
  (if block = j.active then 0 else j.blockSize / 32) + j.next / 32 - 1

def period (j : AuthJournal) : ℕ := 2 * (j.blockSize / 32)

section
variable {tc : TinyCrypt} {initial c : UInt32} {j j' : AuthJournal} {f t : Flash} {block : ℕ}

theorem either_block {a b : ℕ} (ha : a < 2) (hb : b < 2) : b = a ∨ b = a ^^^ 1 := by
  have two : ∀ a < 2, ∀ b < 2, b = a ∨ b = a ^^^ 1 := by decide
  exact two a ha b hb

theorem age_same (same : Same j j') (size : j'.blockSize = j.blockSize) : age j' block = age j block := by
  rw [age, age, same.active, same.next, size]

theorem age_lt (stands : Stands tc j f) : age j block < period j := by
  have inside := stands.inside
  have aligned := stands.aligned
  unfold age period
  split <;> omega

theorem age_saved (stands : Stands tc j f) (valid : j.valid = true) (two : block < 2) :
    if j.next = j.blockSize ∧ block = j.active ^^^ 1 then
      age j block + 1 = period j ∧ age (saved j c) block = 0
    else age j block + 1 < period j ∧ age (saved j c) block = age j block + 1 := by
  have inside := stands.inside
  have aligned := stands.aligned
  simp only [AuthJournal.valid, Bool.and_eq_true, beq_iff_eq] at valid
  have whole := valid.2
  obtain ⟨-, other⟩ := xor_one stands.active_lt
  have either := either_block stands.active_lt two
  have size : (saved j c).blockSize = j.blockSize := rfl
  have active : (saved j c).active = saveBlock j := rfl
  have next : (saved j c).next = saveOff j + 32 := rfl
  unfold age period
  rw [size, active, next]
  by_cases full : j.next = j.blockSize
  · rw [saveBlock, saveOff, if_pos full, if_pos full]
    rcases either with rfl | rfl
    · rw [if_neg fun h => other h.2.symm, if_neg other.symm, if_pos rfl]
      exact ⟨by omega, by omega⟩
    · rw [if_pos ⟨full, rfl⟩, if_neg other, if_pos rfl]
      exact ⟨by omega, by omega⟩
  · rw [saveBlock, saveOff, if_neg full, if_neg full, if_neg fun h => full h.1]
    split <;> exact ⟨by omega, by omega⟩

end

def erasedOnce (w : ℕ → ℕ) (block : ℕ) : ℕ → ℕ := fun b => if b = block then w b + 1 else w b

/-- Counts the erases that were begun, which a failed callback need not be. -/
def eraseCounter : Device FlashCall FlashCall.Reply (ℕ → ℕ) where
  answers
    | .erase block, w, ok, w' => w' = erasedOnce w block ∨ ok = false ∧ w' = w
    | _, w, _, w' => w' = w
  tears
    | .erase block, w, w' => w' = erasedOnce w block ∨ w' = w
    | _, w, w' => w' = w

def worn (j : AuthJournal) (w : ℕ → ℕ) : ℕ → ℕ :=
  if j.next = j.blockSize then erasedOnce w (j.active ^^^ 1) else w

theorem wears_scanBlock (tc : TinyCrypt) (block slots off : ℕ) (s : Scan) (w : ℕ → ℕ) :
    Safe eraseCounter (fun _ _ => True) (· = w) (scanBlock tc block slots off s) (fun _ w' => w' = w) w := by
  induction slots generalizing off s with
  | zero => exact ⟨rfl, rfl⟩
  | succ slots ih =>
    rw [scanBlock, Prog.ask_bind]
    refine ⟨rfl, trivial, fun _ h => h, ?_⟩
    rintro record _ rfl
    dsimp only
    cases record.bind (scanSlot tc block off s) with
    | none => exact ⟨rfl, rfl⟩
    | some s => exact ih (off + 32) s

theorem wears_load (tc : TinyCrypt) (j : AuthJournal) (initial : UInt32) (w : ℕ → ℕ) :
    Safe eraseCounter (fun _ _ => True) (· = w) (authJournalLoad tc j initial) (fun _ w' => w' = w) w := by
  unfold authJournalLoad
  split
  · exact ⟨rfl, rfl⟩
  · refine safe_then (wears_scanBlock _ _ _ _ _ w) ?_
    rintro ⟨s, scanned⟩ _ rfl -
    dsimp only
    split
    · exact ⟨rfl, rfl⟩
    · refine safe_then (wears_scanBlock _ _ _ _ _ _) ?_
      rintro ⟨s, scanned⟩ _ rfl -
      dsimp only
      split <;> exact ⟨rfl, rfl⟩

theorem wears_append (tc : TinyCrypt) (j : AuthJournal) (c : UInt32) (block off : ℕ) {w : ℕ → ℕ}
    {K : (ℕ → ℕ) → Prop} (hK : K w) : Safe eraseCounter (fun _ _ => True) K (appendRecord tc j c block off)
      (fun _ w' => w' = w) w := by
  unfold appendRecord
  cases recordMac tc j.key c with
  | none => exact ⟨hK, rfl⟩
  | some mac =>
    refine ⟨hK, trivial, fun _ h => h ▸ hK, ?_⟩
    rintro programmed _ rfl
    cases programmed with
    | false => exact ⟨hK, rfl⟩
    | true =>
      refine ⟨hK, trivial, fun _ h => h ▸ hK, ?_⟩
      rintro check _ rfl
      cases check with
      | none => exact ⟨hK, rfl⟩
      | some check =>
        change Safe _ _ K (if !simpleCtCompare (makeRecord c mac).data check.data 32 then
          pure (j, false) else pure (_, true)) _ _
        split <;> exact ⟨hK, rfl⟩

theorem wears_save (tc : TinyCrypt) (j : AuthJournal) (c : UInt32) (w : ℕ → ℕ) :
    Safe eraseCounter (fun _ _ => True) (fun w' => w' = w ∨ w' = worn j w) (authJournalSave tc j c)
      (fun x w' => if x.2 then w' = worn j w else w' = w ∨ w' = worn j w) w := by
  have outcome : ∀ {x : AuthJournal × Bool} {w'}, w' = worn j w →
      if x.2 then w' = worn j w else w' = w ∨ w' = worn j w := by
    rintro x w' same
    split
    · exact same
    · exact Or.inr same
  unfold authJournalSave
  split
  · exact ⟨Or.inl rfl, Or.inl rfl⟩
  · by_cases full : j.next = j.blockSize
    · have once : worn j w = erasedOnce w (j.active ^^^ 1) := if_pos full
      dsimp only
      rw [if_pos full]
      refine ⟨Or.inl rfl, trivial, fun w' torn => ?_, ?_⟩
      · rw [once]
        exact torn.symm
      · rintro done w' answered
        cases done with
        | false =>
          rw [once]
          rcases answered with same | ⟨-, same⟩
          · exact ⟨Or.inr same, Or.inr same⟩
          · exact ⟨Or.inl same, Or.inl same⟩
        | true =>
          obtain rfl : w' = worn j w := by
            rcases answered with same | ⟨no, -⟩
            · rw [once, same]
            · cases no
          exact safe_post (fun x w' same => outcome same) (wears_append _ _ _ _ _ (Or.inr rfl))
    · have never : worn j w = w := if_neg full
      dsimp only
      rw [if_neg full]
      exact safe_post (fun x w' same => outcome (same.trans never.symm)) (wears_append _ _ _ _ _ (Or.inl rfl))

structure Levelled (tc : TinyCrypt) (initial : UInt32) (start : ℕ → ℕ) (s x : ℕ) (j : AuthJournal)
    (f : Flash) (w : ℕ → ℕ) : Prop where
  bounded : ∀ b, b < 2 → Bounded (period j) (w b) s x (start b)
  accounts : ∀ j', j'.key = j.key → j'.blockSize = j.blockSize → Matches tc initial j' f →
    ∀ b, b < 2 → Account (period j) (w b) s x (start b) (age j' b)

section
variable {tc : TinyCrypt} {initial c : UInt32} {start w w' : ℕ → ℕ} {s x : ℕ} {j j' : AuthJournal}
  {f t : Flash}

theorem period_same (size : j'.blockSize = j.blockSize) : period j' = period j := by
  rw [period, period, size]

theorem levelled_matches (h : Matches tc initial j f) (valid : j.valid = true)
    (accounts : ∀ b, b < 2 → Account (period j) (w b) s x (start b) (age j b)) :
    Levelled tc initial start s x j f w := by
  have stands := matches_stands h valid
  refine ⟨fun b hb => account_bounded (accounts b hb) (age_lt stands), fun j' key size g b hb => ?_⟩
  rw [age_same (matches_same h g key size) size]
  exact accounts b hb

theorem levelled_start (h : Matches tc initial j f) (valid : j.valid = true) :
    Levelled tc initial (age j) 0 0 j f fun _ => 0 :=
  levelled_matches h valid fun _ _ => account_start

theorem levelled_kept (h : Levelled tc initial start s x j f w) (key : j'.key = j.key)
    (size : j'.blockSize = j.blockSize) : Levelled tc initial start s x j' f w := by
  refine ⟨fun b hb => ?_, fun k key' size' g => ?_⟩ <;> rw [period_same size]
  · exact h.bounded b hb
  · exact h.accounts k (key'.trans key) (size'.trans size) g

theorem levelled_saved (h : Levelled tc initial start s x j f w) (there : Matches tc initial j f)
    (valid : j.valid = true) (after : Matches tc initial (saved j c) t) :
    Levelled tc initial start (s + 1) x (saved j c) t (worn j w) := by
  have stands := matches_stands there valid
  refine levelled_matches after valid fun b hb => ?_
  have account := h.accounts j rfl rfl there b hb
  have older := @age_saved tc c j f b stands valid hb
  change Account (period j) _ _ _ _ _
  by_cases erases : j.next = j.blockSize ∧ b = j.active ^^^ 1
  · rw [if_pos erases] at older
    rw [older.2, worn, if_pos erases.1, erasedOnce, if_pos erases.2]
    exact account_erase account older.1
  · rw [if_neg erases] at older
    have same : worn j w b = w b := by
      unfold worn erasedOnce
      split
      · rename_i full
        exact if_neg fun here => erases ⟨full, here⟩
      · rfl
    rw [older.2, same]
    exact account_next account

theorem worn_step (b : ℕ) (moved : w' = w ∨ w' = worn j w) :
    w' b = w b ∨ w' b = w b + 1 ∧ j.next = j.blockSize ∧ b = j.active ^^^ 1 := by
  rcases moved with rfl | rfl
  · exact Or.inl rfl
  · by_cases full : j.next = j.blockSize
    · rw [worn, if_pos full, erasedOnce]
      split
      · rename_i here
        exact Or.inr ⟨rfl, full, here⟩
      · exact Or.inl rfl
    · rw [worn, if_neg full]
      exact Or.inl rfl

theorem levelled_broken (h : Levelled tc initial start s x j f w) (there : Matches tc initial j f)
    (valid : j.valid = true) (after : OldOrNew tc initial j c t) (moved : w' = w ∨ w' = worn j w) :
    Levelled tc initial start s (x + 1) j t w' := by
  have stands := matches_stands there valid
  refine ⟨fun b hb => ?_, fun j' key size g b hb => ?_⟩
  · exact bounded_broken (h.accounts j rfl rfl there b hb) (age_lt stands)
      ((worn_step b moved).imp_right fun h => h.1)
  · have account := h.accounts j rfl rfl there b hb
    have young := @age_lt tc j f b stands
    have step := worn_step b moved
    rcases after j' key size g with old | new
    · rw [age_same old size]
      exact account_broken account young young (step.imp_right fun h => ⟨h.1, Nat.le_refl _⟩)
    · have older := @age_saved tc c j f b stands valid hb
      rw [age_same new size]
      split at older
      · rw [older.2]
        exact account_broken account young (by omega) (step.imp_right fun h => ⟨h.1, Nat.zero_le _⟩)
      · rename_i kept
        rw [older.2]
        exact account_broken account young older.1 (Or.inl (step.resolve_right fun h => kept h.2))

end

/-- `kept` is all that begins no save. -/
inductive WearEvent where
  | kept | saved | broken
deriving DecidableEq

def wearEvent (j : AuthJournal) (op : JournalOp) (ok : Bool) : WearEvent :=
  match op with
  | .load => .kept
  | .save c => if j.ready && decide (j.counter < c) then (if ok then .saved else .broken) else .kept

structure WearWorld where
  journal : AuthJournal
  flash : Flash
  erases : ℕ → ℕ

abbrev wearDevice (blockSize : ℕ) : Device FlashCall FlashCall.Reply (Flash × (ℕ → ℕ)) :=
  (flashDevice blockSize (bitTear blockSize)).prod eraseCounter

inductive Wears (tc : TinyCrypt) (initial : UInt32) : WearWorld → WearEvent → WearWorld → Prop where
  | returns {v : WearWorld} {op : JournalOp} {j : AuthJournal} {ok : Bool} {f : Flash} {w : ℕ → ℕ}
      (h : Exec (wearDevice v.journal.blockSize) (runOp tc initial op v.journal) (v.flash, v.erases)
        (j, ok) (f, w)) : Wears tc initial v (wearEvent v.journal op ok) ⟨j, f, w⟩
  | cut {v : WearWorld} {op : JournalOp} {boot : AuthJournal} {f : Flash} {w : ℕ → ℕ}
      (h : Cut (wearDevice v.journal.blockSize) (runOp tc initial op v.journal) (v.flash, v.erases) (f, w))
      (setUp : SetUp v.journal boot) (off : boot.ready = false) :
      Wears tc initial v (wearEvent v.journal op false) ⟨boot, f, w⟩

theorem save_closed {j : AuthJournal} {c : UInt32} (go : ¬ (j.ready = true ∧ j.counter < c)) :
    j.ready = false ∨ c ≤ j.counter := by
  rw [not_and_or, Bool.not_eq_true] at go
  exact go.imp_right UInt32.not_lt.mp

theorem wearEvent_begun {j : AuthJournal} {c : UInt32} {ok : Bool} (ready : j.ready = true)
    (fresh : j.counter < c) : wearEvent j (.save c) ok = if ok then .saved else .broken := by
  have begun : (j.ready && decide (j.counter < c)) = true := by
    rw [ready, decide_eq_true fresh]
    rfl
  exact if_pos begun

theorem wearEvent_refused {j : AuthJournal} {c : UInt32} {ok : Bool}
    (go : ¬ (j.ready = true ∧ j.counter < c)) : wearEvent j (.save c) ok = .kept := by
  have closed : ¬ (j.ready && decide (j.counter < c)) = true := by
    rwa [Bool.and_eq_true, decide_eq_true_eq]
  exact if_neg closed

structure Even (tc : TinyCrypt) (initial : UInt32) (blockSize : ℕ) (start : ℕ → ℕ) (s x : ℕ)
    (v : WearWorld) : Prop where
  size : v.journal.blockSize = blockSize
  sound : Sound tc initial (v.journal, v.flash)
  levelled : Levelled tc initial start s x v.journal v.flash v.erases

def counted (e of : WearEvent) : ℕ := if e = of then 1 else 0

section
variable {tc : TinyCrypt} {initial : UInt32} {blockSize : ℕ} {start : ℕ → ℕ} {s x : ℕ} {v v' : WearWorld}
  {f : Flash} {w : ℕ → ℕ} {e : WearEvent}

theorem even_off {boot : AuthJournal} (h : Even tc initial blockSize start s x v)
    (setUp : SetUp v.journal boot) (off : boot.ready = false) {s' x' : ℕ}
    (levelled : Levelled tc initial start s' x' v.journal f w) :
    Even tc initial blockSize start s' x' ⟨boot, f, w⟩ := by
  refine ⟨setUp.blockSize.trans h.size, ⟨(valid_setUp setUp).trans h.sound.1, fun ready => ?_⟩,
    levelled_kept levelled setUp.key setUp.blockSize⟩
  rw [off] at ready
  cases ready

theorem even_load {j : AuthJournal} {ok : Bool} (h : Even tc initial blockSize start s x v)
    (run : Exec (wearDevice v.journal.blockSize) (authJournalLoad tc v.journal initial) (v.flash, v.erases)
      (j, ok) (f, w)) : Even tc initial blockSize start s x ⟨j, f, w⟩ := by
  obtain ⟨flash, counts⟩ := exec_prod _ run
  have none_ := safe_exec _ _ _ _ _ (wears_load tc v.journal initial v.erases) counts
  obtain rfl : w = v.erases := none_
  obtain ⟨rfl, outcome⟩ := load_exec bitTear_readOnly flash
  have sound := outcome_sound outcome (Or.inl h.sound.1)
  cases outcome with
  | invalid | failed | found => exact ⟨h.size, sound, levelled_kept h.levelled rfl rfl⟩

theorem even_save {c : UInt32} {j : AuthJournal} {ok : Bool} (h : Even tc initial blockSize start s x v)
    (run : Exec (wearDevice v.journal.blockSize) (authJournalSave tc v.journal c) (v.flash, v.erases)
      (j, ok) (f, w)) :
    Even tc initial blockSize start (s + counted (wearEvent v.journal (.save c) ok) .saved)
      (x + counted (wearEvent v.journal (.save c) ok) .broken) ⟨j, f, w⟩ := by
  obtain ⟨flash, counts⟩ := exec_prod _ run
  have valid := h.sound.1
  by_cases go : v.journal.ready = true ∧ v.journal.counter < c
  · obtain ⟨ready, fresh⟩ := go
    have there := h.sound.2 ready
    have moved := safe_exec _ _ _ _ _ (wears_save tc v.journal c v.erases) counts
    obtain ⟨outcome, torn⟩ := safe_exec _ _ _ _ _ (safe_and_crash (safe_save_torn there valid ready fresh)) flash
    rw [wearEvent_begun ready fresh]
    rcases outcome with ⟨same, after⟩ | same
    · obtain ⟨rfl, rfl⟩ := Prod.mk.inj same
      obtain rfl : w = worn v.journal v.erases := moved
      exact ⟨h.size, ⟨valid, fun _ => after⟩, levelled_saved h.levelled there valid after⟩
    · obtain ⟨rfl, rfl⟩ := Prod.mk.inj same
      exact ⟨h.size, ⟨valid, fun no => by cases no⟩,
        levelled_kept (levelled_broken h.levelled there valid torn moved) rfl rfl⟩
  · rw [save_refused tc v.journal c (save_closed go)] at flash counts
    obtain ⟨same, rfl⟩ := flash
    obtain ⟨rfl, -⟩ := Prod.mk.inj same
    obtain rfl : w = v.erases := counts.2
    rw [wearEvent_refused go]
    exact h

theorem even_cut {op : JournalOp} {boot : AuthJournal} (h : Even tc initial blockSize start s x v)
    (cut : Cut (wearDevice v.journal.blockSize) (runOp tc initial op v.journal) (v.flash, v.erases) (f, w))
    (setUp : SetUp v.journal boot) (off : boot.ready = false) :
    Even tc initial blockSize start s (x + counted (wearEvent v.journal op false) .broken) ⟨boot, f, w⟩ := by
  obtain ⟨flash, counts⟩ := cut_prod _ cut
  cases op with
  | load =>
    have load := @safe_load v.journal.blockSize (bitTear v.journal.blockSize) (fun _ _ => True)
      (· = v.flash) tc v.journal initial v.flash bitTear_readOnly rfl fun _ _ => trivial
    have same := safe_cut _ _ _ _ load flash
    have none_ := safe_cut _ _ _ _ (wears_load tc v.journal initial v.erases) counts
    obtain rfl : f = v.flash := same
    obtain rfl : w = v.erases := none_
    exact even_off h setUp off h.levelled
  | save c =>
    by_cases go : v.journal.ready = true ∧ v.journal.counter < c
    · obtain ⟨ready, fresh⟩ := go
      have there := h.sound.2 ready
      have torn := safe_cut _ _ _ _ (safe_save_torn there h.sound.1 ready fresh) flash
      have moved := safe_cut _ _ _ _ (wears_save tc v.journal c v.erases) counts
      rw [wearEvent_begun ready fresh]
      exact even_off h setUp off (levelled_broken h.levelled there h.sound.1 torn moved)
    · change Cut _ (authJournalSave tc v.journal c) _ _ at flash counts
      rw [save_refused tc v.journal c (save_closed go)] at flash counts
      obtain rfl : f = v.flash := flash
      obtain rfl : w = v.erases := counts
      rw [wearEvent_refused go]
      exact even_off h setUp off h.levelled

theorem even_step (h : Even tc initial blockSize start s x v) (step : Wears tc initial v e v') :
    Even tc initial blockSize start (s + counted e .saved) (x + counted e .broken) v' := by
  cases step with
  | @returns op j ok f w run =>
    cases op with
    | load => exact even_load h run
    | save c => exact even_save h run
  | @cut op boot f w cut setUp off =>
    have none_ : counted (wearEvent v.journal op false) .saved = 0 := by
      cases op with
      | load => rfl
      | save c =>
        unfold wearEvent
        dsimp only
        split <;> rfl
    rw [none_]
    exact even_cut h cut setUp off

theorem count_next (es : List WearEvent) (e of : WearEvent) :
    (es ++ [e]).count of = es.count of + counted e of := by
  rw [List.count_append, List.count_singleton, counted]
  congr 1
  exact if_congr beq_iff_eq rfl rfl

theorem even_run {es : List WearEvent} (h : Even tc initial blockSize start 0 0 v)
    (run : Run (Wears tc initial) v es v') :
    Even tc initial blockSize start (es.count .saved) (es.count .broken) v' := by
  induction run with
  | start => exact h
  | next before last ih =>
    rw [count_next, count_next]
    exact even_step ih last

end

theorem bounded_apart {p u w s x a b : ℕ} (h : Bounded p u s x a) (g : Bounded p w s x b) (near : b < a + p) :
    w ≤ u + 2 * x + 1 := by
  have least := h.least
  have most := g.most
  by_contra far
  have more : p * (u + 2 * x + 2) ≤ p * w := Nat.mul_le_mul_left p (by omega)
  have split_ : p * (u + 2 * x + 2) = p * (u + x + 1) + p * x + p := by ring
  omega

/-- From a first load on, a block is erased once in as many saves as both have slots: exactly, when
    no save breaks off, and otherwise with one more erase, at most, for each that does. -/
theorem wear_levelled (tc : TinyCrypt) (initial : UInt32) (j₀ : AuthJournal) (f₀ : Flash) (v v' : WearWorld)
    (es : List WearEvent) (fresh : v.erases = fun _ => 0)
    (first : Exec (flashDevice j₀.blockSize (bitTear j₀.blockSize)) (authJournalLoad tc j₀ initial) f₀
      (v.journal, true) v.flash)
    (run : Run (Wears tc initial) v es v') :
    (∀ b, b < 2 → period v.journal * v'.erases b <
      es.count .saved + period v.journal * (es.count .broken + 1)) ∧
    (es.count .broken = 0 → v'.journal.ready = true → ∀ b, b < 2 →
      period v.journal * v'.erases b + age v'.journal b = es.count .saved + age v.journal b) ∧
    ∀ a b, a < 2 → b < 2 → v'.erases a ≤ v'.erases b + 2 * es.count .broken + 1 := by
  obtain ⟨kept, outcome⟩ := load_exec bitTear_readOnly first
  have sound := outcome_sound outcome (Or.inr rfl)
  rw [← kept] at sound
  have ready : v.journal.ready = true := by
    generalize he : v.journal = j at outcome
    cases outcome with
    | found => rfl
  have there := sound.2 ready
  have stands := matches_stands there sound.1
  have start : Even tc initial v.journal.blockSize (age v.journal) 0 0 v :=
    ⟨rfl, sound, fresh ▸ levelled_start there sound.1⟩
  obtain ⟨size, sound', levelled⟩ := even_run start run
  have same : period v'.journal = period v.journal := period_same size
  rw [← same]
  have young : ∀ b, age v.journal b < period v'.journal := fun b => same ▸ age_lt stands
  refine ⟨fun b hb => ?_, fun clean ready' b hb => ?_, fun a b ha hb => ?_⟩
  · have most := (levelled.bounded b hb).most
    have spare : period v'.journal * (es.count .broken + 1) = period v'.journal * es.count .broken +
      period v'.journal := by ring
    have := young b
    omega
  · obtain ⟨least, most⟩ := levelled.accounts v'.journal rfl rfl (sound'.2 ready') b hb
    rw [clean] at least most
    rw [Nat.add_zero] at least
    omega
  · refine bounded_apart (levelled.bounded b hb) (levelled.bounded a ha) ?_
    have := young a
    omega

theorem wearDevice_live (blockSize : ℕ) (c : FlashCall) (x : Flash × (ℕ → ℕ)) :
    ∃ r y, (wearDevice blockSize).answers c x r y := by
  obtain ⟨f, w⟩ := x
  have answered := flashEval_answers blockSize (bitTear blockSize) c f
  cases c with
  | read | program => exact ⟨_, (_, w), answered, rfl⟩
  | erase block => exact ⟨_, (_, erasedOnce w block), answered, Or.inl rfl⟩

theorem wear_levelled_small : ∃ (ok : Bool) (v : WearWorld),
    let j := ({ smallJournal with ready := true } : AuthJournal).moveTo 7 1 32
    let es := [wearEvent j (.save 8) ok]
    Run (Wears referenceTinyCrypt 7) ⟨j, seedFlash (smallSeed 7), fun _ => 0⟩ es v ∧
      ∀ b, b < 2 → 4 * v.erases b < es.count .saved + 4 * (es.count .broken + 1) := by
  let start : WearWorld := ⟨({ smallJournal with ready := true } : AuthJournal).moveTo 7 1 32,
    seedFlash (smallSeed 7), fun _ => 0⟩
  obtain ⟨⟨j, ok⟩, ⟨f, w⟩, exec⟩ := exec_exists (wearDevice_live 64)
    (runOp referenceTinyCrypt 7 (.save 8) start.journal) (start.flash, start.erases)
  have run : Run (Wears referenceTinyCrypt 7) start [wearEvent start.journal (.save 8) ok] ⟨j, f, w⟩ :=
    run_one (.returns exec)
  have few := (wear_levelled referenceTinyCrypt 7 smallJournal _ start _ _ rfl
    (small_exec 64 7 (by decide)) run).1
  have four : period start.journal = 4 := by decide
  rw [four] at few
  exact ⟨ok, _, run, few⟩

end SimpleAttestation.JournalWear
