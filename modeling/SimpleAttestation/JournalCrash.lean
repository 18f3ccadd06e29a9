import SimpleAttestation.JournalSave
import SimpleAttestation.Runs

set_option autoImplicit false

/-!
# Losing power inside a save

Whatever history led to a ready journal, its flash matches it. What a save cut at any
point leaves is then read back as the old place, the new one, or not at all.
-/
namespace SimpleAttestation.JournalCrash
open ByteStrings Crypto CallProgram Runs Journal JournalScan JournalLoad JournalTorn JournalSave

inductive JournalOp where
  | load
  | save (counter : UInt32)
deriving DecidableEq

def runOp (tc : TinyCrypt) (initial : UInt32) : JournalOp → AuthJournal →
    FlashProg (AuthJournal × Bool)
  | .load, j => authJournalLoad tc j initial
  | .save c, j => authJournalSave tc j c

/-- What `board_store_load` fills in before every load. -/
structure SetUp (j j' : AuthJournal) : Prop where
  blockSize : j'.blockSize = j.blockSize
  callbacks : j'.callbacks = j.callbacks
  key : j'.key = j.key

/-- An operation returns, or loses power and comes back with a memory that is set up again
    but not ready. -/
inductive Happens (tc : TinyCrypt) (initial : UInt32) :
    AuthJournal × Flash → JournalOp → AuthJournal × Flash → Prop where
  | returns {op : JournalOp} {j j' : AuthJournal} {f f' : Flash} {ok : Bool}
      (h : Exec (flashDevice j.blockSize (bitTear j.blockSize)) (runOp tc initial op j) f
        (j', ok) f') : Happens tc initial (j, f) op (j', f')
  | cut {op : JournalOp} {j boot : AuthJournal} {f f' : Flash}
      (h : Cut (flashDevice j.blockSize (bitTear j.blockSize)) (runOp tc initial op j) f f')
      (setUp : SetUp j boot) (off : boot.ready = false) : Happens tc initial (j, f) op (boot, f')

/-- A first load succeeded, and anything may have happened since. -/
def Reached (tc : TinyCrypt) (initial : UInt32) (j : AuthJournal) (f : Flash) : Prop :=
  ∃ (j₀ j₁ : AuthJournal) (f₀ f₁ : Flash) (ops : List JournalOp),
    Exec (flashDevice j₀.blockSize (bitTear j₀.blockSize)) (authJournalLoad tc j₀ initial) f₀
      (j₁, true) f₁ ∧ Run (Happens tc initial) (j₁, f₁) ops (j, f)

/-- A save that power loss cut, or that a callback failed. -/
def Broken (tc : TinyCrypt) (tear : FlashCall → Flash → Flash → Prop) (j : AuthJournal)
    (c : UInt32) (f t : Flash) : Prop :=
  Cut (flashDevice j.blockSize tear) (authJournalSave tc j c) f t ∨
    ∃ j', Exec (flashDevice j.blockSize tear) (authJournalSave tc j c) f (j', false) t

/-- `active` names a block that holds the counter's record right before `next`, and `next`
    is that block's first blank slot or its end. -/
structure Stands (tc : TinyCrypt) (j : AuthJournal) (f : Flash) : Prop where
  active_lt : j.active < 2
  aligned : j.next % 32 = 0
  inside : 32 ≤ j.next ∧ j.next ≤ j.blockSize
  record : recordOf tc j.key j.counter = some (slotAt f j.active (j.next - 32))
  before : ∀ off, off % 32 = 0 → off < j.next → slotAt f j.active off ≠ blank
  first : j.next = j.blockSize ∨ slotAt f j.active j.next = blank

theorem holds_get {tc : TinyCrypt} {key : Bytes 32} {gap : Bool} {last : UInt32}
    {L : List (Bytes 32)} {cs : List UInt32} (h : Holds tc key gap last L cs) {k : ℕ} {c : UInt32}
    (hc : cs[k]? = some c) : ∃ r, L[k]? = some r ∧ recordOf tc key c = some r := by
  induction h generalizing k with
  | nil => cases hc
  | blank => cases hc
  | record made fresh rest ih =>
    cases k with
    | zero =>
      obtain rfl := Option.some.inj hc
      exact ⟨_, rfl, made⟩
    | succ k => exact ih hc

theorem matches_stands {tc : TinyCrypt} {initial : UInt32} {j : AuthJournal} {f : Flash}
    (h : Matches tc initial j f) (valid : j.valid = true) : Stands tc j f := by
  obtain ⟨C, blocks, position⟩ := h
  have held := blocks j.active position.active_lt
  have len := holds_length held
  have next := position.next_eq
  rw [length_slots] at len
  simp only [AuthJournal.valid, Bool.and_eq_true, beq_iff_eq] at valid
  have aligned := valid.2
  have slot : ∀ k c, (C j.active)[k]? = some c → recordOf tc j.key c = some (slotAt f j.active (32 * k)) := by
    intro k c hc
    obtain ⟨r, hr, made⟩ := holds_get held hc
    have lt := (List.getElem?_eq_some_iff.mp hc).1
    rw [slots_get _ _ _ _ (by omega)] at hr
    rw [made, hr]
  have newest := position.newest
  rw [List.getLast?_eq_getElem?] at newest
  have some_record := (List.getElem?_eq_some_iff.mp newest).1
  refine ⟨position.active_lt, by omega, by omega, ?_, ?_, ?_⟩
  · have e : j.next - 32 = 32 * ((C j.active).length - 1) := by omega
    rw [e]
    exact slot _ _ newest
  · intro off hoff lt hblank
    have e : off = 32 * (off / 32) := by omega
    have inside : off / 32 < (C j.active).length := by omega
    have made := slot (off / 32) _ (List.getElem?_eq_getElem inside)
    rw [← e, hblank] at made
    exact recordOf_ne_blank made
  · by_cases full : (C j.active).length = j.blockSize / 32
    · left
      omega
    · right
      have free := holds_room held (by rw [length_slots]; omega)
      rw [slots_get _ _ _ _ (by omega), ← next] at free
      exact Option.some.inj free

section
variable {tc : TinyCrypt} {initial : UInt32} {j : AuthJournal} {f : Flash} {c : UInt32}

/-- Every place a load can find on `t` is the old one or the one the save was to reach. -/
def OldOrNew (tc : TinyCrypt) (initial : UInt32) (j : AuthJournal) (c : UInt32) (t : Flash) : Prop :=
  ∀ j', j'.key = j.key → j'.blockSize = j.blockSize → Matches tc initial j' t →
    Same j j' ∨ Same (saved j c) j'

theorem matches_same {j' : AuthJournal} (h : Matches tc initial j f) (g : Matches tc initial j' f)
    (key : j'.key = j.key) (size : j'.blockSize = j.blockSize) : Same j j' := by
  obtain ⟨C, blocks, position⟩ := h
  obtain ⟨D, blocks', position'⟩ := g
  rw [key, size] at blocks'
  exact position_unique position position' fun b hb => blocks_unique blocks blocks' hb

theorem room_matches {block off : ℕ} (h : Room tc initial j f block off) : Matches tc initial j f := by
  obtain ⟨C, blocks, position, -⟩ := h
  exact ⟨C, blocks, position⟩

theorem saved_matches {r : Bytes 32} (h : Matches tc initial j f) (valid : j.valid = true)
    (made : recordOf tc j.key c = some r) (fresh : j.counter < c) :
    Matches tc initial (saved j c) (writeSlot (saveBase j f) (saveBlock j) (saveOff j) r) := by
  obtain ⟨C, blocks, position⟩ := room_write (base_room h valid) made fresh
  exact ⟨C, blocks, position.1, position.2, position.3, position.4, position.5, position.6⟩

theorem safe_save_torn (h : Matches tc initial j f) (valid : j.valid = true)
    (ready : j.ready = true) (fresh : j.counter < c) :
    Safe (flashDevice j.blockSize (bitTear j.blockSize)) (fun _ _ => True) (OldOrNew tc initial j c)
      (authJournalSave tc j c) (fun x t => x = (saved j c, true) ∧ Matches tc initial (saved j c) t ∨
        x = ({ j with ready := false }, false)) f := by
  have room := base_room h valid
  have old : ∀ t, Matches tc initial j t → OldOrNew tc initial j c t :=
    fun t ht j' key size g => Or.inl (matches_same ht g key size)
  have written := fun r made => saved_matches (r := r) h valid made fresh
  refine safe_post ?_ (safe_save tc j c f rfl bitTear_readOnly ready fresh (old f h) ?_ ?_)
  · rintro x t (⟨r, made, rfl, rfl⟩ | hx)
    · exact Or.inl ⟨rfl, written r made⟩
    · exact Or.inr hx
  · intro full
    refine ⟨trivial, ?_, old _ (room_matches room)⟩
    rintro t ⟨bytes, raised, rfl⟩ j' key size g
    exact Or.inl (torn_erase h raised key size g)
  · intro r made
    refine ⟨trivial, ?_, fun j' key size g => Or.inr (matches_same (written r made) g key size), trivial⟩
    rintro t ⟨d, raised, rfl⟩ j' key size g
    rcases torn_program room made fresh raised key size g with same | same
    · exact Or.inl same
    · exact Or.inr ⟨same.1, same.2, same.3⟩

theorem safe_save_whole (h : Matches tc initial j f) (valid : j.valid = true)
    (ready : j.ready = true) (fresh : j.counter < c) :
    Safe (flashDevice j.blockSize (wholeTear j.blockSize)) (fun _ _ => True)
      (fun t => Matches tc initial j t ∨ Matches tc initial (saved j c) t)
      (authJournalSave tc j c) (fun _ _ => True) f := by
  have base := room_matches (base_room h valid)
  have written := fun r made => saved_matches (r := r) h valid made fresh
  refine safe_post (fun _ _ _ => trivial) (safe_save tc j c f rfl wholeTear_readOnly ready fresh (Or.inl h) ?_ ?_)
  · intro full
    refine ⟨trivial, ?_, Or.inl base⟩
    rintro t (rfl | rfl)
    · exact Or.inl h
    · rw [saveBase, if_pos full] at base
      exact Or.inl base
  · intro r made
    refine ⟨trivial, ?_, Or.inr (written r made), trivial⟩
    rintro t (rfl | rfl)
    · exact Or.inl base
    · exact Or.inr (written r made)

end

def Sound (tc : TinyCrypt) (initial : UInt32) (s : AuthJournal × Flash) : Prop :=
  s.1.valid = true ∧ (s.1.ready = true → Matches tc initial s.1 s.2)

theorem valid_setUp {j j' : AuthJournal} (h : SetUp j j') : j'.valid = j.valid := by
  rw [AuthJournal.valid, AuthJournal.valid, h.blockSize, h.callbacks]

theorem load_exec {tc : TinyCrypt} {initial : UInt32} {j : AuthJournal} {f f' : Flash}
    {tear : FlashCall → Flash → Flash → Prop} {r : AuthJournal × Bool} (hr : ReadOnly tear)
    (h : Exec (flashDevice j.blockSize tear) (authJournalLoad tc j initial) f r f') :
    f' = f ∧ LoadOutcome tc initial j f r := by
  have spec := @safe_load j.blockSize tear (fun _ _ => True) (fun _ => True) tc j
    initial f hr trivial fun _ _ => trivial
  have out := safe_exec _ _ _ _ _ spec h
  exact out

theorem outcome_sound {tc : TinyCrypt} {initial : UInt32} {j : AuthJournal} {f : Flash}
    {r : AuthJournal × Bool} (h : LoadOutcome tc initial j f r) (valid : j.valid = true ∨ r.2 = true) :
    Sound tc initial (r.1, f) := by
  cases h with
  | invalid no =>
    rcases valid with yes | yes
    · rw [no] at yes
      cases yes
    · cases yes
  | failed c b n =>
    rcases valid with yes | yes
    · exact ⟨yes, fun h => by cases h⟩
    · cases yes
  | found c b n yes h => exact ⟨yes, fun _ => h⟩

theorem happens_sound {tc : TinyCrypt} {initial : UInt32} {s t : AuthJournal × Flash}
    {op : JournalOp} (h : Sound tc initial s) (step : Happens tc initial s op t) :
    Sound tc initial t := by
  obtain ⟨valid, sound⟩ := h
  cases step with
  | @returns op j j' f f' ok h =>
    cases op with
    | load =>
      obtain ⟨rfl, outcome⟩ := load_exec bitTear_readOnly h
      exact outcome_sound outcome (Or.inl valid)
    | save c =>
      by_cases go : j.ready = true ∧ j.counter < c
      · rcases safe_exec _ _ _ _ _ (safe_save_torn (sound go.1) valid go.1 go.2) h with ⟨e, m⟩ | e
        · obtain ⟨rfl, -⟩ := Prod.mk.inj e
          exact ⟨valid, fun _ => m⟩
        · obtain ⟨rfl, -⟩ := Prod.mk.inj e
          exact ⟨valid, fun h => by cases h⟩
      · change Exec _ (authJournalSave tc j c) f (j', ok) f' at h
        have refused : j.ready = false ∨ c ≤ j.counter := by
          rw [not_and_or, Bool.not_eq_true] at go
          exact go.imp_right UInt32.not_lt.mp
        rw [save_refused tc j c refused] at h
        obtain ⟨e, rfl⟩ := h
        obtain ⟨rfl, -⟩ := Prod.mk.inj e
        exact ⟨valid, sound⟩
  | cut h setUp off =>
    refine ⟨(valid_setUp setUp).trans valid, fun ready => ?_⟩
    rw [off] at ready
    cases ready

theorem reached_sound {tc : TinyCrypt} {initial : UInt32} {j : AuthJournal} {f : Flash}
    (h : Reached tc initial j f) : Sound tc initial (j, f) := by
  obtain ⟨j₀, j₁, f₀, f₁, ops, first, run⟩ := h
  obtain ⟨rfl, outcome⟩ := load_exec bitTear_readOnly first
  exact run_invariant (Sound tc initial) (fun _ _ _ => happens_sound)
    (outcome_sound outcome (Or.inr rfl)) run

theorem broken_kept {tc : TinyCrypt} {tear : FlashCall → Flash → Flash → Prop} {j : AuthJournal}
    {c : UInt32} {f t : Flash} {G : FlashCall → Flash → Prop} {K : Flash → Prop}
    {Q : AuthJournal × Bool → Flash → Prop}
    (spec : Safe (flashDevice j.blockSize tear) G K (authJournalSave tc j c) Q f)
    (broken : Broken tc tear j c f t) : K t := by
  rcases broken with cut | ⟨j', failed⟩
  · exact safe_cut _ _ _ _ spec cut
  · exact (safe_exec _ _ _ _ _ (safe_and_crash spec) failed).2

/-- Crash atomicity. The later load may itself run on a memory that holds anything. -/
theorem save_crash_atomic (tc : TinyCrypt) (initial c : UInt32) (j : AuthJournal) (f : Flash)
    (reached : Reached tc initial j f) (ready : j.ready = true) (fresh : j.counter < c) :
    (∀ t boot k ok u, Broken tc (bitTear j.blockSize) j c f t → SetUp j boot →
      Exec (flashDevice j.blockSize (bitTear j.blockSize)) (authJournalLoad tc boot initial) t (k, ok)
        u →
      ok = true → (k.counter = j.counter ∨ k.counter = c) ∧ Stands tc k u) ∧
    (∀ t boot, Broken tc (wholeTear j.blockSize) j c f t → SetUp j boot →
      ∃ k, (authJournalLoad tc boot initial).eval (flashEval j.blockSize) t = ((k, true), t) ∧
        (k.counter = j.counter ∨ k.counter = c) ∧ Stands tc k t) := by
  obtain ⟨valid, sound⟩ := reached_sound reached
  have h := sound ready
  refine ⟨?_, ?_⟩
  · rintro t boot k ok u broken setUp load rfl
    have left : OldOrNew tc initial j c t := broken_kept (safe_save_torn h valid ready fresh) broken
    rw [← setUp.blockSize] at load
    obtain ⟨rfl, outcome⟩ := load_exec (by rw [setUp.blockSize]; exact bitTear_readOnly) load
    cases outcome with
    | found d b n valid' m =>
      have stands := matches_stands m valid'
      refine ⟨?_, stands⟩
      rcases left (({ boot with ready := true } : AuthJournal).moveTo d b n) setUp.key
        setUp.blockSize m with same | same
      · exact Or.inl same.counter
      · exact Or.inr same.counter
  · intro t boot broken setUp
    have left : Matches tc initial j t ∨ Matches tc initial (saved j c) t :=
      broken_kept (safe_save_whole h valid ready fresh) broken
    have valid' := (valid_setUp setUp).trans valid
    have again : ∀ j', j'.key = j.key → j'.blockSize = j.blockSize → Matches tc initial j' t →
        ∃ k, (authJournalLoad tc boot initial).eval (flashEval j.blockSize) t = ((k, true), t) ∧
          k.counter = j'.counter ∧ Stands tc k t := by
      intro j' key size m
      have key' := setUp.key.trans key.symm
      have size' := setUp.blockSize.trans size.symm
      exact ⟨_, load_complete tc boot j' initial t valid' key' size' m, rfl,
        matches_stands (matches_moved m key' size') valid'⟩
    rcases left with m | m
    · obtain ⟨k, run, counter, stands⟩ := again j rfl rfl m
      exact ⟨k, run, Or.inl counter, stands⟩
    · obtain ⟨k, run, counter, stands⟩ := again (saved j c) rfl rfl m
      exact ⟨k, run, Or.inr counter, stands⟩

theorem small_exec (blockSize : ℕ) (c : UInt32) (pos : 0 < c) :
    Exec (flashDevice 64 (bitTear blockSize)) (authJournalLoad referenceTinyCrypt smallJournal c)
      (seedFlash (smallSeed c)) (({ smallJournal with ready := true } : AuthJournal).moveTo c 1 32, true)
      (seedFlash (smallSeed c)) := by
  have run := eval_exec (flashEval 64) (flashEval_answers 64 (bitTear blockSize))
    (authJournalLoad referenceTinyCrypt smallJournal c) (seedFlash (smallSeed c))
  rwa [small_load pos] at run

theorem raised_ones (b : UInt8) : Raised b 255 := by
  have ones : ∀ i, i < 8 → bit 255 i = true := by decide
  exact fun i hi => Or.inl (ones i hi)

def firstWord (r : Bytes 32) : Bytes 32 := ⟨r.data.take 4 ++ List.replicate 28 255, by simp⟩

theorem raised_self (bytes : List UInt8) : List.Forall₂ Raised bytes bytes :=
  List.forall₂_same.mpr fun _ _ _ _ => Or.inr rfl

theorem raised_firstWord (r : Bytes 32) : RaisedBytes r (firstWord r) := by
  have rest : List.Forall₂ Raised (r.data.drop 4) (List.replicate 28 255) := by
    rw [List.forall₂_iff_get]
    refine ⟨by simp, fun i _ _ => ?_⟩
    rw [List.get_eq_getElem, List.get_eq_getElem, List.getElem_replicate]
    exact raised_ones _
  have whole : List.Forall₂ Raised (r.data.take 4 ++ r.data.drop 4) (firstWord r).data :=
    List.rel_append (raised_self (r.data.take 4)) rest
  rwa [List.take_append_drop] at whole

theorem save_torn {tc : TinyCrypt} {tear : FlashCall → Flash → Flash → Prop} {j : AuthJournal}
    {c : UInt32} {f t : Flash} {r : Bytes 32} (ready : j.ready = true) (fresh : j.counter < c)
    (room : j.next ≠ j.blockSize) (made : recordOf tc j.key c = some r)
    (torn : tear (.program j.active j.next r) f t) : Broken tc tear j c f t := by
  have opened : ¬ (!j.ready || decide (c ≤ j.counter)) = true := by
    simp [ready, UInt32.not_le.mpr fresh]
  left
  rw [authJournalSave, if_neg opened, if_neg room, appendRecord]
  rw [recordOf] at made
  obtain ⟨mac, computed, rfl⟩ := Option.map_eq_some_iff.mp made
  rw [computed]
  exact Or.inr (Or.inl torn)

theorem small_valid : (({ smallJournal with ready := true } : AuthJournal).moveTo 7 1 32).valid = true :=
  rfl

/-- Eight saved over seven, with power lost in the program: after the first word of the
    record, and after the last. -/
theorem save_crash_atomic_small :
    let j := ({ smallJournal with ready := true } : AuthJournal).moveTo 7 1 32
    let f := seedFlash (smallSeed 7)
    let half := writeSlot f 1 32 (firstWord (smallSeed 8))
    let whole := writeSlot f 1 32 (smallSeed 8)
    slotAt f 1 32 = blank ∧ slotAt half 1 32 = ⟨[0, 0, 0, 8] ++ List.replicate 28 255, rfl⟩ ∧
      (∀ t, t = half ∨ t = whole → Broken referenceTinyCrypt (bitTear 64) j 8 f t ∧ ∀ k ok u,
        Exec (flashDevice 64 (bitTear 64)) (authJournalLoad referenceTinyCrypt smallJournal 7) t
          (k, ok) u → ok = true →
        (k.counter = 7 ∨ k.counter = 8) ∧ Stands referenceTinyCrypt k u) ∧
      Broken referenceTinyCrypt (wholeTear 64) j 8 f whole ∧
      ∃ k, (authJournalLoad referenceTinyCrypt smallJournal 7).eval (flashEval 64) whole =
        ((k, true), whole) ∧ k.counter = 8 ∧ Stands referenceTinyCrypt k whole := by
  intro j f half whole
  have atomic := save_crash_atomic referenceTinyCrypt 7 8 j f
    ⟨smallJournal, j, _, _, [], small_exec 64 7 (by decide), .start _⟩ rfl (by decide)
  have first : ∀ t, t = half ∨ t = whole → Broken referenceTinyCrypt (bitTear 64) j 8 f t := by
    rintro t (rfl | rfl)
    · exact save_torn rfl (by decide) (by decide) (small_record 8) ⟨_, raised_firstWord _, rfl⟩
    · exact save_torn rfl (by decide) (by decide) (small_record 8) ⟨_, raised_self _, rfl⟩
  have last : Broken referenceTinyCrypt (wholeTear 64) j 8 f whole :=
    save_torn rfl (by decide) (by decide) (small_record 8) (Or.inr rfl)
  obtain ⟨k, run, -, stands⟩ := atomic.2 whole smallJournal last ⟨rfl, rfl, rfl⟩
  have before : Matches referenceTinyCrypt 7 j f :=
    matches_moved (j := smallJournal) (small_matches (by decide)) rfl rfl
  have written : Matches referenceTinyCrypt 7 (saved j 8) whole :=
    saved_matches before small_valid (small_record 8) (by decide)
  have loaded := @load_complete 64 referenceTinyCrypt smallJournal (saved j 8) 7 whole rfl rfl rfl
    written
  have same := congrArg (fun x => x.1.1.counter) (run.symm.trans loaded)
  refine ⟨rfl, slotAt_write _ _ _ _, fun t ht => ⟨first t ht, fun k ok u load yes => ?_⟩, last, k, run,
    same, stands⟩
  exact atomic.1 t smallJournal k ok u (first t ht) ⟨rfl, rfl, rfl⟩ load yes

end SimpleAttestation.JournalCrash
