import SimpleAttestation.BoardStore

set_option autoImplicit false

/-!
# The hardware implements the durable counter

`storeDevice` is what a party may rely on: its counter survives, the memory outside the
journals is that of the factory, and nothing loads on an unprotected board. `maskDevice`
is the interrupt mask. The board answers as both do, losing power included.
-/
namespace SimpleAttestation.BoardRefinement
open ByteStrings Wire Crypto CallProgram Platform MemoryProtection Session Journal JournalLoad
open JournalSave JournalCrash Hardware FlashDriver FlashRefinement StoreRegister BoardStore
open Store hiding boardPlatform boardStoreLoad boardStoreSave

def provisioned (cfg : Config) (rom : ℕ → UInt8) : List UInt8 := (readMemory rom cfg.keyAddress 160).data

def saveErrors : List AuthError := .counterSave :: flashErrors

def storeDevice (tc : TinyCrypt) (cfg : Config) (rom : ℕ → UInt8) (options : Options) :
    Device PlatformCall PlatformCall.Reply UInt32 where
  answers
    | .load, s, r, t => t = s ∧ (r = none ∨ Protected cfg options ∧
        recordValid tc cfg.toBoard (provisioned cfg rom) = true ∧
        r = some (materialOf (provisioned cfg rom) s))
    | .saveCounter c, s, r, t => (0 < r → t = c) ∧ (t = s ∨ t = c) ∧
        (r = 1 ∨ ∃ e ∈ saveErrors, r = -(e.code : ℤ))
    | .readRange start length, s, r, t =>
        ((∀ i, i < length → ¬ cfg.inJournal (start + i)) → r = readMemory rom start length) ∧ t = s
    | _, s, _, t => t = s
  tears
    | .saveCounter c, s, t => t = s ∨ t = c
    | _, s, t => t = s

def maskDevice : Device PlatformCall PlatformCall.Reply ℕ where
  answers
    | .enterAtomic, s, r, t => r = s ∧ t = 1
    | .leaveAtomic previous, _, _, t => t = previous
    | _, s, _, t => t = s
  tears _ _ _ := True

def platformDevice (tc : TinyCrypt) (cfg : Config) (rom : ℕ → UInt8) (options : Options) :
    Device PlatformCall PlatformCall.Reply (UInt32 × ℕ) :=
  (storeDevice tc cfg rom options).prod maskDevice

section
variable {tc : TinyCrypt} {cfg : Config} {rom : ℕ → UInt8} {mask : ℕ} {options : Options} {f : Flash}
  {s : Chip} {d c : UInt32}

theorem safe_save_guarded {j : AuthJournal} {initial : UInt32} (h : Matches tc initial j f)
    (valid : j.valid = true) (ready : j.ready = true) (fresh : j.counter < c) :
    Safe (flashDevice j.blockSize (bitTear j.blockSize)) (Guarded j.blockSize) (OldOrNew tc initial j c)
      (authJournalSave tc j c) (fun x t => x = (saved j c, true) ∧ Matches tc initial (saved j c) t ∨
        x = ({ j with ready := false }, false)) f := by
  have room := base_room h valid
  obtain ⟨free, aligned, inside, two⟩ := room_slot room
  have old : ∀ t, Matches tc initial j t → OldOrNew tc initial j c t :=
    fun t ht j' key size g => Or.inl (matches_same ht g key size)
  have written := fun r made => saved_matches (r := r) h valid made fresh
  refine safe_post ?_ (safe_save tc j c f rfl bitTear_readOnly ready fresh (old f h) ?_ ?_)
  · rintro x t (⟨r, made, rfl, rfl⟩ | hx)
    · exact Or.inl ⟨rfl, written r made⟩
    · exact Or.inr hx
  · intro full
    refine ⟨(xor_one (matches_stands h valid).active_lt).1, ?_, old _ (room_matches room)⟩
    rintro t ⟨bytes, raised, rfl⟩ j' key size g
    exact Or.inl (torn_erase h raised key size g)
  · intro r made
    refine ⟨⟨two, aligned, inside, free⟩, ?_,
      fun j' key size g => Or.inr (matches_same (written r made) g key size), trivial⟩
    rintro t ⟨d, raised, rfl⟩ j' key size g
    rcases torn_program room made fresh raised key size g with same | same
    · exact Or.inl same
    · exact Or.inr ⟨same.1, same.2, same.3⟩

/-- The journal in memory, the durable counter and the hardware under both. -/
def Stands (tc : TinyCrypt) (cfg : Config) (rom : ℕ → UInt8) (options : Options) (x : UInt32 × ℕ)
    (st : Statics) (s : Chip) : Prop :=
  ∃ f, Backed tc cfg.toBoard (provisioned cfg rom) x.1 st.journal f ∧ Holds cfg rom x.2 options f s

/-- A flash on which every load finds `d` or nothing. -/
def Remains (tc : TinyCrypt) (cfg : Config) (rom : ℕ → UInt8) (d : UInt32) (flash : ℕ → UInt8) : Prop :=
  ∃ f, Settled tc cfg.toBoard (provisioned cfg rom) d f ∧ Keeps cfg rom f flash

theorem stands_remains {st : Statics} (h : Stands tc cfg rom options (d, mask) st s) :
    Remains tc cfg rom d s.flash := by
  obtain ⟨f, backed, holds⟩ := h
  exact ⟨f, backed.settled, holds.mirrors, holds.outside⟩

theorem record_steady (cfg : Config) {i : ℕ} (inside : i < 160) : ¬ cfg.inJournal (cfg.keyAddress + i) := by
  rw [BoardProtection.journal_cases]
  have := cfg.key_A
  have := cfg.key_B
  omega

theorem peek_steady {flash : ℕ → UInt8} (outside : Outside cfg rom flash) {start length : ℕ}
    (steady : ∀ i, i < length → ¬ cfg.inJournal (start + i)) :
    readMemory flash start length = readMemory rom start length := by
  ext1
  simp only [readMemory]
  exact List.map_congr_left fun i hi => outside _ (steady i (List.mem_range.mp hi))

theorem holds_record (h : Holds cfg rom mask options f s) :
    readMemory s.flash cfg.keyAddress 160 = readMemory rom cfg.keyAddress 160 :=
  peek_steady h.outside fun _ => record_steady cfg

theorem drives_load (mapped : Mapped cfg) {st : Statics} (h : Stands tc cfg rom options (d, mask) st s) :
    Drives cfg (Remains tc cfg rom d) (boardStoreLoad tc cfg st)
      (fun x t => (storeDevice tc cfg rom options).answers .load d x.1 d ∧
        Stands tc cfg rom options (d, mask) x.2 t) s := by
  have kept := h
  have here := stands_remains h
  obtain ⟨f, backed, holds⟩ := h
  unfold boardStoreLoad
  refine safe_then (drives_protectionValid here) ?_
  rintro valid s ⟨rfl, iff⟩ -
  rw [holds.options] at iff
  refine drives_if (fun _ => ⟨here, ⟨rfl, Or.inl rfl⟩, kept⟩) fun protected_ => ?_
  have protected_ := iff.mp (by simpa using protected_)
  refine drives_reply _ here trivial (fun _ h => h) (fun _ _ h => h) ?_
  rw [holds_record holds]
  refine drives_if (fun _ => ?_) fun record => ?_
  · exact drives_set _ here trivial (fun _ h => h) (fun _ _ h => h) fun _ => ⟨here, ⟨rfl, Or.inl rfl⟩, kept⟩
  have record : recordValid tc cfg.toBoard (provisioned cfg rom) = true := by
    rwa [Bool.not_eq_true', Bool.not_eq_false] at record
  have load := @safe_load cfg.journalBlockSize (bitTear cfg.journalBlockSize) (Guarded cfg.journalBlockSize)
    (fun t => Settled tc cfg.toBoard (provisioned cfg rom) d t) tc
    (journalOf cfg.toBoard (provisioned cfg rom)) (initialOf (provisioned cfg rom)) f
    bitTear_readOnly backed.settled fun _ _ => trivial
  refine safe_then (drives_interp mapped _ _ st.storeError holds load) ?_
  rintro ⟨⟨k, loaded⟩, e⟩ t ⟨f', ⟨rfl, outcome⟩, holds', -⟩ here'
  cases outcome with
  | invalid | failed =>
    exact drives_set _ here' trivial (fun _ h => h) (fun _ _ h => h) fun _ =>
      ⟨here', ⟨rfl, Or.inl rfl⟩, f', backed_off backed.settled rfl, holds'⟩
  | found c b n valid m =>
    obtain rfl : c = d := backed.settled _ rfl rfl m
    exact ⟨here', ⟨rfl, Or.inr ⟨protected_, record, rfl⟩⟩, f',
      ⟨backed.settled, fun _ => ⟨valid, ⟨rfl, rfl, rfl⟩, m, rfl⟩⟩, holds'⟩

theorem mem_saveErrors {e : AuthError} (h : e = .counterSave ∨ e ∈ flashErrors) : e ∈ saveErrors := by
  rcases h with rfl | error
  · exact List.mem_cons_self
  · exact List.mem_cons_of_mem _ error

theorem failed_save {e : AuthError} (error : e ∈ saveErrors) {d' : UInt32} (either : d' = d ∨ d' = c) :
    (storeDevice tc cfg rom options).answers (.saveCounter c) d (-(e.code : ℤ)) d' := by
  have nonpos : ¬ (0 : ℤ) < -(e.code : ℤ) := by omega
  exact ⟨fun pos => absurd pos nonpos, either, Or.inr ⟨e, error, rfl⟩⟩

theorem drives_save (mapped : Mapped cfg) {st : Statics} (h : Stands tc cfg rom options (d, mask) st s) :
    Drives cfg (fun flash => Remains tc cfg rom d flash ∨ Remains tc cfg rom c flash)
      (boardStoreSave tc cfg st c)
      (fun x t => ∃ d', (storeDevice tc cfg rom options).answers (.saveCounter c) d x.1 d' ∧
        Stands tc cfg rom options (d', mask) x.2 t) s := by
  have here : Remains tc cfg rom d s.flash ∨ Remains tc cfg rom c s.flash := Or.inl (stands_remains h)
  obtain ⟨f, backed, holds⟩ := h
  unfold boardStoreSave
  by_cases go : st.journal.ready = true ∧ st.journal.counter < c
  · obtain ⟨valid, setUp, m, same⟩ := backed.ready go.1
    change st.journal.counter = d at same
    have save := safe_save_guarded m valid go.1 go.2
    rw [setUp.blockSize] at save
    have left : ∀ flash, (∃ f', OldOrNew tc (initialOf (provisioned cfg rom)) st.journal c f' ∧
        Keeps cfg rom f' flash) → Remains tc cfg rom d flash ∨ Remains tc cfg rom c flash := by
      rintro flash ⟨f', torn, keeps⟩
      rcases settled_torn setUp torn with old | new
      · exact Or.inl ⟨f', same ▸ old, keeps⟩
      · exact Or.inr ⟨f', new, keeps⟩
    refine safe_then (safe_mono _ _ _ s (fun _ _ g => g) (fun t k => left t.flash k) (fun _ _ q => q)
      (drives_interp mapped _ _ .counterSave holds (safe_and_crash save))) ?_
    rintro ⟨⟨k, ok⟩, e⟩ t ⟨f', ⟨outcome, torn⟩, holds', note⟩ crash
    rcases outcome with ⟨same', m'⟩ | same'
    · obtain ⟨rfl, rfl⟩ := Prod.mk.inj same'
      have setUp' : SetUp (journalOf cfg.toBoard (provisioned cfg rom)) (saved st.journal c) :=
        ⟨setUp.1, setUp.2, setUp.3⟩
      exact ⟨crash, c, ⟨fun _ => rfl, Or.inr rfl, Or.inl rfl⟩, f',
        ⟨settled_matches setUp' m', fun _ => ⟨valid, setUp', m', rfl⟩⟩, holds'⟩
    · obtain ⟨rfl, rfl⟩ := Prod.mk.inj same'
      rcases settled_torn setUp torn with old | new
      · exact ⟨crash, d, failed_save (mem_saveErrors note) (Or.inl rfl), f',
          backed_off (same ▸ old) rfl, holds'⟩
      · exact ⟨crash, c, failed_save (mem_saveErrors note) (Or.inr rfl), f', backed_off new rfl, holds'⟩
  · have refused : st.journal.ready = false ∨ c ≤ st.journal.counter := by
      rw [not_and_or, Bool.not_eq_true] at go
      exact go.imp_right UInt32.not_lt.mp
    rw [save_refused tc st.journal c refused]
    exact ⟨here, d, failed_save List.mem_cons_self (Or.inl rfl), f, backed, holds⟩

theorem drives_randomWords {Kf : (ℕ → UInt8) → Prop} (here : Kf s.flash) (words len : ℕ) :
    Drives cfg Kf (randomWords words len) (fun _ t => t = s) s := by
  induction words generalizing len with
  | zero => exact ⟨here, rfl⟩
  | succ words ih =>
    refine drives_set s here trivial (fun _ h => h) (fun _ _ h => h) fun word => ?_
    cases word with
    | none => exact ⟨here, rfl⟩
    | some word =>
      change Drives cfg Kf (randomWords words (len - 4) >>= fun rest =>
        pure (rest.map ((simplePutU32 word).take len ++ ·))) _ s
      refine safe_then (ih (len - 4)) ?_
      rintro rest t rfl -
      exact ⟨here, rfl⟩

theorem drives_randomBytes {Kf : (ℕ → UInt8) → Prop} (here : Kf s.flash) (len : ℕ) :
    Drives cfg Kf (randomBytes len) (fun _ t => t = s) s := by
  refine safe_then (drives_randomWords here _ len) ?_
  rintro out t rfl -
  exact ⟨here, rfl⟩

/-- Where losing power inside `call` may leave the durable counter. -/
def Down (tc : TinyCrypt) (cfg : Config) (rom : ℕ → UInt8) (options : Options) (call : PlatformCall)
    (x : UInt32 × ℕ) (flash : ℕ → UInt8) : Prop :=
  ∃ y : UInt32 × ℕ, (y = x ∨ (platformDevice tc cfg rom options).tears call x y ∨
    ∃ r, (platformDevice tc cfg rom options).answers call x r y) ∧ Remains tc cfg rom y.1 flash

theorem drives_platform (mapped : Mapped cfg) (call : PlatformCall) {st : Statics} {x : UInt32 × ℕ}
    (h : Stands tc cfg rom options x st s) :
    Drives cfg (Down tc cfg rom options call x) (boardPlatform tc cfg call st)
      (fun a t => ∃ y, (platformDevice tc cfg rom options).answers call x a.1 y ∧
        Stands tc cfg rom options y a.2 t) s := by
  obtain ⟨d, mask⟩ := x
  have here : Down tc cfg rom options call (d, mask) s.flash := ⟨_, Or.inl rfl, stands_remains h⟩
  cases call with
  | load =>
    refine safe_mono _ _ _ s (fun _ _ g => g) (fun t k => ⟨_, Or.inl rfl, k⟩) ?_ (drives_load mapped h)
    rintro a t ⟨answered, stands⟩
    exact ⟨(d, mask), ⟨answered, rfl⟩, stands⟩
  | saveCounter c =>
    refine safe_mono _ _ _ s (fun _ _ g => g) (fun t k => ?_) ?_ (drives_save mapped h)
    · rcases k with old | new
      · exact ⟨_, Or.inl rfl, old⟩
      · exact ⟨(c, mask), Or.inr (Or.inl ⟨Or.inr rfl, trivial⟩), new⟩
    · rintro a t ⟨d', answered, stands⟩
      exact ⟨(d', mask), ⟨answered, rfl⟩, stands⟩
  | random len =>
    change Drives cfg _ (randomBytes len >>= fun r => pure (r, st)) _ s
    refine safe_then (drives_randomBytes here len) ?_
    rintro r t rfl -
    exact ⟨here, (d, mask), ⟨rfl, rfl⟩, h⟩
  | enterAtomic =>
    obtain ⟨f, backed, holds⟩ := h
    refine drives_reply _ here trivial (fun _ h => h) (fun _ _ h => h) ?_
    refine drives_set _ here trivial (fun _ h => h) (fun _ _ h => h) fun _ => ?_
    exact ⟨here, (d, 1), ⟨rfl, holds.mask, rfl⟩, f, backed,
      ⟨⟨holds.idle.locked, holds.idle.closed⟩, holds.mirrors, holds.outside, rfl, holds.options⟩⟩
  | leaveAtomic previous =>
    obtain ⟨f, backed, holds⟩ := h
    refine drives_set _ here trivial (fun _ h => h) (fun _ _ h => h) fun _ => ?_
    exact ⟨here, (d, previous), ⟨rfl, rfl⟩, f, backed,
      ⟨⟨holds.idle.locked, holds.idle.closed⟩, holds.mirrors, holds.outside, rfl, holds.options⟩⟩
  | readRange start length =>
    refine drives_reply _ here trivial (fun _ h => h) (fun _ _ h => h) ?_
    obtain ⟨f, backed, holds⟩ := id h
    exact ⟨here, (d, mask), ⟨⟨fun steady => peek_steady holds.outside steady, rfl⟩, rfl⟩, h⟩
  | nowMs | ui | error | writeResponse =>
    exact drives_set s here trivial (fun _ h => h) (fun _ _ h => h) fun _ =>
      ⟨here, (d, mask), ⟨rfl, rfl⟩, h⟩

/-- What is safe on the durable counter and the mask is safe on the hardware. -/
theorem drives_board (mapped : Mapped cfg) {α : Type} (prog : PlatformProg α)
    (G : PlatformCall → UInt32 × ℕ → Prop) (K : UInt32 × ℕ → Prop) (Q : α → UInt32 × ℕ → Prop)
    {x : UInt32 × ℕ} {st : Statics} (h : Stands tc cfg rom options x st s)
    (safe : Safe (platformDevice tc cfg rom options) G K prog Q x) :
    Drives cfg (fun flash => ∃ y, K y ∧ Remains tc cfg rom y.1 flash)
      (prog.interp (boardPlatform tc cfg) st)
      (fun a t => ∃ y, Q a.1 y ∧ Stands tc cfg rom options y a.2 t) s :=
  safe_interp (platformDevice tc cfg rom options) (hardware cfg) G (Requested cfg) K
    (boardPlatform tc cfg) (Stands tc cfg rom options) (fun y t => Remains tc cfg rom y.1 t.flash)
    (fun _ _ _ h => stands_remains h) (fun call _ _ _ h _ => drives_platform mapped call h) prog Q x st s h
    safe

end

end SimpleAttestation.BoardRefinement
