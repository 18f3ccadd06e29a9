import SimpleAttestation.BoardProtection
import SimpleAttestation.FlashRefinement
import SimpleAttestation.StoreRegister

set_option autoImplicit false

/-!
# The platform of a board on its hardware (store.c, board.c)

The callbacks that reach the flash, the interrupt mask and the random number generator.
The other ones are answered from outside.
-/
namespace SimpleAttestation.BoardStore
open ByteStrings Wire Crypto CallProgram Platform MemoryProtection Session Journal JournalLoad
open JournalSave JournalCrash Hardware FlashDriver FlashRefinement StoreRegister
open Store hiding boardPlatform boardStoreLoad boardStoreSave

def boardReportError (error : AuthError) : HalProg Unit :=
  Prog.ask (HalCall.outside (.error error.code))

def refuse (error : AuthError) : HalProg Bool := do
  boardReportError error
  pure false

def protectionH7 (cfg : Config) (codeWrp keyWrp : ℕ) : HalProg Bool := do
  let size ← Prog.ask HalCall.flashSize
  if size / 1024 ≠ cfg.flashKib then refuse .flashSize
  else do
    let ob ← Prog.ask (HalCall.obGetConfig 1)
    if ob.swapBank then refuse .bankMapping
    else if !cfg.requireProtection then pure true
    else if ob.rdpLevel ≠ 1 then refuse .rdp
    else if !ob.wrpSector codeWrp then refuse .codeWrp
    else do
      let ob ← Prog.ask (HalCall.obGetConfig 2)
      if !ob.wrpSector keyWrp then refuse .keyWrp else pure true

/-- The option bytes of the G4. -/
def protectionWrp (codeWrp keyWrp : WrpArea) : HalProg Bool := do
  let ob ← Prog.ask (HalCall.obGetConfig codeWrp.area)
  if ob.rdpLevel ≠ 1 then refuse .rdp
  else if ob.wrpStartOffset ≠ codeWrp.first ∨ ob.wrpEndOffset ≠ codeWrp.last then refuse .codeWrp
  else do
    let ob ← Prog.ask (HalCall.obGetConfig keyWrp.area)
    if ob.wrpStartOffset ≠ keyWrp.first ∨ ob.wrpEndOffset ≠ keyWrp.last then refuse .keyWrp
    else pure true

/-- `FLASH_OPTR_DBANK` set and the boot mode not remapped; the second is read if the first holds. -/
def banksMapped (requireDbank : Bool) : HalProg Bool :=
  if !requireDbank then pure true
  else do
    let dbank ← Prog.ask HalCall.optrDbank
    if !dbank then pure false
    else do
      let fbMode ← Prog.ask HalCall.memrmpFbMode
      pure (!fbMode)

def protectionG4 (cfg : Config) (requireDbank : Bool) (codeWrp keyWrp : WrpArea) : HalProg Bool := do
  let size ← Prog.ask HalCall.flashSize
  if size / 1024 ≠ cfg.flashKib then refuse .flashSize
  else do
    let mapped ← banksMapped requireDbank
    if !mapped then refuse .bankMapping
    else if !cfg.requireProtection then pure true
    else protectionWrp codeWrp keyWrp

def protectionValid (cfg : Config) : HalProg Bool :=
  match cfg.family with
  | .h7 codeWrp keyWrp => protectionH7 cfg codeWrp keyWrp
  | .g4 requireDbank codeWrp keyWrp => protectionG4 cfg requireDbank codeWrp keyWrp

/-- The static variables of store.c and `board_loaded_counter`. -/
structure Statics where
  journal : AuthJournal
  storeError : AuthError
  loadedCounter : UInt32

def Statics.zero : Statics := ⟨.zero, .none, 0⟩

def boardStoreLoad (tc : TinyCrypt) (cfg : Config) (st : Statics) :
    HalProg (Option AuthMaterial × Statics) := do
  let valid ← protectionValid cfg
  if !valid then pure (none, st)
  else do
    let p ← Prog.ask (HalCall.peek cfg.keyAddress 160)
    if !recordValid tc cfg.toBoard p.data then do
      boardReportError .provisioning
      pure (none, st)
    else do
      let ((journal, loaded), storeError) ←
        (authJournalLoad tc (journalOf cfg.toBoard p.data) (initialOf p.data)).interp
          (journalCallbacks cfg) st.storeError
      if !loaded then do
        boardReportError .journal
        pure (none, { st with journal := .zero, storeError := storeError })
      else pure (some (materialOf p.data journal.counter), ⟨journal, storeError, journal.counter⟩)

def boardStoreSave (tc : TinyCrypt) (cfg : Config) (st : Statics) (counter : UInt32) :
    HalProg (ℤ × Statics) := do
  let ((journal, ok), storeError) ←
    (authJournalSave tc st.journal counter).interp (journalCallbacks cfg) .counterSave
  if ok then pure (1, ⟨journal, storeError, counter⟩)
  else pure (-(storeError.code : ℤ), ⟨journal, storeError, st.loadedCounter⟩)

/-- One iteration draws a word for up to four bytes. -/
def randomWords : ℕ → ℕ → HalProg (Option (List UInt8))
  | 0, _ => pure (some [])
  | words + 1, len => do
    let word ← Prog.ask HalCall.rngGenerate
    match word with
    | none => pure none
    | some word => do
      let rest ← randomWords words (len - 4)
      pure (rest.map ((simplePutU32 word).take len ++ ·))

def randomBytes (len : ℕ) : HalProg (Option (Bytes len)) := do
  let out ← randomWords ((len + 3) / 4) len
  pure (out.map fun out => bytesAt len out 0)

def enterAtomic : HalProg ℕ := do
  let saved ← Prog.ask HalCall.getPrimask
  Prog.ask HalCall.disableIrq
  pure saved

def boardPlatform (tc : TinyCrypt) (cfg : Config) :
    (c : PlatformCall) → Statics → HalProg (c.Reply × Statics)
  | .load, st => boardStoreLoad tc cfg st
  | .saveCounter counter, st => boardStoreSave tc cfg st counter
  | .random len, st => randomBytes len >>= fun r => pure (r, st)
  | .enterAtomic, st => enterAtomic >>= fun r => pure (r, st)
  | .leaveAtomic saved, st => Prog.ask (HalCall.setPrimask saved) >>= fun r => pure (r, st)
  | .readRange start length, st => Prog.ask (HalCall.peek start length) >>= fun r => pure (r, st)
  | .nowMs, st => Prog.ask (HalCall.outside .nowMs) >>= fun r => pure (r, st)
  | .ui phase, st => Prog.ask (HalCall.outside (.ui phase)) >>= fun r => pure (r, st)
  | .error code, st => Prog.ask (HalCall.outside (.error code)) >>= fun r => pure (r, st)
  | .writeResponse bytes, st => Prog.ask (HalCall.outside (.writeResponse bytes)) >>= fun r => pure (r, st)

structure WrpSet (o : OptionBytes) (wrp : WrpArea) : Prop where
  first : o.wrpStartOffset = wrp.first
  last : o.wrpEndOffset = wrp.last

def Protected (cfg : Config) (o : Options) : Prop :=
  o.flashSize / 1024 = cfg.flashKib ∧
  match cfg.family with
  | .h7 codeWrp keyWrp => (o.optionBytes 1).swapBank = false ∧
    (cfg.requireProtection = true → (o.optionBytes 1).rdpLevel = 1 ∧
      (o.optionBytes 1).wrpSector codeWrp = true ∧ (o.optionBytes 2).wrpSector keyWrp = true)
  | .g4 requireDbank codeWrp keyWrp =>
    (requireDbank = true → o.dbank = true ∧ o.fbMode = false) ∧
    (cfg.requireProtection = true → (o.optionBytes codeWrp.area).rdpLevel = 1 ∧
      WrpSet (o.optionBytes codeWrp.area) codeWrp ∧ WrpSet (o.optionBytes keyWrp.area) keyWrp)

section
variable {cfg : Config} {Kf : (ℕ → UInt8) → Prop} {s : Chip} {α : Type}

theorem drives_reply {c : HalCall} {k : c.Reply → HalProg α} {Q : α → Chip → Prop} (reply : c.Reply)
    (here : Kf s.flash) (free : Requested cfg c s)
    (calm : ∀ u, (hardware cfg).tears c s u → u.flash = s.flash)
    (only : ∀ r u, (hardware cfg).answers c s r u → r = reply ∧ u = s)
    (rest : Drives cfg Kf (k reply) Q s) : Drives cfg Kf (.call c k) Q s := by
  refine ⟨here, free, fun u torn => ?_, fun r u answered => ?_⟩
  · change Kf u.flash
    rw [calm u torn]
    exact here
  · obtain ⟨rfl, rfl⟩ := only r u answered
    exact rest

theorem drives_if {c : Prop} [Decidable c] {p q : HalProg α} {Q : α → Chip → Prop}
    (yes : c → Drives cfg Kf p Q s) (no : ¬ c → Drives cfg Kf q Q s) :
    Drives cfg Kf (if c then p else q) Q s := by
  split
  · exact yes ‹_›
  · exact no ‹_›

theorem drives_refuse {error : AuthError} {P : Prop} (here : Kf s.flash) (broken : ¬ P) :
    Drives cfg Kf (refuse error) (fun ok t => t = s ∧ (ok = true ↔ P)) s :=
  drives_set s here trivial (fun _ h => h) (fun _ _ h => h) fun _ =>
    ⟨here, rfl, nofun, fun h => absurd h broken⟩

theorem drives_protectionH7 {codeWrp keyWrp : ℕ} (family : cfg.family = .h7 codeWrp keyWrp)
    (here : Kf s.flash) : Drives cfg Kf (protectionH7 cfg codeWrp keyWrp)
      (fun ok t => t = s ∧ (ok = true ↔ Protected cfg s.options)) s := by
  unfold protectionH7 Protected
  rw [family]
  refine drives_reply s.options.flashSize here trivial (fun _ h => h) (fun _ _ h => h) ?_
  refine drives_if (fun wrong => drives_refuse here fun h => wrong h.1) fun size => ?_
  refine drives_reply (s.options.optionBytes 1) here trivial (fun _ h => h) (fun _ _ h => h) ?_
  refine drives_if (fun swapped => drives_refuse here fun h => ?_) fun mapped => ?_
  · rw [h.2.1] at swapped
    cases swapped
  have mapped := Bool.eq_false_iff.mpr mapped
  refine drives_if (fun free => ⟨here, rfl, fun _ => ⟨not_not.mp size, mapped, fun on => ?_⟩, fun _ => rfl⟩)
    fun required => ?_
  · rw [on] at free
    cases free
  have required : cfg.requireProtection = true := by simpa using required
  refine drives_if (fun rdp => drives_refuse here fun h => rdp (h.2.2 required).1) fun rdp => ?_
  refine drives_if (fun code => drives_refuse here fun h => ?_) fun code => ?_
  · rw [(h.2.2 required).2.1] at code
    cases code
  refine drives_reply (s.options.optionBytes 2) here trivial (fun _ h => h) (fun _ _ h => h) ?_
  refine drives_if (fun key => drives_refuse here fun h => ?_) fun key => ?_
  · rw [(h.2.2 required).2.2] at key
    cases key
  exact ⟨here, rfl, fun _ => ⟨not_not.mp size, mapped, fun _ =>
    ⟨not_not.mp rdp, by simpa using code, by simpa using key⟩⟩, fun _ => rfl⟩

theorem wrp_iff (o : OptionBytes) (wrp : WrpArea) :
    WrpSet o wrp ↔ ¬ (o.wrpStartOffset ≠ wrp.first ∨ o.wrpEndOffset ≠ wrp.last) := by
  rw [not_or, not_not, not_not]
  exact ⟨fun h => ⟨h.first, h.last⟩, fun h => ⟨h.1, h.2⟩⟩

theorem drives_protectionWrp (codeWrp keyWrp : WrpArea) (here : Kf s.flash) :
    Drives cfg Kf (protectionWrp codeWrp keyWrp) (fun ok t => t = s ∧ (ok = true ↔
      (s.options.optionBytes codeWrp.area).rdpLevel = 1 ∧
      WrpSet (s.options.optionBytes codeWrp.area) codeWrp ∧
      WrpSet (s.options.optionBytes keyWrp.area) keyWrp)) s := by
  unfold protectionWrp
  refine drives_reply (s.options.optionBytes codeWrp.area) here trivial (fun _ h => h) (fun _ _ h => h) ?_
  refine drives_if (fun rdp => drives_refuse here fun h => rdp h.1) fun rdp => ?_
  refine drives_if (fun code => drives_refuse here fun h => (wrp_iff _ _).mp h.2.1 code) fun code => ?_
  refine drives_reply (s.options.optionBytes keyWrp.area) here trivial (fun _ h => h) (fun _ _ h => h) ?_
  refine drives_if (fun key => drives_refuse here fun h => (wrp_iff _ _).mp h.2.2 key) fun key => ?_
  exact ⟨here, rfl, fun _ => ⟨not_not.mp rdp, (wrp_iff _ _).mpr code, (wrp_iff _ _).mpr key⟩, fun _ => rfl⟩

theorem drives_banksMapped (requireDbank : Bool) (here : Kf s.flash) :
    Drives cfg Kf (banksMapped requireDbank) (fun ok t => t = s ∧ (ok = true ↔
      (requireDbank = true → s.options.dbank = true ∧ s.options.fbMode = false))) s := by
  unfold banksMapped
  cases requireDbank with
  | false => exact ⟨here, rfl, fun _ => nofun, fun _ => rfl⟩
  | true =>
    refine drives_reply s.options.dbank here trivial (fun _ h => h) (fun _ _ h => h) ?_
    cases dbank : s.options.dbank with
    | false => exact ⟨here, rfl, nofun, fun h => (nomatch (h rfl).1)⟩
    | true =>
      refine drives_reply s.options.fbMode here trivial (fun _ h => h) (fun _ _ h => h) ?_
      refine ⟨here, rfl, fun free _ => ⟨rfl, ?_⟩, fun h => ?_⟩
      · simpa using free
      · rw [(h rfl).2]
        rfl

theorem drives_protectionG4 {requireDbank : Bool} {codeWrp keyWrp : WrpArea}
    (family : cfg.family = .g4 requireDbank codeWrp keyWrp) (here : Kf s.flash) :
    Drives cfg Kf (protectionG4 cfg requireDbank codeWrp keyWrp)
      (fun ok t => t = s ∧ (ok = true ↔ Protected cfg s.options)) s := by
  unfold protectionG4 Protected
  rw [family]
  refine drives_reply s.options.flashSize here trivial (fun _ h => h) (fun _ _ h => h) ?_
  refine drives_if (fun wrong => drives_refuse here fun h => wrong h.1) fun size => ?_
  refine safe_then (drives_banksMapped requireDbank here) ?_
  rintro ok t ⟨rfl, mapped⟩ -
  refine drives_if (fun unmapped => drives_refuse here fun h => ?_) fun banks => ?_
  · rw [mapped.mpr h.2.1] at unmapped
    cases unmapped
  have banks := mapped.mp (by simpa using banks)
  refine drives_if (fun free => ⟨here, rfl, fun _ => ⟨not_not.mp size, banks, fun on => ?_⟩, fun _ => rfl⟩)
    fun required => ?_
  · rw [on] at free
    cases free
  have required : cfg.requireProtection = true := by simpa using required
  refine safe_post ?_ (drives_protectionWrp codeWrp keyWrp here)
  rintro ok u ⟨rfl, wrp⟩
  exact ⟨rfl, fun h => ⟨not_not.mp size, banks, fun _ => wrp.mp h⟩, fun h => wrp.mpr (h.2.2 required)⟩

theorem drives_protectionValid (here : Kf s.flash) : Drives cfg Kf (protectionValid cfg)
    (fun ok t => t = s ∧ (ok = true ↔ Protected cfg s.options)) s := by
  unfold protectionValid
  split
  · rename_i family
    exact drives_protectionH7 family here
  · rename_i family
    exact drives_protectionG4 family here

end

end SimpleAttestation.BoardStore
