import SimpleAttestation.Provisioned
import SimpleAttestation.ProvisionRaises

set_option autoImplicit false

/-!
# The files of the provisioning tool

`generate` with its effects in their order. The state is what stands at `out`; an exception
leaves the files that were written before it.
-/
namespace SimpleAttestation.ProvisionFiles
open ByteStrings HexText ProvisionRaises
open Provision (MEASURE_START MEASURE_LENGTH BoardConfig)

inductive BoardName where
  | h743 | g431
deriving DecidableEq

def BoardName.text : BoardName → String
  | h743 => "h743" | g431 => "g431"

inductive OutFile where
  | keys
  | hex (board : BoardName)
  | provision (board : BoardName)
  | journalA (board : BoardName)
  | journalB (board : BoardName)
  | image (board : BoardName)
  | manifest
deriving DecidableEq

def OutFile.name : OutFile → String
  | keys => "keys.json"
  | hex board => board.text ++ ".hex"
  | provision board => board.text ++ "-provision.bin"
  | journalA board => board.text ++ "-journal-a.bin"
  | journalB board => board.text ++ "-journal-b.bin"
  | image .h743 => "h743-measured.bin"
  | image .g431 => "g431-firmware-region.bin"
  | manifest => "manifest.json"

/-- Nothing, or a directory with the files written to it, oldest first. -/
abbrev OutDir := Option (List (OutFile × List UInt8))

abbrev Tool (α : Type) := ExceptT PyError (StateM OutDir) α

def Tool.runOn {α : Type} (p : Tool α) (out : OutDir) : Except PyError α × OutDir := p.run.run out

def raising {α : Type} (x : Except PyError α) : Tool α := ExceptT.mk (pure x)

/-- `out.mkdir(exist_ok=False)` -/
def mkdir : Tool Unit := do
  match ← get with
  | some _ => throw .fileExistsError
  | none => set (some [] : OutDir)

def writePrivate (file : OutFile) (data : List UInt8) : Tool Unit := do
  match ← get with
  | none => throw .fileNotFoundError
  | some files =>
    if files.any (·.1 = file) then throw .fileExistsError
    else set (some (files ++ [(file, data)]) : OutDir)

inductive JsonValue where
  | null
  | bool (b : Bool)
  | int (n : ℤ)
  | float (literal : List Char)
  | string (text : List Char)
  | array (items : List JsonValue)
  | object (fields : List (String × JsonValue))

/-- `value[key]` -/
def subscript (key : String) : JsonValue → Except PyError JsonValue
  | .object fields =>
    match fields.lookup key with
    | some value => .ok value
    | none => .error .keyError
  | _ => .error .typeError

def isSpace (c : Char) : Bool := c = ' ' ∨ 9 ≤ c.toNat ∧ c.toNat ≤ 13

/-- Spaces may stand between two bytes. -/
def fromHexSpaced : List Char → Option (List UInt8)
  | [] => some []
  | [c] => if isSpace c then some [] else none
  | c :: d :: rest =>
    if isSpace c then fromHexSpaced (d :: rest)
    else do
      let high ← hexValue c
      let low ← hexValue d
      let bytes ← fromHexSpaced rest
      pure (UInt8.ofNat (16 * high + low) :: bytes)

/-- `bytes.fromhex(value)` -/
def bytesFromHex : JsonValue → Except PyError (List UInt8)
  | .string text =>
    match fromHexSpaced text with
    | some bytes => .ok bytes
    | none => .error (.valueError "non-hexadecimal number found in fromhex() arg")
  | _ => .error .typeError

/-- Two draws of `secrets.token_bytes(32)`, or the bytes of a key file. -/
inductive KeySource where
  | fresh (kAuth kAttest : Bytes 32)
  | file (content : List UInt8)

/-- `loads` decodes and parses the text of a key file. -/
def readKeys (loads : List UInt8 → Except PyError JsonValue) :
    KeySource → Except PyError (List UInt8 × List UInt8)
  | .fresh kAuth kAttest => .ok (kAuth.data, kAttest.data)
  | .file content => do
    let value ← loads content
    let kAuth ← subscript "k_auth" value >>= bytesFromHex
    let kAttest ← subscript "k_attest" value >>= bytesFromHex
    pure (kAuth, kAttest)

def hexLower (bytes : List UInt8) : List Char :=
  bytes.flatMap fun b => [Nat.digitChar (b.toNat / 16), Nat.digitChar (b.toNat % 16)]

def hexNumber (n : ℕ) : List Char := ['0', 'x'] ++ Nat.toDigits 16 n

/-- `str.encode()` of ASCII text -/
def encode (text : List Char) : List UInt8 := text.map fun c => UInt8.ofNat c.toNat

def newLine (level : ℕ) : List Char := '\n' :: List.replicate (2 * level) ' '

/-- A string without characters to escape. -/
def quote (text : List Char) : List Char := ['"'] ++ text ++ ['"']

mutual

/-- `json.dumps(value, indent=2)` inside `level` brackets. -/
def dumps (level : ℕ) : JsonValue → List Char
  | .null => "null".toList
  | .bool b => (if b then "true" else "false").toList
  | .int n => (toString n).toList
  | .float literal => literal
  | .string text => quote text
  | .array [] => ['[', ']']
  | .array (item :: items) =>
    ['['] ++ newLine (level + 1) ++ dumps (level + 1) item ++ dumpsItems (level + 1) items ++
      newLine level ++ [']']
  | .object [] => ['\x7b', '\x7d']
  | .object ((key, value) :: fields) =>
    ['\x7b'] ++ newLine (level + 1) ++ quote key.toList ++ [':', ' '] ++ dumps (level + 1) value ++
      dumpsFields (level + 1) fields ++ newLine level ++ ['\x7d']

def dumpsItems (level : ℕ) : List JsonValue → List Char
  | [] => []
  | item :: items => [','] ++ newLine level ++ dumps level item ++ dumpsItems level items

def dumpsFields (level : ℕ) : List (String × JsonValue) → List Char
  | [] => []
  | (key, value) :: fields =>
    [','] ++ newLine level ++ quote key.toList ++ [':', ' '] ++ dumps level value ++
      dumpsFields level fields

end

def keysText (kAuth kAttest : List UInt8) : List UInt8 :=
  encode (dumps 0 (.object [("k_auth", .string (hexLower kAuth)),
    ("k_attest", .string (hexLower kAttest))]) ++ ['\n'])

/-- `manifest['images'][board]` -/
def imageEntry (sha256 : List UInt8 → Bytes 32) (config : BoardConfig) (image : List UInt8) : JsonValue :=
  .object [("sha256", .string (hexLower (sha256 image).data)),
    ("key_address", .string (hexNumber config.keys)),
    ("journal_addresses", .array (config.journals.map fun address => .string (hexNumber address)))]

def manifestOf (reference : List UInt8) (counter : ℤ) (images : List (String × JsonValue)) : JsonValue :=
  .object [("measurement_address", .string (hexNumber MEASURE_START)),
    ("measurement_length", .int MEASURE_LENGTH), ("initial_counter", .int counter),
    ("reference_vs", .string (hexLower reference)), ("images", .object images)]

def manifestText (manifest : JsonValue) : List UInt8 := encode (dumps 0 manifest ++ ['\n'])

/-- One iteration of the loop over the boards. -/
def writeBoard (sha256 : List UInt8 → Bytes 32) (board : BoardName) (config : BoardConfig)
    (rawImage image kAuth kAttest reference seed : List UInt8) (counter : ℤ) :
    Tool (String × JsonValue) := do
  let material ← raising (makeMaterial sha256 config.role kAuth kAttest reference counter)
  let segments := [(MEASURE_START, rawImage), (config.keys, material)] ++
    config.journals.map fun address => (address, seed)
  let hex ← raising (ihex segments)
  writePrivate (.hex board) (encode hex)
  writePrivate (.provision board) material
  writePrivate (.journalA board) seed
  writePrivate (.journalB board) seed
  writePrivate (.image board) image
  pure (board.text, imageEntry sha256 config image)

/-- From the exclusive `mkdir` on. -/
def writeFiles (sha256 : List UInt8 → Bytes 32) (h7 g4 image7 image4 kAuth kAttest reference
    seed : List UInt8) (counter : ℤ) : Tool JsonValue := do
  mkdir
  writePrivate .keys (keysText kAuth kAttest)
  let entry7 ← writeBoard sha256 .h743 Provision.h743 h7 image7 kAuth kAttest reference seed counter
  let entry4 ← writeBoard sha256 .g431 Provision.g431 g4 image4 kAuth kAttest reference seed counter
  let manifest := manifestOf reference counter [entry7, entry4]
  writePrivate .manifest (manifestText manifest)
  pure manifest

def generate (sha256 : List UInt8 → Bytes 32) (hmac : List UInt8 → List UInt8 → Bytes 32)
    (loads : List UInt8 → Except PyError JsonValue) (h7 g4 : List UInt8) (source : KeySource)
    (counter : ℤ) : Tool JsonValue := do
  let image7 ← raising (padImage h7 Provision.h743.imageLength Provision.h743.ramEnd)
  let image4 ← raising (padImage g4 Provision.g431.imageLength Provision.g431.ramEnd)
  let (kAuth, kAttest) ← raising (readKeys loads source)
  if kAuth.length ≠ 32 ∨ kAttest.length ≠ 32 ∨ kAuth = kAttest then
    throw (.valueError "Provide two distinct 32-byte keys")
  else do
    let seed ← raising (makeRecord hmac kAuth counter)
    let reference := (hmac kAttest image7).data
    writeFiles sha256 h7 g4 image7 image4 kAuth kAttest reference seed counter

section
variable {α β : Type} {out out' : OutDir} {files : List (OutFile × List UInt8)}

theorem runOn_ok {p : Tool α} {a : α} (h : p.runOn out = (.ok a, out')) (f : α → Tool β) :
    (p >>= f).runOn out = (f a).runOn out' := by
  have e : (p >>= f).runOn out = (ExceptT.bindCont f (p.runOn out).1).run (p.runOn out).2 := rfl
  rw [e, h]
  rfl

theorem runOn_error {p : Tool α} {e : PyError} (h : p.runOn out = (.error e, out')) (f : α → Tool β) :
    (p >>= f).runOn out = (.error e, out') := by
  have e : (p >>= f).runOn out = (ExceptT.bindCont f (p.runOn out).1).run (p.runOn out).2 := rfl
  rw [e, h]
  rfl

theorem runOn_raising (x : Except PyError α) : (raising x).runOn out = (x, out) := rfl

theorem writePrivate_ok {file : OutFile} (fresh : file ∉ files.map Prod.fst) (data : List UInt8) :
    (writePrivate file data).runOn (some files) = (.ok (), some (files ++ [(file, data)])) := by
  have none_ : ¬ files.any (·.1 = file) = true := by
    rw [List.any_eq_true]
    rintro ⟨x, hx, here⟩
    exact fresh (List.mem_map.mpr ⟨x, hx, of_decide_eq_true here⟩)
  have read : (get : Tool OutDir).runOn (some files) = (.ok (some files), some files) := rfl
  rw [writePrivate, runOn_ok read]
  dsimp only
  rw [if_neg none_]
  rfl

theorem mkdir_ok : mkdir.runOn none = (.ok (), some []) := rfl

theorem mkdir_exists (files : List (OutFile × List UInt8)) :
    mkdir.runOn (some files) = (.error .fileExistsError, some files) := rfl

end

def boardSet (board : BoardName) (text : List Char) (material seed image : List UInt8) :
    List (OutFile × List UInt8) :=
  [(.hex board, encode text), (.provision board, material), (.journalA board, seed),
    (.journalB board, seed), (.image board, image)]

def BoardName.files (board : BoardName) : List OutFile :=
  [.hex board, .provision board, .journalA board, .journalB board, .image board]

section
variable {sha256 : List UInt8 → Bytes 32} {board : BoardName} {config : BoardConfig}
  {rawImage image kAuth kAttest reference seed material : List UInt8} {counter : ℤ} {text : List Char}
  {files : List (OutFile × List UInt8)}

theorem writeBoard_ok
    (made : makeMaterial sha256 config.role kAuth kAttest reference counter = .ok material)
    (written : ihex ([(MEASURE_START, rawImage), (config.keys, material)] ++
      config.journals.map fun address => (address, seed)) = .ok text)
    (fresh : ∀ file ∈ board.files, file ∉ files.map Prod.fst) :
    (writeBoard sha256 board config rawImage image kAuth kAttest reference seed counter).runOn
        (some files) = (.ok (board.text, imageEntry sha256 config image),
      some (files ++ boardSet board text material seed image)) := by
  simp only [BoardName.files, List.forall_mem_cons, List.not_mem_nil, false_implies, implies_true,
    and_true] at fresh
  obtain ⟨hex, provision, journalA, journalB, image_⟩ := fresh
  rw [writeBoard, runOn_ok (by rw [runOn_raising, made]), runOn_ok (by rw [runOn_raising, written])]
  rw [runOn_ok (writePrivate_ok hex _), runOn_ok (writePrivate_ok (by simpa using provision) _),
    runOn_ok (writePrivate_ok (by simpa using journalA) _),
    runOn_ok (writePrivate_ok (by simpa using journalB) _),
    runOn_ok (writePrivate_ok (by simpa using image_) _)]
  simp only [List.append_assoc, List.cons_append, List.nil_append]
  rfl

end

/-- No step behind the checks fails: neither packing, nor the assertion, nor the overlap check. -/
theorem board_made {config : BoardConfig} {board : Store.Board} {rawImage : List UInt8} {counter : ℕ}
    (sha256 : List UInt8 → Bytes 32) (layout : Provisioned.Layout config board)
    (fits : rawImage.length ≤ config.imageLength) (small : config.role < 4294967296)
    (kAuth kAttest reference seed : Bytes 32) (below : counter < 4294967296) :
    ∃ material text, makeMaterial sha256 config.role kAuth.data kAttest.data reference.data counter =
        .ok material ∧
      ihex ([(MEASURE_START, rawImage), (config.keys, material)] ++
        config.journals.map fun address => (address, seed.data)) = .ok text := by
  have made := makeMaterial_ok sha256 kAuth.data kAttest.data reference.data small below
  rw [ProvisionRecord.makeMaterial_record] at made
  have len := @ProvisionRecord.length_recordBytes sha256 config.role counter kAuth kAttest reference
  obtain ⟨text, written⟩ := ProvisionHex.ihex_written
    (@Provisioned.segments_ascend config board rawImage _ seed layout fits len)
  have bounds := @Provisioned.segments_below config board rawImage _ seed layout fits len
  refine ⟨_, text, made, ?_⟩
  rw [layout.journals, layout.keys]
  change ihex (Provisioned.segmentsOf board rawImage _ seed) = _
  rw [ihex_eq bounds, written]
  rfl

theorem seed_made (hmac : List UInt8 → List UInt8 → Bytes 32) (key : List UInt8) {counter : ℤ}
    (h : 1 ≤ counter ∧ counter ≤ 0xFFFFFFFE) :
    ∃ seed : Bytes 32, makeRecord hmac key counter = .ok seed.data := by
  obtain ⟨counter, rfl⟩ := Int.eq_ofNat_of_zero_le (show 0 ≤ counter by omega)
  have inside : (1 : ℤ) ≤ counter ∧ (counter : ℤ) < 0xFFFFFFFF := by omega
  rw [makeRecord_ok hmac key (show 1 ≤ counter by omega) (by omega), Provision.makeRecord,
    if_neg (not_not.mpr inside)]
  refine ⟨⟨_, ?_⟩, rfl⟩
  simp [Provision.pack32]

theorem counter_refused (hmac : List UInt8 → List UInt8 → Bytes 32) (key : List UInt8) {counter : ℤ}
    (h : ¬ (1 ≤ counter ∧ counter ≤ 0xFFFFFFFE)) : ∃ e, makeRecord hmac key counter = .error e := by
  have outside : ¬ (1 ≤ counter ∧ counter < 0xFFFFFFFF) := by omega
  rw [makeRecord, if_pos outside]
  exact ⟨_, rfl⟩

structure Accepted (loads : List UInt8 → Except PyError JsonValue) (h7 g4 : List UInt8)
    (source : KeySource) (counter : ℤ) (image7 image4 : List UInt8) (kAuth kAttest : Bytes 32) :
    Prop where
  image7 : padImage h7 Provision.h743.imageLength Provision.h743.ramEnd = .ok image7
  image4 : padImage g4 Provision.g431.imageLength Provision.g431.ramEnd = .ok image4
  keys : readKeys loads source = .ok (kAuth.data, kAttest.data)
  distinct : kAuth ≠ kAttest
  counter : 1 ≤ counter ∧ counter ≤ 0xFFFFFFFE

def fileSet (text7 text4 : List Char) (kAuth kAttest material7 material4 seed image7 image4 : List UInt8)
    (manifest : JsonValue) : List (OutFile × List UInt8) :=
  [(.keys, keysText kAuth kAttest)] ++ boardSet .h743 text7 material7 seed image7 ++
    boardSet .g431 text4 material4 seed image4 ++ [(.manifest, manifestText manifest)]

def allFiles : List OutFile :=
  [.keys] ++ BoardName.files .h743 ++ BoardName.files .g431 ++ [.manifest]

theorem allFiles_all (file : OutFile) : file ∈ allFiles := by
  cases file with
  | keys | manifest => decide
  | hex board | provision board | journalA board | journalB board | image board =>
    cases board <;> decide

structure Complete (sha256 : List UInt8 → Bytes 32) (hmac : List UInt8 → List UInt8 → Bytes 32)
    (h7 g4 image7 image4 : List UInt8) (kAuth kAttest : Bytes 32) (counter : ℤ) (manifest : JsonValue)
    (files : List (OutFile × List UInt8)) : Prop where
  all : ∀ file, file ∈ files.map Prod.fst
  once : (files.map fun file => file.1.name).Nodup
  described : manifest = manifestOf (hmac kAttest.data image7).data counter
    [("h743", imageEntry sha256 Provision.h743 image7), ("g431", imageEntry sha256 Provision.g431 image4)]
  contents : ∃ text7 text4 material7 material4 seed,
    makeRecord hmac kAuth.data counter = .ok seed ∧
    makeMaterial sha256 1 kAuth.data kAttest.data (hmac kAttest.data image7).data counter = .ok material7 ∧
    makeMaterial sha256 2 kAuth.data kAttest.data (hmac kAttest.data image7).data counter = .ok material4 ∧
    ihex [(0x08000000, h7), (0x081A0000, material7), (0x081C0000, seed), (0x081E0000, seed)] = .ok text7 ∧
    ihex [(0x08000000, g4), (0x0801F800, material4), (0x0801C000, seed), (0x0801C800, seed)] = .ok text4 ∧
    files = fileSet text7 text4 kAuth.data kAttest.data material7 material4 seed image7 image4 manifest

section
variable {sha256 : List UInt8 → Bytes 32} {hmac : List UInt8 → List UInt8 → Bytes 32}
  {loads : List UInt8 → Except PyError JsonValue} {h7 g4 image7 image4 : List UInt8} {source : KeySource}
  {counter : ℤ} {kAuth kAttest : Bytes 32}

theorem fits_of_padImage {image padded : List UInt8} {imageLength ramEnd : ℕ}
    (h : padImage image imageLength ramEnd = .ok padded) : image.length ≤ imageLength := by
  unfold padImage at h
  cases accepted : Provision.padImage image imageLength ramEnd with
  | error e =>
    rw [accepted] at h
    cases h
  | ok padded => exact (Provisioned.padImage_ok accepted).1

theorem writeFiles_ok (h : Accepted loads h7 g4 source counter image7 image4 kAuth kAttest) :
    ∃ seed manifest files, makeRecord hmac kAuth.data counter = .ok seed ∧
      (writeFiles sha256 h7 g4 image7 image4 kAuth.data kAttest.data (hmac kAttest.data image7).data seed
        counter).runOn none = (.ok manifest, some files) ∧
      Complete sha256 hmac h7 g4 image7 image4 kAuth kAttest counter manifest files := by
  obtain ⟨low, high⟩ := h.counter
  obtain ⟨seed, made⟩ := seed_made hmac kAuth.data h.counter
  obtain ⟨counter, rfl⟩ := Int.eq_ofNat_of_zero_le (show 0 ≤ counter by omega)
  obtain ⟨material7, text7, material7_, text7_⟩ := board_made sha256 Provisioned.layout_h743
    (fits_of_padImage h.image7) (by decide) kAuth kAttest (hmac kAttest.data image7) seed
    (show counter < 4294967296 by omega)
  obtain ⟨material4, text4, material4_, text4_⟩ := board_made sha256 Provisioned.layout_g431
    (fits_of_padImage h.image4) (by decide) kAuth kAttest (hmac kAttest.data image7) seed
    (show counter < 4294967296 by omega)
  have names : ∀ manifest, (fileSet text7 text4 kAuth.data kAttest.data material7 material4 seed.data
      image7 image4 manifest).map Prod.fst = allFiles := fun _ => rfl
  refine ⟨seed.data, manifestOf (hmac kAttest.data image7).data counter
    [("h743", imageEntry sha256 Provision.h743 image7), ("g431", imageEntry sha256 Provision.g431 image4)],
    _, made, ?_, ⟨?_, ?_, rfl, text7, text4, material7, material4, seed.data, made, material7_, material4_,
      text7_, text4_, rfl⟩⟩
  · rw [writeFiles, runOn_ok mkdir_ok, runOn_ok (writePrivate_ok (by simp) _),
      runOn_ok (writeBoard_ok material7_ text7_ ?_), runOn_ok (writeBoard_ok material4_ text4_ ?_),
      runOn_ok (writePrivate_ok ?_ _)]
    · rfl
    · change OutFile.manifest ∉ [OutFile.keys] ++ BoardName.files .h743 ++ BoardName.files .g431
      decide
    · change ∀ file ∈ BoardName.files .g431, file ∉ [OutFile.keys] ++ BoardName.files .h743
      decide
    · change ∀ file ∈ BoardName.files .h743, file ∉ [OutFile.keys]
      decide
  · rw [names]
    exact allFiles_all
  · change (allFiles.map OutFile.name).Nodup
    decide

theorem accepted_unique {image7' image4' : List UInt8} {kAuth' kAttest' : Bytes 32}
    (h : Accepted loads h7 g4 source counter image7 image4 kAuth kAttest)
    (h' : Accepted loads h7 g4 source counter image7' image4' kAuth' kAttest') :
    image7' = image7 ∧ image4' = image4 ∧ kAuth' = kAuth ∧ kAttest' = kAttest := by
  obtain ⟨auth, attest⟩ := Prod.mk.inj (Except.ok.inj (h'.keys.symm.trans h.keys))
  exact ⟨Except.ok.inj (h'.image7.symm.trans h.image7), Except.ok.inj (h'.image4.symm.trans h.image4),
    Bytes.ext auth, Bytes.ext attest⟩

theorem generate_checks (out : OutDir) :
    (∃ e, (generate sha256 hmac loads h7 g4 source counter).runOn out = (.error e, out) ∧
      ∀ image7 image4 kAuth kAttest, ¬ Accepted loads h7 g4 source counter image7 image4 kAuth kAttest) ∨
    ∃ image7 image4 kAuth kAttest, ∃ seed : List UInt8,
      Accepted loads h7 g4 source counter image7 image4 kAuth kAttest ∧
      makeRecord hmac kAuth.data counter = .ok seed ∧
      (generate sha256 hmac loads h7 g4 source counter).runOn out =
        (writeFiles sha256 h7 g4 image7 image4 kAuth.data kAttest.data (hmac kAttest.data image7).data
          seed counter).runOn out := by
  unfold generate
  cases padded7 : padImage h7 Provision.h743.imageLength Provision.h743.ramEnd with
  | error e =>
    refine Or.inl ⟨e, runOn_error rfl _, fun _ _ _ _ h => ?_⟩
    have image := h.image7
    rw [padded7] at image
    cases image
  | ok image7 =>
    rw [runOn_ok (runOn_raising (.ok image7))]
    cases padded4 : padImage g4 Provision.g431.imageLength Provision.g431.ramEnd with
    | error e =>
      refine Or.inl ⟨e, runOn_error rfl _, fun _ _ _ _ h => ?_⟩
      have image := h.image4
      rw [padded4] at image
      cases image
    | ok image4 =>
      rw [runOn_ok (runOn_raising (.ok image4))]
      cases read : readKeys loads source with
      | error e =>
        refine Or.inl ⟨e, runOn_error rfl _, fun _ _ _ _ h => ?_⟩
        have keys := h.keys
        rw [read] at keys
        cases keys
      | ok keys =>
        obtain ⟨auth, attest⟩ := keys
        rw [runOn_ok (runOn_raising (.ok (auth, attest)))]
        dsimp only
        by_cases bad : auth.length ≠ 32 ∨ attest.length ≠ 32 ∨ auth = attest
        · rw [if_pos bad]
          refine Or.inl ⟨_, rfl, fun _ _ kAuth kAttest h => ?_⟩
          have keys := h.keys
          rw [read] at keys
          obtain ⟨rfl, rfl⟩ := Prod.mk.inj (Except.ok.inj keys)
          simp only [Bytes.length_data, ne_eq, not_true, false_or] at bad
          exact h.distinct (Bytes.ext bad)
        · rw [if_neg bad]
          obtain ⟨length, length', distinct⟩ := not_or.mp bad |>.imp_right not_or.mp
          by_cases inside : 1 ≤ counter ∧ counter ≤ 0xFFFFFFFE
          · have accepted : Accepted loads h7 g4 source counter image7 image4
                ⟨auth, not_not.mp length⟩ ⟨attest, not_not.mp length'⟩ :=
              ⟨padded7, padded4, read, fun same => distinct (congrArg Bytes.data same), inside⟩
            obtain ⟨seed, made⟩ := seed_made hmac auth inside
            refine Or.inr ⟨image7, image4, _, _, seed.data, accepted, made, ?_⟩
            rw [made, runOn_ok (runOn_raising (.ok seed.data))]
          · obtain ⟨e, refused⟩ := counter_refused hmac auth inside
            rw [refused]
            exact Or.inl ⟨e, runOn_error rfl _, fun _ _ _ _ h => inside h.counter⟩

end

/-- Nothing is created unless everything is. -/
theorem generate_all_or_nothing (sha256 : List UInt8 → Bytes 32)
    (hmac : List UInt8 → List UInt8 → Bytes 32) (loads : List UInt8 → Except PyError JsonValue)
    (h7 g4 : List UInt8) (source : KeySource) (counter : ℤ) (out : OutDir) :
    (∀ e after, (generate sha256 hmac loads h7 g4 source counter).runOn out = (.error e, after) →
      after = out) ∧
    ((∃ manifest after, (generate sha256 hmac loads h7 g4 source counter).runOn out =
      (.ok manifest, after)) ↔
      out = none ∧ ∃ image7 image4 kAuth kAttest,
        Accepted loads h7 g4 source counter image7 image4 kAuth kAttest) ∧
    ∀ image7 image4 kAuth kAttest, Accepted loads h7 g4 source counter image7 image4 kAuth kAttest →
      out = none → ∃ manifest files,
        (generate sha256 hmac loads h7 g4 source counter).runOn out = (.ok manifest, some files) ∧
        Complete sha256 hmac h7 g4 image7 image4 kAuth kAttest counter manifest files := by
  rcases @generate_checks sha256 hmac loads h7 g4 source counter out with
    ⟨e, run, none_⟩ | ⟨image7, image4, kAuth, kAttest, seed, accepted, made, run⟩
  · rw [run]
    refine ⟨fun e' after h => (Prod.mk.inj h).2.symm, ⟨?_, ?_⟩, fun _ _ _ _ h => absurd h (none_ _ _ _ _)⟩
    · rintro ⟨manifest, after, h⟩
      cases h
    · rintro ⟨-, _, _, _, _, h⟩
      exact absurd h (none_ _ _ _ _)
  · rw [run]
    cases out with
    | some files =>
      have stopped : (writeFiles sha256 h7 g4 image7 image4 kAuth.data kAttest.data
          (hmac kAttest.data image7).data seed counter).runOn (some files) =
          (.error .fileExistsError, some files) := runOn_error (mkdir_exists files) _
      rw [stopped]
      refine ⟨fun e' after h => (Prod.mk.inj h).2.symm, ⟨?_, ?_⟩, fun _ _ _ _ _ h => by cases h⟩
      · rintro ⟨manifest, after, h⟩
        cases h
      · rintro ⟨h, -⟩
        cases h
    | none =>
      obtain ⟨seed', manifest, files, made', written, complete⟩ := @writeFiles_ok sha256 hmac _ _ _ _ _ _
        _ _ _ accepted
      obtain rfl := Except.ok.inj (made'.symm.trans made)
      rw [written]
      refine ⟨fun e' after h => (by cases h), ⟨fun _ => ⟨rfl, _, _, _, _, accepted⟩, fun _ =>
        ⟨_, _, rfl⟩⟩, fun image7' image4' kAuth' kAttest' accepted' _ => ?_⟩
      obtain ⟨rfl, rfl, rfl, rfl⟩ := accepted_unique accepted accepted'
      exact ⟨manifest, files, rfl, complete⟩

theorem generate_all_or_nothing_small : ∃ manifest files,
    (generate (fun data => ⟨Sha256.sha256 data, rfl⟩) (fun key msg => ⟨Sha256.hmac key msg, rfl⟩)
      (fun _ => .error (.valueError "Expecting value")) Provisioned.smallImage Provisioned.smallImage
      (.fresh (.fill 32 1) (.fill 32 2)) 5).runOn none = (.ok manifest, some files) ∧
    ∀ file, file ∈ files.map Prod.fst := by
  have padded7 := Provisioned.small_accepted (Or.inl rfl)
  have padded4 := Provisioned.small_accepted (Or.inr rfl)
  obtain ⟨-, -, complete⟩ := generate_all_or_nothing (fun data => ⟨Sha256.sha256 data, rfl⟩)
    (fun key msg => ⟨Sha256.hmac key msg, rfl⟩) (fun _ => .error (.valueError "Expecting value"))
    Provisioned.smallImage Provisioned.smallImage (.fresh (.fill 32 1) (.fill 32 2)) 5 none
  obtain ⟨manifest, files, run, set⟩ := complete _ _ (.fill 32 1) (.fill 32 2)
    ⟨by rw [padImage, padded7]; rfl, by rw [padImage, padded4]; rfl, rfl, by decide, by decide⟩ rfl
  exact ⟨manifest, files, run, set.all⟩

end SimpleAttestation.ProvisionFiles
