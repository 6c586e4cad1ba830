import SiftMcp.Daemon.RuntimeDir
import SiftMcp.Inference.Embedder
import SiftMcp.Lib.Framing

/-!
# Verification of a model directory

`verify_model_dir` compares what the files of a model hash to with what `metadata.json` has
recorded. One hasher takes several files, each behind its name and a zero byte, and nothing says
where a file ends.

`sameFiles_iff` says for which directories equal hashes mean equal files.
-/

namespace SiftMcp.Inference
open Framing

def onnxName : String := "model.onnx"

def onnxDataName : String := "model.onnx.data"

def metadataName : String := "metadata.json"

def tokenizerName : String := "tokenizer.json"

/-- The files of a tokenizer that take part in its hash, if they are there. -/
def tokenizerHashCandidates : List String :=
  ["tokenizer.json", "tokenizer_config.json", "special_tokens_map.json", "vocab.txt", "vocab.json",
    "merges.txt", "added_tokens.json", "tokenizer.model"]

/-- A model directory: for each name that `is_file` accepts, what reading the file gives. -/
structure ModelDir where
  path : List Char
  file : String → Option (Except String (List UInt8))

namespace ModelDir

def isFile (dir : ModelDir) (name : String) : Bool := (dir.file name).isSome

def read (dir : ModelDir) (name : String) : Except InferError (List UInt8) :=
  match dir.file name with
  | some contents => contents.mapError .runtime
  | none => .error (.runtime "No such file or directory (os error 2)")

/-- `fs::read_to_string` -/
def readToString (dir : ModelDir) (name : String) : Except InferError String := do
  match String.fromUTF8? ⟨(← dir.read name).toArray⟩ with
  | some text => pure text
  | none => throw (.runtime "stream did not contain valid UTF-8")

def missing (dir : ModelDir) (name : String) : InferError :=
  .modelFilesMissing (joinPath dir.path name.toList)

/-- What there is to read of a name. -/
def contents (dir : ModelDir) (name : String) : Option (List UInt8) :=
  (dir.file name).bind Except.toOption

end ModelDir

/-- The bytes of a file name. -/
def spellName (name : String) : List UInt8 := utf8Bytes name.toList

section
variable (sha256 : List UInt8 → String) (dir : ModelDir)

/-- One turn of the loop of `sha256_paths`. -/
def ModelDir.update (fed : List UInt8) (name : String) : Except InferError (List UInt8) := do
  return fed ++ (spellName name ++ [0]) ++ (← dir.read name)

/-- `sha256_paths`, of files of the directory by their names. -/
def sha256Paths (names : List String) : Except InferError String := do
  return sha256 (← (names.mergeSort fun a b => decide (a ≤ b)).foldlM dir.update [])

def onnxParts : List String := onnxName :: if dir.isFile onnxDataName then [onnxDataName] else []

def tokenizerParts : List String := tokenizerHashCandidates.filter dir.isFile

/-- Hash the files, and compare with what is recorded. -/
def checkHash (names : List String) (expected : String) : Except InferError Unit := do
  let got ← sha256Paths sha256 dir names
  if got ≠ expected then throw (.artifactHashMismatch expected got)

def verifyModelDir {Value : Type} (serde : SerdeJson Value) : Except InferError ModelMetadata := do
  if !dir.isFile metadataName then throw (dir.missing metadataName)
  let json ← dir.readToString metadataName
  let metadata ← (ModelMetadata.fromJson serde json).mapError .metadata
  if !dir.isFile onnxName then throw (dir.missing onnxName)
  if !dir.isFile tokenizerName then throw (dir.missing tokenizerName)
  checkHash sha256 dir (onnxParts dir) metadata.onnxSha256
  checkHash sha256 dir (tokenizerParts dir) metadata.tokenizerSha256
  return metadata

end

/-! ## What is fed -/

/-- The files of either hash, in the order in which they are fed. -/
def onnxFiles : List String := [onnxName, onnxDataName]

def tokenizerFiles : List String :=
  ["added_tokens.json", "merges.txt", "special_tokens_map.json", "tokenizer.json",
    "tokenizer.model", "tokenizer_config.json", "vocab.json", "vocab.txt"]

/-- The bytes that the hasher takes of those of the files that are there. -/
def ModelDir.fed (dir : ModelDir) (names : List String) : List UInt8 :=
  feed spellName 0 dir.contents names

variable {sha256 : List UInt8 → String} {dir left right : ModelDir} {names sorted : List String}
  {fed acc : List UInt8} {hash expected : String}

theorem spelling_onnxFiles : Spelling spellName 0 onnxFiles where
  sep := by decide +kernel
  suffix := by decide +kernel
  nodup := by decide

theorem spelling_tokenizerFiles : Spelling spellName 0 tokenizerFiles where
  sep := by decide +kernel
  suffix := by decide +kernel
  nodup := by decide

/-- Sorting what is there of some names is taking what is there of the sorted names. -/
theorem mergeSort_filter {p : String → Bool} (hperm : names.Perm sorted)
    (hsorted : sorted.Pairwise (· ≤ ·)) :
    ((names.filter p).mergeSort fun a b => decide (a ≤ b)) = sorted.filter p := by
  have hpairwise : ((names.filter p).mergeSort fun a b => decide (a ≤ b)).Pairwise (· ≤ ·) := by
    refine (List.pairwise_mergeSort (fun a b c hab hbc => ?_) (fun a b => ?_) _).imp
      of_decide_eq_true
    · exact decide_eq_true (String.le_trans (of_decide_eq_true hab) (of_decide_eq_true hbc))
    · rw [Bool.or_eq_true, decide_eq_true_eq, decide_eq_true_eq]
      exact String.le_total a b
  exact List.Perm.eq_of_pairwise (fun a b _ _ => String.le_antisymm) hpairwise (hsorted.filter p)
    ((List.mergeSort_perm _ _).trans (hperm.filter p))

theorem mergeSort_tokenizerParts :
    ((tokenizerParts dir).mergeSort fun a b => decide (a ≤ b)) = tokenizerFiles.filter dir.isFile :=
  mergeSort_filter (by decide) (by decide +kernel)

theorem mergeSort_onnxParts (h : dir.isFile onnxName = true) :
    ((onnxParts dir).mergeSort fun a b => decide (a ≤ b)) = onnxFiles.filter dir.isFile := by
  have hparts : onnxParts dir = onnxFiles.filter dir.isFile := by
    rw [onnxFiles, List.filter_cons_of_pos h, List.filter_singleton, onnxParts]
    cases dir.isFile onnxDataName <;> rfl
  rw [hparts]
  exact mergeSort_filter (List.Perm.refl _) (by decide +kernel)

/-- Every one of the files that is there can be read. -/
def ModelDir.Readable (dir : ModelDir) (names : List String) : Prop :=
  ∀ name ∈ names, ∀ e, dir.file name ≠ some (.error e)

theorem read_eq_ok {bytes : List UInt8} {name : String} :
    dir.read name = .ok bytes ↔ dir.file name = some (.ok bytes) := by
  unfold ModelDir.read
  cases dir.file name with
  | none => simp
  | some contents => rw [Except.mapError_eq_ok, Option.some_inj]

theorem isFile_of_readToString {name text : String} (h : dir.readToString name = .ok text) :
    dir.isFile name = true := by
  obtain ⟨bytes, hbytes, -⟩ := Except.bind_eq_ok.mp h
  rw [ModelDir.isFile, read_eq_ok.mp hbytes, Option.isSome_some]

theorem contents_of_not_isFile {name : String} (h : dir.isFile name = false) :
    dir.contents name = none := by
  rw [ModelDir.contents, Option.isSome_eq_false_iff.mp h |> Option.isNone_iff_eq_none.mp,
    Option.bind_none]

theorem update_eq_ok {name : String} : dir.update acc name = .ok fed ↔
    ∃ bytes, dir.file name = some (.ok bytes) ∧
      fed = acc ++ (header spellName 0 name ++ bytes) := by
  rw [ModelDir.update, Except.bind_eq_ok]
  simp only [read_eq_ok, header, List.append_assoc, pure, Except.pure, Except.ok.injEq,
    eq_comm (a := fed)]

/-- The loop of `sha256_paths` feeds the files that are there, if it can read them. -/
theorem foldlM_update : (names.filter dir.isFile).foldlM dir.update acc = .ok fed ↔
    dir.Readable names ∧ fed = acc ++ dir.fed names := by
  induction names generalizing acc with
  | nil => simp [ModelDir.Readable, ModelDir.fed, pure, Except.pure, eq_comm]
  | cons name names ih =>
    simp only [ModelDir.Readable, List.forall_mem_cons, ModelDir.fed]
    cases hname : dir.file name with
    | none =>
      have hfile : dir.isFile name = false := by rw [ModelDir.isFile, hname, Option.isSome_none]
      rw [List.filter_cons_of_neg (by rw [hfile]; exact Bool.false_ne_true), ih,
        feed_cons_none (contents_of_not_isFile hfile)]
      simp [ModelDir.Readable, ModelDir.fed]
    | some contents =>
      have hfile : dir.isFile name = true := by rw [ModelDir.isFile, hname, Option.isSome_some]
      rw [List.filter_cons_of_pos hfile, List.foldlM_cons, Except.bind_eq_ok]
      simp only [update_eq_ok, hname, ih]
      cases contents with
      | error e => simp
      | ok bytes =>
        have hcontents : dir.contents name = some bytes := by rw [ModelDir.contents, hname]; rfl
        rw [feed_cons_some hcontents]
        simp [ModelDir.Readable, ModelDir.fed]

theorem sha256Paths_eq_ok {parts : List String}
    (hparts : (parts.mergeSort fun a b => decide (a ≤ b)) = names.filter dir.isFile) :
    sha256Paths sha256 dir parts = .ok hash ↔ dir.Readable names ∧
      sha256 (dir.fed names) = hash := by
  rw [sha256Paths, hparts, Except.bind_eq_ok]
  simp only [foldlM_update, List.nil_append, and_assoc, exists_and_left, exists_eq_left, pure,
    Except.pure, Except.ok.injEq]

theorem checkHash_eq_ok {parts : List String} {u : Unit}
    (hparts : (parts.mergeSort fun a b => decide (a ≤ b)) = names.filter dir.isFile) :
    checkHash sha256 dir parts expected = .ok u ↔
      dir.Readable names ∧ sha256 (dir.fed names) = expected := by
  rw [checkHash, Except.bind_eq_ok]
  simp only [sha256Paths_eq_ok hparts, and_assoc, exists_and_left, exists_eq_left']
  refine and_congr_right fun _ => ?_
  by_cases h : sha256 (dir.fed names) = expected
  · simp [h, pure, Except.pure]
  · simp [h, throw, throwThe, MonadExceptOf.throw]

variable {Value : Type} {serde : SerdeJson Value} {metadata : ModelMetadata}

/-- A directory is accepted if it has what it must have, all of it can be read, and the hashes are
those recorded. -/
theorem verifyModelDir_eq_ok : verifyModelDir sha256 dir serde = .ok metadata ↔
    (∃ json, dir.readToString metadataName = .ok json ∧ ModelMetadata.fromJson serde json =
      .ok metadata) ∧ (dir.isFile onnxName = true ∧ dir.isFile tokenizerName = true) ∧
      (dir.Readable onnxFiles ∧ sha256 (dir.fed onnxFiles) = metadata.onnxSha256) ∧
      dir.Readable tokenizerFiles ∧ sha256 (dir.fed tokenizerFiles) = metadata.tokenizerSha256 := by
  rw [verifyModelDir, Except.if_throw_eq_ok]
  simp only [Except.bind_eq_ok, Except.mapError_eq_ok, Except.if_throw_eq_ok, Bool.not_eq_true',
    Bool.not_eq_false]
  constructor
  · rintro ⟨-, json, hjson, m, hm, honnx, htokenizer, _, hfirst, _, hsecond, hreturn⟩
    obtain rfl := Except.ok.inj hreturn
    exact ⟨⟨json, hjson, hm⟩, ⟨honnx, htokenizer⟩,
      (checkHash_eq_ok (mergeSort_onnxParts honnx)).mp hfirst,
      (checkHash_eq_ok mergeSort_tokenizerParts).mp hsecond⟩
  · rintro ⟨⟨json, hjson, hm⟩, ⟨honnx, htokenizer⟩, hfirst, hsecond⟩
    exact ⟨isFile_of_readToString hjson, json, hjson, metadata, hm, honnx, htokenizer, (),
      (checkHash_eq_ok (mergeSort_onnxParts honnx)).mpr hfirst, (),
      (checkHash_eq_ok mergeSort_tokenizerParts).mpr hsecond, rfl⟩

/-! ## What the hashes pin -/

/-- The same files take part, with the same contents. -/
def ModelDir.SameFiles (left right : ModelDir) : Prop :=
  ∀ name ∈ onnxFiles ++ tokenizerFiles, left.file name = right.file name

/-- A file of either hash goes on, where the same file of the other directory ends, with the name of
a later file of that directory and a zero byte. -/
def ModelDir.SpillsInto (left right : ModelDir) : Prop :=
  ∃ names ∈ [onnxFiles, tokenizerFiles], Spills spellName 0 left.contents right.contents names

/-- The hash function tells apart what is fed of the two directories. -/
def ToldApart (sha256 : List UInt8 → String) (left right : ModelDir) : Prop :=
  ∀ names ∈ [onnxFiles, tokenizerFiles], sha256 (left.fed names) = sha256 (right.fed names) →
    left.fed names = right.fed names

theorem file_eq_iff {name : String} (hleft : left.Readable names) (hright : right.Readable names)
    (hname : name ∈ names) : left.file name = right.file name ↔
      left.contents name = right.contents name := by
  have hl := hleft name hname
  have hr := hright name hname
  rw [ModelDir.contents, ModelDir.contents]
  generalize left.file name = x at *
  generalize right.file name = y at *
  rcases x with _ | e | bytes
  · rcases y with _ | e | bytes
    · simp
    · exact absurd rfl (hr e)
    · simp [Except.toOption]
  · exact absurd rfl (hl e)
  · rcases y with _ | e | bytes
    · simp [Except.toOption]
    · exact absurd rfl (hr e)
    · simp [Except.toOption]

/-- Of the files of one hash, fed alike. -/
theorem same_iff_not_spills (H : Spelling spellName 0 names) (hleft : left.Readable names)
    (hright : right.Readable names) (hfed : left.fed names = right.fed names) :
    (∀ name ∈ names, left.file name = right.file name) ↔
      ¬ Spills spellName 0 left.contents right.contents names ∧
        ¬ Spills spellName 0 right.contents left.contents names := by
  rw [← same_iff H hfed]
  exact forall₂_congr fun name hname => file_eq_iff hleft hright hname

/-- Two directories that are accepted with the same hashes have the same files if and only if no
file of the one spills into those of the other. -/
theorem sameFiles_iff {metadata metadata' : ModelMetadata}
    (hleft : verifyModelDir sha256 left serde = .ok metadata)
    (hright : verifyModelDir sha256 right serde = .ok metadata')
    (honnx : metadata.onnxSha256 = metadata'.onnxSha256)
    (htokenizer : metadata.tokenizerSha256 = metadata'.tokenizerSha256)
    (hsha : ToldApart sha256 left right) :
    left.SameFiles right ↔ ¬ left.SpillsInto right ∧ ¬ right.SpillsInto left := by
  obtain ⟨-, -, ⟨hl, hlhash⟩, hl', hlhash'⟩ := verifyModelDir_eq_ok.mp hleft
  obtain ⟨-, -, ⟨hr, hrhash⟩, hr', hrhash'⟩ := verifyModelDir_eq_ok.mp hright
  have hfed := hsha onnxFiles (by simp) (hlhash.trans (honnx.trans hrhash.symm))
  have hfed' := hsha tokenizerFiles (by simp) (hlhash'.trans (htokenizer.trans hrhash'.symm))
  have hfirst := same_iff_not_spills spelling_onnxFiles hl hr hfed
  have hsecond := same_iff_not_spills spelling_tokenizerFiles hl' hr' hfed'
  rw [ModelDir.SameFiles, List.forall_mem_append, hfirst, hsecond]
  simp only [ModelDir.SpillsInto, List.exists_mem_cons_iff, List.not_mem_nil, false_and,
    exists_false, or_false, not_or]
  tauto

/-- A hash without collisions: the bytes as letters. -/
def lettersOf (bytes : List UInt8) : String := String.ofList (bytes.map Char.ofUInt8)

theorem lettersOf_injective : Function.Injective lettersOf := by
  have hletter : Function.Injective Char.ofUInt8 := fun _ _ h =>
    UInt8.toUInt32_inj.mp (congrArg Char.val h)
  intro l l' h
  exact List.map_injective_iff.mpr hletter (String.ofList_injective h)

/-- A model whose directory has an empty `metadata.json`, one file of a tokenizer, and a graph in
one file or two. -/
def sampleDir (onnx : List UInt8) (data : Option (List UInt8)) : ModelDir where
  path := "models/primary".toList
  file name :=
    if name = metadataName then some (.ok [])
    else if name = onnxName then some (.ok onnx)
    else if name = onnxDataName then data.map .ok
    else if name = tokenizerName then some (.ok [3])
    else none

def sampleMetadata (dir : ModelDir) : ModelMetadata where
  modelId := "sample"
  dims := 8
  maxSequenceLength := 16
  pooling := .mean
  normalize := .l2
  queryPrefix := none
  documentPrefix := none
  onnxSha256 := lettersOf (dir.fed onnxFiles)
  tokenizerSha256 := lettersOf (dir.fed tokenizerFiles)

def sampleSerde (metadata : ModelMetadata) : SerdeJson Unit where
  fromStr _ := .ok ()
  get _ _ := none
  asStr _ := none
  fromValue _ := .ok metadata

theorem verifyModelDir_sampleDir {onnx : List UInt8} {data : Option (List UInt8)}
    (honnx : lettersOf ((sampleDir onnx data).fed onnxFiles) = metadata.onnxSha256)
    (htokenizer : lettersOf ((sampleDir onnx data).fed tokenizerFiles) = metadata.tokenizerSha256) :
    verifyModelDir lettersOf (sampleDir onnx data) (sampleSerde metadata) = .ok metadata := by
  have hreadable (names : List String) : (sampleDir onnx data).Readable names := by
    intro name _ e
    dsimp only [sampleDir]
    split
    · simp
    split
    · simp
    split
    · cases data <;> simp
    split
    · simp
    · simp
  have hempty : (sampleDir onnx data).readToString metadataName = .ok "" := by
    refine Except.bind_eq_ok.mpr ⟨[], rfl, ?_⟩
    rw [show String.fromUTF8? ⟨([] : List UInt8).toArray⟩ = some "" from fromUTF8?_utf8Bytes
      (t := [])]
    rfl
  exact verifyModelDir_eq_ok.mpr
    ⟨⟨"", hempty, rfl⟩, ⟨rfl, rfl⟩, ⟨hreadable _, honnx⟩, hreadable _, htokenizer⟩

/-- A graph in one file, that holds the name of a second. -/
def headedDir : ModelDir := sampleDir ([1] ++ header spellName 0 onnxDataName ++ [2]) none

/-- It is accepted with the hashes of the same graph in two files. -/
theorem verifyModelDir_headedDir :
    verifyModelDir lettersOf headedDir (sampleSerde (sampleMetadata (sampleDir [1] (some [2])))) =
      .ok (sampleMetadata (sampleDir [1] (some [2]))) := by
  have honnx : headedDir.fed onnxFiles = (sampleDir [1] (some [2])).fed onnxFiles := by
    decide +kernel
  have htokenizer : headedDir.fed tokenizerFiles =
      (sampleDir [1] (some [2])).fed tokenizerFiles := by
    decide +kernel
  exact verifyModelDir_sampleDir (congrArg lettersOf honnx) (congrArg lettersOf htokenizer)

theorem sameFiles_iff_headed : (sampleDir [1] (some [2])).SameFiles headedDir ↔
    ¬ (sampleDir [1] (some [2])).SpillsInto headedDir ∧
      ¬ headedDir.SpillsInto (sampleDir [1] (some [2])) :=
  sameFiles_iff (verifyModelDir_sampleDir rfl rfl) verifyModelDir_headedDir rfl rfl
    fun _ _ h => lettersOf_injective h

/-- A graph in one file hashes as a graph in two, if it holds the name of the second. -/
theorem graph_with_header_accepted :
    ¬ ∀ (sha256 : List UInt8 → String) (Value : Type) (serde : SerdeJson Value)
    (left right : ModelDir) (metadata metadata' : ModelMetadata), Function.Injective sha256 →
    verifyModelDir sha256 left serde = .ok metadata →
    verifyModelDir sha256 right serde = .ok metadata' →
    metadata.onnxSha256 = metadata'.onnxSha256 →
    metadata.tokenizerSha256 = metadata'.tokenizerSha256 →
    left.SameFiles right := by
  intro h
  have hsame :=
    h lettersOf Unit _ _ headedDir _ _ lettersOf_injective (verifyModelDir_sampleDir rfl rfl)
    verifyModelDir_headedDir rfl rfl onnxDataName (by decide)
  exact absurd hsame (by decide)

end SiftMcp.Inference
