import SiftMcp.Indexing.Git
import SiftMcp.Lib.Utf8Bytes

/-!
# The stream of a status

What `git status --porcelain -z` prints, and what `dirty_paths` reads from it. An entry is its two
letters, a space and its path, and a renamed or copied entry has its old path in a field of its own.
Of that field `dirty_paths` takes off three bytes as well.

`readsStatus_iff` says which streams come out right nevertheless.
-/

namespace SiftMcp

/-- The letters of the two columns. -/
inductive StatusLetter
  | unmodified | modified | typeChanged | added | deleted | renamed | copied | unmerged | untracked
  | ignored
deriving DecidableEq

namespace StatusLetter

def byte : StatusLetter → UInt8
  | unmodified => 32
  | modified => 77
  | typeChanged => 84
  | added => 65
  | deleted => 68
  | renamed => 82
  | copied => 67
  | unmerged => 85
  | untracked => 63
  | ignored => 33

def moves : StatusLetter → Bool
  | renamed | copied => true
  | _ => false

theorem byte_ne_zero (l : StatusLetter) : l.byte ≠ 0 := by
  cases l <;> decide

end StatusLetter

/-- A path as git prints it. -/
structure StatusPath where
  text : List Char
  ne_nil : text ≠ []
  noNull : '\x00' ∉ text

structure StatusEntry where
  index : StatusLetter
  worktree : StatusLetter
  path : StatusPath
  oldPath : Option StatusPath
  moved : oldPath.isSome = (index.moves || worktree.moves)

namespace StatusEntry

/-- The fields of the entry, each of which the stream ends with a null byte. -/
def fields (e : StatusEntry) : List (List UInt8) :=
  ([e.index.byte, e.worktree.byte, 32] ++ utf8Bytes e.path.text) ::
    e.oldPath.toList.map fun old => utf8Bytes old.text

/-- The paths that the stream has of the entry. -/
def paths (e : StatusEntry) : List String :=
  String.ofList e.path.text :: e.oldPath.toList.map fun old => String.ofList old.text

end StatusEntry

/-- Standard output of `git status --porcelain -z`. -/
def printStatus (es : List StatusEntry) : List UInt8 := (es.flatMap (·.fields)).flatMap (· ++ [0])

/-- What is left of a path behind its first three bytes. -/
def behindThree (text : List Char) : String :=
  String.ofList (utf8Lossy (utf8Bytes text).length ((utf8Bytes text).drop 3))

/-- What `dirty_paths` makes of a field. -/
def readField (field : List UInt8) : Option String :=
  if field.length < 3 then none
  else
    let path := String.ofList (utf8Lossy field.length (field.drop 3))
    if path = "" then none else some path

/-- All paths are read that are those of an entry, and nothing but paths of the stream. -/
def ReadsStatus (git : RepoGit) (es : List StatusEntry) : Prop :=
  ∃ paths, git.dirtyPaths = .ok paths ∧ (∀ e ∈ es, String.ofList e.path.text ∈ paths) ∧
    ∀ p ∈ paths, p ∈ es.flatMap (·.paths)

variable {git : RepoGit} {es : List StatusEntry} {e : StatusEntry} {t : List Char}

/-! ## Lossy decoding -/

theorem utf8Lossy_utf8Bytes {n : Nat} (h : t.length ≤ n) : utf8Lossy n (utf8Bytes t) = t := by
  induction t generalizing n with
  | nil => cases n <;> rfl
  | cons c t ih =>
    obtain ⟨n, rfl⟩ : ∃ m, n = m + 1 := ⟨n - 1, by simp only [List.length_cons] at h; omega⟩
    obtain ⟨b, bs, hb⟩ := List.exists_cons_of_ne_nil (utf8Bytes_ne_nil (List.cons_ne_nil c t))
    -- The first of the four lengths that gives a text is that of the character.
    have hchar : ([1, 2, 3, 4].findSome? fun k =>
        (decodeUtf8 ((utf8Bytes (c :: t)).take k)).map fun s => (s.toList, k)) =
          some ([c], c.utf8Size) := by
      have hnone : ∀ k, 0 < k → k < c.utf8Size → decodeUtf8 ((utf8Bytes (c :: t)).take k) = none :=
        fun k hpos hlt => by
          rw [utf8Bytes_cons]
          exact fromUTF8?_take_eq_none hpos hlt
      have hsome : decodeUtf8 ((utf8Bytes (c :: t)).take c.utf8Size) =
          some (String.ofList [c]) := by
        rw [utf8Bytes_cons]
        exact fromUTF8?_take_utf8Size
      rcases c.utf8Size_eq with h | h | h | h <;>
        · rw [h] at hnone hsome ⊢
          simp [List.findSome?, hnone, hsome]
    have hdrop : (utf8Bytes (c :: t)).drop c.utf8Size = utf8Bytes t := by
      rw [utf8Bytes_cons, ← String.length_utf8EncodeChar c, List.drop_left]
    rw [hb] at hchar hdrop ⊢
    rw [utf8Lossy, hchar]
    dsimp only
    rw [hdrop, ih (by simpa using h)]
    rfl

theorem utf8Lossy_ne_nil {n : Nat} {bs : List UInt8} (hn : n ≠ 0) (hbs : bs ≠ []) :
    utf8Lossy n bs ≠ [] := by
  obtain ⟨n, rfl⟩ := Nat.exists_eq_succ_of_ne_zero hn
  obtain ⟨b, bs, rfl⟩ := List.exists_cons_of_ne_nil hbs
  rw [utf8Lossy]
  split
  · next cs k hchar =>
    obtain ⟨k', hk', hdecode⟩ := List.exists_of_findSome?_eq_some hchar
    obtain ⟨s, hs, heq⟩ := Option.map_eq_some_iff.mp hdecode
    obtain ⟨rfl, rfl⟩ := Prod.mk.inj heq
    intro hnil
    have hbytes := fromUTF8?_eq_some_iff.mp hs
    rw [(List.append_eq_nil_iff.mp hnil).1] at hbytes
    have hzero : k' = 0 := by
      cases k' with
      | zero => rfl
      | succ k' => cases hbytes
    rw [hzero] at hk'
    exact absurd hk' (by decide)
  · exact List.cons_ne_nil _ _

/-! ## Fields -/

theorem zero_not_mem_fields : ∀ f ∈ e.fields, (0 : UInt8) ∉ f := by
  intro f hf
  unfold StatusEntry.fields at hf
  rcases List.mem_cons.mp hf with rfl | hf
  · intro h
    rcases List.mem_append.mp h with h | h
    · simp only [List.mem_cons, List.not_mem_nil, or_false] at h
      rcases h with h | h | h
      · exact e.index.byte_ne_zero h.symm
      · exact e.worktree.byte_ne_zero h.symm
      · exact absurd h (by decide)
    · exact zero_not_mem_utf8Bytes e.path.noNull h
  · obtain ⟨old, -, rfl⟩ := List.mem_map.mp hf
    exact zero_not_mem_utf8Bytes old.noNull

theorem splitOn_flatMap_zero {fs : List (List UInt8)} (h : ∀ f ∈ fs, (0 : UInt8) ∉ f) :
    (fs.flatMap (· ++ [0])).splitOn 0 = fs ++ [[]] := by
  induction fs with
  | nil => rfl
  | cons f fs ih =>
    obtain ⟨hf, hfs⟩ := List.forall_mem_cons.mp h
    rw [List.flatMap_cons, List.append_assoc, List.singleton_append,
      List.splitOn_append_cons_self_of_not_mem hf, ih hfs, List.cons_append]

/-- `dirty_paths` reads field for field. -/
theorem dirtyPaths_printStatus :
    ({ git with status := .ok (printStatus es) } : RepoGit).dirtyPaths =
    .ok ((es.flatMap (·.fields)).filterMap readField) := by
  have hsplit : (printStatus es).splitOn 0 = es.flatMap (·.fields) ++ [[]] :=
    splitOn_flatMap_zero fun f hf => by
      obtain ⟨e, -, hf⟩ := List.mem_flatMap.mp hf
      exact zero_not_mem_fields f hf
  let read (field : List UInt8) : String :=
    String.ofList (utf8Lossy field.length (field.drop 3))
  have hread : ∀ fs : List (List UInt8),
      (((fs ++ [[]]).filter fun f : List UInt8 => f.length ≥ 3).map read).filter (· ≠ "") =
        fs.filterMap readField := by
    intro fs
    induction fs with
    | nil => rfl
    | cons f fs ih =>
      rw [List.cons_append, List.filterMap_cons, ← ih, readField]
      by_cases hlen : f.length < 3
      · rw [List.filter_cons_of_neg (by simpa using hlen), if_pos hlen]
      · rw [List.filter_cons_of_pos (by simpa using hlen), if_neg hlen, List.map_cons,
          List.filter_cons]
        dsimp only
        split
        · next h => simp only [ne_eq, decide_eq_true_eq] at h; rw [if_neg h]
        · next h => simp only [ne_eq, decide_eq_true_eq, not_not] at h; rw [if_pos h]
  show Except.ok _ = _
  rw [hsplit]
  exact congrArg Except.ok (hread _)

theorem readField_entry : readField ([e.index.byte, e.worktree.byte, 32] ++ utf8Bytes e.path.text) =
    some (String.ofList e.path.text) := by
  have hlen : e.path.text.length ≤ ([e.index.byte, e.worktree.byte, 32] ++
      utf8Bytes e.path.text).length := by
    have := @length_le_utf8Bytes e.path.text
    rw [List.length_append]
    omega
  have hne : String.ofList e.path.text ≠ "" := mt String.ofList_eq_empty_iff.mp e.path.ne_nil
  have hdrop : ([e.index.byte, e.worktree.byte, 32] ++ utf8Bytes e.path.text).drop 3 =
      utf8Bytes e.path.text := rfl
  rw [readField, if_neg (by simp), hdrop, utf8Lossy_utf8Bytes hlen]
  exact if_neg hne

theorem readField_old : readField (utf8Bytes t) =
    if (utf8Bytes t).length ≤ 3 then none else some (behindThree t) := by
  rw [readField]
  by_cases hlt : (utf8Bytes t).length < 3
  · rw [if_pos hlt, if_pos (Nat.le_of_lt hlt)]
  · rw [if_neg hlt]
    by_cases hle : (utf8Bytes t).length ≤ 3
    · have hnil : (utf8Bytes t).drop 3 = [] := List.drop_eq_nil_iff.mpr hle
      have hlossy : ∀ n, utf8Lossy n [] = [] := fun n => by cases n <;> rfl
      rw [if_pos hle, hnil, hlossy]
      rfl
    · have hne : behindThree t ≠ "" := by
        apply mt String.ofList_eq_empty_iff.mp
        apply utf8Lossy_ne_nil
        · omega
        · rw [ne_eq, List.drop_eq_nil_iff]
          exact hle
      rw [if_neg hle]
      exact if_neg hne

/-- The status is read exactly if no old path is longer than three bytes, but for one whose rest
behind these is a path of the stream by chance. -/
theorem readsStatus_iff (git : RepoGit) (es : List StatusEntry) :
    ReadsStatus { git with status := .ok (printStatus es) } es ↔
      ∀ e ∈ es, ∀ old ∈ e.oldPath, (utf8Bytes old.text).length ≤ 3 ∨
        behindThree old.text ∈ es.flatMap (·.paths) := by
  unfold ReadsStatus
  rw [dirtyPaths_printStatus]
  constructor
  · rintro ⟨paths, heq, -, honly⟩ e he old hold
    obtain rfl := Except.ok.inj heq
    by_cases hle : (utf8Bytes old.text).length ≤ 3
    · exact .inl hle
    · refine .inr (honly _ (List.mem_filterMap.mpr ⟨utf8Bytes old.text, ?_, ?_⟩))
      · refine List.mem_flatMap.mpr ⟨e, he, List.mem_cons_of_mem _ ?_⟩
        exact List.mem_map.mpr ⟨old, Option.mem_toList.mpr hold, rfl⟩
      · rw [readField_old, if_neg hle]
  · intro h
    refine ⟨_, rfl, ?_, ?_⟩
    · intro e he
      refine List.mem_filterMap.mpr ⟨_, List.mem_flatMap.mpr ⟨e, he, List.mem_cons_self⟩, ?_⟩
      exact readField_entry
    · intro p hp
      obtain ⟨f, hf, hread⟩ := List.mem_filterMap.mp hp
      obtain ⟨e, he, hf⟩ := List.mem_flatMap.mp hf
      rcases List.mem_cons.mp hf with rfl | hf
      · rw [readField_entry, Option.some.injEq] at hread
        exact List.mem_flatMap.mpr ⟨e, he, hread ▸ List.mem_cons_self⟩
      · obtain ⟨old, hold, rfl⟩ := List.mem_map.mp hf
        rw [readField_old] at hread
        split at hread
        · cases hread
        · next hlong =>
          obtain rfl := Option.some.inj hread
          exact (h e he old (Option.mem_toList.mp hold)).resolve_left hlong

/-- A file of the name `main.rs` that has become `lib.rs`. -/
def renamedEntry : StatusEntry where
  index := .renamed
  worktree := .unmodified
  path := ⟨"lib.rs".toList, by decide, by decide⟩
  oldPath := some ⟨"main.rs".toList, by decide, by decide⟩
  moved := rfl

/-- Of the old path `dirty_paths` makes `n.rs`. -/
theorem not_readsStatus_renamed :
    ¬ReadsStatus ⟨.ok "", .ok .nil, fun _ => .ok .nil, fun _ _ => .ok [], .ok true,
      .ok (printStatus [renamedEntry])⟩ [renamedEntry] := by
  rintro ⟨paths, heq, -, honly⟩
  have hread : readField (utf8Bytes "main.rs".toList) = some "n.rs" := by decide +kernel
  have hpaths := Except.ok.inj ((@dirtyPaths_printStatus
    ⟨.ok "", .ok .nil, fun _ => .ok .nil, fun _ _ => .ok [], .ok true, .ok []⟩
      [renamedEntry]).symm.trans heq)
  have hmem : "n.rs" ∈ paths := by
    rw [← hpaths]
    refine List.mem_filterMap.mpr ⟨_, ?_, hread⟩
    exact List.mem_flatMap.mpr
      ⟨_, List.mem_singleton_self _, List.mem_cons_of_mem _ List.mem_cons_self⟩
  exact absurd (honly _ hmem) (by decide)

end SiftMcp
