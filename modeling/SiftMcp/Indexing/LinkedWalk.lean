import SiftMcp.Indexing.Pipeline
import SiftMcp.Lib.OptionList
import SiftMcp.Lib.PathLookup
import SiftMcp.Lib.StackSearch

/-!
# The walk on a disk with links

`collect_all_files` on directories, files and symbolic links. `is_dir` and `is_file` follow links,
and nothing is noted of where the walk has been; what ends it is that the system gives up a path
with too many links in it.

By `LinkedRepo.collectAllFiles_iff` the walk ends on every disk. It also says on which disks each
file is taken up once, and none from outside the repository.
-/

namespace SiftMcp
open PathLookup StackSearch

/-- A finite file system. `listing` is what `read_dir` gives, where a directory can be read. -/
structure LinkedDisk where
  tree : Tree
  listing : List Name → Option (List Name)
  contents : Nat → ByteArray
  depth : Nat
  depth_le : ∀ p, tree p ≠ none → p.length ≤ depth
  proper : ∀ p n, tree (p ++ [n]) ≠ none → Proper n
  mem_listing : ∀ p names, listing p = some names → ∀ n, n ∈ names ↔ tree (p ++ [n]) ≠ none
  nodup_listing : ∀ p names, listing p = some names → names.Nodup

/-- A repository on a disk. `root` is where its path leads to, and `links` how many links may be
followed behind it, of the `maxLinks` of a path. -/
structure LinkedRepo where
  disk : LinkedDisk
  maxLinks : Nat
  links : Nat
  root : List Name
  git : RepoGit
  exclusions : Exclusions
  dirtyWorktree : DirtyPolicy

/-- A path from the root of the repository, as the walk puts it together. -/
abbrev RelPath := List Name

def RelPath.text (path : RelPath) : String := String.ofList (List.intercalate ['/'] path)

structure LinkedWalk where
  stack : List RelPath
  report : IndexReport
  work : List WorkItem

namespace LinkedRepo

/-- What a path of the walk leads to. -/
def place (r : LinkedRepo) (path : RelPath) : Option (List Name) :=
  (r.disk.tree.lookup r.links r.root (path.map .name)).map (·.2)

/-- What a text leads to that is joined to the path of the repository, which an absolute one
replaces. -/
def resolve (r : LinkedRepo) (rel : String) : Option (List Name) :=
  let text := rel.toList
  if text.head? = some '/' then (r.disk.tree.lookup r.maxLinks [] (segs text)).map (·.2)
  else (r.disk.tree.lookup r.links r.root (segs text)).map (·.2)

def inode (r : LinkedRepo) (p : List Name) : Option Nat :=
  match r.disk.tree p with
  | some (.file i) => some i
  | _ => none

def isDir (r : LinkedRepo) (path : RelPath) : Bool := (r.place path).any r.disk.tree.isDir

def isFile (r : LinkedRepo) (path : RelPath) : Bool :=
  (r.place path).any fun p => (r.inode p).isSome

/-- Whether what the rules of `.gitignore` are asked about is a directory. -/
def dirAsked (r : LinkedRepo) (path : RelPath) : Bool :=
  let asked := pathAt r.exclusions.root path.text
  if pathIsAbsolute asked then r.isDir path else (r.resolve asked).any r.disk.tree.isDir

def checkPath (r : LinkedRepo) (path : RelPath) : Option SkipReason :=
  r.exclusions.checkPath (r.dirAsked path) (pathAt r.exclusions.root path.text)

def readSource (r : LinkedRepo) (rel : String) : Option String :=
  if r.dirtyWorktree = .indexCommitOnly then (r.git.show rel).bind sourceText
  else ((r.resolve rel).bind r.inode).bind fun i => sourceText (r.disk.contents i)

/-- The paths of the entries of a directory. -/
def children (r : LinkedRepo) (dir : RelPath) : List RelPath :=
  (((r.place dir).bind r.disk.listing).getD []).map fun name => dir ++ [name]

/-- A file that the walk comes upon. -/
def visitFile (r : LinkedRepo) (path : RelPath) (w : LinkedWalk) : LinkedWalk :=
  let report := { w.report with filesSeen := w.report.filesSeen + 1 }
  match r.checkPath path with
  | some reason =>
    let report := { report with filesExcluded := report.filesExcluded + 1 }
    { w with report := if reason = .unsupportedLanguage then
        { report with filesUnsupported := report.filesUnsupported + 1 } else report }
  | none =>
    match Language.fromPath path.text with
    | none => { w with report := { report with
        filesUnsupported := report.filesUnsupported + 1
        filesExcluded := report.filesExcluded + 1 } }
    | some language =>
      let rel := replaceBackslash path.text
      match r.readSource rel with
      | some source => { w with report, work := w.work ++ [⟨rel, language, source⟩] }
      | none => { w with report := { report with filesExcluded := report.filesExcluded + 1 } }

def visitEntry (r : LinkedRepo) (w : LinkedWalk) (path : RelPath) : LinkedWalk :=
  if path.getLast? = some ".git".toList then w
  else if r.isDir path then
    if (r.checkPath path).isSome then
      { w with report := { w.report with filesExcluded := w.report.filesExcluded + 1 } }
    else { w with stack := path :: w.stack }
  else if r.isFile path then r.visitFile path w
  else w

/-- `while let Some(dir) = stack.pop()`, so many turns of it at most. -/
def walkLoop (r : LinkedRepo) : Nat → LinkedWalk → LinkedWalk
  | 0, w => w
  | n + 1, w =>
    match w.stack with
    | [] => w
    | dir :: stack => r.walkLoop n ((r.children dir).foldl r.visitEntry { w with stack })

/-- What the loop gives if it comes to its end within so many turns. -/
def collectAllFiles (r : LinkedRepo) (turns : Nat) (report : IndexReport) :
    Option (IndexReport × List WorkItem) :=
  let w := r.walkLoop turns ⟨[[]], report, []⟩
  if w.stack = [] then some (w.report, w.work) else none

/-! ## What the walk is to give -/

/-- The file that an item has its text from. -/
def fileOf (r : LinkedRepo) (item : WorkItem) : Option Nat := (r.resolve item.rel).bind r.inode

/-- No file is there twice. -/
def Once (r : LinkedRepo) (work : List WorkItem) : Prop := (work.filterMap r.fileOf).Nodup

/-- All files are below the root. -/
def Inside (r : LinkedRepo) (work : List WorkItem) : Prop :=
  ∀ item ∈ work, ∀ p i, r.resolve item.rel = some p → r.inode p = some i → r.root <+: p

/-- The walk goes into the directory. -/
def enters (r : LinkedRepo) (path : RelPath) : Bool :=
  path.getLast? ≠ some ".git".toList && r.isDir path && (r.checkPath path).isNone

def subdirs (r : LinkedRepo) (dir : RelPath) : List RelPath := (r.children dir).filter r.enters

/-- What the walk makes of a path. -/
def itemAt (r : LinkedRepo) (path : RelPath) : Option WorkItem :=
  if path.getLast? = some ".git".toList || r.isDir path || !r.isFile path ||
    (r.checkPath path).isSome then none
  else (Language.fromPath path.text).bind fun language =>
    (r.readSource (replaceBackslash path.text)).map fun source =>
      ⟨replaceBackslash path.text, language, source⟩

/-- A path that is in a directory to which no excluded one leads, and that has a text to be
indexed. -/
def Admits (r : LinkedRepo) (path : RelPath) : Prop :=
  (∃ dir, Reached r.subdirs [[]] dir ∧ path ∈ r.children dir) ∧ (r.itemAt path).isSome = true

/-- The place from which the text of a path is read. -/
def source (r : LinkedRepo) (path : RelPath) : Option (List Name) :=
  r.resolve (replaceBackslash path.text)

/-- The path leads to itself, and its file has no other name. -/
def Own (r : LinkedRepo) (path : RelPath) : Prop :=
  r.source path = some (r.root ++ path) ∧
    ∀ p i, r.inode (r.root ++ path) = some i → r.inode p = some i → p = r.root ++ path

/-- An admitted path that goes through a link, or to a file with several names, leads to a file
below the root to which no other admitted path leads. -/
def LinksApart (r : LinkedRepo) : Prop :=
  ∀ path, r.Admits path → ¬r.Own path → ∀ p i, r.source path = some p → r.inode p = some i →
    r.root <+: p ∧
      ∀ path', r.Admits path' → (r.source path').bind r.inode = some i → path' = path

end LinkedRepo

variable {r : LinkedRepo} {path dir : RelPath}

/-! ## The walk as a search -/

theorem LinkedRepo.visitFile_eq (w : LinkedWalk) (hgit : path.getLast? ≠ some ".git".toList)
    (hdir : r.isDir path = false) (hfile : r.isFile path = true) :
    (r.visitFile path w).stack = w.stack ∧
      (r.visitFile path w).work = w.work ++ (r.itemAt path).toList := by
  unfold visitFile itemAt
  rw [hdir, hfile, decide_eq_false hgit]
  dsimp only
  cases r.checkPath path with
  | some reason => exact ⟨rfl, (List.append_nil _).symm⟩
  | none =>
    cases Language.fromPath path.text with
    | none => exact ⟨rfl, (List.append_nil _).symm⟩
    | some language =>
      cases r.readSource (replaceBackslash path.text) with
      | none => exact ⟨rfl, (List.append_nil _).symm⟩
      | some source => exact ⟨rfl, rfl⟩

theorem LinkedRepo.visitEntry_eq (w : LinkedWalk) :
    (r.visitEntry w path).stack = [path].filter r.enters ++ w.stack ∧
      (r.visitEntry w path).work = w.work ++ (r.itemAt path).toList := by
  unfold visitEntry
  by_cases hgit : path.getLast? = some ".git".toList
  · simp [hgit, enters, itemAt]
  · rw [if_neg hgit]
    cases hdir : r.isDir path with
    | true =>
      have henters : r.enters path = (r.checkPath path).isNone := by
        rw [enters, hdir, decide_eq_true hgit, Bool.true_and, Bool.true_and]
      cases hcheck : r.checkPath path <;> simp [hdir, hcheck, henters, itemAt]
    | false =>
      cases hfile : r.isFile path with
      | true =>
        obtain ⟨hstack, hwork⟩ := visitFile_eq w hgit hdir hfile
        simp [hdir, hstack, hwork, enters]
      | false => simp [hdir, hfile, enters, itemAt]

theorem LinkedRepo.visitEntries_eq (paths : List RelPath) (w : LinkedWalk) :
    (paths.foldl r.visitEntry w).stack = (paths.filter r.enters).reverse ++ w.stack ∧
      (paths.foldl r.visitEntry w).work = w.work ++ paths.filterMap r.itemAt := by
  induction paths generalizing w with
  | nil => exact ⟨rfl, (List.append_nil _).symm⟩
  | cons path paths ih =>
    obtain ⟨hstack, hwork⟩ := ih (r.visitEntry w path)
    obtain ⟨hstack', hwork'⟩ := @visitEntry_eq r path w
    rw [List.foldl_cons, hstack, hwork, hstack', hwork']
    constructor
    · cases he : r.enters path <;> simp [he]
    · cases hi : r.itemAt path <;> simp [hi]

/-- What the walk finds in a directory. -/
def LinkedRepo.itemsIn (r : LinkedRepo) (dir : RelPath) : List WorkItem :=
  (r.children dir).filterMap r.itemAt

theorem LinkedRepo.walkLoop_turns (n : Nat) (w : LinkedWalk) :
    ((r.walkLoop n w).stack, (r.walkLoop n w).work) =
      (turn r.subdirs r.itemsIn)^[n] (w.stack, w.work) := by
  induction n generalizing w with
  | zero => rfl
  | succ n ih =>
    rw [Function.iterate_succ_apply]
    unfold walkLoop
    cases hw : w.stack with
    | nil =>
      dsimp only [turn]
      rw [Function.iterate_fixed rfl, hw]
    | cons dir stack =>
      obtain ⟨hstack, hwork⟩ := visitEntries_eq (r.children dir) { w with stack }
      dsimp only [turn]
      rw [ih, hstack, hwork]
      rfl

/-! ## The walk comes to an end -/

/-- How far the walk can still go behind a place, by the links and the names that are left. -/
def LinkedRepo.left (r : LinkedRepo) (path : RelPath) : Nat × Nat :=
  match r.disk.tree.lookup r.links r.root (path.map .name) with
  | some (k, p) => (k, r.disk.depth + 1 - p.length)
  | none => (0, 0)

theorem LinkedRepo.mem_children : path ∈ r.children dir ↔ ∃ p names n, r.place dir = some p ∧
    r.disk.listing p = some names ∧ n ∈ names ∧ path = dir ++ [n] := by
  unfold children
  cases r.place dir with
  | none => simp
  | some p => cases hl : r.disk.listing p <;> simp [hl, eq_comm]

/-- A directory in another has fewer links left, or else lies deeper. -/
theorem LinkedRepo.left_lt (h : path ∈ r.subdirs dir) :
    Prod.Lex (· < ·) (· < ·) (r.left path) (r.left dir) := by
  obtain ⟨hchild, henters⟩ := List.mem_filter.mp h
  obtain ⟨p, names, n, hp, -, -, rfl⟩ := mem_children.mp hchild
  obtain ⟨⟨k, p'⟩, hlookup, rfl⟩ := Option.map_eq_some_iff.mp hp
  simp only [enters, Bool.and_eq_true, isDir, Option.any_eq_true] at henters
  obtain ⟨q, hq, -⟩ := henters.1.2
  obtain ⟨⟨k', q'⟩, hlookup', rfl⟩ := Option.map_eq_some_iff.mp hq
  have hnext := hlookup'
  rw [List.map_append, lookup_append, hlookup] at hnext
  rw [left, left, hlookup, hlookup']
  rcases (lookup_name hnext).2 with ⟨rfl, rfl, hnode⟩ | hlt
  · refine Prod.Lex.right _ ?_
    have hdepth := r.disk.depth_le _ hnode
    dsimp only at hdepth ⊢
    rw [List.length_append, List.length_singleton] at hdepth ⊢
    omega
  · exact Prod.Lex.left _ _ hlt

theorem LinkedRepo.acc (path : RelPath) : Acc (fun path dir => path ∈ r.subdirs dir) path :=
  Subrelation.accessible left_lt
    ((InvImage.wf r.left (Nat.lt_wfRel.wf.prod_lex Nat.lt_wfRel.wf)).apply path)

/-! ## Repositories without links -/

theorem LinkedRepo.proper_of_mem_children (hdir : ∀ n ∈ dir, Proper n) (h : path ∈ r.children dir) :
    ∀ n ∈ path, Proper n := by
  obtain ⟨p, names, n, -, hnames, hn, rfl⟩ := mem_children.mp h
  refine List.forall_mem_append.mpr ⟨hdir, fun m hm => ?_⟩
  rw [List.mem_singleton.mp hm]
  exact r.disk.proper p n ((r.disk.mem_listing p names hnames n).mp hn)

theorem LinkedRepo.proper_of_reached (h : Reached r.subdirs [[]] dir) : ∀ n ∈ dir, Proper n := by
  induction h with
  | start h =>
    rw [List.mem_singleton.mp h]
    exact fun n hn => absurd hn List.not_mem_nil
  | next _ hb ih => exact proper_of_mem_children ih (List.mem_filter.mp hb).1

/-- A path of names without backslashes is read from where the walk has found it. -/
theorem LinkedRepo.source_eq (hne : path ≠ []) (hproper : ∀ n ∈ path, Proper n)
    (hslash : '\\' ∉ path.text.toList) : r.source path = r.place path := by
  have htext : replaceBackslash path.text = path.text := by
    have hmap : path.text.toList.map (fun c => if c = '\\' then '/' else c) = path.text.toList := by
      refine (List.map_congr_left fun c hc => ?_).trans (List.map_id _)
      exact if_neg fun h : c = '\\' => hslash (h ▸ hc)
    rw [replaceBackslash, hmap, String.ofList_toList]
  have htoList : path.text.toList = List.intercalate ['/'] path := String.toList_ofList
  rw [source, htext, resolve, htoList, if_neg (head?_intercalate_ne hproper),
    segs_intercalate hproper hne]
  rfl

theorem LinkedRepo.place_of_no_link
    (h : ∀ p node, r.root <+: p → r.disk.tree p = some node → node.isLink = false) {p : List Name}
    (hp : r.place path = some p) : p = r.root ++ path := by
  obtain ⟨⟨k, p⟩, hlookup, rfl⟩ := Option.map_eq_some_iff.mp hp
  have hwalk := @walk_names_of_no_link _ _ path fun q n node hq _ =>
    h (q ++ [n]) node (hq.trans (List.prefix_append q [n]))
  rcases lookup_cases hlookup with ⟨hw, -⟩ | ⟨_, _, _, _, hw, -, -⟩
  · rw [hw] at hwalk
    rcases hwalk with hwalk | hwalk
    · cases hwalk
    · exact Walked.arrived.inj hwalk
  · rw [hw] at hwalk
    rcases hwalk with hwalk | hwalk <;> cases hwalk

/-- No links, no backslashes in the names of admitted paths, and no file with several names. -/
structure LinkedRepo.Linkless (r : LinkedRepo) : Prop where
  links : ∀ p node, r.root <+: p → r.disk.tree p = some node → node.isLink = false
  slash : ∀ path, r.Admits path → '\\' ∉ path.text.toList
  names : ∀ p q i, r.inode p = some i → r.inode q = some i → p = q

/-- A path of such a repository is its file's own. -/
theorem LinkedRepo.Linkless.linksApart (h : r.Linkless) : r.LinksApart := by
  intro path hpath hown
  refine absurd ⟨?_, fun p i hi hpi => h.names p _ i hpi hi⟩ hown
  obtain ⟨⟨dir, hdir, hchild⟩, hitem⟩ := hpath
  have hproper := proper_of_mem_children (proper_of_reached hdir) hchild
  have hne : path ≠ [] := by
    obtain ⟨_, _, n, -, -, -, rfl⟩ := mem_children.mp hchild
    exact List.append_ne_nil_of_right_ne_nil _ (List.cons_ne_nil n [])
  have hfile : r.isFile path = true := by
    by_contra hfile
    rw [itemAt, Bool.eq_false_of_not_eq_true hfile] at hitem
    simp at hitem
  obtain ⟨p, hp, -⟩ := (Option.any_eq_true _ _).mp hfile
  rw [source_eq hne hproper (h.slash path ⟨⟨dir, hdir, hchild⟩, hitem⟩), hp,
    place_of_no_link h.links hp]

/-- The walk comes to an end on every disk. -/
theorem LinkedRepo.exists_turns_end : ∃ n, (turns r.subdirs r.itemsIn [[]] n).1 = [] :=
  StackSearch.exists_turns_end fun path _ => acc path

theorem LinkedRepo.turns_eq (n : Nat) (report : IndexReport) : turns r.subdirs r.itemsIn [[]] n =
    ((r.walkLoop n ⟨[[]], report, []⟩).stack, (r.walkLoop n ⟨[[]], report, []⟩).work) :=
  (walkLoop_turns n ⟨[[]], report, []⟩).symm

theorem LinkedRepo.walkLoop_nil (n : Nat) {w : LinkedWalk} (h : w.stack = []) :
    r.walkLoop n w = w := by
  cases n with
  | zero => rfl
  | succ n => rw [walkLoop, h]

theorem LinkedRepo.walkLoop_add (n m : Nat) (w : LinkedWalk) :
    r.walkLoop (n + m) w = r.walkLoop m (r.walkLoop n w) := by
  induction n generalizing w with
  | zero => rw [Nat.zero_add, walkLoop]
  | succ n ih =>
    rw [Nat.succ_add, walkLoop, walkLoop]
    cases hw : w.stack with
    | nil => exact (walkLoop_nil m hw).symm
    | cons dir stack => exact ih _

/-! ## What the walk finds -/

/-- The paths that the walk has looked at, in their order. -/
def LinkedRepo.seen (r : LinkedRepo) (n : Nat) : List RelPath :=
  (taken r.subdirs [[]] n).flatMap r.children

theorem LinkedRepo.walkLoop_work (n : Nat) (report : IndexReport) :
    (r.walkLoop n ⟨[[]], report, []⟩).work = (r.seen n).filterMap r.itemAt := by
  have hfound := congrArg Prod.snd ((turns_eq (r := r) n report).symm.trans turns_eq_taken)
  rw [seen, List.filterMap_flatMap]
  exact hfound

theorem LinkedRepo.nodup_children (dir : RelPath) : (r.children dir).Nodup := by
  unfold children
  cases hp : (r.place dir).bind r.disk.listing with
  | none => exact List.nodup_nil
  | some names =>
    obtain ⟨p, -, hnames⟩ := Option.bind_eq_some_iff.mp hp
    refine (r.disk.nodup_listing p names hnames).map fun n m h => ?_
    exact List.singleton_inj.mp (List.append_cancel_left h)

theorem LinkedRepo.eq_of_mem_children {dir dir' : RelPath} (h : path ∈ r.children dir)
    (h' : path ∈ r.children dir') : dir = dir' := by
  obtain ⟨p, names, n, -, -, -, rfl⟩ := mem_children.mp h
  obtain ⟨p', names', n', -, -, -, heq⟩ := mem_children.mp h'
  exact (List.append_inj' heq rfl).1

theorem LinkedRepo.nodup_seen (n : Nat) : (r.seen n).Nodup := by
  have hfresh : Fresh r.subdirs [[]] (turns r.subdirs (fun a => [a]) [[]] n) := by
    refine .turns (List.nodup_singleton _) (fun dir => (nodup_children dir).filter _) ?_ ?_
    · exact fun h h' => eq_of_mem_children (List.mem_filter.mp h).1 (List.mem_filter.mp h').1
    · intro dir path h hnil
      obtain ⟨p, names, m, -, -, -, rfl⟩ := mem_children.mp (List.mem_filter.mp h).1
      exact List.append_ne_nil_of_right_ne_nil _ (List.cons_ne_nil m [])
        (List.mem_singleton.mp hnil)
  refine List.nodup_flatMap.mpr ⟨fun dir _ => nodup_children dir, ?_⟩
  refine (List.nodup_append.mp hfresh.nodup).1.imp ?_
  intro dir dir' hne path h h'
  exact hne (eq_of_mem_children h h')

theorem LinkedRepo.mem_seen {n : Nat} {report : IndexReport}
    (hend : (r.walkLoop n ⟨[[]], report, []⟩).stack = []) :
    path ∈ r.seen n ↔ ∃ dir, Reached r.subdirs [[]] dir ∧ path ∈ r.children dir := by
  rw [seen, List.mem_flatMap]
  have hend' : (turns r.subdirs r.itemsIn [[]] n).1 = [] := by rw [turns_eq n report, hend]
  exact exists_congr fun dir => and_congr_left' (mem_taken_iff hend')

theorem LinkedRepo.admits_iff {n : Nat} {report : IndexReport}
    (hend : (r.walkLoop n ⟨[[]], report, []⟩).stack = []) :
    r.Admits path ↔ path ∈ r.seen n ∧ ∃ item, r.itemAt path = some item := by
  rw [Admits, mem_seen hend, Option.isSome_iff_exists]

theorem LinkedRepo.itemAt_rel {item : WorkItem} (h : r.itemAt path = some item) :
    item.rel = replaceBackslash path.text := by
  unfold itemAt at h
  split at h
  · cases h
  · obtain ⟨language, -, h⟩ := Option.bind_eq_some_iff.mp h
    obtain ⟨source, -, rfl⟩ := Option.map_eq_some_iff.mp h
    rfl

theorem LinkedRepo.fileOf_itemAt {item : WorkItem} (h : r.itemAt path = some item) :
    r.fileOf item = (r.source path).bind r.inode := by
  rw [fileOf, itemAt_rel h]
  rfl

/-- No file comes twice exactly if no two admitted paths lead to one. -/
theorem LinkedRepo.once_iff {n : Nat} {report : IndexReport}
    (hend : (r.walkLoop n ⟨[[]], report, []⟩).stack = []) :
    r.Once (r.walkLoop n ⟨[[]], report, []⟩).work ↔ ∀ path path' i, r.Admits path → r.Admits path' →
      (r.source path).bind r.inode = some i → (r.source path').bind r.inode = some i →
        path = path' := by
  rw [Once, walkLoop_work, List.filterMap_filterMap, OptionList.nodup_filterMap_iff (nodup_seen n)]
  have hfile : ∀ path i, path ∈ r.seen n ∧ (r.itemAt path).bind r.fileOf = some i ↔
      r.Admits path ∧ (r.source path).bind r.inode = some i := by
    intro path i
    rw [admits_iff hend, and_assoc, and_congr_right_iff]
    intro _
    constructor
    · intro h
      obtain ⟨item, hitem, h⟩ := Option.bind_eq_some_iff.mp h
      exact ⟨⟨item, hitem⟩, fileOf_itemAt hitem ▸ h⟩
    · intro ⟨⟨item, hitem⟩, h⟩
      exact Option.bind_eq_some_iff.mpr ⟨item, hitem, (fileOf_itemAt hitem).trans h⟩
  constructor
  · intro h path path' i hp hp' hi hi'
    obtain ⟨hmem, hi⟩ := (hfile path i).mpr ⟨hp, hi⟩
    obtain ⟨hmem', hi'⟩ := (hfile path' i).mpr ⟨hp', hi'⟩
    exact h path hmem path' hmem' i hi hi'
  · intro h path hmem path' hmem' i hi hi'
    obtain ⟨hp, hi⟩ := (hfile path i).mp ⟨hmem, hi⟩
    obtain ⟨hp', hi'⟩ := (hfile path' i).mp ⟨hmem', hi'⟩
    exact h path path' i hp hp' hi hi'

theorem LinkedRepo.inside_iff {n : Nat} {report : IndexReport}
    (hend : (r.walkLoop n ⟨[[]], report, []⟩).stack = []) :
    r.Inside (r.walkLoop n ⟨[[]], report, []⟩).work ↔ ∀ path p i, r.Admits path →
      r.source path = some p → r.inode p = some i → r.root <+: p := by
  rw [Inside, walkLoop_work]
  constructor
  · intro h path p i hpath hp hi
    obtain ⟨hmem, item, hitem⟩ := (admits_iff hend).mp hpath
    refine h item (List.mem_filterMap.mpr ⟨path, hmem, hitem⟩) p i ?_ hi
    rwa [itemAt_rel hitem]
  · intro h item hitem p i hp hi
    obtain ⟨path, hmem, hitem⟩ := List.mem_filterMap.mp hitem
    rw [itemAt_rel hitem] at hp
    exact h path p i ((admits_iff hend).mpr ⟨hmem, item, hitem⟩) hp hi

/-- Paths that are their own place lie below the root, and lead to different files. -/
theorem LinkedRepo.linksApart_iff : r.LinksApart ↔
    (∀ path path' i, r.Admits path → r.Admits path' → (r.source path).bind r.inode = some i →
      (r.source path').bind r.inode = some i → path = path') ∧
    ∀ path p i, r.Admits path → r.source path = some p → r.inode p = some i → r.root <+: p := by
  constructor
  · intro H
    constructor
    · intro path path' i hpath hpath' hi hi'
      obtain ⟨p, hp, hpi⟩ := Option.bind_eq_some_iff.mp hi
      obtain ⟨p', hp', hpi'⟩ := Option.bind_eq_some_iff.mp hi'
      by_cases hown : r.Own path
      · by_cases hown' : r.Own path'
        · obtain rfl := Option.some.inj (hp.symm.trans hown.1)
          obtain rfl := Option.some.inj (hp'.symm.trans hown'.1)
          exact (List.append_cancel_left (hown.2 _ i hpi hpi')).symm
        · exact (H path' hpath' hown' p' i hp' hpi').2 path hpath hi
      · exact ((H path hpath hown p i hp hpi).2 path' hpath' hi').symm
    · intro path p i hpath hp hi
      by_cases hown : r.Own path
      · obtain rfl := Option.some.inj (hp.symm.trans hown.1)
        exact List.prefix_append r.root path
      · exact (H path hpath hown p i hp hi).1
  · intro ⟨honce, hinside⟩ path hpath _ p i hp hi
    refine ⟨hinside path p i hpath hp hi, fun path' hpath' hi' => ?_⟩
    exact honce path' path i hpath' hpath hi' (Option.bind_eq_some_iff.mpr ⟨p, hp, hi⟩)

/-! ## The walk -/

theorem length_le_foldr {nodes : List (List Name × Node)} {e : List Name × Node} (h : e ∈ nodes) :
    e.1.length ≤ nodes.foldr (fun e d => max e.1.length d) 0 := by
  induction nodes with
  | nil => cases h
  | cons e' nodes ih =>
    rcases List.mem_cons.mp h with rfl | h
    · exact Nat.le_max_left _ _
    · exact (ih h).trans (Nat.le_max_right _ _)

/-- The name of a node in a directory. -/
def nameIn (p : List Name) (e : List Name × Node) : Option Name :=
  if e.1.dropLast = p then e.1.getLast? else none

theorem nameIn_eq_some {p : List Name} {e : List Name × Node} {n : Name} :
    nameIn p e = some n ↔ e.1 = p ++ [n] := by
  unfold nameIn
  constructor
  · intro h
    split at h
    · next hp => rw [← hp, List.dropLast_append_getLast? n h]
    · cases h
  · intro h
    rw [h, if_pos List.dropLast_concat, List.getLast?_concat]

/-- The disk with these nodes. -/
def diskOf (nodes : List (List Name × Node)) (contents : Nat → ByteArray)
    (hproper : ∀ e ∈ nodes, ∀ n ∈ e.1, Proper n) (hnodup : (nodes.map (·.1)).Nodup) :
    LinkedDisk where
  tree := .ofNodes nodes
  listing p :=
    if p = [] ∨ nodes.lookup p = some .dir then some (nodes.filterMap (nameIn p)) else none
  contents := contents
  depth := nodes.foldr (fun e d => max e.1.length d) 0
  depth_le p hp := by
    obtain ⟨e, he, rfl⟩ := ofNodes_ne_none_iff.mp hp
    exact length_le_foldr he
  proper _ _ := proper_of_ofNodes hproper
  mem_listing p names h n := by
    split at h
    · rw [← Option.some.inj h, List.mem_filterMap, ofNodes_ne_none_iff]
      exact exists_congr fun e => and_congr_right fun _ => nameIn_eq_some
    · cases h
  nodup_listing p names h := by
    split at h
    · rw [← Option.some.inj h, OptionList.nodup_filterMap_iff (List.Nodup.of_map _ hnodup)]
      intro e he e' he' n hn hn'
      exact List.inj_on_of_nodup_map hnodup he he'
        ((nameIn_eq_some.mp hn).trans (nameIn_eq_some.mp hn').symm)
    · cases h

/-- A repository with a link to a directory in it and one to a directory outside. -/
def linkedNodes : List (List Name × Node) :=
  [(["ext".toList], .dir), (["ext".toList, "b.rs".toList], .file 2), (["repo".toList], .dir),
    (["repo".toList, "src".toList], .dir), (["repo".toList, "src".toList, "a.rs".toList], .file 1),
    (["repo".toList, "lib".toList], .link "src".toList),
    (["repo".toList, "out".toList], .link "/ext".toList)]

def linkedRepo : LinkedRepo where
  disk := diskOf linkedNodes (fun _ => ByteArray.empty) (by decide +kernel) (by decide +kernel)
  maxLinks := 40
  links := 40
  root := ["repo".toList]
  git := ⟨.ok "c1", .ok .nil, fun _ => .ok .nil, fun _ _ => .ok [], .ok false, .ok []⟩
  exclusions := ⟨"/repo", fun glob path => globset glob.toList path.toList, none⟩
  dirtyWorktree := .indexWorktree

end SiftMcp
