import SiftMcp.Indexing.Passes
import SiftMcp.Lib.StackSearch

/-!
# Which files the walk takes up

The walk as a search with a stack: it lists the directories that can be reached from the root
through directories that are not excluded, and takes up the files in them that are not excluded
themselves.

`mem_walked_iff` is what all results about paths use of the walk.
-/

namespace SiftMcp
open Indexer StackSearch

variable {ix : Indexer} {path dir : String}

namespace Indexer

/-- What an entry of a directory pushes on the stack. -/
def subdir (ix : Indexer) (dir : String) (entry : String × FsNode) : Option (String × FsEntries) :=
  if entry.1 = ".git" then none
  else
    match entry.2 with
    | .dir es =>
      if (ix.checkEntry true (pathJoin dir entry.1)).isSome then none
      else some (pathJoin dir entry.1, es)
    | _ => none

def subdirs (ix : Indexer) (d : String × FsEntries) : List (String × FsEntries) :=
  d.2.toList.filterMap (ix.subdir d.1)

/-- What the walk makes of a file that it comes upon. -/
def walkItem (ix : Indexer) (path : String) : Option WorkItem :=
  if (ix.checkPath path).isSome then none
  else (Language.fromPath path).bind fun language =>
    (ix.readSource (replaceBackslash path)).map fun source =>
      ⟨replaceBackslash path, language, source⟩

def itemIn (ix : Indexer) (dir : String) (entry : String × FsNode) : Option WorkItem :=
  if entry.1 = ".git" then none
  else
    match entry.2 with
    | .file _ => ix.walkItem (pathJoin dir entry.1)
    | _ => none

/-- The files that listing a directory finds. -/
def itemsIn (ix : Indexer) (d : String × FsEntries) : List WorkItem :=
  d.2.toList.filterMap (ix.itemIn d.1)

/-- Some turn of the loop of the walk lists a directory in which it comes upon the file. -/
def ComesUpon (ix : Indexer) (path : String) : Prop :=
  ∃ n ≤ ix.worktree.dirs, ∃ dir es stack name bytes,
    (ix.walkLoop n ⟨[("", ix.worktree)], emptyReport 0, []⟩).stack = (dir, es) :: stack ∧
      (name, .file bytes) ∈ es.toList ∧ name ≠ ".git" ∧ path = pathJoin dir name

end Indexer

/-! ## The walk as a search -/

theorem visitFile_eq (w : Walk) : (ix.visitFile path w).stack = w.stack ∧
    (ix.visitFile path w).work = w.work ++ (ix.walkItem path).toList := by
  unfold visitFile walkItem
  dsimp only
  cases ix.checkPath path with
  | some reason => exact ⟨rfl, (List.append_nil _).symm⟩
  | none =>
    cases Language.fromPath path with
    | none => exact ⟨rfl, (List.append_nil _).symm⟩
    | some language =>
      cases ix.readSource (replaceBackslash path) with
      | none => simp
      | some source => simp

theorem visitEntry_eq (w : Walk) (entry : String × FsNode) :
    (ix.visitEntry dir w entry).stack = (ix.subdir dir entry).toList ++ w.stack ∧
      (ix.visitEntry dir w entry).work = w.work ++ (ix.itemIn dir entry).toList := by
  obtain ⟨name, node⟩ := entry
  by_cases hgit : name = ".git"
  · simp [visitEntry, subdir, itemIn, hgit]
  · cases node with
    | file bytes =>
      obtain ⟨hstack, hwork⟩ := @visitFile_eq ix (pathJoin dir name) w
      simp [visitEntry, subdir, itemIn, hgit, hstack, hwork]
    | dir es =>
      cases hex : (ix.checkEntry true (pathJoin dir name)).isSome with
      | true => simp [visitEntry, subdir, itemIn, hgit, hex]
      | false => simp [visitEntry, subdir, itemIn, hgit, hex]
    | other => simp [visitEntry, subdir, itemIn, hgit]

theorem visitEntries_eq (entries : List (String × FsNode)) (w : Walk) :
    (entries.foldl (ix.visitEntry dir) w).stack =
        (entries.filterMap (ix.subdir dir)).reverse ++ w.stack ∧
      (entries.foldl (ix.visitEntry dir) w).work = w.work ++ entries.filterMap (ix.itemIn dir) := by
  induction entries generalizing w with
  | nil => exact ⟨rfl, (List.append_nil _).symm⟩
  | cons entry entries ih =>
    obtain ⟨hstack, hwork⟩ := ih (ix.visitEntry dir w entry)
    obtain ⟨hstack', hwork'⟩ := @visitEntry_eq ix dir w entry
    rw [List.foldl_cons, hstack, hwork, hstack', hwork']
    constructor
    · cases hd : ix.subdir dir entry <;> simp [hd]
    · cases hi : ix.itemIn dir entry <;> simp [hi]

theorem walkLoop_turns (n : Nat) (w : Walk) : ((ix.walkLoop n w).stack, (ix.walkLoop n w).work) =
    (turn ix.subdirs ix.itemsIn)^[n] (w.stack, w.work) := by
  induction n generalizing w with
  | zero => rfl
  | succ n ih =>
    rw [Function.iterate_succ_apply]
    unfold walkLoop
    cases hw : w.stack with
    | nil =>
      dsimp only [turn]
      rw [Function.iterate_fixed rfl, hw]
    | cons d stack =>
      obtain ⟨hstack, hwork⟩ := @visitEntries_eq ix d.1 d.2.toList { w with stack }
      dsimp only [turn]
      rw [ih, hstack, hwork]
      rfl

/-- The directories that the walk may list: those reached from the root. -/
abbrev Indexer.Opens (ix : Indexer) (d : String × FsEntries) : Prop :=
  StackSearch.Reached ix.subdirs [("", ix.worktree)] d

theorem turns_eq (n : Nat) : turns ix.subdirs ix.itemsIn [("", ix.worktree)] n =
    ((ix.walkLoop n ⟨[("", ix.worktree)], emptyReport 0, []⟩).stack,
      (ix.walkLoop n ⟨[("", ix.worktree)], emptyReport 0, []⟩).work) :=
  (walkLoop_turns n ⟨[("", ix.worktree)], emptyReport 0, []⟩).symm

theorem turns_end : (turns ix.subdirs ix.itemsIn [("", ix.worktree)] (ix.worktree.dirs + 1)).1 =
    [] := by
  rw [turns_eq]
  exact collectAllFiles_stack _

theorem walked_eq_turns :
    ix.walked = (turns ix.subdirs ix.itemsIn [("", ix.worktree)] (ix.worktree.dirs + 1)).2 := by
  rw [turns_eq, walked]
  rfl

theorem comesUpon_iff : ix.ComesUpon path ↔ ∃ dir es name bytes, ix.Opens (dir, es) ∧
    (name, .file bytes) ∈ es.toList ∧ name ≠ ".git" ∧ path = pathJoin dir name := by
  constructor
  · intro ⟨n, hn, dir, es, stack, name, bytes, hstack, h⟩
    refine ⟨dir, es, name, bytes, (exists_top_iff turns_end).mp ⟨n, Nat.lt_succ_of_le hn, ?_⟩, h⟩
    rw [top, turns_eq, hstack]
    rfl
  · intro ⟨dir, es, name, bytes, hopens, h⟩
    obtain ⟨n, hn, ht⟩ := (exists_top_iff turns_end).mpr hopens
    obtain ⟨stack, hstack, -⟩ := turns_of_top ht
    rw [turns_eq] at hstack
    exact ⟨n, Nat.le_of_lt_succ hn, dir, es, stack, name, bytes, hstack, h⟩

/-- Without directories below the root, the walk comes upon the files at the root. -/
theorem mem_root_of_comesUpon (hflat : ix.subdirs ("", ix.worktree) = []) (h : ix.ComesUpon path) :
    ∃ bytes, (path, .file bytes) ∈ ix.worktree.toList := by
  have hroot : ∀ d, ix.Opens d → d = ("", ix.worktree) := by
    intro d hd
    induction hd with
    | start hmem => exact List.mem_singleton.mp hmem
    | next _ hnext ih =>
      rw [ih, hflat] at hnext
      cases hnext
  obtain ⟨dir, es, name, bytes, hopens, hentry, -, rfl⟩ := comesUpon_iff.mp h
  obtain ⟨rfl, rfl⟩ := Prod.mk.inj (hroot _ hopens)
  exact ⟨bytes, hentry⟩

theorem walkItem_eq_some {item : WorkItem} : ix.walkItem path = some item ↔ ∃ language source,
    ix.checkPath path = none ∧ Language.fromPath path = some language ∧
      ix.readSource (replaceBackslash path) = some source ∧
      item = ⟨replaceBackslash path, language, source⟩ := by
  unfold walkItem
  cases ix.checkPath path with
  | some reason => simp
  | none =>
    cases Language.fromPath path with
    | none => simp
    | some language =>
      cases ix.readSource (replaceBackslash path) with
      | none => simp
      | some source => simp [eq_comm]

theorem itemAt_eq_some_iff {item : WorkItem} : ix.itemAt path = some item ↔ ∃ language source,
    ix.checkPath path = none ∧ Language.fromPath path = some language ∧
      ix.readSource path = some source ∧ item = ⟨replaceBackslash path, language, source⟩ := by
  unfold itemAt workItemForPath
  cases ix.checkPath path with
  | some reason => simp
  | none =>
    cases Language.fromPath path with
    | none => simp
    | some language =>
      cases ix.readSource path with
      | none => simp
      | some source => simp [eq_comm]

/-- A directory with a single file. -/
theorem walked_singleton {name : String} {bytes : ByteArray}
    (h : ix.worktree = .cons name (.file bytes) .nil) :
    ix.walked = (ix.visitEntry "" ⟨[], emptyReport 0, []⟩ (name, .file bytes)).work := by
  rw [walked, collectAllFiles, h]
  rfl

/-- The files that the walk takes up are those that it comes upon, that are not excluded, and that
have a language and a text. -/
theorem mem_walked_iff {item : WorkItem} : item ∈ ix.walked ↔ ∃ path language source,
    ix.ComesUpon path ∧ ix.checkPath path = none ∧ Language.fromPath path = some language ∧
      ix.readSource (replaceBackslash path) = some source ∧
      item = ⟨replaceBackslash path, language, source⟩ := by
  rw [walked_eq_turns, mem_found_iff turns_end]
  constructor
  · intro ⟨⟨dir, es⟩, hopens, hitem⟩
    obtain ⟨⟨name, node⟩, hentry, hitem⟩ := List.mem_filterMap.mp hitem
    unfold itemIn at hitem
    split at hitem
    · cases hitem
    · rename_i hgit
      cases node with
      | file bytes =>
        obtain ⟨language, source, h⟩ := walkItem_eq_some.mp hitem
        exact ⟨_, language, source,
          comesUpon_iff.mpr ⟨dir, es, name, bytes, hopens, hentry, hgit, rfl⟩, h⟩
      | dir es => cases hitem
      | other => cases hitem
  · intro ⟨path, language, source, hpath, h⟩
    obtain ⟨dir, es, name, bytes, hopens, hentry, hgit, rfl⟩ := comesUpon_iff.mp hpath
    refine ⟨(dir, es), hopens, List.mem_filterMap.mpr ⟨(name, .file bytes), hentry, ?_⟩⟩
    rw [itemIn, if_neg hgit]
    exact walkItem_eq_some.mpr ⟨language, source, h⟩

/-- The paths that a run looks at: those of the status and of the changes, or those that the walk
comes upon. -/
def Indexer.Looks (ix : Indexer) (kind : RunKind) (marker : Option String) (path : String) : Prop :=
  match kind, marker with
  | .update, some marker =>
    path ∈ ix.statusPaths ++ ((ix.changes marker).toOption.getD []).filterMap (·.target)
  | _, _ => ix.ComesUpon path

/-- By whichever way a file is taken up, `check_path` has let its path through. -/
theorem exists_looks_of_mem_plan {kind : RunKind} {marker : Option String} {item : WorkItem}
    (h : item ∈ (ix.plan kind marker).work) :
    ∃ path, ix.Looks kind marker path ∧ ix.checkPath path = none ∧
      item.rel = replaceBackslash path := by
  have hwalk : item ∈ ix.walked → ∃ path, ix.ComesUpon path ∧ ix.checkPath path = none ∧
      item.rel = replaceBackslash path := fun h => by
    obtain ⟨path, language, source, hcome, hcheck, -, -, rfl⟩ := mem_walked_iff.mp h
    exact ⟨path, hcome, hcheck, rfl⟩
  unfold Indexer.plan at h
  unfold Indexer.Looks
  cases kind with
  | indexAll => exact hwalk h
  | update =>
    cases marker with
    | none => exact hwalk h
    | some marker =>
      obtain ⟨path, hpath, hitem⟩ := List.mem_filterMap.mp (mem_dedupWork h)
      obtain ⟨language, source, hcheck, -, -, rfl⟩ := itemAt_eq_some_iff.mp hitem
      exact ⟨path, hpath, hcheck, rfl⟩

end SiftMcp
