import SiftMcp.Indexing.Work
import SiftMcp.Lib.Counting

/-!
# What a run does

`index_all` and `update` differ in their plan: the changes that are applied to the store, and the
files that are read again. `Ran` gives the contents that a successful run leaves, in terms of its
plan and of the contents before.

The main result is `run_wp`: what a run leaves when it succeeds, fails or is killed.
-/

namespace SiftMcp
open Durable DocIndex

/-! ## The plan of a run -/

inductive RunKind
  | indexAll
  | update
deriving DecidableEq

def FileChange.target : FileChange → Option String
  | .added path | .modified path | .renamed _ path => some path
  | .deleted _ => none

namespace Indexer

@[irreducible]
def run (ix : Indexer) : RunKind → IndexProg IndexReport
  | .indexAll => ix.indexAll
  | .update => ix.update

/-- The work item of a path as the run finds it. -/
def itemAt (ix : Indexer) (path : String) : Option WorkItem :=
  (ix.workItemForPath path (emptyReport 0)).2

/-- The files that a walk over the whole worktree takes up. -/
@[irreducible]
def walked (ix : Indexer) : List WorkItem := (ix.collectAllFiles (emptyReport 0)).2

/-- The paths that the status lists, where they are looked at. -/
def statusPaths (ix : Indexer) : List String :=
  if ix.git.isDirty.toOption = some true ∧ ix.config.dirtyWorktree = .indexWorktree then
    ix.git.dirtyPaths.toOption.getD []
  else []

structure Plan where
  changes : List FileChange
  work : List WorkItem

/-- A store without a commit marker is indexed as a whole. -/
def plan (ix : Indexer) (kind : RunKind) (marker : Option String) : Plan :=
  match kind, marker with
  | .update, some marker =>
    let changes := (ix.changes marker).toOption.getD []
    ⟨changes, dedupWork [] ((ix.statusPaths ++ changes.filterMap (·.target)).filterMap ix.itemAt)⟩
  | _, _ => ⟨[], ix.walked⟩

theorem run_indexAll {ix : Indexer} : ix.run .indexAll = ix.indexAll := by rw [run]

theorem run_update {ix : Indexer} : ix.run .update = ix.update := by rw [run]

theorem plan_indexAll {ix : Indexer} {marker : Option String} :
    ix.plan .indexAll marker = ⟨[], ix.walked⟩ :=
  rfl

end Indexer

namespace Contents

def applyChange (a : Contents) : FileChange → Contents
  | .deleted path => a.tombstone (Agree.rowsOf a.table path)
  | .renamed source dest => a.rekeyFile source dest
  | .added _ | .modified _ => a

def applyChanges (a : Contents) (changes : List FileChange) : Contents :=
  changes.foldl applyChange a

theorem applyChanges_concat {a : Contents} {done : List FileChange} {change : FileChange} :
    a.applyChanges (done ++ [change]) = (a.applyChanges done).applyChange change := by
  rw [applyChanges, List.foldl_append]
  rfl

end Contents

open Indexer

variable {ix : Indexer} {H P : Prop} {a b : Contents} {docs : Docs} {t u : IndexState}

/-! ## Looking at paths -/

theorem workItemForPath_snd (path : String) (r : IndexReport) :
    (ix.workItemForPath path r).2 = ix.itemAt path := by
  unfold itemAt workItemForPath
  split
  · rfl
  · split
    · rfl
    · split <;> rfl

theorem workItemForPath_tally (path : String) (r : IndexReport) :
    (ix.workItemForPath path r).1.tally = r.tally := by
  unfold workItemForPath
  split
  · rfl
  · split
    · rfl
    · split <;> rfl

theorem lookAt_wp (S : Synced ix H a docs t) (path : String) :
    Does ix H P (ix.lookAt path)
      (fun items u => items = (ix.itemAt path).toList ∧ Synced ix H a docs u ∧
        u.report.tally = t.report.tally) t := by
  simp only [lookAt, Prog.wp_bind, wp_mayFail, Prog.wp_get, wp_report, Prog.wp_pure,
    workItemForPath_snd, workItemForPath_tally]
  exact ⟨fun hf => S.tick.failed (not_faultless_of_call hf),
    fun _ => ⟨trivial, S.tick.congr rfl rfl, rfl⟩⟩

theorem lookAtAll_wp (S : Synced ix H a docs t) (paths : List String) :
    Does ix H P (.foldlP (fun work path => do return work ++ (← ix.lookAt path)) [] paths)
      (fun items u => items = paths.filterMap ix.itemAt ∧ Synced ix H a docs u ∧
        u.report.tally = t.report.tally) t := by
  refine (Prog.wp_foldlP
    (fun done _ items u => items = done.filterMap ix.itemAt ∧ Synced ix H a docs u ∧
      u.report.tally = t.report.tally) ?_ paths [] _ t
    ⟨rfl, S, rfl⟩).mono (fun _ _ h => h) (fun _ _ h => h) (fun _ _ h => h)
  intro done path _ items u hu
  simp only [Prog.wp_bind, Prog.wp_pure]
  refine (lookAt_wp hu.2.1 path).mono ?_ (fun _ _ h => h) (fun _ _ h => h)
  intro items' v hv
  refine ⟨?_, hv.2.1, hv.2.2.trans hu.2.2⟩
  rw [hu.1, hv.1, List.filterMap_append]
  cases h : ix.itemAt path <;> simp [h]

/-! ## Changes -/

/-- From `a` to `b` the counters of the report have gone along with the live rows. -/
structure Balances (r r' : IndexReport) (a b : Contents) : Prop where
  liveBefore : r'.liveBefore = r.liveBefore
  added : r'.chunksAdded = r.chunksAdded
  removed : b.table.live.length + r'.chunksRemoved = a.table.live.length + r.chunksRemoved

namespace Balances

variable {r r' r'' : IndexReport} {c : Contents}

theorem of_tally (h : r'.tally = r.tally) (hlen : b.table.live.length = a.table.live.length) :
    Balances r r' a b := by
  obtain ⟨h1, h2, h3⟩ := Prod.mk.inj h |>.imp_right Prod.mk.inj
  exact ⟨h1, h2, by rw [hlen, h3]⟩

theorem trans (h : Balances r r' a b) (h' : Balances r' r'' b c) : Balances r r'' a c :=
  ⟨h'.liveBefore.trans h.liveBefore, h'.added.trans h.added, h'.removed.trans h.removed⟩

end Balances

theorem length_deleted (a : Contents) (path : String) :
    (a.applyChange (.deleted path)).table.live.length + (Agree.rowsOf a.table path).length =
      a.table.live.length := by
  have hrow : (a.applyChange (.deleted path)).table.live =
      a.table.live.filter fun p => ¬p.2.1.file = path := by
    show (a.table.retire _).live = _
    rw [RowTable.retire_live]
    exact List.filter_congr fun p hp => by
      simp only [@Agree.mem_rowsOf a.table path p.1 p.2 hp]
  rw [hrow, Agree.rowsOf, List.length_map,
    List.length_eq_length_filter_add (l := a.table.live) fun p => p.2.1.file = path, Nat.add_comm]
  congr 3
  funext p
  by_cases h : p.2.1.file = path <;> simp [h]

theorem deleteFile_wp (S : Synced ix H a docs t) (path : String) :
    Does ix H P (ix.deleteFile path)
      (fun _ u => (∃ docs', Synced ix H (a.applyChange (.deleted path)) docs' u) ∧
        Balances t.report u.report a (a.applyChange (.deleted path))) t := by
  have hrows : t.tick.store.rowsForFile path = Agree.rowsOf a.table path :=
    rowsForFile_eq S.toHolds.tick path
  have hlen := length_deleted a path
  simp only [deleteFile, Prog.wp_bind, wp_mayFail, Prog.wp_get, hrows, Prog.wp_ite, Prog.wp_pure,
    wp_report]
  refine ⟨fun hf => S.tick.failed (not_faultless_of_call hf), fun _ =>
    ⟨fun hnil => ?_, fun _ => ?_⟩⟩
  · have hself : a.applyChange (.deleted path) = a := by
      rw [Contents.applyChange, hnil, Contents.tombstone]
      congr 1
      exact RowTable.ext rfl (List.filter_eq_self.mpr fun p _ => by simp)
    rw [hself]
    exact ⟨⟨docs, S.tick⟩, .of_tally rfl rfl⟩
  · refine (retire_wp S.tick _).mono ?_ (fun _ _ h => h) (fun _ _ h => h)
    intro _ u hu
    obtain ⟨S', hreport⟩ := hu
    refine ⟨⟨_, S'.congr rfl rfl⟩, ?_, ?_, ?_⟩
    · rw [hreport]
      rfl
    · rw [hreport]
      rfl
    · rw [hreport, ← hlen]
      exact (Nat.add_left_comm _ _ _).trans (Nat.add_comm _ _)

theorem applyFileChange_wp (S : Synced ix H a docs t) (change : FileChange) :
    Does ix H P (ix.applyFileChange change)
      (fun items u => items = (change.target.bind ix.itemAt).toList ∧
        (∃ docs', Synced ix H (a.applyChange change) docs' u) ∧
        Balances t.report u.report a (a.applyChange change)) t := by
  cases change with
  | added path | modified path =>
    exact (lookAt_wp S path).mono (fun _ _ h => ⟨h.1, ⟨docs, h.2.1⟩, .of_tally h.2.2 rfl⟩)
      (fun _ _ h => h) (fun _ _ h => h)
  | deleted path =>
    simp only [applyFileChange, Prog.wp_bind, Prog.wp_pure]
    exact (deleteFile_wp S path).mono (fun _ _ h => ⟨rfl, h⟩) (fun _ _ h => h) (fun _ _ h => h)
  | renamed source dest =>
    have hlen : (a.applyChange (.renamed source dest)).table.live.length = a.table.live.length :=
      List.length_map _
    simp only [applyFileChange, Prog.wp_bind]
    refine (renameFile_wp S source dest).mono ?_ (fun _ _ h => h) (fun _ _ h => h)
    intro n u hu
    obtain ⟨-, S', hreport⟩ := hu
    refine (lookAt_wp S' dest).mono ?_ (fun _ _ h => h) (fun _ _ h => h)
    intro items v hv
    obtain ⟨hitems, Sv, htally⟩ := hv
    rw [hreport] at htally
    simp only [Prog.wp_ite, Prog.wp_bind, wp_report, Prog.wp_pure]
    exact ⟨fun _ => ⟨hitems, ⟨_, Sv.congr rfl rfl⟩, .of_tally htally hlen⟩,
      fun _ => ⟨hitems, ⟨_, Sv⟩, .of_tally htally hlen⟩⟩

theorem applyFileChanges_wp (S : Synced ix H a docs t) (work : List WorkItem)
    (changes : List FileChange) :
    Does ix H P (ix.applyFileChanges work changes)
      (fun items u => items = work ++ (changes.filterMap (·.target)).filterMap ix.itemAt ∧
        (∃ docs', Synced ix H (a.applyChanges changes) docs' u) ∧
        Balances t.report u.report a (a.applyChanges changes)) t := by
  refine (Prog.wp_foldlP (fun done _ items u =>
    items = work ++ (done.filterMap (·.target)).filterMap ix.itemAt ∧
      (∃ docs', Synced ix H (a.applyChanges done) docs' u) ∧
      Balances t.report u.report a (a.applyChanges done)) ?_ changes [] work t
    ⟨by simp, ⟨docs, S⟩, .of_tally rfl rfl⟩).mono (fun _ _ h => h) (fun _ _ h => h) (fun _ _ h => h)
  intro done change _ items u hu
  obtain ⟨hitems, ⟨docs', S'⟩, hbal⟩ := hu
  simp only [Prog.wp_bind, Prog.wp_pure]
  refine (applyFileChange_wp S' change).mono ?_ (fun _ _ h => h) (fun _ _ h => h)
  intro items' v hv
  obtain ⟨hitems', S'', hbal'⟩ := hv
  rw [← Contents.applyChanges_concat] at S'' hbal'
  refine ⟨?_, S'', hbal.trans hbal'⟩
  rw [hitems, hitems', List.filterMap_append, List.filterMap_append, List.append_assoc]
  cases h : change.target with
  | none => simp [h]
  | some path => cases h' : ix.itemAt path <;> simp [h, h']

/-! ## The walk -/

/-- Two walks at the same place, whatever they have counted. -/
def SameWalk (w w' : Walk) : Prop := w.stack = w'.stack ∧ w.work = w'.work

/-- Two indexers that see the same files, and exclude the same ones. -/
structure SameFiles (ix ix' : Indexer) : Prop where
  excluded : ∀ path, ix.checkEntry true path = ix'.checkEntry true path
  checked : ∀ path, ix.checkPath path = ix'.checkPath path
  read : ∀ path, ix.readSource path = ix'.readSource path

variable {ix' : Indexer}

theorem visitFile_same (V : SameFiles ix ix') {w w' : Walk} (h : SameWalk w w') (path : String) :
    SameWalk (ix.visitFile path w) (ix'.visitFile path w') := by
  unfold visitFile
  dsimp only
  rw [← V.checked, ← V.read]
  split
  · exact h
  · split
    · exact h
    · split
      · exact ⟨h.1, by rw [h.2]⟩
      · exact h

theorem visitEntry_same (V : SameFiles ix ix') {w w' : Walk} (h : SameWalk w w') (dir : String)
    (entry : String × FsNode) :
    SameWalk (ix.visitEntry dir w entry) (ix'.visitEntry dir w' entry) := by
  unfold visitEntry
  dsimp only
  rw [← V.excluded]
  split
  · exact h
  · split
    · split
      · exact h
      · exact ⟨by rw [h.1], h.2⟩
    · exact visitFile_same V h _
    · exact h

theorem visitEntries_same (V : SameFiles ix ix') {dir : String} {entries : List (String × FsNode)}
    {w w' : Walk} (h : SameWalk w w') :
    SameWalk (entries.foldl (ix.visitEntry dir) w) (entries.foldl (ix'.visitEntry dir) w') := by
  induction entries generalizing w w' with
  | nil => exact h
  | cons entry entries ih => exact ih (visitEntry_same V h dir entry)

theorem walkLoop_same (V : SameFiles ix ix') {w w' : Walk} (n : Nat) (h : SameWalk w w') :
    SameWalk (ix.walkLoop n w) (ix'.walkLoop n w') := by
  induction n generalizing w w' with
  | zero => exact h
  | succ n ih =>
    unfold walkLoop
    rw [← h.1]
    cases w.stack with
    | nil => exact h
    | cons top stack => exact ih (visitEntries_same V ⟨rfl, h.2⟩)

/-- The files found in one tree are the same for both. -/
theorem collectAllFiles_same (V : SameFiles ix ix') (htree : ix.worktree = ix'.worktree)
    (r r' : IndexReport) : (ix.collectAllFiles r).2 = (ix'.collectAllFiles r').2 := by
  have h : SameWalk ⟨[("", ix.worktree)], r, []⟩ ⟨[("", ix'.worktree)], r', []⟩ :=
    ⟨by rw [htree], rfl⟩
  have hloop := walkLoop_same V (ix.worktree.dirs + 1) h
  have hdirs : ix.worktree.dirs = ix'.worktree.dirs := by rw [htree]
  unfold collectAllFiles
  rw [← hdirs]
  exact hloop.2

theorem walked_same (V : SameFiles ix ix') (htree : ix.worktree = ix'.worktree) :
    ix.walked = ix'.walked := by
  rw [walked, walked]
  exact collectAllFiles_same V htree _ _

theorem collectAllFiles_snd (r : IndexReport) : (ix.collectAllFiles r).2 = ix.walked := by
  rw [walked]
  exact collectAllFiles_same ⟨fun _ => rfl, fun _ => rfl, fun _ => rfl⟩ rfl r _

/-- Only the counters of files differ. -/
def FilesCounted (r r' : IndexReport) : Prop :=
  ∃ seen excluded unsupported, r' = { r with
    filesSeen := seen
    filesExcluded := excluded
    filesUnsupported := unsupported }

theorem FilesCounted.refl (r : IndexReport) : FilesCounted r r := ⟨_, _, _, rfl⟩

theorem FilesCounted.trans {r r' r'' : IndexReport} (h : FilesCounted r r')
    (h' : FilesCounted r' r'') : FilesCounted r r'' := by
  obtain ⟨_, _, _, rfl⟩ := h
  obtain ⟨_, _, _, rfl⟩ := h'
  exact ⟨_, _, _, rfl⟩

theorem visitFile_report (path : String) (w : Walk) :
    FilesCounted w.report (ix.visitFile path w).report := by
  unfold visitFile
  split
  · dsimp only
    split <;> exact ⟨_, _, _, rfl⟩
  · split
    · exact ⟨_, _, _, rfl⟩
    · dsimp only
      split <;> exact ⟨_, _, _, rfl⟩

theorem visitEntry_report (dir : String) (w : Walk) (entry : String × FsNode) :
    FilesCounted w.report (ix.visitEntry dir w entry).report := by
  unfold visitEntry
  dsimp only
  split
  · exact .refl _
  · split
    · split
      · exact ⟨_, _, _, rfl⟩
      · exact .refl _
    · exact visitFile_report _ w
    · exact .refl _

theorem walkLoop_report (n : Nat) (w : Walk) :
    FilesCounted w.report (ix.walkLoop n w).report := by
  have hentries : ∀ (dir : String) (entries : List (String × FsNode)) (w : Walk),
      FilesCounted w.report (entries.foldl (ix.visitEntry dir) w).report := by
    intro dir entries
    induction entries with
    | nil => exact fun _ => .refl _
    | cons entry entries ih => exact fun w => (visitEntry_report dir w entry).trans (ih _)
  induction n generalizing w with
  | zero => exact .refl _
  | succ n ih =>
    unfold walkLoop
    split
    · exact .refl _
    · rename_i dir es stack hstack
      exact (hentries dir es.toList { w with stack }).trans (ih _)

theorem collectAllFiles_report (r : IndexReport) :
    FilesCounted r (ix.collectAllFiles r).1 := walkLoop_report _ _

theorem collectAllFiles_tally (r : IndexReport) : (ix.collectAllFiles r).1.tally = r.tally := by
  have hfiles : FilesCounted r (ix.collectAllFiles r).1 := collectAllFiles_report r
  obtain ⟨_, _, _, h⟩ := hfiles
  rw [h]
  rfl

/-! The number of directories below the root bounds the loop of the walk. -/

def stackDirs (stack : List (String × FsEntries)) : Nat :=
  (stack.map fun d => d.2.dirs + 1).sum

def entriesDirs (entries : List (String × FsNode)) : Nat := (entries.map fun e => e.2.dirs).sum

theorem FsEntries.dirs_eq : ∀ es : FsEntries, es.dirs = entriesDirs es.toList
  | .nil => rfl
  | .cons name node rest => by
    rw [FsEntries.dirs, FsEntries.dirs_eq rest]
    rfl

theorem visitEntry_stack (dir : String) (w : Walk) (entry : String × FsNode) :
    stackDirs (ix.visitEntry dir w entry).stack ≤ stackDirs w.stack + entry.2.dirs := by
  have hfile : ∀ path, (ix.visitFile path w).stack = w.stack := by
    intro path
    unfold visitFile
    split
    · rfl
    · split
      · rfl
      · dsimp only
        split <;> rfl
  unfold visitEntry
  dsimp only
  split
  · exact Nat.le_add_right _ _
  · split
    · rename_i es hes
      split
      · exact Nat.le_add_right _ _
      · rw [hes, FsNode.dirs, stackDirs, List.map_cons, List.sum_cons, Nat.add_comm]
        exact Nat.le_refl _
    · rw [hfile]
      exact Nat.le_add_right _ _
    · exact Nat.le_add_right _ _

theorem visitEntries_stack (dir : String) (entries : List (String × FsNode)) (w : Walk) :
    stackDirs (entries.foldl (ix.visitEntry dir) w).stack ≤
      stackDirs w.stack + entriesDirs entries := by
  induction entries generalizing w with
  | nil => exact Nat.le_refl _
  | cons entry entries ih =>
    have h := (ih (ix.visitEntry dir w entry)).trans
      (Nat.add_le_add_right (visitEntry_stack dir w entry) _)
    rwa [Nat.add_assoc] at h

theorem walkLoop_stack (n : Nat) (w : Walk) (h : stackDirs w.stack ≤ n) :
    (ix.walkLoop n w).stack = [] := by
  induction n generalizing w with
  | zero =>
    cases hw : w.stack with
    | nil => exact hw
    | cons d stack =>
      rw [hw, stackDirs, List.map_cons, List.sum_cons] at h
      omega
  | succ n ih =>
    unfold walkLoop
    cases hw : w.stack with
    | nil => exact hw
    | cons d stack =>
      refine ih _ ((visitEntries_stack d.1 d.2.toList _).trans ?_)
      rw [hw, stackDirs, List.map_cons, List.sum_cons, ← stackDirs] at h
      rw [← FsEntries.dirs_eq]
      dsimp only
      omega

/-- The walk lists every directory that it has come upon. -/
theorem collectAllFiles_stack (r : IndexReport) :
    (ix.walkLoop (ix.worktree.dirs + 1) ⟨[("", ix.worktree)], r, []⟩).stack = [] :=
  walkLoop_stack _ _ (Nat.le_of_eq (Nat.add_zero _))

/-! ## Whole runs -/

/-- Nothing can be indexed here: git does not answer, or the dirty worktree is refused. -/
def Indexer.Refuses (ix : Indexer) : Prop :=
  (∃ e, ix.git.isDirty = .error e) ∨
    (ix.git.isDirty = .ok true ∧ ix.config.dirtyWorktree = .refuse) ∨ ∃ e, ix.git.headId = .error e

/-- No row is retired for two items. -/
def Indexer.Balanced (ix : Indexer) (a : Contents) (work : List WorkItem) : Prop :=
  ix.retirements a.table work = a.table.live.countP fun p => ix.retires work p.2.1

theorem Processed.reconciles {work : List WorkItem} {cs : List Chunk}
    (h : Processed ix a work cs b) :
    Reconciles (a.table.live.length, cs.length, ix.retirements a.table work)
      b.table.live.length ↔ ix.Balanced a work := by
  obtain ⟨new, hlive, hrec, -⟩ := h.live
  have hnew : new.length = cs.length := by simpa using congrArg List.length hrec
  have hsplit := List.length_eq_countP_add_countP (l := a.table.live)
    fun p => ix.retires work p.2.1
  have hkept : (a.table.live.filter fun p => !ix.retires work p.2.1).length =
      a.table.live.countP fun p => ¬ix.retires work p.2.1 = true := by
    rw [List.countP_eq_length_filter]
    simp
  simp only [Reconciles, Indexer.Balanced, hlive, List.length_append, hnew, hkept]
  omega

/-- What a successful run with the plan makes of the contents. -/
def Ran (ix : Indexer) (plan : Plan) (a c : Contents) : Prop :=
  ∃ b head dirty, ix.git.isDirty = .ok dirty ∧ ix.git.headId = .ok head ∧
    Processed ix (a.applyChanges plan.changes) (ix.schedule plan.work)
      (taken (a.applyChanges plan.changes).table.keys (ix.chunksOf (ix.schedule plan.work))) b ∧
    SameChunks (b.setIndexedCommit (ix.commitMarker dirty head)) c

/-- The counters of a successful run with the plan. -/
structure Counted (ix : Indexer) (plan : Plan) (a c : Contents) (r : IndexReport) : Prop where
  liveBefore : r.liveBefore = a.table.live.length
  liveAfter : r.liveAfter = c.table.live.length
  added : r.chunksAdded =
    (taken (a.applyChanges plan.changes).table.keys (ix.chunksOf (ix.schedule plan.work))).length
  removed : r.chunksRemoved + (a.applyChanges plan.changes).table.live.length =
    a.table.live.length + ix.retirements (a.applyChanges plan.changes).table (ix.schedule plan.work)
  parsed : ix.Parses plan.work
  balanced : ix.Balanced (a.applyChanges plan.changes) (ix.schedule plan.work)
  settled : Settled ix c

/-- What both kinds of run have in common, once the changes are applied. -/
theorem processed_finish_wp {plan : Plan} {dirty : Bool}
    (S : Synced ix H (a.applyChanges plan.changes) docs t) (hd : ix.git.isDirty = .ok dirty)
    (hbal : Balances (emptyReport a.table.live.length) t.report a (a.applyChanges plan.changes))
    (hP : (∃ e, ix.git.headId = .error e) ∨ ¬ix.Parses plan.work ∨
      ¬ix.Balanced (a.applyChanges plan.changes) (ix.schedule plan.work) → P) :
    Does ix H P (do ix.processWorkItems plan.work; ix.finish dirty)
      (fun r u => (∃ head, ix.git.headId = .ok head) ∧ ∃ c docs', Holds ix.embedder H c docs' u ∧
        Ran ix plan a c ∧ Counted ix plan a c r) t := by
  simp only [Prog.wp_bind]
  refine (processWorkItems_wp S plan.work fun h => hP (.inr (.inl h))).mono ?_ (fun _ _ h => h)
    (fun _ _ h => h)
  intro _ u hu
  obtain ⟨hparses, b, docs', S', hb, htally⟩ := hu
  have hrec : Reconciles u.report.tally b.table.live.length ↔
      ix.Balanced (a.applyChanges plan.changes) (ix.schedule plan.work) := by
    have hremoved := hbal.removed
    rw [← hb.reconciles, htally, hbal.liveBefore, hbal.added]
    simp only [Reconciles, emptyReport] at hremoved ⊢
    omega
  refine (finish_wp S' dirty fun h => hP (h.imp_right fun h => .inr (mt hrec.mpr h))).mono ?_
    (fun _ _ h => h) (fun _ _ h => h)
  intro r v hv
  obtain ⟨c, docs₁, S₁, hfin⟩ := hv
  obtain ⟨head, hhead, hcomp⟩ := hfin.head
  have hsame := hcomp.sameChunks
  refine ⟨⟨head, hhead⟩, c, docs₁, S₁, ⟨b, head, dirty, hd, hhead, hb, hsame⟩, ?_⟩
  obtain ⟨h1, h2, h3⟩ := Prod.mk.inj (hfin.tally.trans htally) |>.imp_right Prod.mk.inj
  refine ⟨h1.trans hbal.liveBefore, hfin.liveAfter.trans hsame.length.symm, ?_, ?_, hparses,
    hrec.mp hfin.reconciles, hcomp.settled⟩
  · rw [h2, hbal.added]
    exact Nat.zero_add _
  · have hremoved := hbal.removed
    simp only [emptyReport] at hremoved
    omega

theorem start_wp (S : Synced ix H a docs t) (hP : ix.Refuses → P) :
    Does ix H P ix.start
      (fun dirty u => ix.git.isDirty = .ok dirty ∧
        ¬(dirty = true ∧ ix.config.dirtyWorktree = .refuse) ∧ Synced ix H a docs u ∧
        u.report = emptyReport a.table.live.length) t := by
  simp only [start, dirty, applyDirtyPolicy, Prog.wp_bind, wp_mayFail, Prog.wp_get, wp_report,
    Prog.wp_ofExcept]
  refine ⟨fun hf => S.tick.failed (not_faultless_of_call hf), fun _ => ?_⟩
  cases hd : ix.git.isDirty with
  | error e => exact ⟨S.recoverable, fun _ => hP (.inl ⟨e, hd⟩)⟩
  | ok dirty =>
    simp only [Except.mapError, Prog.wp_ite, Prog.wp_fail, Prog.wp_pure]
    refine ⟨fun h => ⟨S.recoverable, fun _ => hP (.inr (.inl ⟨?_, h.2⟩))⟩, fun h =>
      ⟨trivial, h, S.tick.congr rfl rfl, ?_⟩⟩
    · rw [hd, h.1]
    · rw [stats_eq S.tick.toHolds]

theorem not_refuses {dirty : Bool} (hd : ix.git.isDirty = .ok dirty)
    (hpolicy : ¬(dirty = true ∧ ix.config.dirtyWorktree = .refuse))
    (hhead : ∃ head, ix.git.headId = .ok head) : ¬ix.Refuses := by
  obtain ⟨head, hhead⟩ := hhead
  rintro (⟨e, h⟩ | ⟨h, hr⟩ | ⟨e, h⟩)
  · rw [hd] at h; cases h
  · rw [hd] at h
    exact hpolicy ⟨Except.ok.inj h, hr⟩
  · rw [hhead] at h; cases h

theorem indexAll_wp (S : Synced ix H a docs t)
    (hP : ix.Refuses ∨ ¬ix.Parses ix.walked ∨ ¬ix.Balanced a (ix.schedule ix.walked) → P) :
    Does ix H P ix.indexAll
      (fun r u => ¬ix.Refuses ∧ ∃ c docs', Holds ix.embedder H c docs' u ∧
        Ran ix ⟨[], ix.walked⟩ a c ∧ Counted ix ⟨[], ix.walked⟩ a c r) t := by
  simp only [indexAll, Prog.wp_bind]
  refine (start_wp S fun h => hP (.inl h)).mono ?_ (fun _ _ h => h) (fun _ _ h => h)
  intro dirty u hu
  obtain ⟨hdirty, hpolicy, S', hreport⟩ := hu
  simp only [wp_mayFail, Prog.wp_get, wp_report, collectAllFiles_snd]
  refine ⟨fun hf => S'.tick.failed (not_faultless_of_call hf), fun _ => ?_⟩
  have hbal : Balances (emptyReport a.table.live.length) (ix.collectAllFiles u.tick.report).1
      a a := by
    refine .of_tally ?_ rfl
    rw [collectAllFiles_tally, IndexState.tick, hreport]
  have hwp := Prog.wp_bind.mp (@processed_finish_wp ix H P a docs _ ⟨[], ix.walked⟩ _
    (S'.tick.congr (u := { u.tick with report := (ix.collectAllFiles u.tick.report).1 }) rfl rfl)
    hdirty hbal fun h => hP (h.imp_left fun h => .inr (.inr h)))
  refine hwp.mono ?_ (fun _ _ h => h) (fun _ _ h => h)
  intro _ v hv
  refine hv.mono ?_ (fun _ _ h => h) (fun _ _ h => h)
  intro r w hw
  exact ⟨not_refuses hdirty hpolicy hw.1, hw.2⟩

theorem dirtyWork_wp (S : Synced ix H a docs t) {dirty : Bool} (hd : ix.git.isDirty = .ok dirty)
    (hP : (∃ e, ix.git.dirtyPaths = .error e) → P) :
    Does ix H P (ix.dirtyWork dirty)
      (fun items u => items = ix.statusPaths.filterMap ix.itemAt ∧ Synced ix H a docs u ∧
        u.report.tally = t.report.tally) t := by
  simp only [dirtyWork, Prog.wp_ite, Prog.wp_bind, Prog.wp_pure, Prog.wp_ofExcept, statusPaths, hd,
    Except.toOption, Option.some.injEq]
  refine ⟨fun h => ?_, fun h => ⟨by rw [if_neg h]; rfl, S, trivial⟩⟩
  rw [if_pos h]
  cases hp : ix.git.dirtyPaths with
  | error e => exact ⟨S.recoverable, fun _ => hP ⟨e, hp⟩⟩
  | ok paths => exact lookAtAll_wp S paths

/-- Git does not tell what has changed. -/
def Indexer.Unanswered (ix : Indexer) (marker : String) : Prop :=
  (∃ e, ix.git.dirtyPaths = .error e) ∨ ∃ e, ix.changes marker = .error e

theorem mem_dedupWork {item : WorkItem} {work seen : List WorkItem}
    (h : item ∈ dedupWork seen work) : item ∈ work := by
  induction work generalizing seen with
  | nil => exact h
  | cons x work ih =>
    rw [dedupWork] at h
    split at h
    · exact List.mem_cons_of_mem _ (ih h)
    · rcases List.mem_cons.mp h with rfl | h
      · exact List.mem_cons_self
      · exact List.mem_cons_of_mem _ (ih h)

/-- A path is read once in an update. -/
theorem dedupWork_nodup {work seen : List WorkItem} :
    ((dedupWork seen work).map (·.rel)).Nodup ∧
      ∀ item ∈ dedupWork seen work, item.rel ∉ seen.map (·.rel) := by
  induction work generalizing seen with
  | nil => exact ⟨.nil, nofun⟩
  | cons x work ih =>
    rw [dedupWork]
    split
    · exact ih
    · rename_i hx
      obtain ⟨hd, hseen⟩ := @ih (x :: seen)
      have hnot : ∀ item ∈ dedupWork (x :: seen) work,
          item.rel ≠ x.rel ∧ item.rel ∉ seen.map (·.rel) := fun item hitem => by
        simpa using hseen item hitem
      refine ⟨?_, fun item hitem => ?_⟩
      · rw [List.map_cons, List.nodup_cons]
        refine ⟨fun h => ?_, hd⟩
        obtain ⟨item, hitem, he⟩ := List.mem_map.mp h
        exact (hnot item hitem).1 he
      · rcases List.mem_cons.mp hitem with rfl | hitem
        · exact hx
        · exact (hnot item hitem).2

/-- A row is not lost by two files of different names. -/
theorem vanishes_rel {item : WorkItem} {r : ChunkRecord} (h : ix.vanishes item r = true) :
    r.file = item.rel := by
  unfold vanishes at h
  split at h
  · cases h
  · exact (of_decide_eq_true h).1

/-- The assertion at the end of a run counts how often rows are retired. -/
theorem balanced_iff {work : List WorkItem} : ix.Balanced a work ↔
    ∀ p ∈ a.table.live, work.countP (fun item => ix.vanishes item p.2.1) ≤ 1 :=
  @meetings_eq_met_iff _ _ (fun item (p : RowId × Entry) => ix.vanishes item p.2.1) _ _

/-- Files of different names retire different rows. -/
theorem balanced_of_nodup {work : List WorkItem} (h : (work.map (·.rel)).Nodup) :
    ix.Balanced a (ix.schedule work) := by
  rw [balanced_iff]
  intro p _
  rw [(ix.schedule_perm work).countP_eq]
  have hle : work.countP (fun item => ix.vanishes item p.2.1) ≤
      (work.map (·.rel)).count p.2.1.file := by
    rw [List.count, List.countP_map]
    refine List.countP_mono_left fun item _ hv => ?_
    rw [Function.comp_apply, vanishes_rel hv]
    exact beq_self_eq_true _
  exact hle.trans (List.nodup_iff_count_le_one.mp h _)

theorem updateSince_wp (S : Synced ix H a docs t) {dirty : Bool} (hd : ix.git.isDirty = .ok dirty)
    (hreport : t.report = emptyReport a.table.live.length) (marker : String)
    (hP : (∃ e, ix.git.headId = .error e) ∨ ix.Unanswered marker ∨
      ¬ix.Parses (ix.plan .update (some marker)).work → P) :
    Does ix H P (ix.updateSince dirty marker)
      (fun r u => ∃ c docs', Holds ix.embedder H c docs' u ∧
        Ran ix (ix.plan .update (some marker)) a c ∧
        Counted ix (ix.plan .update (some marker)) a c r) t := by
  simp only [updateSince, Prog.wp_bind, Prog.wp_ofExcept]
  refine (dirtyWork_wp S hd fun h => hP (.inr (.inl (.inl h)))).mono ?_ (fun _ _ h => h)
    (fun _ _ h => h)
  intro items u hu
  obtain ⟨rfl, S', htally⟩ := hu
  cases hc : ix.changes marker with
  | error e => exact ⟨S'.recoverable, fun _ => hP (.inr (.inl (.inr ⟨e, hc⟩)))⟩
  | ok changes =>
    simp only [Except.mapError]
    refine (applyFileChanges_wp S' _ changes).mono ?_ (fun _ _ h => h) (fun _ _ h => h)
    intro work v hv
    obtain ⟨rfl, ⟨docs₁, S₁⟩, hbal⟩ := hv
    rw [← List.filterMap_append]
    have hplan : ix.plan .update (some marker) = ⟨changes, dedupWork []
        ((ix.statusPaths ++ changes.filterMap (·.target)).filterMap ix.itemAt)⟩ := by
      simp only [plan, hc, Except.toOption, Option.getD_some]
    rw [hplan] at hP ⊢
    have hbal : Balances (emptyReport a.table.live.length) v.report a (a.applyChanges changes) :=
      (Balances.of_tally (htally.trans (by rw [hreport])) rfl).trans hbal
    have hwp := Prog.wp_bind.mp (@processed_finish_wp ix H P a docs₁ _ ⟨changes, dedupWork []
        ((ix.statusPaths ++ changes.filterMap (·.target)).filterMap ix.itemAt)⟩ _ S₁ hd hbal
      fun h => hP (h.imp_right fun h => .inr (h.resolve_right fun h =>
        h (balanced_of_nodup dedupWork_nodup.1))))
    refine hwp.mono ?_ (fun _ _ h => h) (fun _ _ h => h)
    intro _ w hw
    exact hw.mono (fun _ _ h => h.2) (fun _ _ h => h) (fun _ _ h => h)

theorem indexedCommit_eq (S : Holds ix.embedder H a docs t) :
    t.store.indexedCommit = a.indexedCommit := S.repr.pair.commit

/-- Why a run fails though no call fails: git does not answer, the dirty worktree is refused,
parsing a file panics, or the counters do not add up. -/
def Indexer.Fails (ix : Indexer) (kind : RunKind) (a : Contents) : Prop :=
  ix.Refuses ∨ (∃ marker, kind = .update ∧ a.indexedCommit = some marker ∧ ix.Unanswered marker) ∨
    ¬ix.Parses (ix.plan kind a.indexedCommit).work ∨
    ¬ix.Balanced (a.applyChanges (ix.plan kind a.indexedCommit).changes)
      (ix.schedule (ix.plan kind a.indexedCommit).work)

/-- A run of either kind from synchronized backends. -/
theorem run_wp (S : Synced ix H a docs t) (kind : RunKind) :
    Does ix H (ix.Fails kind a) (ix.run kind)
      (fun r u => ¬ix.Refuses ∧ ∃ c docs', Holds ix.embedder H c docs' u ∧
        Ran ix (ix.plan kind a.indexedCommit) a c ∧
        Counted ix (ix.plan kind a.indexedCommit) a c r) t := by
  cases kind with
  | indexAll =>
    rw [run_indexAll]
    exact (indexAll_wp S fun h => h.imp_right .inr).mono (fun _ _ h => h) (fun _ _ h => h)
      (fun _ _ h => h)
  | update =>
    simp only [run_update, update, Prog.wp_bind]
    refine (start_wp S .inl).mono ?_ (fun _ _ h => h) (fun _ _ h => h)
    intro dirty u hu
    obtain ⟨hd, hpolicy, S', hreport⟩ := hu
    simp only [wp_mayFail, Prog.wp_get]
    refine ⟨fun hf => S'.tick.failed (not_faultless_of_call hf), fun _ => ?_⟩
    rw [indexedCommit_eq S'.tick.toHolds]
    unfold Indexer.Fails
    cases hm : a.indexedCommit with
    | none =>
      exact (indexAll_wp S'.tick fun h => h.imp_right .inr).mono (fun _ _ h => h) (fun _ _ h => h)
        (fun _ _ h => h)
    | some marker =>
      refine (updateSince_wp S'.tick hd hreport marker fun h => ?_).mono ?_ (fun _ _ h => h)
        (fun _ _ h => h)
      · rcases h with h | h
        · exact .inl (.inr (.inr h))
        · rcases h with h | h
          · exact .inr (.inl ⟨marker, rfl, rfl, h⟩)
          · exact .inr (.inr (.inl h))
      · intro r w hw
        obtain ⟨c, docs', hc, hran, hcount⟩ := hw
        obtain ⟨b, head, dirty', hd', hhead, -⟩ := id hran
        exact ⟨not_refuses hd hpolicy ⟨head, hhead⟩, c, docs', hc, hran, hcount⟩

end SiftMcp
