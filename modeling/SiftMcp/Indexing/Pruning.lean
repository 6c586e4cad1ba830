import SiftMcp.Indexing.Rules
import SiftMcp.Indexing.Screening

/-!
# Walk and update on excluded paths

The walk prunes a directory that `check_path` excludes, with all that is below it. An update looks
at the path of the file alone. Most rules look at every name on that path, so that they keep out
what is below a directory that they keep out. Those of `pruningRules` look at its end, and
`.gitignore` is a matter of its own: `walk_agrees_iff` says that only by these walk and update can
differ.
-/

namespace SiftMcp
open Indexer StackSearch PathLookup

variable {ix : Indexer} {path dir : String} {es : FsEntries} {name : String}
  {names root : List String} {bytes : ByteArray}

/-! ## Directories that the walk opens -/

mutual
/-- Names as `read_dir` gives them: not empty, not a dot or two, without a slash. -/
def FsNode.Listed : FsNode → Prop
  | .dir es => es.Listed
  | .file _ | .other => True

def FsEntries.Listed : FsEntries → Prop
  | .nil => True
  | .cons name node rest => Proper name.toList ∧ node.Listed ∧ rest.Listed
end

theorem FsEntries.Listed.entry : ∀ {es : FsEntries}, es.Listed → ∀ {name : String} {node : FsNode},
    (name, node) ∈ es.toList → Proper name.toList ∧ node.Listed
  | .cons name node rest, h, name', node', hmem => by
    rcases List.mem_cons.mp hmem with heq | hmem
    · obtain ⟨rfl, rfl⟩ := Prod.mk.inj heq
      exact ⟨h.1, h.2.1⟩
    · exact h.2.2.entry hmem

/-- What stands in a tree behind a chain of names. -/
inductive FsEntries.Has (tree : FsEntries) : List String → FsNode → Prop
  | root : tree.Has [] (.dir tree)
  | entry {names es name node} : tree.Has names (.dir es) → (name, node) ∈ es.toList →
    tree.Has (names ++ [name]) node

theorem FsEntries.Has.listed {tree : FsEntries} {node : FsNode} (h : tree.Has names node)
    (hlisted : tree.Listed) : ProperNames names ∧ node.Listed := by
  induction h with
  | root => exact ⟨nofun, hlisted⟩
  | entry _ hentry ih =>
    obtain ⟨hname, hnode⟩ := FsEntries.Listed.entry ih.2 hentry
    refine ⟨fun name hmem => ?_, hnode⟩
    rcases List.mem_append.mp hmem with hmem | hmem
    · exact ih.1 name hmem
    · exact List.mem_singleton.mp hmem ▸ hname

theorem FsEntries.Has.exists_parent {tree : FsEntries} (h : tree.Has names (.file bytes)) :
    ∃ above name es, names = above ++ [name] ∧ tree.Has above (.dir es) ∧
      (name, .file bytes) ∈ es.toList := by
  cases h with
  | entry hhas hentry => exact ⟨_, _, _, rfl, hhas, hentry⟩

theorem FsEntries.Has.ne_nil {tree : FsEntries} (h : tree.Has names (.file bytes)) :
    names ≠ [] := by
  obtain ⟨above, name, -, rfl, -⟩ := h.exists_parent
  exact List.append_ne_nil_of_right_ne_nil _ (List.cons_ne_nil _ _)

/-- A chain of directories, none of which is excluded. -/
def Indexer.Passable (ix : Indexer) (names : List String) : Prop :=
  ∀ dir, dir <+: names → dir ≠ [] → ix.checkEntry true (pathOf dir) = none

theorem mem_subdirs {d : String × FsEntries} : (dir, es) ∈ ix.subdirs d ↔ ∃ name,
    (name, .dir es) ∈ d.2.toList ∧ name ≠ ".git" ∧ dir = pathJoin d.1 name ∧
      ix.checkEntry true dir = none := by
  rw [subdirs, List.mem_filterMap]
  constructor
  · intro ⟨⟨name, node⟩, hentry, hsub⟩
    unfold subdir at hsub
    split at hsub
    · cases hsub
    · rename_i hgit
      cases node with
      | file bytes => cases hsub
      | other => cases hsub
      | dir es' =>
        dsimp only at hsub
        split at hsub
        · cases hsub
        · rename_i hcheck
          obtain ⟨rfl, rfl⟩ := Prod.mk.inj (Option.some.inj hsub)
          exact ⟨name, hentry, hgit, rfl, Option.not_isSome_iff_eq_none.mp hcheck⟩
  · intro ⟨name, hentry, hgit, hdir, hcheck⟩
    refine ⟨(name, .dir es), hentry, ?_⟩
    rw [subdir, if_neg hgit]
    dsimp only
    rw [← hdir, hcheck]
    rfl

/-- The walk opens the directories behind chains of directories none of which is excluded. -/
theorem opens_iff {es : FsEntries} : ix.Opens (path, es) ↔ ∃ names, path = pathOf names ∧
    ix.worktree.Has names (.dir es) ∧ ".git" ∉ names ∧ ix.Passable names := by
  constructor
  · intro h
    generalize hd : (path, es) = d at h
    induction h generalizing path es with
    | start h =>
      obtain ⟨rfl, rfl⟩ := Prod.mk.inj (hd.trans (List.mem_singleton.mp h))
      exact ⟨[], rfl, .root, List.not_mem_nil, fun dir hdir hne =>
        absurd (List.prefix_nil.mp hdir) hne⟩
    | @next e d' _ hnext ih =>
      subst hd
      obtain ⟨names, hpath, hhas, hgit, hpass⟩ := ih rfl
      obtain ⟨name, hentry, hname, rfl, hcheck⟩ := mem_subdirs.mp hnext
      rw [hpath, ← pathOf_concat] at hcheck ⊢
      refine ⟨names ++ [name], rfl, hhas.entry hentry, ?_, ?_⟩
      · simpa [hgit] using Ne.symm hname
      · intro dir hdir hne
        rcases List.prefix_concat_iff.mp hdir with rfl | hdir
        · exact hcheck
        · exact hpass dir hdir hne
  · rintro ⟨names, rfl, hhas, hgit, hpass⟩
    generalize hnode : FsNode.dir es = node at hhas
    induction hhas generalizing es with
    | root =>
      obtain rfl := FsNode.dir.inj hnode
      exact .start (List.mem_singleton_self _)
    | @entry names es' name node _ hentry ih =>
      subst hnode
      obtain ⟨hgit, hname⟩ : ".git" ∉ names ∧ ".git" ≠ name := by simpa using hgit
      have hopens := ih hgit (fun dir hdir => hpass dir (hdir.trans (List.prefix_append _ _))) rfl
      refine .next hopens (mem_subdirs.mpr ⟨name, hentry, hname.symm, pathOf_concat, ?_⟩)
      exact hpass _ List.prefix_rfl (List.append_ne_nil_of_right_ne_nil _ (List.cons_ne_nil _ _))

/-- The walk comes upon a file outside `.git` if it opens each directory above it. -/
theorem comesUpon_pathOf_iff (hlisted : ix.worktree.Listed)
    (hfile : ix.worktree.Has names (.file bytes)) (hgit : ".git" ∉ names) :
    ix.ComesUpon (pathOf names) ↔ ∀ dir, dir <+: names → dir ≠ [] →
      dir ≠ names → ix.checkEntry true (pathOf dir) = none := by
  have hproper := (hfile.listed hlisted).1
  have hne := hfile.ne_nil
  rw [comesUpon_iff]
  constructor
  · rintro ⟨dir, es, name, bytes', hopens, hentry, -, hpath⟩
    obtain ⟨above, rfl, hhas, -, hpass⟩ := opens_iff.mp hopens
    have hvalid := ((hhas.entry hentry).listed hlisted).1
    obtain rfl : names = above ++ [name] := pathOf_injective hproper.named hvalid.named hne
      (List.append_ne_nil_of_right_ne_nil _ (List.cons_ne_nil _ _)) (hpath.trans pathOf_concat.symm)
    intro dir hfront hroot hself
    exact hpass dir ((List.prefix_concat_iff.mp hfront).resolve_left hself) hroot
  · intro hpass
    obtain ⟨above, name, es, rfl, hhas, hentry⟩ := hfile.exists_parent
    obtain ⟨habove, hname⟩ : ".git" ∉ above ∧ ".git" ≠ name := by simpa using hgit
    refine ⟨pathOf above, es, name, bytes, opens_iff.mpr ⟨above, rfl, hhas, habove, ?_⟩, hentry,
      hname.symm, pathOf_concat⟩
    intro dir hdir hroot
    refine hpass dir (hdir.trans (List.prefix_append _ _)) hroot ?_
    rintro rfl
    simpa using hdir.length_le

/-- What the walk takes up, by the names on the way. -/
theorem mem_walked_has_iff {item : WorkItem} : item ∈ ix.walked ↔ ∃ names,
    (∃ bytes, ix.worktree.Has names (.file bytes)) ∧ ".git" ∉ names ∧
      (ix.ComesUpon (pathOf names) ∧ ix.checkPath (pathOf names) = none) ∧
      ∃ language source, Language.fromPath (pathOf names) = some language ∧
        ix.readSource (replaceBackslash (pathOf names)) = some source ∧
        item = ⟨replaceBackslash (pathOf names), language, source⟩ := by
  rw [mem_walked_iff]
  constructor
  · intro ⟨path, language, source, hcome, hcheck, htext⟩
    obtain ⟨dir, es, name, bytes, hopens, hentry, hname, rfl⟩ := comesUpon_iff.mp hcome
    obtain ⟨above, rfl, hhas, hgit, -⟩ := opens_iff.mp hopens
    rw [← pathOf_concat] at hcome hcheck htext
    exact ⟨above ++ [name], ⟨bytes, hhas.entry hentry⟩, by simpa [hgit] using Ne.symm hname,
      ⟨hcome, hcheck⟩, language, source, htext⟩
  · intro ⟨names, _, _, ⟨hcome, hcheck⟩, language, source, htext⟩
    exact ⟨pathOf names, language, source, hcome, hcheck, htext⟩

/-! ## Rules that do not reach below a directory -/

namespace Exclusions

/-- The rules that look at the end of a path only. -/
def pruningRules : List (NameRule Char) :=
  [.is ".env".toList, .ends ".pem".toList, .ends ".key".toList, .ends "_pb2.py".toList]

theorem mem_pruningRules {rule : NameRule Char} :
    rule ∈ pruningRules ↔ (rule ∈ secretRules ∨ rule ∈ generatedRules) ∧ rule.atEnd = true := by
  rw [← List.mem_append, ← List.mem_filter]
  rfl

/-- A rule that keeps out neither a path nor, by its end, a directory above, does not keep that
out. -/
theorem not_applies_of_prefix {rule : NameRule Char} {dir : List String} (hfront : dir <+: names)
    (hne : dir ≠ []) (hpath : ¬rule.Applies ((root ++ names).map String.toList))
    (hend : rule.atEnd = true → ∀ name ∈ dir, ¬rule.Holds name.toList) :
    ¬rule.Applies ((root ++ dir).map String.toList) := by
  intro happ
  cases hrule : rule.atEnd with
  | true =>
    obtain ⟨front, name, rfl⟩ := (List.eq_nil_or_concat' dir).resolve_left hne
    rw [← List.append_assoc, List.map_append, List.map_singleton,
      NameRule.applies_concat_iff hrule] at happ
    exact hend hrule name (List.mem_append_right _ (List.mem_singleton_self name)) happ
  | false =>
    obtain ⟨rest, rfl⟩ := hfront
    apply hpath
    rw [← List.append_assoc, List.map_append, NameRule.applies_append_iff hrule]
    exact .inl happ

/-- What is let through with the directories above it. -/
theorem Keeps.prefixes_iff (h : Keeps (root ++ names)) :
    (∀ dir, dir <+: names → dir ≠ [] → dir ≠ names → Keeps (root ++ dir)) ↔
      ∀ name ∈ names.dropLast, ∀ rule ∈ pruningRules, ¬rule.Holds name.toList := by
  constructor
  · intro hdirs name hname rule hrule hholds
    obtain ⟨front, rest, hsplit⟩ := List.append_of_mem hname
    have hfront : front ++ [name] <+: names.dropLast :=
      ⟨rest, by rw [hsplit, List.append_assoc]; rfl⟩
    have hkeeps := hdirs (front ++ [name]) (hfront.trans (List.dropLast_prefix names)) (by simp) ?_
    · have happ : rule.Applies ((root ++ (front ++ [name])).map String.toList) := by
        rw [← List.append_assoc, List.map_append]
        exact NameRule.applies_concat hholds
      rcases (mem_pruningRules.mp hrule).1 with hmem | hmem
      · exact hkeeps.secret rule hmem happ
      · exact hkeeps.generated rule hmem happ
    · intro hself
      have hlen := hfront.length_le
      rw [hself, List.length_dropLast] at hlen
      have hpos : 0 < names.length := List.length_pos_of_mem (List.mem_of_mem_dropLast hname)
      omega
  · intro hnames dir hfront hne hself
    have hdir : dir <+: names.dropLast := by
      obtain ⟨rest, rfl⟩ := hfront
      have hrest : rest ≠ [] := fun hnil => hself (by rw [hnil, List.append_nil])
      rw [List.dropLast_append_of_ne_nil hrest]
      exact List.prefix_append dir _
    have hend : ∀ rule, (rule ∈ secretRules ∨ rule ∈ generatedRules) → rule.atEnd = true →
        ∀ name ∈ dir, ¬rule.Holds name.toList := fun rule hmem hrule name hname =>
      hnames name (hdir.subset hname) rule (mem_pruningRules.mpr ⟨hmem, hrule⟩)
    refine ⟨fun rule hrule => ?_, fun name hname => ?_, fun rule hrule => ?_⟩
    · exact not_applies_of_prefix hfront hne (h.secret rule hrule) (hend rule (.inl hrule))
    · refine h.vendor name ?_
      rcases List.mem_append.mp hname with hname | hname
      · exact List.mem_append_left _ hname
      · exact List.mem_append_right _ (hfront.subset hname)
    · exact not_applies_of_prefix hfront hne (h.generated rule hrule) (hend rule (.inr hrule))

end Exclusions

/-! ## Walk and update -/

/-- The rules of `.gitignore` ignore an entry, which is a directory or not. -/
def Indexer.ignores (ix : Indexer) (isDir : Bool) (names : List String) : Bool :=
  ix.exclusions.ignores (ix.dirAsked isDir (pathOf names)) (pathAt ix.repo (pathOf names))

/-- The walk comes upon a file outside `.git` and keeps it if and only if `check_path` lets it
through: this is so exactly when a rule keeps out the file itself, or no directory above it is
`.env`, or ends in `.pem`, `.key` or `_pb2.py`, or is ignored by `.gitignore`. -/
theorem walk_agrees_iff (hdoc : ix.exclusions.Documented) (hlisted : ix.worktree.Listed)
    (hfile : ix.worktree.Has names (.file bytes)) (hgit : ".git" ∉ names) :
    ((ix.ComesUpon (pathOf names) ∧ ix.checkPath (pathOf names) = none) ↔
        ix.checkPath (pathOf names) = none) ↔
      (¬Exclusions.Keeps (rootNames ix.repo ++ names) ∨
        ix.ignores (ix.isDir (pathOf names)) names = true) ∨
        (∀ name ∈ names.dropLast, ∀ rule ∈ Exclusions.pruningRules, ¬rule.Holds name.toList) ∧
          ∀ dir, dir <+: names → dir ≠ [] → dir ≠ names → ix.ignores true dir = false := by
  have hproper := (hfile.listed hlisted).1
  have hself : ix.checkPath (pathOf names) = none ↔ Exclusions.Keeps (rootNames ix.repo ++ names) ∧
      ix.ignores (ix.isDir (pathOf names)) names = false :=
        checkEntry_pathOf_iff hdoc hproper hfile.ne_nil
  have habove : ∀ dir, dir <+: names → dir ≠ [] → (ix.checkEntry true (pathOf dir) = none ↔
      Exclusions.Keeps (rootNames ix.repo ++ dir) ∧ ix.ignores true dir = false) :=
        fun dir hdir hne =>
    checkEntry_pathOf_iff hdoc (fun n hn => hproper n (hdir.subset hn)) hne
  rw [comesUpon_pathOf_iff hlisted hfile hgit, hself]
  cases hignored : ix.ignores (ix.isDir (pathOf names)) names with
  | true => simp
  | false =>
    by_cases hkeeps : Exclusions.Keeps (rootNames ix.repo ++ names)
    · rw [← hkeeps.prefixes_iff]
      simp only [hkeeps, and_self, and_true, iff_true, not_true_eq_false, Bool.false_eq_true,
        or_self, false_or]
      constructor
      · intro hpass
        exact ⟨fun dir hdir hne hne' => ((habove dir hdir hne).mp (hpass dir hdir hne hne')).1,
          fun dir hdir hne hne' => ((habove dir hdir hne).mp (hpass dir hdir hne hne')).2⟩
      · intro ⟨hdirs, hignores⟩ dir hdir hne hne'
        exact (habove dir hdir hne).mpr ⟨hdirs dir hdir hne hne', hignores dir hdir hne hne'⟩
    · simp [hkeeps]

/-- A file in a directory. -/
theorem walk_agrees_iff_below :
    let tree := FsEntries.cons "d" (.dir (sampleTree [("a.rs", "fn f() {}")])) .nil
    let ix := { sampleIndexer tree (sampleGit "c1" tree []) 1 with exclusions := sampleExclusions }
    (ix.ComesUpon "d/a.rs" ∧ ix.checkPath "d/a.rs" = none) ↔ ix.checkPath "d/a.rs" = none := by
  intro tree ix
  have hlisted : ix.worktree.Listed := by
    refine ⟨by decide, ⟨by decide, trivial, trivial⟩, trivial⟩
  have hfile : ix.worktree.Has ["d", "a.rs"] (.file "fn f() {}".toUTF8) :=
    (FsEntries.Has.root.entry List.mem_cons_self).entry List.mem_cons_self
  refine (walk_agrees_iff (fun _ _ _ => rfl) hlisted hfile (by decide)).mpr
    (.inr ⟨?_, fun _ _ _ _ => rfl⟩)
  decide +kernel

/-- A directory with the name of a secret is pruned; the path of a file in it matches no glob. So an
update takes the file up, and the walk does not. -/
theorem walk_prunes_indexed :
    let tree := FsEntries.cons ".env" (.dir (sampleTree [("a.rs", "fn f() {}")])) .nil
    let ix := { sampleIndexer tree (sampleGit "c1" tree []) 1 with exclusions := sampleExclusions }
    ix.worktree.Listed ∧ ix.worktree.Has [".env", "a.rs"] (.file "fn f() {}".toUTF8) ∧
      ix.checkPath ".env/a.rs" = none ∧ (ix.itemAt ".env/a.rs").isSome = true ∧ ix.walked = [] ∧
      ¬((ix.ComesUpon ".env/a.rs" ∧ ix.checkPath ".env/a.rs" = none) ↔
        ix.checkPath ".env/a.rs" = none) := by
  intro tree ix
  have hcheck : ix.checkPath ".env/a.rs" = none := by decide +kernel
  have hwalked : ix.walked = [] := by decide +kernel
  refine ⟨⟨by decide, ⟨by decide, trivial, trivial⟩, trivial⟩,
    (FsEntries.Has.root.entry List.mem_cons_self).entry List.mem_cons_self, hcheck, by
      decide +kernel, hwalked,
    fun h => ?_⟩
  have hitem : (⟨".env/a.rs", .rust, "fn f() {}"⟩ : WorkItem) ∈ ix.walked :=
    mem_walked_iff.mpr
      ⟨".env/a.rs", .rust, "fn f() {}", (h.mpr hcheck).1, hcheck, by decide +kernel,
      by decide +kernel, by decide +kernel⟩
  rw [hwalked] at hitem
  cases hitem

end SiftMcp
