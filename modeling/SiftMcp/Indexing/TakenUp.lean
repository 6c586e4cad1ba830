import SiftMcp.Indexing.Pruning

/-!
# Which files are indexed

`check_path` looks for `.env`, `.pem`, `.key` and `_pb2.py` at the end of a path only, and a walk
asks it about every directory on the way, so that the same rules hold for each name there. The walk
takes up the files that no rule keeps out, neither by their own name nor by that of a directory
above them (`takes_up_iff`). Below a relative root it takes up nothing if a rule that looks at every
name keeps out one of the root.
-/

namespace SiftMcp
open Indexer PathLookup

variable {ix : Indexer} {names root : List String} {name path : String}

/-- A name that no rule keeps out, wherever it stands. -/
structure Exclusions.KeepsName (name : String) : Prop where
  secret : ∀ rule ∈ secretRules, ¬rule.Holds name.toList
  vendor : name ∉ vendorNames
  generated : ∀ rule ∈ generatedRules, ¬rule.Holds name.toList

instance : Decidable (Exclusions.KeepsName name) :=
  decidable_of_iff ((∀ rule ∈ Exclusions.secretRules, ¬rule.Holds name.toList) ∧
      name ∉ Exclusions.vendorNames ∧ ∀ rule ∈ Exclusions.generatedRules, ¬rule.Holds name.toList)
    ⟨fun ⟨hs, hv, hg⟩ => ⟨hs, hv, hg⟩, fun ⟨hs, hv, hg⟩ => ⟨hs, hv, hg⟩⟩

/-- No name of a relative root keeps out what is below it: those of secrets and of generated files
do if they are looked for at every name. -/
structure Exclusions.KeepsBelow (root : List String) : Prop where
  secret : ∀ rule ∈ secretRules, rule.atEnd = false → ¬rule.Applies (root.map String.toList)
  vendor : ∀ name ∈ root, name ∉ vendorNames
  generated : ∀ rule ∈ generatedRules, rule.atEnd = false → ¬rule.Applies (root.map String.toList)

theorem Exclusions.KeepsBelow.of_absolute {root : String} (h : pathIsAbsolute root = true) :
    KeepsBelow (rootNames root) := by
  rw [rootNames, if_pos h]
  have hnone : ∀ rule : NameRule Char, ¬rule.Applies (([] : List String).map String.toList) :=
    fun rule happ => List.not_mem_nil happ.exists_holds.choose_spec.1
  exact ⟨fun rule _ _ => hnone rule, fun _ h => absurd h List.not_mem_nil, fun rule _ _ =>
    hnone rule⟩

/-- A rule applies below the root to some path on the way down if it holds of a name there, or is
one that applies to the root. -/
theorem not_applies_prefixes_iff {rule : NameRule Char} (hne : names ≠ []) :
    (∀ dir, dir <+: names → dir ≠ [] → ¬rule.Applies ((root ++ dir).map String.toList)) ↔
      (rule.atEnd = false → ¬rule.Applies (root.map String.toList)) ∧
        ∀ name ∈ names, ¬rule.Holds name.toList := by
  constructor
  · intro h
    refine ⟨fun hrule happ => ?_, fun name hname hholds => ?_⟩
    · refine h names List.prefix_rfl hne ?_
      rw [List.map_append, NameRule.applies_append_iff hrule]
      exact .inl happ
    · obtain ⟨front, rest, rfl⟩ := List.append_of_mem hname
      refine h (front ++ [name]) ⟨rest, by rw [List.append_assoc]; rfl⟩ (by simp) ?_
      rw [← List.append_assoc, List.map_append]
      exact NameRule.applies_concat hholds
  · intro ⟨hroot, hnames⟩ dir hdir hne' happ
    cases hrule : rule.atEnd with
    | true =>
      obtain ⟨front, name, rfl⟩ := (List.eq_nil_or_concat' dir).resolve_left hne'
      rw [← List.append_assoc, List.map_append, List.map_singleton,
        NameRule.applies_concat_iff hrule] at happ
      exact hnames name (hdir.subset (by simp)) happ
    | false =>
      rw [List.map_append, NameRule.applies_append_iff hrule] at happ
      refine happ.elim (hroot hrule) fun happ => ?_
      obtain ⟨n, hn, hholds⟩ := happ.exists_holds
      obtain ⟨name, hname, rfl⟩ := List.mem_map.mp hn
      exact hnames name (hdir.subset hname) hholds

/-- Every directory on the way is asked about, with the names above it. -/
theorem keeps_prefixes_iff (hne : names ≠ []) :
    (∀ dir, dir <+: names → dir ≠ [] → Exclusions.Keeps (root ++ dir)) ↔
      Exclusions.KeepsBelow root ∧ ∀ name ∈ names, Exclusions.KeepsName name := by
  constructor
  · intro h
    have hsecret :=
      fun rule hrule => (@not_applies_prefixes_iff _ _ rule hne).mp fun dir hdir hne' =>
      (h dir hdir hne').secret rule hrule
    have hgenerated := fun rule hrule => (@not_applies_prefixes_iff _ _ rule hne).mp
      fun dir hdir hne' => (h dir hdir hne').generated rule hrule
    have hvendor := (h names List.prefix_rfl hne).vendor
    refine ⟨⟨fun rule hrule => (hsecret rule hrule).1, ?_, fun rule hrule =>
      (hgenerated rule hrule).1⟩, ?_⟩
    · exact fun name hname => hvendor name (List.mem_append_left _ hname)
    · intro name hname
      exact ⟨fun rule hrule => (hsecret rule hrule).2 name hname,
        hvendor name (List.mem_append_right _ hname), fun rule hrule =>
          (hgenerated rule hrule).2 name hname⟩
  · intro ⟨hroot, hnames⟩ dir hdir hne'
    refine ⟨fun rule hrule => ?_, fun name hname => ?_, fun rule hrule => ?_⟩
    · refine (not_applies_prefixes_iff hne).mpr ⟨hroot.secret rule hrule, ?_⟩ dir hdir hne'
      exact fun name hname => (hnames name hname).secret rule hrule
    · rcases List.mem_append.mp hname with hname | hname
      · exact hroot.vendor name hname
      · exact (hnames name (hdir.subset hname)).vendor
    · refine (not_applies_prefixes_iff hne).mpr ⟨hroot.generated rule hrule, ?_⟩ dir hdir hne'
      exact fun name hname => (hnames name hname).generated rule hrule

/-- A file that the walk takes up, by the names on its path. -/
structure Indexer.TakesUp (ix : Indexer) (names : List String) (item : WorkItem) : Prop where
  root : Exclusions.KeepsBelow (rootNames ix.repo)
  file : ∃ bytes, ix.worktree.Has names (.file bytes)
  git : ".git" ∉ names
  keeps : ∀ name ∈ names, Exclusions.KeepsName name
  above : ∀ dir, dir <+: names → dir ≠ [] → dir ≠ names → ix.ignores true dir = false
  itself : ix.ignores (ix.isDir (pathOf names)) names = false
  text : ∃ language source, Language.fromPath (pathOf names) = some language ∧
    ix.readSource (replaceBackslash (pathOf names)) = some source ∧
    item = ⟨replaceBackslash (pathOf names), language, source⟩

/-- The walk comes upon a file that nothing on its path keeps out. -/
theorem comesUpon_and_checkPath_iff (hdoc : ix.exclusions.Documented) (hlisted : ix.worktree.Listed)
    (hfile : ix.worktree.Has names (.file bytes)) (hgit : ".git" ∉ names) :
    (ix.ComesUpon (pathOf names) ∧ ix.checkPath (pathOf names) = none) ↔
      (Exclusions.KeepsBelow (rootNames ix.repo) ∧ ∀ name ∈ names, Exclusions.KeepsName name) ∧
        (∀ dir, dir <+: names → dir ≠ [] → dir ≠ names → ix.ignores true dir = false) ∧
        ix.ignores (ix.isDir (pathOf names)) names = false := by
  have hproper := (hfile.listed hlisted).1
  have hentry : ∀ isDir dir, dir <+: names → dir ≠ [] → (ix.checkEntry isDir (pathOf dir) = none ↔
      Exclusions.Keeps (rootNames ix.repo ++ dir) ∧ ix.ignores isDir dir = false) :=
        fun _ dir hdir hne =>
    checkEntry_pathOf_iff hdoc (fun n hn => hproper n (hdir.subset hn)) hne
  rw [comesUpon_pathOf_iff hlisted hfile hgit, ← keeps_prefixes_iff hfile.ne_nil, checkPath,
    hentry _ names List.prefix_rfl hfile.ne_nil]
  constructor
  · intro ⟨hpass, hself, hignored⟩
    refine ⟨fun dir hdir hne => ?_, fun dir hdir hne hne' => ?_, hignored⟩
    · by_cases hdir' : dir = names
      · exact hdir' ▸ hself
      · exact ((hentry _ dir hdir hne).mp (hpass dir hdir hne hdir')).1
    · exact ((hentry _ dir hdir hne).mp (hpass dir hdir hne hne')).2
  · intro ⟨hkeeps, habove, hignored⟩
    refine ⟨fun dir hdir hne hne' => ?_, hkeeps names List.prefix_rfl hfile.ne_nil, hignored⟩
    exact (hentry _ dir hdir hne).mpr ⟨hkeeps dir hdir hne, habove dir hdir hne hne'⟩

theorem mem_walked_names_iff (hdoc : ix.exclusions.Documented) (hlisted : ix.worktree.Listed)
    {item : WorkItem} : item ∈ ix.walked ↔ ∃ names, ix.TakesUp names item := by
  rw [mem_walked_has_iff]
  refine exists_congr fun names => ?_
  constructor
  · intro ⟨⟨bytes, hfile⟩, hgit, hpasses, htext⟩
    obtain ⟨⟨hroot, hkeeps⟩, habove, hignored⟩ :=
      (comesUpon_and_checkPath_iff hdoc hlisted hfile hgit).mp hpasses
    exact ⟨hroot, ⟨bytes, hfile⟩, hgit, hkeeps, habove, hignored, htext⟩
  · intro h
    obtain ⟨bytes, hfile⟩ := h.file
    exact ⟨h.file, h.git, (comesUpon_and_checkPath_iff hdoc hlisted hfile h.git).mpr
      ⟨⟨h.root, h.keeps⟩, h.above, h.itself⟩, h.text⟩

end SiftMcp
