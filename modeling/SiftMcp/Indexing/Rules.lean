import SiftMcp.Indexing.Collect
import SiftMcp.Lib.Globs
import SiftMcp.Lib.PathLookup

/-!
# The built-in rules

The globs of `Exclusions`, read as rules for the names on a path. The names are those of the path in
the repository, behind those of the root where the root is relative.
`Exclusions.checkPath_pathAt_iff` says by these rules and those of `.gitignore` which paths
`check_path` lets through.
-/

namespace SiftMcp
open PathLookup

/-- A glob as it is written. -/
def readGlob : List Char → Glob Char
  | [] => []
  | '*' :: '*' :: '/' :: glob => .dirs :: readGlob glob
  | '*' :: glob => .star :: readGlob glob
  | c :: glob => .char c :: readGlob glob

theorem globset_iff {glob path : List Char} :
    globset glob path = true ↔ Glob.Matches '/' (readGlob glob) path := by
  induction glob using readGlob.induct generalizing path with
  | case1 =>
    rw [globset, List.isEmpty_iff]
    rfl
  | case2 glob ih =>
    rw [globset, readGlob, Glob.Matches, Bool.or_eq_true, List.any_eq_true, ih]
    refine or_congr_right ⟨?_, ?_⟩
    · rintro ⟨tail, htail, h⟩
      split at h
      · exact ⟨_, (List.mem_tails _ _).mp htail, ih.mp h⟩
      · cases h
    · rintro ⟨rest, hrest, h⟩
      exact ⟨'/' :: rest, (List.mem_tails _ _).mpr hrest, ih.mpr h⟩
  | case3 glob hne ih =>
    rw [globset, readGlob, Glob.Matches, List.any_eq_true]
    simp only [List.mem_tails, ih]
    · exact hne
    · exact hne
  | case4 c glob hne hne' ih =>
    cases path with
    | nil =>
      rw [globset, readGlob, Glob.Matches]
      · simp
      · exact hne
      · exact hne'
      · exact hne
      · exact hne'
    | cons d path =>
      rw [globset, readGlob, Glob.Matches, Bool.and_eq_true, decide_eq_true_eq, ih]
      · constructor
        · rintro ⟨rfl, h⟩
          exact ⟨path, rfl, h⟩
        · rintro ⟨rest, heq, h⟩
          obtain ⟨rfl, rfl⟩ := List.cons.inj heq
          exact ⟨rfl, h⟩
      · exact hne
      · exact hne'
      · exact hne
      · exact hne'

variable {ex : Exclusions} {ix : Indexer} {globs : GlobSet} {rules : List (NameRule Char)}
  {names : List String} {name path root : String} {isDir : Bool}

/-! ## The built-in globs -/

namespace Exclusions

/-- The built-in globs are matched as globset documents it. -/
def Documented (ex : Exclusions) : Prop :=
  ∀ g ∈ secretGlobs ++ vendorGlobs ++ generatedGlobs, ∀ path,
    ex.globMatches g.1 path = globset g.1.toList path.toList

def secretRules : List (NameRule Char) :=
  [.is ".env".toList, .begins ".env.".toList, .ends ".pem".toList, .ends ".key".toList,
    .begins "id_rsa".toList, .begins "credentials.".toList, .begins "secrets.".toList]

def generatedRules : List (NameRule Char) :=
  [.ends "_pb2.py".toList, .contains ".generated.".toList]

/-- Each glob is that of a rule, for the whole path or from some name on, and each rule has one of
the second kind. -/
def Reads (globs : GlobSet) (rules : List (NameRule Char)) : Prop :=
  (∀ g ∈ globs, ∃ rule ∈ rules,
    readGlob g.1.toList = rule.glob ∨ readGlob g.1.toList = .dirs :: rule.glob) ∧
  ∀ rule ∈ rules, '/' ∉ rule.text ∧ ∃ g ∈ globs, readGlob g.1.toList = .dirs :: rule.glob

instance : Decidable (Reads globs rules) := by unfold Reads; infer_instance

theorem secretGlobs_reads : Reads secretGlobs secretRules := by decide +kernel

theorem generatedGlobs_reads : Reads generatedGlobs generatedRules := by decide +kernel

/-- The globs for a vendor directory: the name alone, and with what is above and below it. -/
theorem vendorGlobs_reads : ∀ g ∈ vendorGlobs, ∃ vendor ∈ vendorNames, '/' ∉ vendor.toList ∧
    (readGlob g.1.toList = Glob.literal vendor.toList ∨
      readGlob g.1.toList = .dirs :: Glob.literal vendor.toList ∨
      readGlob g.1.toList = .dirs ::
        (Glob.literal vendor.toList ++ [.char '/', .star, .star])) := by
  decide +kernel

end Exclusions

/-! ## Paths of proper names -/

/-- The path from the root along a chain of names. -/
def pathOf (names : List String) : String := names.foldl pathJoin ""

theorem pathOf_concat : pathOf (names ++ [name]) = pathJoin (pathOf names) name := by
  rw [pathOf, List.foldl_append]
  rfl

/-- The names can be read off the path. -/
theorem splitOn_pathOf (h : ∀ name ∈ names, name ≠ "" ∧ '/' ∉ name.toList) (hne : names ≠ []) :
    (pathOf names).toList.splitOn '/' = names.map String.toList := by
  induction names using List.reverseRecOn with
  | nil => exact absurd rfl hne
  | append_singleton names name ih =>
    have hname := h name (List.mem_append_right _ (List.mem_singleton_self name))
    have hrest : ∀ n ∈ names, n ≠ "" ∧ '/' ∉ n.toList := fun n hn =>
      h n (List.mem_append_left _ hn)
    rw [pathOf_concat, pathJoin]
    by_cases hnil : names = []
    · subst hnil
      exact List.splitOn_eq_singleton hname.2
    · have hsplit := ih hrest hnil
      have hroot : pathOf names ≠ "" := by
        intro hroot
        rw [hroot] at hsplit
        have hempty : [] ∈ names.map String.toList := hsplit ▸ List.mem_singleton_self []
        obtain ⟨n, hn, hnil⟩ := List.mem_map.mp hempty
        exact (hrest n hn).1 (String.toList_eq_nil_iff.mp hnil)
      rw [if_neg hroot, String.toList_append, String.toList_append, List.append_assoc,
        show "/".toList ++ name.toList = '/' :: name.toList from rfl, List.splitOn_append_cons_self,
        hsplit, List.splitOn_eq_singleton hname.2, List.map_append, List.map_singleton]

theorem pathOf_injective {names' : List String} (h : ∀ name ∈ names, name ≠ "" ∧ '/' ∉ name.toList)
    (h' : ∀ name ∈ names', name ≠ "" ∧ '/' ∉ name.toList) (hne : names ≠ []) (hne' : names' ≠ [])
    (heq : pathOf names = pathOf names') : names = names' := by
  have hsplit := splitOn_pathOf h hne
  rw [heq, splitOn_pathOf h' hne'] at hsplit
  exact (List.map_injective_iff.mpr (fun _ _ => String.toList_inj.mp) hsplit).symm

/-- Names that a directory can have. -/
abbrev ProperNames (names : List String) : Prop := ∀ name ∈ names, Proper name.toList

theorem ProperNames.named (h : ProperNames names) :
    ∀ name ∈ names, name ≠ "" ∧ '/' ∉ name.toList := by
  intro name hname
  refine ⟨?_, (h name hname).slash⟩
  rintro rfl
  exact (h _ hname).ne_nil rfl

theorem ProperNames.slash (h : ProperNames names) : ∀ n ∈ names.map String.toList, '/' ∉ n := by
  intro n hn
  obtain ⟨name, hname, rfl⟩ := List.mem_map.mp hn
  exact (h name hname).slash

theorem toList_pathOf (h : ProperNames names) (hne : names ≠ []) :
    (pathOf names).toList = Glob.path '/' (names.map String.toList) := by
  rw [← splitOn_pathOf h.named hne]
  exact (List.intercalate_splitOn '/').symm

theorem pathIsAbsolute_pathOf (h : ProperNames names) (hne : names ≠ []) :
    pathIsAbsolute (pathOf names) = false := by
  have hhead : (pathOf names).toList.head? ≠ some '/' := by
    rw [toList_pathOf h hne]
    exact head?_intercalate_ne (List.forall_mem_map.mpr h)
  exact decide_eq_false hhead

/-! ## Paths that begin with the root -/

/-- The pieces of the root, without the empty one behind a slash at the end. -/
def rootPieces (root : String) : List (List Char) :=
  let pieces := root.toList.splitOn '/'
  if pieces.getLast? = some [] then pieces.dropLast else pieces

/-- What the built-in rules are asked about before the names of a path: the pieces of a relative
root. -/
def rootNames (root : String) : List String :=
  if pathIsAbsolute root then [] else (rootPieces root).map String.ofList

theorem slash_not_mem_rootPieces : ∀ piece ∈ rootPieces root, '/' ∉ piece := by
  intro piece h
  have hpiece : piece ∈ root.toList.splitOn '/' := by
    unfold rootPieces at h
    dsimp only at h
    split at h
    · exact List.mem_of_mem_dropLast h
    · exact h
  exact slash_not_mem_of_mem_splitOn hpiece

/-- A text whose last piece is empty ends with a slash. -/
theorem splitOn_getLast? {l : List Char} (hne : l ≠ []) (hlast : l.getLast? ≠ some '/') :
    (l.splitOn '/').getLast? ≠ some [] := by
  intro h
  obtain ⟨pieces, hsplit⟩ := List.getLast?_eq_some_iff.mp h
  obtain ⟨front, c, rfl⟩ := (List.eq_nil_or_concat' l).resolve_left hne
  rw [List.getLast?_concat] at hlast
  have hc : '/' ∉ [c] := by simpa [eq_comm] using hlast
  have hsuffix : [c] <:+ Glob.path '/' (pieces ++ [[]]) := by
    rw [Glob.path, ← hsplit, List.intercalate_splitOn]
    exact List.suffix_append front [c]
  exact absurd (List.suffix_nil.mp ((Glob.suffix_path_iff hc).mp hsuffix)) (List.cons_ne_nil c [])

/-- The pieces of a path behind those of the root. -/
theorem splitOn_pathAt (hpath : pathIsAbsolute path = false) :
    (pathAt root path).toList.splitOn '/' = rootPieces root ++ path.toList.splitOn '/' := by
  rw [pathAt, hpath, Bool.false_or]
  by_cases hroot : root = ""
  · subst hroot
    rfl
  · rw [if_neg (by simpa using hroot)]
    have hne : root.toList ≠ [] := mt String.toList_eq_nil_iff.mp hroot
    by_cases hlast : root.toList.getLast? = some '/'
    · obtain ⟨front, hfront⟩ := List.getLast?_eq_some_iff.mp hlast
      have hsplit : ∀ rest, (root.toList ++ rest).splitOn '/' = front.splitOn '/' ++
          rest.splitOn '/' := by
        intro rest
        rw [hfront, List.append_assoc]
        exact List.splitOn_append_cons_self front rest
      have hpieces : rootPieces root = front.splitOn '/' := by
        have hroot := hsplit []
        rw [List.append_nil, List.splitOn_nil] at hroot
        rw [rootPieces, hroot]
        simp
      rw [if_pos hlast, String.toList_append, hsplit, hpieces]
    · rw [if_neg hlast, String.toList_append, String.toList_append, List.append_assoc,
        show "/".toList ++ path.toList = '/' :: path.toList from rfl, List.splitOn_append_cons_self,
            rootPieces,
        if_neg (splitOn_getLast? hne hlast)]

theorem pathIsAbsolute_pathAt (hpath : pathIsAbsolute path = false) :
    pathIsAbsolute (pathAt root path) = pathIsAbsolute root := by
  rw [pathAt, hpath, Bool.false_or]
  by_cases hroot : root = ""
  · subst hroot
    rw [if_pos (by simp), hpath]
    rfl
  · rw [if_neg (by simpa using hroot)]
    obtain ⟨c, rest, hcons⟩ := List.exists_cons_of_ne_nil (mt String.toList_eq_nil_iff.mp hroot)
    split
    all_goals simp [pathIsAbsolute, hcons]

/-- Behind the components of the root a path goes on as it does, but for padding. -/
theorem piecesBehind_append (base rest : List (List Char)) :
    (piecesBehind (base.filter (!isPadding ·)) (base ++ rest)).map (·.dropWhile isPadding) =
      some (rest.dropWhile isPadding) := by
  induction base with
  | nil => rw [List.filter_nil, piecesBehind, Option.map_some, List.nil_append]
  | cons piece base ih =>
    cases hp : isPadding piece with
    | false =>
      rw [List.filter_cons_of_pos (by rw [hp]; rfl), List.cons_append, piecesBehind,
        if_neg (by simp [hp]), if_pos rfl]
      exact ih
    | true =>
      rw [List.filter_cons_of_neg (by simp [hp]), List.cons_append]
      cases hbase : base.filter (!isPadding ·) with
      | nil =>
        rw [hbase, piecesBehind, Option.map_some] at ih
        rw [piecesBehind, Option.map_some, List.dropWhile_cons_of_pos hp]
        exact ih
      | cons c cs =>
        rw [piecesBehind, if_pos hp, ← hbase]
        exact ih

theorem pathStripPrefix_pathAt (hroot : pathIsAbsolute root = true)
    (hpath : pathIsAbsolute path = false) :
    pathStripPrefix (pathAt root path) root = some (String.ofList (List.intercalate ['/']
      (((path.toList.splitOn '/').dropWhile isPadding).rdropWhile isPadding))) := by
  have hbase : (root.toList.splitOn '/').filter (!isPadding ·) =
      (rootPieces root).filter (!isPadding ·) := by
    unfold rootPieces
    dsimp only
    split
    · rename_i hlast
      obtain ⟨front, hfront⟩ := List.getLast?_eq_some_iff.mp hlast
      rw [hfront, List.dropLast_concat, List.filter_append]
      simp [isPadding]
    · rfl
  obtain ⟨pieces, hpieces, hdrop⟩ := Option.map_eq_some_iff.mp
    (piecesBehind_append (rootPieces root) (path.toList.splitOn '/'))
  rw [pathStripPrefix, if_pos hroot, splitOn_pathAt hpath, hbase, hpieces, Option.map_some, hdrop]

/-- What the built-in rules are asked about. -/
theorem toList_relative (h : ProperNames names) (hne : names ≠ []) :
    (ex.relative (pathAt ex.root (pathOf names))).toList =
      Glob.path '/' ((rootNames ex.root ++ names).map String.toList) := by
  have hpath := pathIsAbsolute_pathOf h hne
  rw [Exclusions.relative, pathIsAbsolute_pathAt hpath, rootNames]
  cases hroot : pathIsAbsolute ex.root with
  | true =>
    have hproper : ∀ piece ∈ names.map String.toList, isPadding piece = false := by
      intro piece hpiece
      obtain ⟨name, hname, rfl⟩ := List.mem_map.mp hpiece
      simp [isPadding, (h name hname).ne_nil, (h name hname).ne_dot]
    have hdrop : ((names.map String.toList).dropWhile isPadding).rdropWhile isPadding =
        names.map String.toList := by
      have hfront : (names.map String.toList).dropWhile isPadding = names.map String.toList := by
        rw [List.dropWhile_eq_self_iff]
        intro hlen
        rw [hproper _ (List.getElem_mem hlen)]
        exact Bool.false_ne_true
      rw [hfront, List.rdropWhile_eq_self_iff]
      intro hnil
      rw [hproper _ (List.getLast_mem hnil)]
      exact Bool.false_ne_true
    rw [if_pos rfl, if_pos rfl, pathStripPrefix_pathAt hroot hpath,
      splitOn_pathOf h.named hne, hdrop, Option.getD_some, String.toList_ofList, List.nil_append]
  | false =>
    have hsplit := @List.intercalate_splitOn _ (pathAt ex.root (pathOf names)).toList _ _ '/'
    rw [splitOn_pathAt hpath, splitOn_pathOf h.named hne] at hsplit
    rw [if_neg Bool.false_ne_true, if_neg Bool.false_ne_true, ← hsplit, List.map_append,
      List.map_map]
    rw [show String.toList ∘ String.ofList = id from funext fun _ => String.toList_ofList,
      List.map_id]

/-! ## What is let through -/

theorem pathFileName_of_splitOn {front : List (List Char)} {last : List Char}
    (hsplit : path.toList.splitOn '/' = front ++ [last]) (h : Proper last) :
    pathFileName path = some (String.ofList last) := by
  have hlast : [last].filterMap (fun p => if p = [] ∨ p = ['.'] then none
      else if p = ['.', '.'] then some Component.parentDir
      else some (.normal (String.ofList p))) = [.normal (String.ofList last)] := by
    simp [h.ne_nil, h.ne_dot, h.ne_dots]
  unfold pathFileName pathComponents
  dsimp only
  rw [hsplit, List.filterMap_append, hlast, ← List.append_assoc, List.getLast?_concat]
  rfl

/-- What stands behind the last dot. -/
def lastExt (l : List Char) : List Char := (l.reverse.takeWhile (· ≠ '.')).reverse

theorem lastExt_append {front l : List Char} (h : '.' ∈ l) : lastExt (front ++ l) = lastExt l := by
  obtain ⟨before, after, rfl⟩ := List.append_of_mem h
  simp [lastExt, List.takeWhile_append]

theorem lastExt_of_not_mem {l : List Char} (h : '.' ∉ l) : lastExt l = l := by
  rw [lastExt, List.takeWhile_eq_self_iff.mpr, List.reverse_reverse]
  intro c hc
  have hne : c ≠ '.' := by
    rintro rfl
    exact h (List.mem_reverse.mp hc)
  simpa using hne

/-- Another character in place of the backslash leaves the dots where they are. -/
theorem lastExt_replaceBackslash {s : String} (h : '\\' ∉ lastExt s.toList) :
    lastExt (replaceBackslash s).toList = lastExt s.toList := by
  have hdots : ((fun c => decide (c ≠ '.')) ∘ fun c => if c = '\\' then '/' else c) =
      fun c => decide (c ≠ '.') := by
    funext c
    by_cases hc : c = '\\'
    · subst hc
      rfl
    · simp [hc]
  rw [replaceBackslash, String.toList_ofList, lastExt, ← List.map_reverse,
    List.takeWhile_map, hdots, ← List.map_reverse]
  refine (List.map_congr_left fun c hc => if_neg fun heq => ?_).trans (List.map_id _)
  subst heq
  exact h hc

/-- The language of a path goes by the text behind its last dot, in which there is no backslash. -/
theorem pathExtension_of_fromPath (h : ProperNames names) (hne : names ≠ []) {language : Language}
    (hlang : Language.fromPath (pathOf names) = some language) : pathExtension (pathOf names) =
      some (String.ofList (lastExt (replaceBackslash (pathOf names)).toList)) := by
  obtain ⟨ext, hext, hslash⟩ : ∃ ext, pathExtension (pathOf names) = some ext ∧
      '\\' ∉ ext.toList := by
    unfold Language.fromPath at hlang
    split at hlang
    all_goals first | exact ⟨_, ‹_›, by decide⟩ | cases hlang
  obtain ⟨front, name, rfl⟩ := (List.eq_nil_or_concat' names).resolve_left hne
  have hname : name ∈ front ++ [name] := List.mem_append_right _ (List.mem_singleton_self name)
  have hsplit : (pathOf (front ++ [name])).toList.splitOn '/' = front.map String.toList ++
      [name.toList] := by
    rw [splitOn_pathOf h.named hne, List.map_append, List.map_singleton]
  have hfile : pathFileName (pathOf (front ++ [name])) = some name := by
    rw [pathFileName_of_splitOn hsplit (h name hname), String.ofList_toList]
  obtain ⟨rest, hpath⟩ : ∃ rest, rest ++ name.toList = (pathOf (front ++ [name])).toList := by
    rw [toList_pathOf h hne, List.map_append, List.map_singleton]
    exact (Glob.suffix_path_iff (h name hname).slash).mpr List.suffix_rfl
  have hext' : pathExtension (pathOf (front ++ [name])) = some ext := hext
  rw [pathExtension, hfile] at hext
  simp only [Option.bind_eq_bind, Option.bind_some] at hext
  split at hext
  · cases hext
  · rename_i hlong
    obtain rfl : String.ofList (lastExt name.toList) = ext := Option.some.inj hext
    have hdot : '.' ∈ name.toList := by
      by_contra hdot
      have hself : lastExt name.toList = name.toList := lastExt_of_not_mem hdot
      exact hlong ((congrArg List.length hself).ge.trans (Nat.le_succ _))
    have hlast : lastExt (pathOf (front ++ [name])).toList = lastExt name.toList := by
      rw [← hpath, lastExt_append hdot]
    rw [String.toList_ofList, ← hlast] at hslash
    rw [hext', lastExt_replaceBackslash hslash, hlast]

/-- Paths that are the same but for backslashes are of the same language. -/
theorem fromPath_unique {names' : List String} (h : ProperNames names) (h' : ProperNames names')
    (hne : names ≠ []) (hne' : names' ≠ []) {language language' : Language}
    (hlang : Language.fromPath (pathOf names) = some language)
    (hlang' : Language.fromPath (pathOf names') = some language')
    (hrel : replaceBackslash (pathOf names) = replaceBackslash (pathOf names')) :
    language = language' := by
  have hext : pathExtension (pathOf names) = pathExtension (pathOf names') := by
    rw [pathExtension_of_fromPath h hne hlang, pathExtension_of_fromPath h' hne' hlang', hrel]
  unfold Language.fromPath at hlang hlang'
  rw [hext] at hlang
  exact Option.some.inj (hlang.symm.trans hlang')

namespace Exclusions

/-- No component is a vendor directory exactly if no piece of the path is the name of one. -/
theorem findSome?_vendor_iff :
    ((pathComponents path).findSome? fun c => c.name?.filter (· ∈ vendorNames)) =
    none ↔ ∀ piece ∈ path.toList.splitOn '/', String.ofList piece ∉ vendorNames := by
  have hpiece : ∀ piece : List Char, String.ofList piece ∈ vendorNames →
      ¬(piece = [] ∨ piece = ['.']) ∧ piece ≠ ['.', '.'] := by
    intro piece hmem
    refine ⟨?_, ?_⟩
    · rintro (rfl | rfl)
      all_goals exact absurd hmem (by decide)
    · rintro rfl
      exact absurd hmem (by decide)
  rw [List.findSome?_eq_none_iff]
  unfold pathComponents
  dsimp only
  constructor
  · intro h piece hmem hvendor
    obtain ⟨hpad, hdots⟩ := hpiece piece hvendor
    have hnone := h (.normal (String.ofList piece)) (List.mem_append_right _ (List.mem_filterMap.mpr
      ⟨piece, hmem, by rw [if_neg hpad, if_neg hdots]⟩))
    simp [Component.name?, Option.filter, hvendor] at hnone
  · intro h c hc
    cases c with
    | normal name =>
      have hmem : ∃ piece ∈ path.toList.splitOn '/', String.ofList piece = name := by
        rcases List.mem_append.mp hc with hc | hc
        · rcases List.mem_append.mp hc with hc | hc
          all_goals
            split at hc
            · cases List.mem_singleton.mp hc
            · cases hc
        · obtain ⟨piece, hpiece, hname⟩ := List.mem_filterMap.mp hc
          split at hname
          · cases hname
          · split at hname
            · cases hname
            · exact ⟨piece, hpiece, Component.normal.inj (Option.some.inj hname)⟩
      obtain ⟨piece, hmem, rfl⟩ := hmem
      simp [Component.name?, Option.filter, h piece hmem]
    | rootDir | curDir | parentDir => rfl

/-- A text of such names with slashes between them, the last of which is that of an entry. -/
structure Spells (text : String) (names : List String) : Prop where
  slash : ∀ n ∈ names.map String.toList, '/' ∉ n
  last : ∃ front name, names = front ++ [name] ∧ Proper name.toList
  text : text.toList = Glob.path '/' (names.map String.toList)

theorem Spells.ne_nil {text : String} (h : Spells text names) : names.map String.toList ≠ [] := by
  obtain ⟨front, name, rfl, -⟩ := h.last
  simp

theorem Spells.splitOn {text : String} (h : Spells text names) :
    text.toList.splitOn '/' = names.map String.toList := by
  rw [h.text]
  exact List.splitOn_intercalate '/' h.slash h.ne_nil

theorem spells_relative (h : ProperNames names) (hne : names ≠ []) :
    Spells (ex.relative (pathAt ex.root (pathOf names))) (rootNames ex.root ++ names) := by
  refine ⟨?_, ?_, toList_relative h hne⟩
  · intro n hn
    rw [List.map_append, List.mem_append] at hn
    rcases hn with hn | hn
    · unfold rootNames at hn
      split at hn
      · cases hn
      · obtain ⟨_, hname, rfl⟩ := List.mem_map.mp hn
        obtain ⟨piece, hpiece, rfl⟩ := List.mem_map.mp hname
        rw [String.toList_ofList]
        exact slash_not_mem_rootPieces piece hpiece
    · exact h.slash n hn
  · obtain ⟨front, name, rfl⟩ := (List.eq_nil_or_concat' names).resolve_left hne
    refine ⟨rootNames ex.root ++ front, name, (List.append_assoc ..).symm, h name ?_⟩
    exact List.mem_append_right _ (List.mem_singleton_self name)

theorem isSome_firstMatch_iff (hdoc : ∀ g ∈ globs, ∀ path, ex.globMatches g.1 path =
    globset g.1.toList path.toList) : (ex.firstMatch globs path).isSome = true ↔
      ∃ g ∈ globs, Glob.Matches '/' (readGlob g.1.toList) path.toList := by
  rw [firstMatch, Option.isSome_map, List.find?_isSome]
  refine exists_congr fun g => and_congr_right fun hg => ?_
  rw [hdoc g hg, globset_iff]

/-- A set of globs matches a path, or its file name, exactly if one of its rules applies to the
names. -/
theorem isSome_firstMatchOrName_iff (hreads : Reads globs rules) (hdoc : ∀ g ∈ globs, ∀ path,
    ex.globMatches g.1 path = globset g.1.toList path.toList) (h : Spells path names) :
    (ex.firstMatchOrName globs path).isSome = true ↔
      ∃ rule ∈ rules, rule.Applies (names.map String.toList) := by
  have hmatch : ∀ {p : List (List Char)}, (∀ n ∈ p, '/' ∉ n) → p ≠ [] → ∀ g ∈ globs,
      Glob.Matches '/' (readGlob g.1.toList) (Glob.path '/' p) →
        ∃ rule ∈ rules, rule.Applies p := by
    intro p hp hpne g hg hm
    obtain ⟨rule, hrule, hread⟩ := hreads.1 g hg
    refine ⟨rule, hrule, (NameRule.matches_dirs_iff (hreads.2 rule hrule).1 hp hpne).mp ?_⟩
    rcases hread with hread | hread
    · exact .inl (hread ▸ hm)
    · exact hread ▸ hm
  rw [firstMatchOrName, Option.isSome_or, Bool.or_eq_true, isSome_firstMatch_iff hdoc, h.text]
  constructor
  · rintro (⟨g, hg, hm⟩ | hname)
    · exact hmatch h.slash h.ne_nil g hg hm
    · obtain ⟨front, last, rfl, hproper⟩ := h.last
      have hsplit := h.splitOn
      rw [List.map_append, List.map_singleton] at hsplit
      rw [pathFileName_of_splitOn hsplit hproper, Option.bind_some, isSome_firstMatch_iff hdoc,
        String.ofList_toList] at hname
      obtain ⟨g, hg, hm⟩ := hname
      rw [← @Glob.path_singleton _ '/' last.toList] at hm
      obtain ⟨rule, hrule, happ⟩ :=
        hmatch (by simpa using hproper.slash) (List.cons_ne_nil _ []) g hg hm
      obtain ⟨n, hn, hholds⟩ := happ.exists_holds
      rw [List.mem_singleton.mp hn] at hholds
      refine ⟨rule, hrule, ?_⟩
      rw [List.map_append]
      exact NameRule.applies_concat hholds
  · rintro ⟨rule, hrule, happ⟩
    obtain ⟨hslash, g, hg, hread⟩ := hreads.2 rule hrule
    refine .inl ⟨g, hg, ?_⟩
    rw [hread]
    exact (NameRule.matches_dirs_iff hslash h.slash h.ne_nil).mpr happ

/-- What a vendor glob matches has a vendor directory among its names. -/
theorem exists_vendor_of_firstMatch (hdoc : ∀ g ∈ vendorGlobs, ∀ path, ex.globMatches g.1 path =
    globset g.1.toList path.toList) (h : Spells path names)
    (hmatch : (ex.firstMatch vendorGlobs path).isSome = true) : ∃ name ∈ names, name ∈
      vendorNames := by
  obtain ⟨g, hg, hm⟩ := (isSome_firstMatch_iff hdoc).mp hmatch
  obtain ⟨vendor, hvendor, hslash, hread⟩ := vendorGlobs_reads g hg
  have hmem : vendor.toList ∈ names.map String.toList := by
    rw [h.text] at hm
    have hname : Glob.Matches '/' (.dirs :: Glob.literal vendor.toList)
        (Glob.path '/' (names.map String.toList)) → vendor.toList ∈ names.map String.toList :=
          fun hm => by
      have hrule : '/' ∉ (NameRule.is vendor.toList).text := hslash
      obtain ⟨n, hn, rfl⟩ := ((NameRule.matches_dirs_iff hrule h.slash h.ne_nil).mp hm).exists_holds
      exact hn
    rcases hread with hread | hread | hread
    · exact hname (.inl (hread ▸ hm))
    · exact hname (hread ▸ hm)
    · rw [hread, Glob.matches_dirs h.slash h.ne_nil] at hm
      obtain ⟨rest, hrest, hrne, hm⟩ := hm
      obtain ⟨n, rest, rfl⟩ := List.exists_cons_of_ne_nil hrne
      have hn := Glob.eq_of_matches_literal_sep hslash (fun m hm => h.slash m (hrest.subset hm)) hm
      exact hn ▸ hrest.subset List.mem_cons_self
  obtain ⟨name, hname, heq⟩ := List.mem_map.mp hmem
  exact ⟨name, hname, String.toList_inj.mp heq ▸ hvendor⟩

def ignores (ex : Exclusions) (isDir : Bool) (path : String) : Bool :=
  ex.gitignore.any fun ignored =>
    ignored (ex.absolute path) (isDir || (ex.absolute path).toList.getLast? = some '/')

/-- Neither the last name nor another one is that of a secret, of something generated or of a vendor
directory. -/
structure Keeps (names : List String) : Prop where
  secret : ∀ rule ∈ secretRules, ¬rule.Applies (names.map String.toList)
  vendor : ∀ name ∈ names, name ∉ vendorNames
  generated : ∀ rule ∈ generatedRules, ¬rule.Applies (names.map String.toList)

/-- `check_path` lets a path through if no rule keeps out its names, behind those of a relative
root, and `.gitignore` does not ignore it. -/
theorem checkPath_pathAt_iff (hdoc : ex.Documented) (h : ProperNames names) (hne : names ≠ []) :
    ex.checkPath isDir (pathAt ex.root (pathOf names)) = none ↔
      Keeps (rootNames ex.root ++ names) ∧
        ex.ignores isDir (pathAt ex.root (pathOf names)) = false := by
  have hspells := @spells_relative ex names h hne
  have hsecret :=
    isSome_firstMatchOrName_iff secretGlobs_reads (fun g hg => hdoc g (by simp [hg])) hspells
  have hgenerated :=
    isSome_firstMatchOrName_iff generatedGlobs_reads (fun g hg => hdoc g (by simp [hg])) hspells
  have hvendor := exists_vendor_of_firstMatch (fun g hg => hdoc g (by simp [hg])) hspells
  have hnames := @findSome?_vendor_iff (ex.relative (pathAt ex.root (pathOf names)))
  rw [hspells.splitOn, List.forall_mem_map] at hnames
  simp only [String.ofList_toList] at hnames
  unfold checkPath
  generalize ex.relative (pathAt ex.root (pathOf names)) = rel at hsecret hgenerated hvendor hnames
  generalize rootNames ex.root ++ names = asked at hsecret hgenerated hvendor hnames
  dsimp only
  cases hs : ex.firstMatchOrName secretGlobs rel with
  | some pattern =>
    rw [hs] at hsecret
    obtain ⟨rule, hrule, happ⟩ := hsecret.mp rfl
    exact ⟨nofun, fun hk => absurd happ (hk.1.secret rule hrule)⟩
  | none =>
    have hnone : ∀ rule ∈ secretRules, ¬rule.Applies (asked.map String.toList) :=
      fun rule hrule happ => by
      rw [hs] at hsecret
      cases hsecret.mpr ⟨rule, hrule, happ⟩
    dsimp only
    cases hv : (pathComponents rel).findSome? fun c => c.name?.filter (· ∈ vendorNames) with
    | some vendor =>
      refine ⟨nofun, fun hk => ?_⟩
      cases hv.symm.trans (hnames.mpr hk.1.vendor)
    | none =>
      have hkept := hnames.mp hv
      have hglob : ex.firstMatch vendorGlobs rel = none := by
        rw [← Option.not_isSome_iff_eq_none]
        intro hm
        obtain ⟨name, hname, hmem⟩ := hvendor hm
        exact hkept name hname hmem
      rw [hglob]
      dsimp only
      cases hg : ex.firstMatchOrName generatedGlobs rel with
      | some pattern =>
        rw [hg] at hgenerated
        obtain ⟨rule, hrule, happ⟩ := hgenerated.mp rfl
        exact ⟨nofun, fun hk => absurd happ (hk.1.generated rule hrule)⟩
      | none =>
        have hnone' : ∀ rule ∈ generatedRules, ¬rule.Applies (asked.map String.toList) :=
          fun rule hrule happ => by
            rw [hg] at hgenerated
            cases hgenerated.mpr ⟨rule, hrule, happ⟩
        rw [and_iff_right (Keeps.mk hnone hkept hnone'), ignores]
        cases ex.gitignore with
        | none => simp
        | some ignored => simp

end Exclusions

/-- `check_path` of an entry, by the names on its path. -/
theorem checkEntry_pathOf_iff (hdoc : ix.exclusions.Documented) (h : ProperNames names)
    (hne : names ≠ []) :
    ix.checkEntry isDir (pathOf names) = none ↔ Exclusions.Keeps (rootNames ix.repo ++ names) ∧
      ix.exclusions.ignores (ix.dirAsked isDir (pathOf names)) (pathAt ix.repo (pathOf names)) =
        false :=
  Exclusions.checkPath_pathAt_iff hdoc h hne

end SiftMcp
