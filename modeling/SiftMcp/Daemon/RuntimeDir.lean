import SiftMcp.Daemon.Protocol
import SiftMcp.Lib.PathLookup
import SiftMcp.Lib.Utf8Bytes
import SiftMcp.Storage.Record

/-!
# The runtime directory of a store

Where the socket and the lock of a store are, by the path of the store. A path that leads somewhere
counts as the place it leads to. One that leads nowhere yet counts as its parent with the last name,
and the parent as its text if it leads nowhere either.

`Machine.runtimeDirForStore_iff` says when it is one directory that two paths to a store give,
before the store is made and after.
-/

namespace SiftMcp
open PathLookup

/-- The file system and the working directory of a process. -/
structure Machine where
  tree : Tree
  cwd : List Name
  maxLinks : Nat
  proper : ∀ p n, tree (p ++ [n]) ≠ none → Proper n
  real : tree.Real cwd

/-- What the derivation reads of the environment. -/
structure Environment where
  xdgRuntimeDir : Option (List Char)
  user : Option (List Char)

/-- `Path::join` with a path that is not absolute. -/
def joinPath (dir path : List Char) : List Char :=
  if dir = [] ∨ dir.getLast? = some '/' then dir ++ path else dir ++ '/' :: path

/-- Pieces that `Path::components` passes over. -/
def isPassed (piece : Name) : Bool := piece = [] || piece = ['.']

/-- The pieces of an absolute path up to its last component. -/
def pathPieces (absolute : List Char) : List Name := (absolute.tail.splitOn '/').rdropWhile isPassed

/-- `Path::file_name` -/
def fileNameOf (absolute : List Char) : Option Name :=
  (pathPieces absolute).getLast?.filter (· ≠ ['.', '.'])

/-- The pieces of `Path::parent`, which ends with a component as well. -/
def parentPieces (absolute : List Char) : List Name :=
  (pathPieces absolute).dropLast.rdropWhile isPassed

/-- The first 16 digits of the hash. -/
def shortHash (hash : ContentHash) : List Char :=
  (List.range 16).map fun i => (hash.bits.toNat / 16 ^ (63 - i) % 16).digitChar

namespace Machine

/-- What a path leads to. -/
def leadsTo (m : Machine) (path : List Char) : Option (List Name) :=
  if path = [] then none
  else (m.tree.lookup m.maxLinks (base m.cwd path) (segs path)).map (·.2)

/-- `Path::canonicalize`; it fails where `Path::exists` says no. -/
def canonicalize (m : Machine) (path : List Char) : Option (List Char) :=
  (m.leadsTo path).map renderPath

def absolute (m : Machine) (path : List Char) : List Char :=
  if path.head? = some '/' then path else joinPath (renderPath m.cwd) path

def stableStorePath (m : Machine) (storeDir : List Char) : Except DaemonError (List Char) :=
  match m.canonicalize storeDir with
  | some canonical => .ok canonical
  | none =>
    let absolute := m.absolute storeDir
    match fileNameOf absolute with
    | none => .error (.internal s!"store path has no leaf: {String.ofList storeDir}")
    | some leaf =>
      let parent := renderPath (parentPieces absolute)
      .ok (joinPath ((m.canonicalize parent).getD parent) leaf)

/-- Without `XDG_RUNTIME_DIR` it is a directory of the user. -/
def runtimeBase (env : Environment) : List Char :=
  env.xdgRuntimeDir.getD ("/tmp/sift-".toList ++ env.user.getD "user".toList)

def runtimeDirForStore (m : Machine) (env : Environment) (blake3 : List UInt8 → ContentHash)
    (storeDir : List Char) : Except DaemonError (List Char) :=
  (m.stableStorePath storeDir).map fun canonical =>
    joinPath (joinPath (runtimeBase env) "sift".toList) (shortHash (blake3 (utf8Bytes canonical)))

/-! ## Before and after a store is created -/

/-- Directories have been created, and the path leads to one. -/
structure Created (m m' : Machine) (path : List Char) (place : List Name) : Prop where
  grown : m.tree.Grown m'.tree
  cwd : m'.cwd = m.cwd
  maxLinks : m'.maxLinks = m.maxLinks
  leadsTo : m'.leadsTo path = some place
  isDir : m'.tree.isDir place = true

/-- The path leads somewhere; or its parent does, and there is nothing there under the last name; or
the path is written as names with a slash between them, and none of the places on the way is a
link. -/
def Settled (m : Machine) (path : List Char) : Prop :=
  m.leadsTo path ≠ none ∨
    ∃ leaf, fileNameOf (m.absolute path) = some leaf ∧
      match m.leadsTo (renderPath (parentPieces (m.absolute path))) with
      | some parent => m.tree (parent ++ [leaf]) = none
      | none => (∀ n ∈ parentPieces (m.absolute path), Proper n) ∧
        ∀ p n node, p ++ [n] <+: parentPieces (m.absolute path) ++ [leaf] →
          m.tree (p ++ [n]) = some node → node.isLink = false

end Machine

variable {m m' : Machine} {path : List Char} {place : List Name} {ps : List Name} {leaf : Name}

/-! ## Texts -/

theorem joinPath_inj {dir a b : List Char} : joinPath dir a = joinPath dir b ↔ a = b := by
  refine ⟨fun h => ?_, congrArg _⟩
  unfold joinPath at h
  split at h
  · exact List.append_cancel_left h
  · exact (List.cons.inj (List.append_cancel_left h)).2

theorem joinPath_renderPath (hlast : ps.getLast? ≠ some []) (hps : ∀ n ∈ ps, '/' ∉ n) :
    joinPath (renderPath ps) leaf = renderPath (ps ++ [leaf]) := by
  by_cases hne : ps = []
  · rw [hne, List.nil_append, renderPath, renderPath, List.intercalate_nil,
      List.intercalate_singleton, joinPath, if_pos (.inr rfl)]
    rfl
  · have hne' : renderPath ps ≠ [] := List.cons_ne_nil _ _
    rw [joinPath, if_neg (not_or.mpr ⟨hne', getLast?_renderPath_ne hne hlast hps⟩),
      renderPath_concat hne]

theorem segOf_passed {piece : Name} (h : isPassed piece = true) : segOf piece = .here := by
  rw [segOf, if_pos]
  simpa [isPassed] using h

theorem segs_passed {pieces : List Name} :
    ∀ s ∈ (pieces.rtakeWhile isPassed).map segOf, s = .here := by
  intro s hs
  obtain ⟨piece, hpiece, rfl⟩ := List.mem_map.mp hs
  exact segOf_passed (List.mem_rtakeWhile_imp hpiece)

/-- The pieces of an absolute path: those of its parent, the last name, and dots behind each. -/
theorem pieces_eq {absolute : List Char} (h : fileNameOf absolute = some leaf) :
    absolute.tail.splitOn '/' = parentPieces absolute ++
      (pathPieces absolute).dropLast.rtakeWhile isPassed ++ [leaf] ++
        (absolute.tail.splitOn '/').rtakeWhile isPassed := by
  obtain ⟨hlast, -⟩ := Option.filter_eq_some_iff.mp h
  rw [parentPieces, List.rdropWhile_append_rtakeWhile, List.dropLast_append_getLast? leaf hlast,
    pathPieces, List.rdropWhile_append_rtakeWhile]

theorem not_isPassed_last {pieces : List Name} {piece : Name}
    (h : (pieces.rdropWhile isPassed).getLast? = some piece) : ¬isPassed piece = true := by
  have hne : pieces.rdropWhile isPassed ≠ [] := List.ne_nil_of_mem (List.mem_of_getLast? h)
  have hlast := (List.getLast?_eq_some_getLast hne).symm.trans h
  rw [← Option.some.inj hlast]
  exact List.rdropWhile_last_not _ _ hne

theorem proper_of_fileNameOf {absolute : List Char} (h : fileNameOf absolute = some leaf) :
    Proper leaf := by
  obtain ⟨hlast, hdots⟩ := Option.filter_eq_some_iff.mp h
  have hpassed := not_isPassed_last hlast
  simp only [isPassed, Bool.or_eq_true, decide_eq_true_eq, not_or] at hpassed
  refine ⟨hpassed.1, hpassed.2, of_decide_eq_true hdots, ?_⟩
  apply slash_not_mem_of_mem_splitOn
  exact (List.rdropWhile_prefix isPassed _).subset (List.mem_of_getLast? hlast)

theorem parentPieces_slash {absolute : List Char} : ∀ n ∈ parentPieces absolute, '/' ∉ n := by
  intro n hn
  have hpiece := List.dropLast_subset _ ((List.rdropWhile_prefix isPassed _).subset hn)
  exact slash_not_mem_of_mem_splitOn ((List.rdropWhile_prefix isPassed _).subset hpiece)

theorem parentPieces_getLast? {absolute : List Char} : (parentPieces absolute).getLast? ≠ some [] :=
  fun h => not_isPassed_last h rfl

/-! ## What absolute paths lead to -/

namespace Machine

theorem proper_of_real {p : List Name} (h : m.tree.Real p) : ∀ n ∈ p, Proper n := by
  intro n hn
  obtain ⟨a, b, rfl⟩ := List.append_of_mem hn
  obtain ⟨-, he⟩ := h a n ⟨b, by simp⟩
  obtain ⟨-, node, hnode, -⟩ := entry_moved he
  exact m.proper a n (by rw [hnode]; exact Option.some_ne_none node)

theorem leadsTo_real {p : List Name} (h : m.leadsTo path = some p) : m.tree.Real p := by
  unfold leadsTo at h
  split at h
  · cases h
  · obtain ⟨⟨k, p⟩, hlookup, rfl⟩ := Option.map_eq_some_iff.mp h
    refine Tree.Real.lookup ?_ hlookup
    unfold base
    split
    · exact .nil
    · exact m.real

/-- A path leads where its absolute form leads. -/
theorem leadsTo_eq (hne : path ≠ []) : m.leadsTo path =
    (m.tree.lookup m.maxLinks [] (((m.absolute path).tail.splitOn '/').map segOf)).map (·.2) := by
  rw [leadsTo, if_neg hne]
  congr 1
  unfold absolute base
  by_cases habs : path.head? = some '/'
  · rw [if_pos habs, if_pos habs]
    obtain ⟨rest, rfl⟩ := List.head?_eq_some_iff.mp habs
    rw [← List.nil_append ('/' :: rest), segs_append]
    exact lookup_here isDir_nil
  · rw [if_neg habs, if_neg habs]
    by_cases hcwd : m.cwd = []
    · rw [hcwd]
      rfl
    · have hproper := proper_of_real m.real
      have hpieces : (joinPath (renderPath m.cwd) path).tail.splitOn '/' =
          m.cwd ++ path.splitOn '/' := by
        have hlast : m.cwd.getLast? ≠ some [] := fun h =>
          (hproper [] (List.mem_of_getLast? h)).ne_nil rfl
        have hslash : ∀ n ∈ m.cwd, '/' ∉ n := fun n hn => (hproper n hn).slash
        have hne' : renderPath m.cwd ≠ [] := List.cons_ne_nil _ _
        rw [joinPath, if_neg (not_or.mpr ⟨hne', getLast?_renderPath_ne hcwd hlast hslash⟩),
          renderPath, List.cons_append, List.tail_cons, List.splitOn_append_cons_self,
          List.splitOn_intercalate '/' hslash hcwd]
      rw [hpieces, List.map_append, List.map_congr_left fun n hn => (hproper n hn).segOf,
        lookup_append, lookup_names m.real]
      rfl

/-- The text of names leads where they lead. -/
theorem leadsTo_renderPath (hps : ∀ n ∈ ps, '/' ∉ n) :
    m.leadsTo (renderPath ps) = (m.tree.lookup m.maxLinks [] (ps.map segOf)).map (·.2) := by
  have hne : renderPath ps ≠ [] := List.cons_ne_nil _ _
  have habs : m.absolute (renderPath ps) = renderPath ps := if_pos rfl
  rw [leadsTo_eq hne, habs, renderPath, List.tail_cons]
  congr 1
  by_cases hps' : ps = []
  · rw [hps', List.intercalate_nil, List.splitOn_nil]
    exact lookup_here isDir_nil
  · rw [List.splitOn_intercalate '/' hps hps']

variable {t : Tree} {absolute : List Char} {links k l : Nat} {p : List Name}

/-- A path leads to a place through its parent, by its last name. -/
theorem lookup_pieces (h : fileNameOf absolute = some leaf)
    (hplace : t.lookup links [] ((absolute.tail.splitOn '/').map segOf) = some (k, place)) :
    ∃ l p, t.lookup links [] ((parentPieces absolute).map segOf) = some (l, p) ∧
      t.lookup l p [.name leaf] = some (k, place) := by
  rw [pieces_eq h, List.map_append, List.map_append, List.map_append] at hplace
  simp only [lookup_append, Option.bind_eq_some_iff] at hplace
  obtain ⟨⟨k, place⟩, ⟨⟨l, p⟩, ⟨⟨l, p⟩, hparent, hdots⟩, hleaf⟩, hdots'⟩ := hplace
  obtain ⟨rfl, rfl⟩ := eq_of_lookup_dots segs_passed hdots
  obtain ⟨rfl, rfl⟩ := eq_of_lookup_dots segs_passed hdots'
  rw [List.map_singleton, (proper_of_fileNameOf h).segOf] at hleaf
  exact ⟨l, p, hparent, hleaf⟩

theorem lookup_of_parent (h : fileNameOf absolute = some leaf)
    (hparent : t.lookup links [] ((parentPieces absolute).map segOf) = some (l, p))
    (hleaf : t.lookup l p [.name leaf] = some (k, place)) (hdir : t.isDir place = true) :
    t.lookup links [] ((absolute.tail.splitOn '/').map segOf) = some (k, place) := by
  rw [pieces_eq h, List.map_append, List.map_append, List.map_append, List.map_singleton,
    (proper_of_fileNameOf h).segOf, lookup_append, lookup_append, lookup_append, hparent,
    Option.bind_some, lookup_dots segs_passed (lookup_name hleaf).1, Option.bind_some, hleaf,
    Option.bind_some, lookup_dots segs_passed hdir]

/-! ## Before and after -/

namespace Created

theorem ne_nil (C : m.Created m' path place) : path ≠ [] := by
  intro h
  have hplace := C.leadsTo
  rw [h] at hplace
  cases hplace

theorem absolute_eq (C : m.Created m' path place) : m'.absolute path = m.absolute path := by
  rw [absolute, absolute, C.cwd]

theorem lookup (C : m.Created m' path place) : ∃ k, m'.tree.lookup m.maxLinks []
    (((m.absolute path).tail.splitOn '/').map segOf) = some (k, place) := by
  have hplace := C.leadsTo
  rw [leadsTo_eq C.ne_nil, C.absolute_eq, C.maxLinks] at hplace
  obtain ⟨⟨k, p⟩, hlookup, rfl⟩ := Option.map_eq_some_iff.mp hplace
  exact ⟨k, hlookup⟩

theorem real (C : m.Created m' path place) : m'.tree.Real place := by
  obtain ⟨k, hk⟩ := C.lookup
  exact Tree.Real.nil.lookup hk

/-- What leads somewhere leads there still. -/
theorem leadsTo_of (C : m.Created m' path place) {text : List Char} {p : List Name}
    (h : m.leadsTo text = some p) : m'.leadsTo text = some p := by
  unfold Machine.leadsTo at h ⊢
  split at h
  · cases h
  · next hne =>
    obtain ⟨⟨k, p⟩, hlookup, rfl⟩ := Option.map_eq_some_iff.mp h
    rw [if_neg hne, C.cwd, C.maxLinks, C.grown.lookup hlookup]
    rfl

/-- The way through the parent. -/
theorem parent (C : m.Created m' path place) (h : fileNameOf (m.absolute path) = some leaf) :
    ∃ k l p, m'.tree.lookup m.maxLinks [] ((parentPieces (m.absolute path)).map segOf) =
      some (l, p) ∧ m'.tree.lookup l p [.name leaf] = some (k, place) := by
  obtain ⟨k, hk⟩ := C.lookup
  exact ⟨k, lookup_pieces h hk⟩

/-- With a parent, the store is where the parent and the last name say unless something is there
already. -/
theorem place_eq_iff_of_parent (C : m.Created m' path place) (hnone : m.leadsTo path = none)
    (h : fileNameOf (m.absolute path) = some leaf)
    (hp : m.leadsTo (renderPath (parentPieces (m.absolute path))) = some p) :
    p ++ [leaf] = place ↔ m.tree (p ++ [leaf]) = none := by
  rw [leadsTo_renderPath parentPieces_slash] at hp
  obtain ⟨⟨l, p⟩, hparent, rfl⟩ := Option.map_eq_some_iff.mp hp
  obtain ⟨k, l', p', hparent', hleaf⟩ := C.parent h
  obtain ⟨rfl, rfl⟩ := Prod.mk.inj (Option.some.inj (hparent'.symm.trans (C.grown.lookup hparent)))
  dsimp only at hparent ⊢
  have hdir' := (lookup_name hleaf).1
  constructor
  · rintro rfl
    by_contra hsome
    obtain ⟨node, hnode⟩ := Option.ne_none_iff_exists'.mp hsome
    obtain ⟨-, he⟩ := C.real p' leaf (List.prefix_refl _)
    obtain ⟨-, node', hnode', hlink⟩ := entry_moved he
    obtain rfl := Option.some.inj ((C.grown.node hnode).symm.trans hnode')
    have hreal : m.tree.Real p' := Tree.Real.nil.lookup hparent
    have hdir := C.grown.real_isDir hreal hdir'
    have hentry := entry_of_node hnode hlink
    have hplace := C.grown.real_isDir (hreal.concat hdir hentry) C.isDir
    have hfull := lookup_of_parent h hparent (lookup_entry hdir hentry) hplace
    rw [leadsTo_eq C.ne_nil, hfull] at hnone
    cases hnone
  · intro hfree
    rcases C.grown (p' ++ [leaf]) with hsame | ⟨-, hnew⟩
    · rw [lookup_no_entry (hsame.trans hfree)] at hleaf
      cases hleaf
    · have hentry := entry_of_node hnew rfl
      rw [lookup_entry hdir' hentry] at hleaf
      exact (Prod.mk.inj (Option.some.inj hleaf)).2

/-- Without a parent, the store is where the text says if the text is that of a place, and no link
is on the way. -/
theorem place_eq_iff_of_text (C : m.Created m' path place)
    (h : fileNameOf (m.absolute path) = some leaf) :
    parentPieces (m.absolute path) ++ [leaf] = place ↔
      (∀ n ∈ parentPieces (m.absolute path), Proper n) ∧
        ∀ p n node, p ++ [n] <+: parentPieces (m.absolute path) ++ [leaf] →
          m.tree (p ++ [n]) = some node → node.isLink = false := by
  constructor
  · intro heq
    constructor
    · intro n hn
      exact m'.proper_of_real C.real n (heq ▸ List.mem_append_left [leaf] hn)
    · intro p n node hfront hnode
      obtain ⟨-, he⟩ := C.real p n (heq ▸ hfront)
      obtain ⟨-, node', hnode', hlink⟩ := entry_moved he
      obtain rfl := Option.some.inj ((C.grown.node hnode).symm.trans hnode')
      exact hlink
  · intro ⟨hproper, hlinks⟩
    obtain ⟨k, l, p, hparent, hleaf⟩ := C.parent h
    have hlookup : m'.tree.lookup m.maxLinks []
        ((parentPieces (m.absolute path) ++ [leaf]).map .name) = some (k, place) := by
      rw [List.map_append, lookup_append, ← List.map_congr_left fun n hn => (hproper n hn).segOf,
        hparent]
      exact hleaf
    have hwalk := @walk_names_of_no_link m'.tree [] (parentPieces (m.absolute path) ++ [leaf]) <| by
      intro q n node _ hq hnode
      rcases C.grown (q ++ [n]) with hsame | ⟨-, hnew⟩
      · exact hlinks q n node hq (hsame.symm.trans hnode)
      · obtain rfl := Option.some.inj (hnew.symm.trans hnode)
        rfl
    rcases lookup_cases hlookup with ⟨hw, -⟩ | ⟨_, _, _, _, hw, -, -⟩
    · rw [hw] at hwalk
      rcases hwalk with hwalk | hwalk
      · cases hwalk
      · exact (Walked.arrived.inj hwalk).symm
    · rw [hw] at hwalk
      rcases hwalk with hwalk | hwalk <;> cases hwalk

theorem stableStorePath_after (C : m.Created m' path place) :
    m'.stableStorePath path = .ok (renderPath place) := by
  rw [stableStorePath, canonicalize, C.leadsTo]
  rfl

/-- The path that stands for a store is the same before and after it is created exactly if it was
settled. -/
theorem stableStorePath_iff (C : m.Created m' path place) :
    m.stableStorePath path = m'.stableStorePath path ↔ m.Settled path := by
  rw [C.stableStorePath_after]
  unfold stableStorePath Settled canonicalize
  cases hleads : m.leadsTo path with
  | some p =>
    obtain rfl := Option.some.inj ((C.leadsTo_of hleads).symm.trans C.leadsTo)
    exact iff_of_true rfl (.inl (Option.some_ne_none p))
  | none =>
    dsimp only [Option.map_none]
    rw [or_iff_right (fun h => h rfl)]
    cases hname : fileNameOf (m.absolute path) with
    | none => simp
    | some leaf =>
      have hleaf := proper_of_fileNameOf hname
      have hinj : ∀ {ps : List Name}, (∀ n ∈ ps, '/' ∉ n) →
          (renderPath (ps ++ [leaf]) = renderPath place ↔ ps ++ [leaf] = place) := by
        intro ps hps
        have hplace := m'.proper_of_real C.real
        refine renderPath_inj ?_ (fun n hn => (hplace n hn).slash) ?_ ?_
        · exact List.forall_mem_append.mpr ⟨hps, fun n hn => List.mem_singleton.mp hn ▸ hleaf.slash⟩
        · rw [List.getLast?_concat]
          exact fun h => hleaf.ne_nil (Option.some.inj h)
        · exact fun h => (hplace [] (List.mem_of_getLast? h)).ne_nil rfl
      simp only [Option.some.injEq, exists_eq_left', Except.ok.injEq]
      cases hparent : m.leadsTo (renderPath (parentPieces (m.absolute path))) with
      | some p =>
        have hp := m.proper_of_real (leadsTo_real hparent)
        rw [Option.map_some, Option.getD_some, joinPath_renderPath
          (fun h => (hp [] (List.mem_of_getLast? h)).ne_nil rfl) fun n hn => (hp n hn).slash,
          hinj fun n hn => (hp n hn).slash]
        exact C.place_eq_iff_of_parent hleads hname hparent
      | none =>
        rw [Option.map_none, Option.getD_none,
          joinPath_renderPath parentPieces_getLast? parentPieces_slash, hinj parentPieces_slash]
        exact C.place_eq_iff_of_text hname

end Created

/-- The short hashes of two paths that stand for the store before and after are one. -/
def ShortCollision (m m' : Machine) (blake3 : List UInt8 → ContentHash) (path : List Char) : Prop :=
  ∃ c c', m.stableStorePath path = .ok c ∧ m'.stableStorePath path = .ok c' ∧ c ≠ c' ∧
    shortHash (blake3 (utf8Bytes c)) = shortHash (blake3 (utf8Bytes c'))

variable {env : Environment} {blake3 : List UInt8 → ContentHash} {other : List Char}

theorem Created.runtimeDirForStore_eq (C : m.Created m' path place) :
    m.runtimeDirForStore env blake3 path = m'.runtimeDirForStore env blake3 path ↔
      m.Settled path ∨ m.ShortCollision m' blake3 path := by
  rw [← C.stableStorePath_iff]
  unfold runtimeDirForStore ShortCollision
  rw [C.stableStorePath_after]
  cases m.stableStorePath path with
  | error e => simp [Except.map]
  | ok c =>
    simp only [Except.map, Except.ok.injEq, joinPath_inj, exists_and_left, exists_eq_left']
    by_cases hc : c = renderPath place
    · rw [hc]
      exact iff_of_true rfl (.inl rfl)
    · rw [or_iff_right hc, and_iff_right hc]

/-- Two paths that lead to a store once it is created have one runtime directory, before that and
after, exactly if both were settled, or else by a collision. -/
theorem runtimeDirForStore_iff (C : m.Created m' path place) (D : m.Created m' other place)
    (env : Environment) (blake3 : List UInt8 → ContentHash) :
    (m.runtimeDirForStore env blake3 path = m'.runtimeDirForStore env blake3 path ∧
      m'.runtimeDirForStore env blake3 path = m'.runtimeDirForStore env blake3 other ∧
      m.runtimeDirForStore env blake3 other = m'.runtimeDirForStore env blake3 other) ↔
    (m.Settled path ∨ m.ShortCollision m' blake3 path) ∧
      (m.Settled other ∨ m.ShortCollision m' blake3 other) := by
  have halias : m'.runtimeDirForStore env blake3 path = m'.runtimeDirForStore env blake3 other := by
    unfold runtimeDirForStore
    rw [C.stableStorePath_after, D.stableStorePath_after]
  rw [C.runtimeDirForStore_eq, D.runtimeDirForStore_eq, and_iff_right halias]

theorem settled_of_parent {p : List Name} (hname : fileNameOf (m.absolute path) = some leaf)
    (hparent : m.leadsTo (renderPath (parentPieces (m.absolute path))) = some p)
    (hfree : m.tree (p ++ [leaf]) = none) : m.Settled path := by
  refine .inr ⟨leaf, hname, ?_⟩
  rw [hparent]
  exact hfree

/-- A process in the root directory. -/
def ofNodes (nodes : List (List Name × Node)) (hproper : ∀ e ∈ nodes, ∀ n ∈ e.1, Proper n) :
    Machine where
  tree := .ofNodes nodes
  cwd := []
  maxLinks := 40
  proper _ _ := proper_of_ofNodes hproper
  real := .nil

/-- A machine with a directory, and with another and a link to it. -/
def dataNodes : List (List Name × Node) :=
  [(["data".toList], .dir), (["real".toList], .dir), (["link".toList], .link "/real".toList)]

def dataMachine : Machine := ofNodes dataNodes (by decide +kernel)

/-- The machine when these directories have been created. -/
def dataMachineWith (new : List (List Name)) (hproper : ∀ p ∈ new, ∀ n ∈ p, Proper n) : Machine :=
  ofNodes (dataNodes ++ new.map fun p => (p, .dir)) <| by
    refine List.forall_mem_append.mpr ⟨by decide +kernel, fun e he => ?_⟩
    obtain ⟨p, hp, rfl⟩ := List.mem_map.mp he
    exact hproper p hp

theorem created_dataMachineWith {new : List (List Name)} {hproper : ∀ p ∈ new, ∀ n ∈ p, Proper n}
    (hleads : (dataMachineWith new hproper).leadsTo path = some place)
    (hdir : (dataMachineWith new hproper).tree.isDir place = true) :
    dataMachine.Created (dataMachineWith new hproper) path place where
  grown := grown_ofNodes fun e he => by
    obtain ⟨p, -, rfl⟩ := List.mem_map.mp he
    rfl
  cwd := rfl
  maxLinks := rfl
  leadsTo := hleads
  isDir := hdir

/-- A hash function for these machines. -/
def pathHash (bytes : List UInt8) : ContentHash :=
  ⟨BitVec.ofNat 256 (bytes.foldl (fun n b => n * 31 + b.toNat) 0) <<< 192⟩

/-- A store in a directory that is there, by its path and by a path with a link and two dots. -/
theorem runtimeDirForStore_data :
    let after := dataMachineWith [["data".toList, "store".toList]] (by decide +kernel)
    let dir (m : Machine) := m.runtimeDirForStore ⟨some "/run/user/1000".toList, none⟩ pathHash
    dir dataMachine "/data/store".toList = dir after "/data/store".toList ∧
      dir after "/data/store".toList = dir after "/link/../data/./store/".toList ∧
      dir dataMachine "/link/../data/./store/".toList =
        dir after "/link/../data/./store/".toList := by
  intro after dir
  have C : dataMachine.Created after "/data/store".toList ["data".toList, "store".toList] :=
    created_dataMachineWith (by decide +kernel) (by decide +kernel)
  have D : dataMachine.Created after "/link/../data/./store/".toList
      ["data".toList, "store".toList] :=
    created_dataMachineWith (by decide +kernel) (by decide +kernel)
  have hfree : dataMachine.tree (["data".toList] ++ ["store".toList]) = none := by decide +kernel
  refine (runtimeDirForStore_iff C D _ pathHash).mpr ⟨.inl ?_, .inl ?_⟩
  · exact settled_of_parent (by decide +kernel) (by decide +kernel) hfree
  · exact settled_of_parent (by decide +kernel) (by decide +kernel) hfree

/-- A store two levels below a link: before it is created its path counts as its text. -/
theorem not_runtimeDirForStore_link :
    let after :=
      dataMachineWith [["real".toList, "a".toList], ["real".toList, "a".toList, "b".toList]]
      (by decide +kernel)
    let path := "/link/a/b".toList
    dataMachine.Created after path ["real".toList, "a".toList, "b".toList] ∧
      dataMachine.stableStorePath path = .ok "/link/a/b".toList ∧
      after.stableStorePath path = .ok "/real/a/b".toList ∧
      dataMachine.runtimeDirForStore ⟨none, none⟩ pathHash path ≠
        after.runtimeDirForStore ⟨none, none⟩ pathHash path := by
  intro after path
  refine ⟨created_dataMachineWith (by decide +kernel) (by decide +kernel), ?_, ?_, ?_⟩
  · decide +kernel
  · decide +kernel
  · decide +kernel

end Machine

end SiftMcp
