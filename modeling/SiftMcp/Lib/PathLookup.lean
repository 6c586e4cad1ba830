import Mathlib.Data.List.DropRight

/-!
# Looking up paths

Directories, files and symbolic links, and what a path leads to. A path is taken piece by piece: a
dot stays, as an empty piece does, two dots go up from where the walk has arrived, not in the text,
and a link is replaced by its target, so many times at most. A walk stops at the first link, and
`lookup` goes on behind it.

`lookup_names` says where a path without links leads.
-/

namespace PathLookup

abbrev Name := List Char

/-- What a directory can have as the name of an entry. -/
structure Proper (n : Name) : Prop where
  ne_nil : n ≠ []
  ne_dot : n ≠ ['.']
  ne_dots : n ≠ ['.', '.']
  slash : '/' ∉ n

instance (n : Name) : Decidable (Proper n) :=
  decidable_of_iff (n ≠ [] ∧ n ≠ ['.'] ∧ n ≠ ['.', '.'] ∧ '/' ∉ n)
    ⟨fun ⟨h1, h2, h3, h4⟩ => ⟨h1, h2, h3, h4⟩, fun ⟨h1, h2, h3, h4⟩ => ⟨h1, h2, h3, h4⟩⟩

inductive Seg
  | here | up
  | name (n : Name)
deriving DecidableEq

def segOf (piece : Name) : Seg :=
  if piece = [] ∨ piece = ['.'] then .here
  else if piece = ['.', '.'] then .up
  else .name piece

def segs (text : List Char) : List Seg := (text.splitOn '/').map segOf

/-- The text of an absolute path. -/
def renderPath (names : List Name) : List Char := '/' :: List.intercalate ['/'] names

/-- A file is known by its inode. -/
inductive Node
  | dir
  | file (inode : Nat)
  | link (target : List Char)
  | other
deriving DecidableEq

def Node.isLink : Node → Bool
  | .link _ => true
  | _ => false

/-- The nodes under the names that lead to them from the root, which is a directory. -/
abbrev Tree := List Name → Option Node

/-- What one piece of a path leads to. -/
inductive Step
  | moved (place : List Name)
  | failed
  | met (target : List Char)

/-- Where a walk ends: at the end of the path, nowhere, or in a directory in front of a link. -/
inductive Walked
  | arrived (place : List Name)
  | failed
  | met (place : List Name) (target : List Char) (rest : List Seg)

/-- Where the target of a link begins. -/
def base (p : List Name) (target : List Char) : List Name :=
  if target.head? = some '/' then [] else p

namespace Tree

def isDir (t : Tree) (p : List Name) : Bool := p = [] || t p = some .dir

def entry (t : Tree) (p : List Name) (n : Name) : Step :=
  match t (p ++ [n]) with
  | none => .failed
  | some (.link target) => .met target
  | some _ => .moved (p ++ [n])

/-- Only a directory leads further, even to itself. -/
def step (t : Tree) (p : List Name) (s : Seg) : Step :=
  if t.isDir p then
    match s with
    | .here => .moved p
    | .up => .moved p.dropLast
    | .name n => t.entry p n
  else .failed

def walk (t : Tree) : List Name → List Seg → Walked
  | p, [] => .arrived p
  | p, s :: rest =>
    match t.step p s with
    | .moved q => t.walk q rest
    | .failed => .failed
    | .met target => .met p target rest

/-- The number is that of the links that may still be followed, before and after. -/
def lookup (t : Tree) (links : Nat) (p : List Name) (ss : List Seg) : Option (Nat × List Name) :=
  match t.walk p ss with
  | .arrived q => some (links, q)
  | .failed => none
  | .met q target rest =>
    match links with
    | 0 => none
    | links + 1 => t.lookup links (base q target) (segs target ++ rest)

/-- The names lead to a node through directories, without a link. -/
def Real (t : Tree) (p : List Name) : Prop :=
  ∀ q n, q ++ [n] <+: p → t.isDir q = true ∧ t.entry q n = .moved (q ++ [n])

/-- Directories have come where nothing was. -/
def Grown (t t' : Tree) : Prop := ∀ p, t' p = t p ∨ t p = none ∧ t' p = some .dir

end Tree

open PathLookup.Tree

variable {t t' : Tree} {links k : Nat} {p q : List Name} {ss rest : List Seg} {s : Seg} {n : Name}
  {target : List Char}

/-! ## Walks -/

/-- An entry that is not a link leads to itself. -/
theorem entry_moved (h : t.entry p n = .moved q) :
    q = p ++ [n] ∧ ∃ node, t (p ++ [n]) = some node ∧ node.isLink = false := by
  unfold entry at h
  cases hnode : t (p ++ [n]) with
  | none =>
    rw [hnode] at h
    cases h
  | some node =>
    rw [hnode] at h
    cases node with
    | link target => cases h
    | dir | file _ | other => exact ⟨(Step.moved.inj h).symm, _, rfl, rfl⟩

theorem entry_of_node {node : Node} (h : t (p ++ [n]) = some node) (hlink : node.isLink = false) :
    t.entry p n = .moved (p ++ [n]) := by
  unfold entry
  rw [h]
  cases node with
  | link target => cases hlink
  | dir | file _ | other => rfl

theorem walk_append {xs ys : List Seg} : t.walk p (xs ++ ys) =
    match t.walk p xs with
    | .arrived q => t.walk q ys
    | .failed => .failed
    | .met q target rest => .met q target (rest ++ ys) := by
  induction xs generalizing p with
  | nil => rfl
  | cons s xs ih =>
    rw [List.cons_append, walk, walk]
    cases t.step p s with
    | moved q => exact ih
    | failed | met _ => rfl

/-- A path is followed as far as its first part leads, and then on from there. -/
theorem lookup_append {xs ys : List Seg} : t.lookup links p (xs ++ ys) =
    (t.lookup links p xs).bind fun r => t.lookup r.1 r.2 ys := by
  induction links generalizing p xs with
  | zero =>
    rw [lookup, lookup, walk_append]
    cases t.walk p xs with
    | arrived q => rw [Option.bind_some, lookup]
    | failed | met _ _ _ => rfl
  | succ links ih =>
    rw [lookup, lookup, walk_append]
    cases t.walk p xs with
    | arrived q => rw [Option.bind_some, lookup]
    | failed => rfl
    | met q target rest =>
      dsimp only
      rw [← List.append_assoc]
      exact ih

/-- How a path leads somewhere: without a link, or through one and then on. -/
theorem lookup_cases (h : t.lookup links p ss = some (k, q)) :
    t.walk p ss = .arrived q ∧ k = links ∨
      ∃ place target rest l, t.walk p ss = .met place target rest ∧ links = l + 1 ∧
        t.lookup l (base place target) (segs target ++ rest) = some (k, q) := by
  rw [lookup.eq_def] at h
  cases hw : t.walk p ss with
  | arrived place =>
    rw [hw] at h
    obtain ⟨rfl, rfl⟩ := Prod.mk.inj (Option.some.inj h)
    exact .inl ⟨rfl, rfl⟩
  | failed =>
    rw [hw] at h
    cases h
  | met place target rest =>
    rw [hw] at h
    cases links with
    | zero => cases h
    | succ l => exact .inr ⟨place, target, rest, l, rfl, rfl, h⟩

theorem lookup_links_le (h : t.lookup links p ss = some (k, q)) : k ≤ links := by
  induction links generalizing p ss with
  | zero =>
    rcases lookup_cases h with ⟨-, rfl⟩ | ⟨_, _, _, l, -, hl, -⟩
    · exact Nat.le_refl _
    · cases hl
  | succ links ih =>
    rcases lookup_cases h with ⟨-, rfl⟩ | ⟨_, _, _, l, -, hl, h⟩
    · exact Nat.le_refl _
    · obtain rfl := Nat.succ.inj hl
      exact Nat.le_succ_of_le (ih h)

/-- One name further there is an entry of the directory, or a link has been followed. -/
theorem lookup_name (h : t.lookup links p [.name n] = some (k, q)) : t.isDir p = true ∧
    (k = links ∧ q = p ++ [n] ∧ t (p ++ [n]) ≠ none ∨ k < links) := by
  have hdir : t.isDir p = true := by
    by_contra hdir
    rw [lookup.eq_def, walk, step, if_neg hdir] at h
    cases h
  refine ⟨hdir, ?_⟩
  rcases lookup_cases h with ⟨hw, rfl⟩ | ⟨_, _, _, l, -, rfl, hrest⟩
  · left
    rw [walk, step, if_pos hdir] at hw
    cases he : t.entry p n with
    | moved place =>
      rw [he] at hw
      obtain ⟨rfl, node, hnode, -⟩ := entry_moved he
      refine ⟨rfl, (Walked.arrived.inj hw).symm, ?_⟩
      rw [hnode]
      exact Option.some_ne_none node
    | failed | met _ =>
      rw [he] at hw
      cases hw
  · exact .inr (Nat.lt_succ_of_le (lookup_links_le hrest))

theorem isDir_nil : t.isDir [] = true := rfl

theorem lookup_nil : t.lookup links p [] = some (links, p) := by rw [lookup.eq_def, walk]

theorem lookup_here (hdir : t.isDir p = true) :
    t.lookup links p (.here :: ss) = t.lookup links p ss := by
  rw [lookup.eq_def, lookup.eq_def, walk, step, if_pos hdir]

/-- Dots lead from a directory to itself. -/
theorem lookup_dots (hs : ∀ s ∈ ss, s = .here) (hdir : t.isDir p = true) :
    t.lookup links p ss = some (links, p) := by
  induction ss with
  | nil => exact lookup_nil
  | cons s ss ih =>
    obtain ⟨rfl, hrest⟩ := List.forall_mem_cons.mp hs
    rw [lookup_here hdir, ih hrest]

theorem eq_of_lookup_dots (hs : ∀ s ∈ ss, s = .here) (h : t.lookup links p ss = some (k, q)) :
    k = links ∧ q = p := by
  cases ss with
  | nil =>
    rw [lookup_nil] at h
    obtain ⟨rfl, rfl⟩ := Prod.mk.inj (Option.some.inj h)
    exact ⟨rfl, rfl⟩
  | cons s ss =>
    have hs' := hs
    obtain ⟨rfl, -⟩ := List.forall_mem_cons.mp hs
    by_cases hdir : t.isDir p = true
    · rw [lookup_dots hs' hdir] at h
      obtain ⟨rfl, rfl⟩ := Prod.mk.inj (Option.some.inj h)
      exact ⟨rfl, rfl⟩
    · rw [lookup.eq_def, walk, step, if_neg hdir] at h
      cases h

theorem lookup_no_entry (h : t (p ++ [n]) = none) : t.lookup links p [.name n] = none := by
  rw [lookup.eq_def, walk, step, entry, h]
  cases t.isDir p <;> rfl

theorem lookup_entry (hdir : t.isDir p = true) (he : t.entry p n = .moved (p ++ [n])) :
    t.lookup links p [.name n] = some (links, p ++ [n]) := by
  rw [lookup.eq_def, walk, step, if_pos hdir]
  simp only [he]
  rfl

/-! ## Real places -/

theorem Tree.Real.nil : t.Real [] := by
  intro q n h
  have := h.length_le
  simp at this

theorem Tree.Real.dropLast (h : t.Real p) : t.Real p.dropLast :=
  fun q n hq => h q n (hq.trans (List.dropLast_prefix p))

theorem Tree.Real.concat (h : t.Real p) (hdir : t.isDir p = true)
    (he : t.entry p n = .moved (p ++ [n])) : t.Real (p ++ [n]) := by
  intro q m hq
  rcases List.prefix_concat_iff.mp hq with heq | hq
  · obtain ⟨rfl, hlast⟩ := List.append_inj' heq rfl
    obtain rfl := List.singleton_inj.mp hlast
    exact ⟨hdir, he⟩
  · exact h q m hq

theorem Tree.Real.step (h : t.Real p) (hs : t.step p s = .moved q) : t.Real q := by
  unfold Tree.step at hs
  split at hs
  · next hdir =>
    cases s with
    | here => exact Step.moved.inj hs ▸ h
    | up => exact Step.moved.inj hs ▸ h.dropLast
    | name n =>
      obtain ⟨rfl, -⟩ := entry_moved hs
      exact h.concat hdir hs
  · cases hs

theorem Tree.Real.walk (h : t.Real p) : match t.walk p ss with
    | .arrived q | .met q _ _ => t.Real q
    | .failed => True := by
  induction ss generalizing p with
  | nil => exact h
  | cons s ss ih =>
    rw [Tree.walk]
    cases hs : t.step p s with
    | moved q => exact ih (h.step hs)
    | failed => trivial
    | met target => exact h

/-- Wherever a path leads to from a real place is a real place. -/
theorem Tree.Real.lookup (h : t.Real p) (hq : t.lookup links p ss = some (k, q)) : t.Real q := by
  induction links generalizing p ss with
  | zero =>
    have hw := @Tree.Real.walk t p ss h
    rcases lookup_cases hq with ⟨heq, -⟩ | ⟨_, _, _, l, -, hl, -⟩
    · rwa [heq] at hw
    · cases hl
  | succ links ih =>
    have hw := @Tree.Real.walk t p ss h
    rcases lookup_cases hq with ⟨heq, -⟩ | ⟨place, target, rest, l, heq, hl, hq⟩
    · rwa [heq] at hw
    · rw [heq] at hw
      obtain rfl := Nat.succ.inj hl
      refine ih ?_ hq
      unfold base
      split
      · exact .nil
      · exact hw

/-- The names of a real place lead to it, and follow no link. -/
theorem walk_names (h : t.Real (p ++ q)) : t.walk p (q.map .name) = .arrived (p ++ q) := by
  induction q generalizing p with
  | nil =>
    rw [List.append_nil]
    rfl
  | cons n q ih =>
    obtain ⟨hdir, he⟩ := h p n ⟨q, by rw [List.append_assoc]; rfl⟩
    have hrest := @ih (p ++ [n]) (by rwa [List.append_assoc])
    rw [List.append_assoc] at hrest
    rw [List.map_cons, walk, step, if_pos hdir]
    simp only [he]
    exact hrest

/-- With no link on the way, names lead nowhere or to the place that they name. -/
theorem walk_names_of_no_link {names : List Name}
    (h : ∀ q n node, p <+: q → q ++ [n] <+: p ++ names → t (q ++ [n]) = some node →
      node.isLink = false) :
    t.walk p (names.map .name) = .failed ∨ t.walk p (names.map .name) = .arrived (p ++ names) := by
  induction names generalizing p with
  | nil =>
    rw [List.append_nil]
    exact .inr rfl
  | cons n names ih =>
    rw [List.map_cons, walk, step]
    cases t.isDir p with
    | false => exact .inl rfl
    | true =>
      rw [if_pos rfl]
      cases hnode : t (p ++ [n]) with
      | none =>
        left
        rw [entry, hnode]
      | some node =>
        rw [List.append_cons p n names] at h ⊢
        have he := entry_of_node hnode
          (h p n node (List.prefix_refl p) (List.prefix_append _ names) hnode)
        simp only [he]
        exact ih fun q m node hq => h q m node ((List.prefix_append p [n]).trans hq)

theorem lookup_names (h : t.Real q) : t.lookup links [] (q.map .name) = some (links, q) := by
  rw [lookup.eq_def, walk_names (p := []) h]
  rfl

/-! ## Directories that are added -/

namespace Tree.Grown

theorem node {node : Node} (h : Grown t t') (hp : t p = some node) : t' p = some node := by
  rcases h p with h | ⟨h, -⟩
  · rw [h, hp]
  · rw [h] at hp
    cases hp

theorem isDir (h : Grown t t') (hp : t.isDir p = true) : t'.isDir p = true := by
  rcases Bool.or_eq_true_iff.mp hp with hp | hp
  · exact Bool.or_eq_true_iff.mpr (.inl hp)
  · exact Bool.or_eq_true_iff.mpr (.inr (decide_eq_true (h.node (of_decide_eq_true hp))))

theorem entry (h : Grown t t') (hne : t.entry p n ≠ .failed) : t'.entry p n = t.entry p n := by
  unfold Tree.entry at hne ⊢
  cases hnode : t (p ++ [n]) with
  | none =>
    rw [hnode] at hne
    exact absurd rfl hne
  | some node => rw [h.node hnode]

theorem step (h : Grown t t') (hne : t.step p s ≠ .failed) : t'.step p s = t.step p s := by
  unfold Tree.step at hne ⊢
  by_cases hdir : t.isDir p = true
  · rw [if_pos hdir] at hne ⊢
    rw [if_pos (h.isDir hdir)]
    cases s with
    | here | up => rfl
    | name n => exact h.entry hne
  · rw [if_neg hdir] at hne
    exact absurd rfl hne

theorem walk (h : Grown t t') (hne : t.walk p ss ≠ .failed) : t'.walk p ss = t.walk p ss := by
  induction ss generalizing p with
  | nil => rfl
  | cons s ss ih =>
    rw [Tree.walk] at hne
    have hstep : t'.step p s = t.step p s := by
      apply h.step
      intro hs
      rw [hs] at hne
      exact hne rfl
    rw [Tree.walk, Tree.walk, hstep]
    cases hs : t.step p s with
    | moved q =>
      rw [hs] at hne
      exact ih hne
    | failed | met _ => rfl

/-- What was there is a directory only if it was one. -/
theorem real_isDir (h : Grown t t') (hp : t.Real p) (hdir : t'.isDir p = true) :
    t.isDir p = true := by
  rcases List.eq_nil_or_concat p with rfl | ⟨q, n, rfl⟩
  · rfl
  · rw [List.concat_eq_append] at hp hdir ⊢
    obtain ⟨-, he⟩ := hp q n (List.prefix_refl _)
    obtain ⟨-, node, hnode, -⟩ := entry_moved he
    unfold Tree.isDir at hdir ⊢
    rw [hnode]
    rwa [h.node hnode] at hdir

/-- What a path has led to it still leads to. -/
theorem lookup (h : Grown t t') (hq : t.lookup links p ss = some (k, q)) :
    t'.lookup links p ss = some (k, q) := by
  induction links generalizing p ss with
  | zero =>
    rcases lookup_cases hq with ⟨hw, rfl⟩ | ⟨_, _, _, l, -, hl, -⟩
    · rw [Tree.lookup.eq_def, h.walk (hw ▸ nofun), hw]
    · cases hl
  | succ links ih =>
    rcases lookup_cases hq with ⟨hw, rfl⟩ | ⟨_, _, _, l, hw, hl, hq⟩
    · rw [Tree.lookup.eq_def, h.walk (hw ▸ nofun), hw]
    · obtain rfl := Nat.succ.inj hl
      rw [Tree.lookup.eq_def, h.walk (hw ▸ nofun), hw]
      exact ih hq

end Tree.Grown

/-! ## Trees from lists -/

/-- The tree with these nodes. -/
def Tree.ofNodes (nodes : List (List Name × Node)) : Tree := fun p => nodes.lookup p

theorem ofNodes_ne_none_iff {nodes : List (List Name × Node)} :
    ofNodes nodes p ≠ none ↔ ∃ e ∈ nodes, e.1 = p := by
  rw [ne_eq, ofNodes, List.lookup_eq_none_iff, Classical.not_forall]
  refine exists_congr fun e => ?_
  rw [Classical.not_imp, Bool.not_eq_true, bne_eq_false_iff_eq, eq_comm]

theorem proper_of_ofNodes {nodes : List (List Name × Node)}
    (hproper : ∀ e ∈ nodes, ∀ n ∈ e.1, Proper n) (h : ofNodes nodes (p ++ [n]) ≠ none) :
    Proper n := by
  obtain ⟨e, he, heq⟩ := ofNodes_ne_none_iff.mp h
  exact hproper e he n (heq ▸ List.mem_append_right _ (List.mem_singleton_self n))

theorem grown_ofNodes {nodes new : List (List Name × Node)} (h : ∀ e ∈ new, e.2 = .dir) :
    (ofNodes nodes).Grown (ofNodes (nodes ++ new)) := by
  intro p
  unfold ofNodes
  rw [List.lookup_append]
  cases nodes.lookup p with
  | some node => exact .inl rfl
  | none =>
    rw [Option.none_or]
    cases hnew : new.lookup p with
    | none => exact .inl rfl
    | some node =>
      obtain ⟨l₁, l₂, rfl, -⟩ := List.lookup_eq_some_iff.mp hnew
      exact .inr ⟨rfl, congrArg some (h _ (List.mem_append_right l₁ List.mem_cons_self))⟩

/-! ## Texts of paths -/

theorem Proper.segOf (h : Proper n) : segOf n = .name n := by
  rw [PathLookup.segOf, if_neg (not_or.mpr ⟨h.ne_nil, h.ne_dot⟩), if_neg h.ne_dots]

/-- Names with slashes between them lead from one entry to the next. -/
theorem segs_intercalate {names : List Name} (h : ∀ n ∈ names, Proper n) (hne : names ≠ []) :
    segs (List.intercalate ['/'] names) = names.map .name := by
  rw [segs, List.splitOn_intercalate '/' (fun n hn => (h n hn).slash) hne]
  exact List.map_congr_left fun n hn => (h n hn).segOf

theorem head?_intercalate_ne {names : List Name} (h : ∀ n ∈ names, Proper n) :
    (List.intercalate ['/'] names).head? ≠ some '/' := by
  cases names with
  | nil => exact nofun
  | cons n names =>
    obtain ⟨hn, -⟩ := List.forall_mem_cons.mp h
    have hhead : (List.intercalate ['/'] (n :: names)).head? = n.head? := by
      cases names with
      | nil => rw [List.intercalate_singleton]
      | cons m names =>
        rw [List.intercalate_cons_cons, List.append_assoc, List.head?_append_of_ne_nil _ hn.ne_nil]
    rw [hhead]
    exact fun heq => hn.slash (List.mem_of_head? heq)

theorem segs_append {a b : List Char} : segs (a ++ '/' :: b) = segs a ++ segs b := by
  rw [segs, List.splitOn_append_cons_self, List.map_append]
  rfl

theorem slash_not_mem_of_mem_splitOn {text : List Char} {piece : Name}
    (h : piece ∈ text.splitOn '/') : '/' ∉ piece := by
  induction text generalizing piece with
  | nil =>
    rw [List.splitOn_nil, List.mem_singleton] at h
    rw [h]
    exact List.not_mem_nil
  | cons c text ih =>
    rw [List.splitOn_cons_eq_if_modifyHead] at h
    split at h
    · rcases List.mem_cons.mp h with rfl | h
      · exact List.not_mem_nil
      · exact ih h
    · next hc =>
      obtain ⟨first, rest, hsplit⟩ := List.exists_cons_of_ne_nil (List.splitOn_ne_nil '/' text)
      rw [hsplit] at h ih
      rcases List.mem_cons.mp h with rfl | h
      · refine List.not_mem_cons_of_ne_of_not_mem (fun heq => ?_) (ih List.mem_cons_self)
        exact hc (beq_iff_eq.mpr heq.symm)
      · exact ih (List.mem_cons_of_mem _ h)

theorem intercalate_concat {sep : List Char} {names : List Name} (hne : names ≠ []) :
    List.intercalate sep (names ++ [n]) = List.intercalate sep names ++ sep ++ n := by
  induction names with
  | nil => exact absurd rfl hne
  | cons m names ih =>
    cases names with
    | nil => simp
    | cons m' names =>
      rw [List.cons_append, List.intercalate_cons_of_ne_nil (List.cons_ne_nil _ _),
        List.intercalate_cons_of_ne_nil (by simp), ih (List.cons_ne_nil _ _)]
      simp only [List.append_assoc]

theorem renderPath_concat {names : List Name} (hne : names ≠ []) :
    renderPath (names ++ [n]) = renderPath names ++ '/' :: n := by
  rw [renderPath, intercalate_concat hne, renderPath]
  simp

theorem getLast?_renderPath_ne {names : List Name} (hne : names ≠ [])
    (hlast : names.getLast? ≠ some []) (h : ∀ n ∈ names, '/' ∉ n) :
    (renderPath names).getLast? ≠ some '/' := by
  obtain ⟨init, n, rfl⟩ := (List.eq_nil_or_concat names).resolve_left hne
  rw [List.concat_eq_append] at hlast h ⊢
  rw [List.getLast?_concat] at hlast
  have hn : n ≠ [] := fun h => hlast (congrArg some h)
  have htext : ∃ front, renderPath (init ++ [n]) = front ++ n := by
    by_cases hinit : init = []
    · exact ⟨['/'], by rw [hinit]; simp [renderPath]⟩
    · exact ⟨renderPath init ++ ['/'], by rw [renderPath_concat hinit]; simp⟩
  obtain ⟨front, hfront⟩ := htext
  rw [hfront, List.getLast?_append_of_ne_nil _ hn]
  intro hslash
  exact h n (List.mem_append_right _ (List.mem_singleton_self n)) (List.mem_of_getLast? hslash)

/-- A text tells the pieces apart that it has been put together from. -/
theorem renderPath_inj {a b : List Name} (ha : ∀ n ∈ a, '/' ∉ n) (hb : ∀ n ∈ b, '/' ∉ n)
    (ha' : a.getLast? ≠ some []) (hb' : b.getLast? ≠ some []) : renderPath a = renderPath b ↔
      a = b := by
  refine ⟨fun h => ?_, congrArg renderPath⟩
  have htext := (List.cons.inj h).2
  by_cases hna : a = []
  · by_cases hnb : b = []
    · rw [hna, hnb]
    · have hsplit := List.splitOn_intercalate '/' hb hnb
      rw [← htext, hna, List.intercalate_nil, List.splitOn_nil] at hsplit
      rw [← hsplit] at hb'
      exact absurd rfl hb'
  · have hsplit := List.splitOn_intercalate '/' ha hna
    by_cases hnb : b = []
    · rw [htext, hnb, List.intercalate_nil, List.splitOn_nil] at hsplit
      rw [← hsplit] at ha'
      exact absurd rfl ha'
    · rw [htext, List.splitOn_intercalate '/' hb hnb] at hsplit
      exact hsplit.symm

end PathLookup
