import SiftMcp.Storage.Store

/-!
# The manifest is read back as it was written

By `activePaths_published`, `activePaths` of the text that `publishManifest` writes gives the pair
that was published, for every pair of names a generation can have.
-/

namespace SiftMcp
open Durable

/-- A file name that stands on one line and names no other directory. -/
structure PlainName (name : String) : Prop where
  newline : '\n' ∉ name.toList
  carriageReturn : '\r' ∉ name.toList
  slash : '/' ∉ name.toList
  head : ∃ c, name.toList.head? = some c ∧ c ≠ '.'

theorem generationName_toList (base : String) (pid nanos : Nat) :
    (ChunkStore.generationName base pid nanos).toList = base.toList ++
      (".generation-".toList ++ ((toString pid).toList ++ ('-' :: (toString nanos).toList))) := by
  simp [ChunkStore.generationName, toString]

/-- No generation bears the name that it is made from. -/
theorem generationName_ne (base : String) (pid nanos : Nat) :
    ChunkStore.generationName base pid nanos ≠ base := by
  intro h
  have hlist := generationName_toList base pid nanos
  rw [h, List.self_eq_append_right, List.append_eq_nil_iff] at hlist
  exact absurd hlist.1 (by decide)

theorem PlainName.generation {base : String} (H : PlainName base) (pid nanos : Nat) :
    PlainName (ChunkStore.generationName base pid nanos) := by
  have hdigits : ∀ n : Nat, ∀ c, c.isDigit = false → c ∉ (toString n).toList := by
    intro n c hc hmem
    rw [Nat.toString_eq_repr, Nat.toList_repr] at hmem
    rw [Nat.isDigit_of_mem_toDigits (by decide) (by decide) hmem] at hc
    cases hc
  have hmem : ∀ c, c.isDigit = false → c ∉ ".generation-".toList → c ∉ base.toList →
      c ∉ (ChunkStore.generationName base pid nanos).toList := by
    intro c hc hg hb
    rw [generationName_toList]
    have hdash : c ≠ '-' := fun h => hg (by rw [h]; decide)
    simp only [List.mem_append, List.mem_cons, not_or]
    exact ⟨hb, hg, hdigits pid c hc, hdash, hdigits nanos c hc⟩
  obtain ⟨c, hc, hdot⟩ := H.head
  refine ⟨hmem _ (by decide) (by decide) H.newline, hmem _ (by decide) (by decide) H.carriageReturn,
    hmem _ (by decide) (by decide) H.slash, c, ?_, hdot⟩
  rw [generationName_toList, List.head?_append, hc, Option.some_or]

theorem plainName_dbName : PlainName dbName := ⟨by decide, by decide, by decide, 'c', by decide⟩

theorem plainName_matrixName : PlainName matrixName :=
  ⟨by decide, by decide, by decide, 'e', by decide⟩

theorem checkManifestName_ok {name : String} (H : PlainName name) (field : String) :
    checkManifestName (some name) field = .ok name := by
  obtain ⟨c, hc, hdot⟩ := H.head
  cases hl : name.toList with
  | nil => rw [hl] at hc; cases hc
  | cons c' l =>
    rw [hl] at hc
    obtain rfl : c' = c := by simpa using hc
    have hslash : c' ≠ '/' := fun h => H.slash (by rw [hl, h]; exact List.mem_cons_self)
    have hsplit := List.splitOn_eq_singleton H.slash
    have hback : String.ofList (c' :: l) = name := by rw [← hl, String.ofList_toList]
    have hcomp : pathComponents name = [.normal name] := by
      rw [hl] at hsplit
      simp [pathComponents, hl, hsplit, hslash, hdot, hback]
    simp [checkManifestName, hcomp]

theorem textLines_three {a b c : List Char} (ha : '\n' ∉ a) (hb : '\n' ∉ b) (hc : '\n' ∉ c)
    (ha' : '\r' ∉ a) (hb' : '\r' ∉ b) (hc' : '\r' ∉ c) {s : String}
    (hs : s.toList = a ++ '\n' :: (b ++ '\n' :: (c ++ ['\n']))) : textLines s = [a, b, c] := by
  have hlast : ∀ {l : List Char}, '\r' ∉ l →
      (if l.getLast? = some '\r' then l.dropLast else l) = l := by
    intro l hl
    rw [if_neg]
    exact fun h => hl (List.mem_of_getLast? h)
  rw [textLines, hs, List.splitOn_append_cons_self_of_not_mem ha,
    List.splitOn_append_cons_self_of_not_mem hb, List.splitOn_append_cons_self_of_not_mem hc]
  simp [hlast ha', hlast hb', hlast hc']

theorem stripPrefix_append (p : List Char) (name : String) :
    stripPrefix p (p ++ name.toList) = some name := by
  have : p.isPrefixOf (p ++ name.toList) = true := by
    rw [List.isPrefixOf_iff_prefix]; exact List.prefix_append ..
  rw [stripPrefix, if_pos this, List.drop_left, String.ofList_toList]

theorem stripPrefix_other {p q l : List Char} (h : p.head? ≠ q.head?) (hq : q ≠ []) (hp : p ≠ []) :
    stripPrefix p (q ++ l) = none := by
  cases p with
  | nil => exact absurd rfl hp
  | cons c p =>
    cases q with
    | nil => exact absurd rfl hq
    | cons c' q =>
      have hc : c ≠ c' := fun e => h (congrArg some e)
      rw [stripPrefix, if_neg]
      simp [List.isPrefixOf, hc]

/-- What `publishManifest` writes, `activePaths` reads. -/
theorem activePaths_published {d : Dir} {db matrix : String} (hdb : PlainName db)
    (hm : PlainName matrix)
    (hd : d manifestName = some (.text s!"version=1\ndb={db}\nmatrix={matrix}\n")) :
    activePaths d = .ok (db, matrix) := by
  have hlines : textLines s!"version=1\ndb={db}\nmatrix={matrix}\n" =
      ["version=1".toList, "db=".toList ++ db.toList, "matrix=".toList ++ matrix.toList] := by
    refine textLines_three (by decide) ?_ ?_ (by decide) ?_ ?_ ?_
    · simpa using hdb.newline
    · simpa using hm.newline
    · simpa using hdb.carriageReturn
    · simpa using hm.carriageReturn
    · simp only [toString, String.toList_append, List.append_assoc]; rfl
  have hversion : ∀ p : List Char, p.head? ≠ some 'v' → p ≠ [] →
      stripPrefix p "version=1".toList = none := fun p h hp => by
    rw [← List.append_nil "version=1".toList]; exact stripPrefix_other h (by decide) hp
  have hd1 : manifestField "db=" ["version=1".toList, "db=".toList ++ db.toList,
      "matrix=".toList ++ matrix.toList] = some db := by
    simp only [manifestField, List.foldl_cons, List.foldl_nil]
    rw [hversion _ (by decide) (by decide), stripPrefix_append,
      stripPrefix_other (by decide) (by decide) (by decide)]
    rfl
  have hm1 : manifestField "matrix=" ["version=1".toList, "db=".toList ++ db.toList,
      "matrix=".toList ++ matrix.toList] = some matrix := by
    simp only [manifestField, List.foldl_cons, List.foldl_nil]
    rw [hversion _ (by decide) (by decide), stripPrefix_append,
      stripPrefix_other (by decide) (by decide) (by decide)]
    rfl
  simp only [activePaths, hd, hlines, hd1, hm1, checkManifestName_ok hdb, checkManifestName_ok hm]
  rfl

end SiftMcp
