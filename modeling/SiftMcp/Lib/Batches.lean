import SiftMcp.Lib.DocIndex
import SiftMcp.Lib.Firsts
import SiftMcp.Lib.RowTable

/-!
# Batches with repeated keys

A row table takes the first element of a batch for each key, a document index keeps the last one.
-/

universe u v w

namespace firsts

variable {α : Type u} {β : Type w} {κ : Type v} [DecidableEq κ] {key : α → κ} {f : β → α}

theorem map {known : List κ} {bs : List β} :
    firsts key known (bs.map f) = (firsts (key ∘ f) known bs).map f := by
  induction bs generalizing known with
  | nil => rfl
  | cons b bs ih =>
    rw [List.map_cons]
    by_cases h : key (f b) ∈ known
    · have hcons : firsts (key ∘ f) known (b :: bs) = firsts (key ∘ f) known bs := cons_of_mem h
      rw [cons_of_mem h, hcons, ih]
    · have hcons : firsts (key ∘ f) known (b :: bs) = b ::
        firsts (key ∘ f) (key (f b) :: known) bs :=
        cons_of_not_mem h
      rw [cons_of_not_mem h, hcons, ih, List.map_cons]

end firsts

namespace RowTable

variable {α : Type u} {κ : Type v} {key : α → κ} [DecidableEq κ] {t : RowTable key} {as : List α}

theorem novel_eq_firsts : t.novel as = firsts key t.keys as := by
  induction as generalizing t with
  | nil => rfl
  | cons a as ih =>
    by_cases h : key a ∈ t.keys
    · rw [novel_of_mem h, firsts.cons_of_mem h, ih]
    · rw [novel_of_not_mem h, firsts.cons_of_not_mem h, ih]
      refine congrArg _ (firsts.congr fun k => ?_)
      rw [mem_keys_insert, List.mem_cons, or_comm, eq_comm]

/-- The rows of a batch in an empty table are numbered as its first elements are. -/
theorem mem_insertAll_empty {row : Nat} {a : α} :
    (row, a) ∈ ((empty : RowTable key).insertAll as).live ↔ (firsts key [] as)[row]? = some a := by
  have hnovel : (empty : RowTable key).novel as = firsts key [] as := novel_eq_firsts
  rw [insertAll_live, hnovel]
  constructor
  · intro h
    obtain ⟨⟨b, i⟩, hi, heq⟩ := List.mem_map.mp h
    obtain ⟨rfl, rfl⟩ := Prod.mk.inj heq
    exact List.mem_zipIdx_iff_getElem?.mp hi
  · exact fun h => List.mem_map.mpr ⟨(a, row), List.mem_zipIdx_iff_getElem?.mpr h, rfl⟩

/-- What is looked up by row. -/
theorem find?_insertAll_empty {row : Nat} :
    (((empty : RowTable key).insertAll as).live.find? (·.1 = row)).map (·.2) =
    (firsts key [] as)[row]? := by
  refine Option.ext fun a => ?_
  rw [← mem_insertAll_empty, Option.map_eq_some_iff]
  constructor
  · rintro ⟨p, hp, rfl⟩
    have hrow : p.1 = row := by simpa using List.find?_some hp
    rw [← hrow]
    exact List.mem_of_find?_eq_some hp
  · intro h
    cases hf : ((empty : RowTable key).insertAll as).live.find? (·.1 = row) with
    | none => simpa using List.find?_eq_none.mp hf _ h
    | some p =>
      have hrow : p.1 = row := by simpa using List.find?_some hf
      exact ⟨p, rfl, congrArg Prod.snd (eq_of_row (List.mem_of_find?_eq_some hf) h hrow)⟩

end RowTable

namespace DocIndex

variable {κ : Type u} {δ : Type v} {α : Type w} [DecidableEq κ] {docs docs' : List (κ × δ)}
  {k k' : κ}

theorem load_append : load k (docs ++ docs') = (load k docs).or (load k docs') := by
  rw [load, List.find?_append, Option.map_or]
  rfl

theorem load_delete : load k (delete k' docs) = if k' = k then none else load k docs := by
  rw [load, delete, List.find?_filter]
  split
  · rename_i h
    rw [Option.map_eq_none_iff, List.find?_eq_none]
    simp [h]
  · rename_i h
    refine congrArg (Option.map _) (congrArg (List.find? · docs) (funext fun p => ?_))
    by_cases hp : p.1 = k
    · simp [hp, Ne.symm h]
    · simp [hp]

theorem load_singleton {p : κ × δ} : load k [p] = if p.1 = k then some p.2 else none := by
  by_cases h : p.1 = k
  · simp [load, h]
  · simp [load, h]

theorem load_put {p : κ × δ} : load k (put p docs) = if p.1 = k then some p.2 else load k docs := by
  rw [put, load_append, load_delete, load_singleton]
  split
  · rfl
  · exact Option.or_none

/-- Of the documents that are put under one key, the last one is found. -/
theorem load_putAll {ps : List (κ × δ)} :
    load k (putAll ps docs) = (load k ps.reverse).or (load k docs) := by
  induction ps generalizing docs with
  | nil => rfl
  | cons p ps ih =>
    have hput : putAll (p :: ps) docs = putAll ps (put p docs) := rfl
    rw [hput, ih, List.reverse_cons, load_append, load_put, load_singleton, Option.or_assoc]
    refine congrArg _ ?_
    split
    · rfl
    · exact Option.none_or.symm

/-- A document that was there before stays only where no other is put. -/
theorem mem_putAll_or {ps : List (κ × δ)} {d : δ} (h : (k, d) ∈ putAll ps docs) :
    (k, d) ∈ ps ∨ (k, d) ∈ docs ∧ k ∉ keys ps := by
  induction ps generalizing docs with
  | nil => exact .inr ⟨h, List.not_mem_nil⟩
  | cons p ps ih =>
    rcases ih h with h | ⟨h, hk⟩
    · exact .inl (List.mem_cons_of_mem p h)
    · rcases mem_put.mp h with rfl | ⟨h, hne⟩
      · exact .inl List.mem_cons_self
      · exact .inr ⟨h, fun hmem => (List.mem_cons.mp hmem).elim hne hk⟩

/-- The last document under a key, where the elements that the documents are made of tell which
are. -/
theorem load_reverse_zip {ks : List κ} {as : List α} {doc : α → δ} {q : α → Bool}
    (H : List.Forall₂ (fun k' a => k' = k ↔ q a = true) ks as) :
    load k (ks.zip (as.map doc)).reverse = (as.reverse.find? q).map doc := by
  induction H with
  | nil => rfl
  | @cons k' a ks as h _ ih =>
    rw [List.map_cons, List.zip_cons_cons, List.reverse_cons, List.reverse_cons, load_append,
      List.find?_append, ih, Option.map_or, load_singleton]
    refine congrArg _ ?_
    by_cases hk : k' = k
    · rw [if_pos hk, List.find?_cons_of_pos (h.mp hk)]
      rfl
    · rw [if_neg hk, List.find?_cons_of_neg (mt h.mpr hk)]
      rfl

end DocIndex
