import Mathlib.Data.List.Nodup
import Mathlib.Data.List.Perm.Basic

/-!
# Document indexes with staged writes

An index of documents by key, with a writer and a reader. The writer stages deletions and additions
in the order they are issued: a deletion takes away the documents of its key that were staged
before it, and none that is added after it. A commit makes the staged documents durable, a reload
shows them to the reader. `moveAll` rewrites documents that the reader still sees under their old
keys, one key after the other.

`mem_moveAll` says which documents there are after that.
-/

universe u v

structure DocIndex (κ : Type u) (δ : Type v) where
  /-- What is found again after a restart. -/
  durable : List (κ × δ)
  /-- What the next commit makes durable. -/
  staged : List (κ × δ)
  /-- What the reader saw when it was last reloaded. -/
  reader : List (κ × δ)

namespace DocIndex

variable {κ : Type u} {δ : Type v}

def «open» (docs : List (κ × δ)) : DocIndex κ δ := ⟨docs, docs, docs⟩

def keys (docs : List (κ × δ)) : List κ := docs.map (·.1)

theorem mem_keys {docs : List (κ × δ)} {k : κ} : k ∈ keys docs ↔ ∃ d, (k, d) ∈ docs := by
  simp [keys]

variable [DecidableEq κ]

def load (k : κ) (docs : List (κ × δ)) : Option δ := (docs.find? (·.1 = k)).map (·.2)

def delete (k : κ) (docs : List (κ × δ)) : List (κ × δ) := docs.filter (·.1 ≠ k)

def deleteAll (ks : List κ) (docs : List (κ × δ)) : List (κ × δ) :=
  ks.foldl (fun docs k => delete k docs) docs

/-- Replace the documents of a key. -/
def put (p : κ × δ) (docs : List (κ × δ)) : List (κ × δ) := delete p.1 docs ++ [p]

def putAll (ps : List (κ × δ)) (docs : List (κ × δ)) : List (κ × δ) :=
  ps.foldl (fun docs p => put p docs) docs

/-- A document goes to another key and is changed on the way. -/
structure Move (κ : Type u) (δ : Type v) where
  source : κ
  target : κ
  change : δ → δ

/-- The document is read from what the reader sees; a key without a document is skipped. -/
def move (reader : List (κ × δ)) (m : Move κ δ) (docs : List (κ × δ)) : List (κ × δ) :=
  match load m.source reader with
  | none => docs
  | some d => put (m.target, m.change d) (delete m.source docs)

def moveAll (reader : List (κ × δ)) (ms : List (Move κ δ)) (docs : List (κ × δ)) :
    List (κ × δ) :=
  ms.foldl (fun docs m => move reader m docs) docs

/-! ## One document for each key -/

def Unique (docs : List (κ × δ)) : Prop := (keys docs).Nodup

variable {docs : List (κ × δ)} {k k' : κ} {d : δ}

omit [DecidableEq κ] in
theorem Unique.eq (H : Unique docs) {d' : δ} (h : (k, d) ∈ docs) (h' : (k, d') ∈ docs) : d = d' :=
  congrArg Prod.snd (List.inj_on_of_nodup_map H h h' rfl)

theorem Unique.load (H : Unique docs) (h : (k, d) ∈ docs) : load k docs = some d := by
  unfold DocIndex.load
  cases hf : docs.find? (·.1 = k) with
  | none => simpa using List.find?_eq_none.mp hf _ h
  | some p =>
    obtain ⟨k', d'⟩ := p
    have hk : k' = k := by simpa using List.find?_some hf
    have hmem := List.mem_of_find?_eq_some hf
    rw [hk] at hmem
    rw [Option.map_some, H.eq h hmem]

theorem mem_of_load (h : load k docs = some d) : (k, d) ∈ docs := by
  obtain ⟨⟨k', d'⟩, hf, rfl⟩ := Option.map_eq_some_iff.mp h
  have hk : k' = k := by simpa using List.find?_some hf
  rw [← hk]
  exact List.mem_of_find?_eq_some hf

@[simp] theorem delete_delete : delete k (delete k docs) = delete k docs := by
  simp only [delete, List.filter_filter, Bool.and_self]

@[simp] theorem mem_delete : (k, d) ∈ delete k' docs ↔ (k, d) ∈ docs ∧ k ≠ k' := by
  simp [delete]

theorem Unique.delete (H : Unique docs) : Unique (delete k docs) :=
  List.Nodup.sublist (List.filter_sublist.map _) H

@[simp] theorem mem_put {p : κ × δ} :
    (k, d) ∈ put p docs ↔ (k, d) = p ∨ (k, d) ∈ docs ∧ k ≠ p.1 := by
  rw [put, List.mem_append, mem_delete, List.mem_singleton, or_comm]

theorem Unique.put (H : Unique docs) {p : κ × δ} : Unique (put p docs) := by
  rw [Unique, keys, DocIndex.put, List.map_append, List.nodup_append]
  refine ⟨H.delete, by simp, ?_⟩
  intro k hk k' hk'
  obtain ⟨d, hd⟩ := mem_keys.mp hk
  rw [List.map_singleton, List.mem_singleton] at hk'
  rw [hk']
  exact (mem_delete.mp hd).2

theorem mem_deleteAll {ks : List κ} :
    (k, d) ∈ deleteAll ks docs ↔ (k, d) ∈ docs ∧ k ∉ ks := by
  induction ks generalizing docs with
  | nil => simp [deleteAll]
  | cons k' ks ih =>
    rw [deleteAll, List.foldl_cons]
    refine ih.trans ?_
    rw [mem_delete, List.mem_cons, not_or, and_assoc]

theorem Unique.deleteAll {ks : List κ} (H : Unique docs) : Unique (deleteAll ks docs) := by
  induction ks generalizing docs with
  | nil => exact H
  | cons k ks ih => exact ih H.delete

theorem mem_putAll {ps : List (κ × δ)} (hps : Unique ps) :
    (k, d) ∈ putAll ps docs ↔ (k, d) ∈ ps ∨ (k, d) ∈ docs ∧ k ∉ keys ps := by
  induction ps generalizing docs with
  | nil => simp [putAll, keys]
  | cons p ps ih =>
    rw [Unique, keys, List.map_cons, List.nodup_cons] at hps
    rw [putAll, List.foldl_cons]
    refine (ih hps.2).trans ?_
    rw [mem_put, List.mem_cons, keys, keys, List.map_cons, List.mem_cons, not_or]
    constructor
    · rintro (h | ⟨h | h, hk⟩)
      · exact .inl (.inr h)
      · exact .inl (.inl h)
      · exact .inr ⟨h.1, h.2, hk⟩
    · rintro ((h | h) | ⟨h, hne, hk⟩)
      · refine .inr ⟨.inl h, ?_⟩
        rw [show k = p.1 from congrArg Prod.fst h]
        exact hps.1
      · exact .inl h
      · exact .inr ⟨.inr ⟨h, hne⟩, hk⟩

theorem mem_of_mem_putAll {ps : List (κ × δ)} (h : (k, d) ∈ putAll ps docs) :
    (k, d) ∈ ps ∨ (k, d) ∈ docs := by
  induction ps generalizing docs with
  | nil => exact .inr h
  | cons p ps ih =>
    rcases ih h with h | h
    · exact .inl (List.mem_cons_of_mem p h)
    · rcases mem_put.mp h with rfl | ⟨h, -⟩
      · exact .inl List.mem_cons_self
      · exact .inr h

theorem Unique.putAll {ps : List (κ × δ)} (H : Unique docs) : Unique (putAll ps docs) := by
  induction ps generalizing docs with
  | nil => exact H
  | cons p ps ih => exact ih H.put

/-! ## Moving documents -/

/-- The document of a move, where it has arrived. -/
def Arrived (docs : List (κ × δ)) (ms : List (Move κ δ)) (p : κ × δ) : Prop :=
  ∃ m ∈ ms, ∃ d, (m.source, d) ∈ docs ∧ p = (m.target, m.change d)

/-- A document has stayed, or has arrived by a move. -/
theorem mem_of_mem_moveAll {reader : List (κ × δ)} {ms : List (Move κ δ)}
    (h : (k, d) ∈ moveAll reader ms docs) : (k, d) ∈ docs ∨ Arrived reader ms (k, d) := by
  induction ms generalizing docs with
  | nil => exact .inl h
  | cons m ms ih =>
    rcases ih h with h | ⟨m', hm', h⟩
    · have h : (k, d) ∈ move reader m docs := h
      unfold move at h
      split at h
      · exact .inl h
      · rename_i d' hd'
        rcases mem_put.mp h with h | ⟨h, -⟩
        · exact .inr ⟨m, List.mem_cons_self, d', mem_of_load hd', h⟩
        · exact .inl (mem_delete.mp h).1
    · exact .inr ⟨m', List.mem_cons_of_mem m hm', h⟩

theorem Unique.moveAll (H : Unique docs) {reader : List (κ × δ)} {ms : List (Move κ δ)} :
    Unique (moveAll reader ms docs) := by
  induction ms generalizing docs with
  | nil => exact H
  | cons m ms ih =>
    have hmove : Unique (move reader m docs) := by
      unfold move
      split
      · exact H
      · exact H.delete.put
    exact ih hmove

/-- No move arrives at a key that a later move starts from, and no two arrive at one key. So none of
them overwrites a document that is still to be moved, or one that has been. -/
theorem mem_moveAll_from {reader : List (κ × δ)} (H : Unique reader) :
    ∀ (ms done : List (Move κ δ)) (docs : List (κ × δ)),
      (∀ m ∈ ms, m.source ∈ keys reader) →
      (done ++ ms).Pairwise (fun m m' => m.target ≠ m'.source ∧ m.target ≠ m'.target) →
      (∀ k d, (k, d) ∈ docs ↔ Arrived reader done (k, d) ∨
        (k, d) ∈ reader ∧ ∀ m ∈ done, k ≠ m.source ∧ k ≠ m.target) →
      ∀ k d, (k, d) ∈ moveAll reader ms docs ↔ Arrived reader (done ++ ms) (k, d) ∨
        (k, d) ∈ reader ∧ ∀ m ∈ done ++ ms, k ≠ m.source ∧ k ≠ m.target
  | [], _, _, _, _, hdocs => by simpa [moveAll] using hdocs
  | m :: ms, done, docs, hsource, hpair, hdocs => by
    obtain ⟨d₀, hd₀⟩ := mem_keys.mp (hsource m List.mem_cons_self)
    have happ : done ++ m :: ms = (done ++ [m]) ++ ms := by simp
    rw [happ] at hpair ⊢
    refine mem_moveAll_from H ms (done ++ [m]) (move reader m docs)
      (fun m' h => hsource m' (List.mem_cons_of_mem _ h)) hpair fun k d => ?_
    have hbefore : ∀ m' ∈ done, m'.target ≠ m.source ∧ m'.target ≠ m.target := fun m' hm' =>
      (List.pairwise_append.mp (List.pairwise_append.mp hpair).1).2.2 m' hm' m
        List.mem_cons_self
    simp only [move, H.load hd₀, mem_put, mem_delete, hdocs]
    constructor
    · rintro (h | ⟨⟨⟨m', hm', d', hd', h⟩ | ⟨h, hdone⟩, hs⟩, ht⟩)
      · exact .inl ⟨m, by simp, d₀, hd₀, h⟩
      · exact .inl ⟨m', List.mem_append_left _ hm', d', hd', h⟩
      · refine .inr ⟨h, fun m' hm' => ?_⟩
        rcases List.mem_append.mp hm' with hm' | hm'
        · exact hdone m' hm'
        · rw [List.mem_singleton.mp hm']
          exact ⟨hs, ht⟩
    · rintro (⟨m', hm', d', hd', h⟩ | ⟨h, hdone⟩)
      · rcases List.mem_append.mp hm' with hm' | hm'
        · have hk : k = m'.target := congrArg Prod.fst h
          refine .inr ⟨⟨.inl ⟨m', hm', d', hd', h⟩, ?_⟩, ?_⟩
          · rw [hk]; exact (hbefore m' hm').1
          · rw [hk]; exact (hbefore m' hm').2
        · rw [List.mem_singleton.mp hm'] at hd' h
          rw [H.eq hd' hd₀] at h
          exact .inl h
      · have hm := hdone m (by simp)
        exact .inr ⟨⟨.inr ⟨h, fun m' hm' => hdone m' (List.mem_append_left _ hm')⟩, hm.1⟩, hm.2⟩

theorem mem_moveAll (H : Unique docs) {ms : List (Move κ δ)}
    (hsource : ∀ m ∈ ms, m.source ∈ keys docs)
    (hpair : ms.Pairwise fun m m' => m.target ≠ m'.source ∧ m.target ≠ m'.target) :
    (k, d) ∈ moveAll docs ms docs ↔
      Arrived docs ms (k, d) ∨ (k, d) ∈ docs ∧ ∀ m ∈ ms, k ≠ m.source ∧ k ≠ m.target :=
  mem_moveAll_from H ms [] docs hsource hpair (by simp [Arrived]) k d

/-- A document that is put where it was. -/
theorem put_delete_perm (H : Unique docs) (h : (k, d) ∈ docs) :
    (put (k, d) (delete k docs)).Perm docs := by
  have hput : Unique (put (k, d) (delete k docs)) := H.delete.put
  apply (List.perm_ext_iff_of_nodup hput.of_map H.of_map).mpr
  intro ⟨k', d'⟩
  simp only [mem_put, mem_delete, Prod.mk.injEq]
  constructor
  · rintro (⟨rfl, rfl⟩ | ⟨⟨h', -⟩, -⟩)
    · exact h
    · exact h'
  · intro h'
    by_cases hk : k' = k
    · subst hk
      exact .inl ⟨rfl, H.eq h' h⟩
    · exact .inr ⟨⟨h', hk⟩, hk⟩

/-- Moves that go nowhere, and change nothing. -/
theorem moveAll_perm_self {reader : List (κ × δ)} (H : Unique reader) {ms : List (Move κ δ)}
    (hstay : ∀ m ∈ ms, m.target = m.source ∧ m.change = id) (hdocs : docs.Perm reader) :
    (moveAll reader ms docs).Perm reader := by
  induction ms generalizing docs with
  | nil => exact hdocs
  | cons m ms ih =>
    have hmove : (move reader m docs).Perm reader := by
      unfold move
      split
      · exact hdocs
      · rename_i d hd
        obtain ⟨htarget, hchange⟩ := hstay m List.mem_cons_self
        have hmem : (m.source, d) ∈ docs := hdocs.mem_iff.mpr (mem_of_load hd)
        have hunique : Unique docs := (hdocs.map _).nodup_iff.mpr H
        rw [htarget, hchange]
        exact (put_delete_perm hunique hmem).trans hdocs
    exact ih (fun m' h => hstay m' (List.mem_cons_of_mem _ h)) hmove

end DocIndex
