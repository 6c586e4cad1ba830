import SiftMcp.Storage.StoreLemmas
import SiftMcp.Retrieval.Lexical

/-!
# Agreement of the two backends

`Agree t docs` says that the lexical documents are those of the live rows of the table: one document
for each row, with the symbol, signature, documentation line and file of its record. Each change of
the table has a change of the documents that keeps the agreement. Where only the table has changed
the documents are behind; the lemmas on documents left behind say when the numbers of rows and
documents show it.

* `Agree.retire`, `Agree.insert`, `Agree.compact`: changes of both that go together.
* `Agree.retire_behind`, `Agree.insert_behind`: changes of the table alone.
-/

namespace SiftMcp
open Durable DocIndex

/-- What a document shows of its chunk. -/
structure Shown where
  symbol : String
  signature : String
  docFirstLine : Option String
  file : String
deriving DecidableEq

def LexicalDoc.shown (d : LexicalDoc) : Shown := ⟨d.symbol, d.signature, d.docFirstLine, d.file⟩

def ChunkRecord.shown (r : ChunkRecord) : Shown := ⟨r.symbol, r.signature, r.docFirstLine, r.file⟩

abbrev Docs := List (RowId × LexicalDoc)

structure Agree (t : ChunkTable) (docs : Docs) : Prop where
  unique : Unique docs
  sound : ∀ row d, (row, d) ∈ docs → ∃ e, (row, e) ∈ t.live ∧ d.shown = e.1.shown
  complete : ∀ row e, (row, e) ∈ t.live → ∃ d, (row, d) ∈ docs ∧ d.shown = e.1.shown

section forall₂

variable {α β : Type} {R : α → β → Prop}

theorem forall₂_left {as : List α} {bs : List β} (H : List.Forall₂ R as bs) :
    ∀ a ∈ as, ∃ b ∈ bs, R a b := by
  induction H with
  | nil => exact nofun
  | cons h _ ih =>
    intro a ha
    rcases List.mem_cons.mp ha with rfl | ha
    · exact ⟨_, List.mem_cons_self, h⟩
    · obtain ⟨b, hb, hab⟩ := ih a ha
      exact ⟨b, List.mem_cons_of_mem _ hb, hab⟩

theorem forall₂_right {as : List α} {bs : List β} (H : List.Forall₂ R as bs) :
    ∀ b ∈ bs, ∃ a ∈ as, R a b :=
  forall₂_left H.flip

/-- Partners of different elements differ, where `R` tells them apart. -/
theorem forall₂_nodup {γ δ : Type} {f : α → γ} {g : β → δ} {as : List α} {bs : List β}
    (H : List.Forall₂ R as bs) (hinj : ∀ a b a' b', R a b → R a' b' → f a = f a' → g b = g b')
    (hbs : (bs.map g).Nodup) : (as.map f).Nodup := by
  induction H with
  | nil => exact .nil
  | cons h hs ih =>
    rw [List.map_cons, List.nodup_cons] at hbs ⊢
    refine ⟨fun hmem => hbs.1 ?_, ih hbs.2⟩
    obtain ⟨a', ha', hf⟩ := List.mem_map.mp hmem
    obtain ⟨b', hb', hab'⟩ := forall₂_left hs a' ha'
    rw [hinj _ _ _ _ h hab' hf.symm]
    exact List.mem_map_of_mem hb'

end forall₂

theorem RowTable.entry_eq {t : ChunkTable} {row : RowId} {e e' : Entry} (h : (row, e) ∈ t.live)
    (h' : (row, e') ∈ t.live) : e = e' :=
  congrArg Prod.snd (t.eq_of_row h h' rfl)

namespace Agree

variable {t t' : ChunkTable} {docs : Docs}

theorem empty : Agree RowTable.empty [] := ⟨.nil, nofun, nofun⟩

theorem keys (H : Agree t docs) (row : RowId) : row ∈ DocIndex.keys docs ↔ row ∈ t.rows := by
  rw [mem_keys, RowTable.rows, List.mem_map]
  constructor
  · intro h
    obtain ⟨d, hd⟩ := h
    obtain ⟨e, he, -⟩ := H.sound row d hd
    exact ⟨_, he, rfl⟩
  · intro h
    obtain ⟨⟨row', e⟩, he, hrow⟩ := h
    subst hrow
    obtain ⟨d, hd, -⟩ := H.complete row' e he
    exact ⟨d, hd⟩

/-- As many documents as live rows. -/
theorem length (H : Agree t docs) : docs.length = t.live.length := by
  have hperm : (DocIndex.keys docs).Perm t.rows :=
    (List.perm_ext_iff_of_nodup H.unique t.nodup_rows).mpr H.keys
  simpa [DocIndex.keys, RowTable.rows] using hperm.length_eq

/-- The documents and the records, as lists. -/
theorem perm (H : Agree t docs) : (docs.map fun p => (p.1, p.2.shown)).Perm
    (t.live.map fun p => (p.1, p.2.1.shown)) := by
  have hdocs : (docs.map fun p => (p.1, p.2.shown)).Nodup :=
    List.Nodup.of_map Prod.fst (by
      simpa [Function.comp_def] using show (docs.map (·.1)).Nodup from H.unique)
  have hlive : (t.live.map fun p => (p.1, p.2.1.shown)).Nodup :=
    List.Nodup.of_map Prod.fst (by
      simpa [Function.comp_def] using show (t.live.map (·.1)).Nodup from t.nodup_rows)
  refine (List.perm_ext_iff_of_nodup hdocs hlive).mpr fun ⟨row, f⟩ => ?_
  simp only [List.mem_map, Prod.exists, Prod.mk.injEq]
  constructor
  · intro ⟨row', d, hd, hrow, hf⟩
    subst hrow
    obtain ⟨e, he, hs⟩ := H.sound _ _ hd
    exact ⟨row', e.1, e.2, he, rfl, by rw [← hs, hf]⟩
  · intro ⟨row', r, v, he, hrow, hf⟩
    subst hrow
    obtain ⟨d, hd, hs⟩ := H.complete _ _ he
    exact ⟨row', d, hd, rfl, by rw [hs, ← hf]⟩

/-- The row ids of the documents are those of the live rows, and each document has the symbol,
signature and file of the record. -/
structure Matches (t : ChunkTable) (docs : Docs) : Prop where
  rows : ∀ row, row ∈ DocIndex.keys docs ↔ row ∈ t.rows
  fields : ∀ row d, (row, d) ∈ docs → ∃ e, (row, e) ∈ t.live ∧ d.symbol = e.1.symbol ∧
    d.signature = e.1.signature ∧ d.file = e.1.file

theorem «matches» (H : Agree t docs) : Matches t docs where
  rows := H.keys
  fields row d hd := by
    obtain ⟨e, he, hs⟩ := H.sound row d hd
    exact ⟨e, he, congrArg Shown.symbol hs, congrArg Shown.signature hs, congrArg Shown.file hs⟩

/-! ## Changes of both -/

theorem retire (H : Agree t docs) (rows : List RowId) :
    Agree (t.retire rows) (deleteAll rows docs) where
  unique := H.unique.deleteAll
  sound row d hd := by
    obtain ⟨hd, hrow⟩ := mem_deleteAll.mp hd
    obtain ⟨e, he, hs⟩ := H.sound row d hd
    exact ⟨e, RowTable.mem_retire.mpr ⟨he, hrow⟩, hs⟩
  complete row e he := by
    obtain ⟨he, hrow⟩ := RowTable.mem_retire.mp he
    obtain ⟨d, hd, hs⟩ := H.complete row e he
    exact ⟨d, mem_deleteAll.mpr ⟨hd, hrow⟩, hs⟩

/-- New rows, each with a document under its number. -/
theorem insert (H : Agree t docs) {chunks : List Entry} {ps : Docs}
    (hnovel : ∀ e ∈ chunks, e.hash ∉ t.keys) (hdistinct : (chunks.map Entry.hash).Nodup)
    (hps : List.Forall₂ (fun p e => RowOf (t.insertAll chunks) p.1 e ∧ p.2.shown = e.1.shown) ps
      chunks) :
    Agree (t.insertAll chunks) (putAll ps docs) := by
  have hlive : (t.insertAll chunks).live = t.live ++ (chunks.zipIdx t.size).map Prod.swap := by
    rw [RowTable.insertAll_live, RowTable.novel_eq_self hnovel hdistinct]
  have hmem : ∀ {e}, e ∈ chunks → ∃ r, (r, e) ∈ (t.insertAll chunks).live := by
    intro e he
    obtain ⟨i, hi, rfl⟩ := List.mem_iff_getElem.mp he
    refine ⟨t.size + i, ?_⟩
    rw [hlive, List.mem_append, List.mem_map]
    refine .inr ⟨(chunks[i], t.size + i), ?_, rfl⟩
    rw [List.mem_zipIdx_iff_le_and_getElem?_sub]
    simp
  -- The row that the store has reported for a chunk holds that very chunk.
  have hrow : ∀ {r e}, e ∈ chunks → RowOf (t.insertAll chunks) r e →
      (r, e) ∈ (t.insertAll chunks).live := by
    intro r e he ⟨v, hv, hh⟩
    obtain ⟨r', hr'⟩ := hmem he
    obtain rfl : v = e := congrArg Prod.snd (RowTable.eq_of_key hv hr' hh)
    exact hv
  have hall : ∀ p ∈ ps, ∃ e ∈ chunks, (p.1, e) ∈ (t.insertAll chunks).live ∧
      p.2.shown = e.1.shown := by
    intro p hp
    obtain ⟨e, he, h⟩ := forall₂_left hps p hp
    exact ⟨e, he, hrow he h.1, h.2⟩
  have hback : ∀ e ∈ chunks, ∃ p ∈ ps, (p.1, e) ∈ (t.insertAll chunks).live ∧
      p.2.shown = e.1.shown := by
    intro e he
    obtain ⟨p, hp, h⟩ := forall₂_right hps e he
    exact ⟨p, hp, hrow he h.1, h.2⟩
  have hunique : Unique ps := by
    refine forall₂_nodup (g := Entry.hash) hps (fun p e p' e' h h' heq => ?_) hdistinct
    obtain ⟨v, hv, hh⟩ := h.1
    obtain ⟨v', hv', hh'⟩ := h'.1
    rw [heq] at hv
    rw [← hh, ← hh', RowTable.entry_eq hv hv']
  have hnew : ∀ {row e}, (row, e) ∈ t.live → row ∉ DocIndex.keys ps := by
    intro row e he hk
    obtain ⟨d, hd⟩ := mem_keys.mp hk
    obtain ⟨e', he', hlive', -⟩ := hall _ hd
    rw [RowTable.entry_eq (RowTable.mem_insertAll_of_mem he) hlive'] at he
    exact hnovel e' he' (RowTable.mem_keys.mpr ⟨_, he, rfl⟩)
  refine ⟨H.unique.putAll, fun row d hd => ?_, fun row e he => ?_⟩
  · rcases (mem_putAll hunique).mp hd with hd | ⟨hd, -⟩
    · obtain ⟨e, -, he, hs⟩ := hall _ hd
      exact ⟨e, he, hs⟩
    · obtain ⟨e, he, hs⟩ := H.sound row d hd
      exact ⟨e, RowTable.mem_insertAll_of_mem he, hs⟩
  · rcases RowTable.mem_insertAll he with he' | ⟨he', -, -⟩
    · obtain ⟨d, hd, hs⟩ := H.complete row e he'
      exact ⟨d, (mem_putAll hunique).mpr (.inr ⟨hd, hnew he'⟩), hs⟩
    · obtain ⟨⟨row', d⟩, hp, hlive', hs⟩ := hback e he'
      obtain rfl : row = row' := congrArg Prod.fst (RowTable.eq_of_key he hlive' rfl)
      exact ⟨d, (mem_putAll hunique).mpr (.inl hp), hs⟩

/-- The rows whose chunk is in the file. -/
def rowsOf (t : ChunkTable) (file : String) : List RowId :=
  (t.live.filter (·.2.1.file = file)).map (·.1)

theorem mem_rowsOf {file : String} {row : RowId} {e : Entry} (he : (row, e) ∈ t.live) :
    row ∈ rowsOf t file ↔ e.1.file = file := by
  simp only [rowsOf, List.mem_map, List.mem_filter, decide_eq_true_eq]
  constructor
  · intro ⟨⟨row', e'⟩, ⟨he', hf⟩, hrow⟩
    obtain rfl : row' = row := hrow
    rw [RowTable.entry_eq he he']
    exact hf
  · intro hf
    exact ⟨_, ⟨he, hf⟩, rfl⟩

theorem rowsOf_subset {file : String} {row : RowId} (h : row ∈ rowsOf t file) :
    ∃ e, (row, e) ∈ t.live ∧ e.1.file = file := by
  obtain ⟨⟨row', e⟩, he, rfl⟩ := List.mem_map.mp h
  have := List.mem_filter.mp he
  exact ⟨e, this.1, of_decide_eq_true this.2⟩

def rekeyTable (t : ChunkTable) (source dest : String) : ChunkTable :=
  t.relabel (Contents.rekeyEntry source dest) (Contents.hash_rekeyEntry source dest)

theorem mem_rekeyTable {source dest : String} {row : RowId} {e' : Entry} :
    (row, e') ∈ (rekeyTable t source dest).live ↔
      ∃ e, (row, e) ∈ t.live ∧ e' = Contents.rekeyEntry source dest e := by
  rw [rekeyTable, RowTable.relabel, List.mem_map]
  constructor
  · intro h
    obtain ⟨⟨row', e⟩, he, heq⟩ := h
    obtain ⟨rfl, rfl⟩ := Prod.mk.inj heq
    exact ⟨e, he, rfl⟩
  · intro h
    obtain ⟨e, he, heq⟩ := h
    exact ⟨(row, e), he, by rw [heq]⟩

/-- The rows of a file are moved to another path, in the records and in the documents. -/
theorem rekey (H : Agree t docs) (source dest : String) :
    Agree (rekeyTable t source dest)
      (moveAll docs (((rowsOf t source).map fun row => (row, dest)).map LexicalIndex.pathMove)
        docs) := by
  have hnodup : (rowsOf t source).Nodup := t.nodup_rows.sublist (List.filter_sublist.map _)
  have hsource : ∀ m ∈ ((rowsOf t source).map fun row => (row, dest)).map LexicalIndex.pathMove,
      m.source ∈ DocIndex.keys docs := by
    intro m hm
    obtain ⟨p, hp, rfl⟩ := List.mem_map.mp hm
    obtain ⟨row, hrow, rfl⟩ := List.mem_map.mp hp
    obtain ⟨e, he, -⟩ := rowsOf_subset hrow
    exact (H.keys row).mpr (List.mem_map_of_mem he)
  have hpair : (((rowsOf t source).map fun row => (row, dest)).map
      LexicalIndex.pathMove).Pairwise fun m m' => m.target ≠ m'.source ∧ m.target ≠ m'.target := by
    rw [List.pairwise_map, List.pairwise_map]
    exact hnodup.imp fun h => ⟨h, h⟩
  have hmem := fun row d => mem_moveAll (k := row) (d := d) H.unique hsource hpair
  simp only [Arrived, List.mem_map, LexicalIndex.pathMove, exists_exists_and_eq_and,
    forall_exists_index, and_imp, forall_apply_eq_imp_iff₂, Prod.mk.injEq, and_self] at hmem
  refine ⟨H.unique.moveAll, fun row d hd => ?_, fun row e' he' => ?_⟩
  · rcases (hmem row d).mp hd with ⟨row', hrow, d', hd', rfl, rfl⟩ | ⟨hd, hrow⟩
    · obtain ⟨e, he, hs⟩ := H.sound _ _ hd'
      have hf := (mem_rowsOf he).mp hrow
      refine ⟨_, mem_rekeyTable.mpr ⟨e, he, rfl⟩, ?_⟩
      simp only [LexicalDoc.shown, ChunkRecord.shown, Shown.mk.injEq] at hs ⊢
      simp [Contents.rekeyEntry, hf, hs]
    · obtain ⟨e, he, hs⟩ := H.sound _ _ hd
      refine ⟨_, mem_rekeyTable.mpr ⟨e, he, rfl⟩, ?_⟩
      have hf : e.1.file ≠ source := fun hf => hrow row ((mem_rowsOf he).mpr hf) rfl
      rw [Contents.rekeyEntry, if_neg hf, hs]
  · obtain ⟨e, he, rfl⟩ := mem_rekeyTable.mp he'
    obtain ⟨d, hd, hs⟩ := H.complete _ _ he
    by_cases hf : e.1.file = source
    · refine ⟨{ d with file := dest },
        (hmem _ _).mpr (.inl ⟨row, (mem_rowsOf he).mpr hf, d, hd, rfl, rfl⟩), ?_⟩
      simp only [LexicalDoc.shown, ChunkRecord.shown, Shown.mk.injEq] at hs ⊢
      simp [Contents.rekeyEntry, hf, hs]
    · refine ⟨d, (hmem _ _).mpr (.inr ⟨hd, ?_⟩), by rw [Contents.rekeyEntry, if_neg hf, hs]⟩
      rintro row' hrow rfl
      exact hf ((mem_rowsOf he).mp hrow)

end Agree

/-- A document goes along with its row when the rows are renumbered. No row moves up, so none is
moved to a number from which a later one has yet to go. -/
theorem mem_moveAll_mapping {t : ChunkTable} {docs : Docs} (hunique : Unique docs)
    (hkeys : ∀ row, row ∈ DocIndex.keys docs ↔ row ∈ t.rows) {row : RowId} {d : LexicalDoc} :
    (row, d) ∈ moveAll docs (t.mapping.map LexicalIndex.rowMove) docs ↔
      ∃ old, (old, row) ∈ t.mapping ∧ (old, d) ∈ docs := by
  have hsource : ∀ m ∈ t.mapping.map LexicalIndex.rowMove, m.source ∈ DocIndex.keys docs := by
    intro m hm
    obtain ⟨⟨r, n⟩, hp, rfl⟩ := List.mem_map.mp hm
    exact (hkeys r).mpr (List.fst_mem_of_mem_zipIdx hp)
  have hpair : (t.mapping.map LexicalIndex.rowMove).Pairwise fun m m' =>
      m.target ≠ m'.source ∧ m.target ≠ m'.target := by
    rw [List.pairwise_map, List.pairwise_iff_getElem]
    intro i j hi hj hij
    have hle := RowTable.le_of_mem_mapping (List.getElem_mem hj)
    simp only [RowTable.mapping, List.getElem_zipIdx, Nat.zero_add] at hle
    simp only [LexicalIndex.rowMove, RowTable.mapping, List.getElem_zipIdx, Nat.zero_add]
    exact ⟨Nat.ne_of_lt (hij.trans_le hle), Nat.ne_of_lt hij⟩
  rw [mem_moveAll hunique hsource hpair]
  simp only [Arrived, List.mem_map, LexicalIndex.rowMove,
    exists_exists_and_eq_and, Prod.mk.injEq, id_eq]
  constructor
  · rintro (⟨⟨r, n⟩, hp, d', hd', rfl, rfl⟩ | ⟨hd, hrow⟩)
    · exact ⟨r, hp, hd'⟩
    · -- Every document is moved.
      have hr : row ∈ t.rows := (hkeys row).mp (mem_keys.mpr ⟨d, hd⟩)
      obtain ⟨i, hi, rfl⟩ := List.mem_iff_getElem.mp hr
      have hmap : (t.rows[i], i) ∈ t.mapping := by
        rw [RowTable.mapping, List.mem_zipIdx_iff_getElem?]; simp [hi]
      exact absurd rfl (hrow _ ⟨_, hmap, rfl⟩).1
  · rintro ⟨old, hp, hd⟩
    exact .inl ⟨(old, row), hp, d, hd, rfl, rfl⟩

namespace Agree

variable {t t' : ChunkTable} {docs : Docs}

/-- The rows are renumbered, in the table and in the documents. -/
theorem compact (H : Agree t docs) :
    Agree t.compact (moveAll docs (t.mapping.map LexicalIndex.rowMove) docs) := by
  have hmem := fun row d => @mem_moveAll_mapping t docs H.unique H.keys row d
  refine ⟨H.unique.moveAll, fun row d hd => ?_, fun row e he => ?_⟩
  · obtain ⟨r, hp, hd'⟩ := (hmem row d).mp hd
    obtain ⟨e, he, hs⟩ := H.sound _ _ hd'
    exact ⟨e, RowTable.mem_compact.mpr ⟨r, hp, he⟩, hs⟩
  · obtain ⟨r, hr, he⟩ := RowTable.mem_compact.mp he
    obtain ⟨d, hd, hs⟩ := H.complete _ _ he
    exact ⟨d, (hmem _ _).mpr ⟨r, hr, hd⟩, hs⟩

/-! ## Documents left behind -/

theorem congr (H : Agree t docs) (h : t'.live = t.live) : Agree t' docs :=
  ⟨H.unique, by rw [h]; exact H.sound, by rw [h]; exact H.complete⟩

/-- Rows that have gone are missed in the count. -/
theorem retire_behind (H : Agree t docs) {rows : List RowId}
    (hlen : (t.retire rows).live.length = docs.length) : Agree (t.retire rows) docs := by
  rw [H.length] at hlen
  exact H.congr (List.filter_sublist.eq_of_length hlen)

/-- Rows that have come are counted. -/
theorem insert_behind (H : Agree t docs) {chunks : List Entry}
    (hlen : (t.insertAll chunks).live.length = docs.length) : Agree (t.insertAll chunks) docs := by
  rw [H.length, RowTable.insertAll_live, List.length_append, List.length_map] at hlen
  have hnil : (t.novel chunks).zipIdx t.size = [] := List.length_eq_zero_iff.mp (by omega)
  refine H.congr ?_
  rw [RowTable.insertAll_live, hnil, List.map_nil, List.append_nil]

/-- Rows moved to another file are not. -/
theorem rekey_behind (H : Agree t docs) (source dest : String) :
    (rowsOf t source = [] ∨ source = dest → Agree (rekeyTable t source dest) docs) ∧
      (Matches (rekeyTable t source dest) docs → rowsOf t source = [] ∨ source = dest) := by
  constructor
  · intro h
    refine H.congr ?_
    rw [rekeyTable, RowTable.relabel]
    refine (List.map_congr_left fun p hp => ?_).trans (List.map_id _)
    by_cases hf : p.2.1.file = source
    · have hdest : source = dest := h.resolve_left fun hnil => by
        have := (@mem_rowsOf t source p.1 p.2 hp).mpr hf
        rw [hnil] at this
        cases this
      rw [Contents.rekeyEntry, if_pos hf, ← hdest, ← hf]
      rfl
    · rw [Contents.rekeyEntry, if_neg hf]
      rfl
  · intro H'
    by_contra hne
    obtain ⟨hrows, hne⟩ := not_or.mp hne
    obtain ⟨row, hrow⟩ := List.exists_mem_of_ne_nil _ hrows
    obtain ⟨e, he, hf⟩ := rowsOf_subset hrow
    obtain ⟨d, hd, hs⟩ := H.complete row e he
    obtain ⟨e', he', -, -, hfile⟩ := H'.fields row d hd
    obtain ⟨e'', he'', rfl⟩ := mem_rekeyTable.mp he'
    obtain rfl := RowTable.entry_eq he he''
    rw [Contents.rekeyEntry, if_pos hf, show d.file = e.1.file from congrArg Shown.file hs] at hfile
    exact hne (hf.symm.trans hfile)

/-- Nor are rows that have been renumbered. -/
theorem compact_behind (H : Agree t docs) :
    (t.rows = List.range t.rows.length → Agree t.compact docs) ∧
      (Matches t.compact docs → t.rows = List.range t.rows.length) := by
  have hlen : t.rows.length = t.live.length := List.length_map _
  constructor
  · intro h
    rw [hlen] at h
    exact H.congr (RowTable.compact_live_eq_self h)
  · intro H'
    have hperm : t.rows.Perm t.compact.rows :=
      (List.perm_ext_iff_of_nodup t.nodup_rows t.compact.nodup_rows).mpr fun row =>
        (H.keys row).symm.trans (H'.rows row)
    rw [RowTable.compact_rows, ← hlen] at hperm
    have hsorted : t.rows.Pairwise (· < ·) := List.pairwise_map.mpr t.sorted
    refine hperm.eq_of_pairwise (fun a b _ _ h h' => ?_) hsorted List.pairwise_lt_range
    exact absurd (Nat.lt_trans h h') (Nat.lt_irrefl _)

end Agree

end SiftMcp
