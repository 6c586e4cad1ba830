import SiftMcp.Storage.Manifest
import SiftMcp.Storage.StoreLemmas
import SiftMcp.Lib.ExceptSteps

/-!
# Creation and compaction

Both build a pair of files. `create` builds the first one; `compact` builds a second one beside it
from the live rows, lets the manifest name it, and moves the handle over.

* `create_wp`: a store that has been created holds nothing.
* `compact_wp`: what a compaction leaves at each of its ends.
-/

namespace SiftMcp
open Durable ChunkStore

/-- The steps from the publication of the new pair on. -/
def Step.Published (l : Step) : Prop := l = .manifestRename ∨ l = .oldFileRemove

instance (l : Step) : Decidable l.Published := inferInstanceAs (Decidable (_ ∨ _))

theorem Step.OnMatrix.not_published {l : Step} (h : l.OnMatrix) : ¬l.Published := by
  rcases h with rfl | rfl | rfl | rfl <;> decide

/-- A matrix and a database that hold the contents, row for row. -/
structure Fills (m : EmbeddingMatrix) (db : Db) (a : Contents) : Prop where
  pair : Pair db m.file a
  matrix : m.WF
  rows : m.rows = a.table.size

/-- Contents without a chunk. -/
def Contents.none (dims : Nat) (modelId : String) : Contents :=
  ⟨dims, modelId, Option.none, RowTable.empty⟩

/-- Nothing but the named files differs. -/
def Dir.OnlyIn (names : List String) (d d' : Dir) : Prop := ∀ n, n ∉ names → d' n = d n

namespace Dir.OnlyIn

variable {names : List String} {d d' d'' : Dir} {name : String}

theorem refl : OnlyIn names d d := fun _ _ => rfl

theorem trans (H : OnlyIn names d d') (H' : OnlyIn names d' d'') : OnlyIn names d d'' :=
  fun n hn => (H' n hn).trans (H n hn)

theorem mono (H : OnlyIn names d d') {names' : List String} (h : names ⊆ names') :
    OnlyIn names' d d' := fun n hn => H n fun hmem => hn (h hmem)

theorem write (H : OnlyIn names d d') (h : name ∈ names) (f : File) :
    OnlyIn names d (d'.write name f) := fun n hn =>
  (Dir.write_of_ne _ _ (ne_of_mem_of_not_mem h hn).symm).trans (H n hn)

theorem remove (H : OnlyIn names d d') (h : name ∈ names) : OnlyIn names d (d'.remove name) :=
  fun n hn => (Dir.remove_of_ne _ (ne_of_mem_of_not_mem h hn).symm).trans (H n hn)

end Dir.OnlyIn

/-! ## Building a pair -/

theorem createMatrix_wp (d : Dir) (fails : CreateStep → Bool) (path : String) (dims : Nat)
    (modelId : String) :
    Prog.wp (EmbeddingMatrix.create fails path dims modelId)
      (fun m d' => m.WF ∧ m.path = path ∧
        m.header = ⟨matrixMagic, matrixFormatVersion, dims, 0, modelId⟩ ∧ d.OnlyIn [path] d')
      (fun _ d' => d.OnlyIn [path] d' ∧
        (modelId.utf8ByteSize ≤ modelIdCapacity → ∃ c, fails c = true))
      (fun l d' => ¬l.Published ∧ d.OnlyIn [path] d') d := by
  let header : MatrixHeader := ⟨matrixMagic, matrixFormatVersion, dims, 0, modelId⟩
  have hw : ∀ d' f, d.OnlyIn [path] d' → d.OnlyIn [path] (d'.write path f) :=
    fun d' f h => h.write List.mem_cons_self f
  have h0 : d.OnlyIn [path] d := .refl
  simp only [EmbeddingMatrix.create, Prog.wp_bind, wp_failAt, Prog.wp_durable, Prog.wp_ofExcept]
  refine ⟨fun h => ⟨h0, fun _ => ⟨_, h⟩⟩, fun _ => ⟨fun h => ⟨h0, fun _ => ⟨_, h⟩⟩,
    fun _ => ⟨⟨by decide, hw _ _ h0⟩, fun h => ⟨hw _ _ h0, fun _ => ⟨_, h⟩⟩,
      fun _ => ⟨⟨by decide, hw _ _ (hw _ _ h0)⟩, ?_⟩⟩⟩⟩
  have henc : header.encode = .ok header ∨ ∃ e, header.encode = .error e := by
    unfold MatrixHeader.encode; split
    · exact .inr ⟨_, rfl⟩
    · exact .inl rfl
  rcases henc with henc | ⟨e, henc⟩
  · have hv : header.Valid := by
      refine ⟨rfl, rfl, ?_⟩
      by_contra hlen
      simp [MatrixHeader.encode, Nat.not_le.mp hlen] at henc
    simp only [show MatrixHeader.encode ⟨matrixMagic, matrixFormatVersion, dims, 0, modelId⟩ =
      .ok header from henc, Except.mapError, Prog.wp_pure]
    refine ⟨fun h => ⟨hw _ _ (hw _ _ h0), fun _ => ⟨_, h⟩⟩,
      fun _ => ⟨⟨by decide, hw _ _ (hw _ _ (hw _ _ h0))⟩,
        fun h => ⟨hw _ _ (hw _ _ (hw _ _ h0)), fun _ => ⟨_, h⟩⟩,
        fun _ => ⟨⟨⟨hv, ?_, ?_⟩, rfl, rfl, ?_⟩, trivial, trivial, hw _ _ (hw _ _ (hw _ _ h0))⟩⟩⟩
    · simp only [List.length_replicate]
      exact Dvd.intro_left _ rfl
    · simp [MatrixFile.rows, header]
    · simp [EmbeddingMatrix.dims]
  · simp only [show MatrixHeader.encode ⟨matrixMagic, matrixFormatVersion, dims, 0, modelId⟩ =
      .error e from henc, Except.mapError]
    refine ⟨hw _ _ (hw _ _ h0), fun hlen => ?_⟩
    rw [MatrixHeader.encode, if_neg (Nat.not_lt.mpr hlen)] at henc
    cases henc

theorem newConnection_wp (d : Dir) (openDb configure initSchema setVersion : Bool)
    (name : String) :
    Prog.wp (newConnection openDb configure initSchema setVersion name)
      (fun db d' => db.Repr RowTable.empty ∧ db.metaValue "indexed_commit" = none ∧
        d.OnlyIn [name] d')
      (fun _ d' => d.OnlyIn [name] d' ∧ (openDb ∨ configure ∨ initSchema ∨ setVersion))
      (fun l d' => ¬l.Published ∧ d.OnlyIn [name] d') d := by
  have hw : ∀ d' f, d.OnlyIn [name] d' → d.OnlyIn [name] (d'.write name f) :=
    fun d' f h => h.write List.mem_cons_self f
  have h0 : d.OnlyIn [name] d := .refl
  have hinit : Db.empty.initSchema = .ok { Db.empty with tables := true } := rfl
  simp only [newConnection, Prog.wp_bind, wp_failAt, Prog.wp_durable, hinit, Except.mapError,
    Prog.wp_ofExcept, Prog.wp_pure]
  exact ⟨fun h => ⟨h0, .inl h⟩, fun _ => ⟨⟨by decide, hw _ _ h0⟩,
    fun h => ⟨hw _ _ h0, .inr (.inl h)⟩,
    fun _ => ⟨fun h => ⟨hw _ _ h0, .inr (.inr (.inl h))⟩, fun _ => ⟨⟨by decide, hw _ _ (hw _ _ h0)⟩,
      fun h => ⟨hw _ _ (hw _ _ h0), .inr (.inr (.inr h))⟩,
      fun _ => ⟨⟨by decide, hw _ _ (hw _ _ (hw _ _ h0))⟩,
        ⟨rfl, Db.Repr.metaValue_setMeta, rfl, rfl⟩, rfl, hw _ _ (hw _ _ (hw _ _ h0))⟩⟩⟩⟩⟩

/-! ## Creating -/

/-- A store that is created holds nothing. A manifest that is there stays as it is. -/
theorem create_empty_wp {d : Dir} (fails : CreateStoreStep → Bool) (dims : Nat) (modelId : String) :
    Prog.wp (create fails dims modelId)
      (fun s _ => Usable s (.none dims modelId) ∧ s.matrix.WF ∧ s.dbPath = dbName ∧
        s.matrix.path = matrixName ∧ s.dir manifestName = d manifestName)
      (fun _ _ => True) (fun _ _ => True) d := by
  simp only [create, Prog.wp_bind, wp_failAt, Prog.wp_get, Prog.wp_ite, Prog.wp_fail, Prog.wp_pure,
    implies_true, true_and]
  intro _ _
  refine (createMatrix_wp d _ matrixName dims modelId).mono ?_ (fun _ _ _ => trivial)
    (fun _ _ _ => trivial)
  rintro m d1 ⟨hm, hpath, hheader, hd1⟩
  refine (newConnection_wp d1 _ _ _ _ dbName).mono ?_ (fun _ _ _ => trivial) (fun _ _ _ => trivial)
  rintro db d2 ⟨hdb, hcommit, hd2⟩
  have hfile : m.file.header = ⟨matrixMagic, matrixFormatVersion, dims, 0, modelId⟩ := by
    rw [← hm.header, hheader]
  refine ⟨⟨⟨hdb, hcommit, hm.file, ?_, ?_, Nat.zero_le _, fun _ h => absurd h List.not_mem_nil⟩,
    hm.ready, ?_⟩, hm, hpath, ?_⟩
  · exact congrArg (·.dims) hfile
  · exact congrArg (·.modelId) hfile
  · exact congrArg (·.rows) hheader
  · show d2 manifestName = _
    rw [hd2 _ (by decide), hd1 _ (by decide)]

/-- A store created where no manifest is holds nothing, and it is the active one. -/
theorem create_wp {d : Dir} (hd : d manifestName = none) (fails : CreateStoreStep → Bool)
    (dims : Nat) (modelId : String) :
    Prog.wp (create fails dims modelId) (fun s _ => Repr s (.none dims modelId))
      (fun _ _ => True) (fun _ _ => True) d := by
  refine (create_empty_wp fails dims modelId).mono ?_ (fun _ _ h => h) (fun _ _ h => h)
  rintro s _ ⟨husable, hm, hdb, hmatrix, hmanifest⟩
  refine ⟨husable.pair, hm, husable.rows, ?_, ?_, ?_⟩
  · rw [hdb, hmatrix, activePaths, hmanifest, hd]
  · rw [hdb]
    decide
  · rw [hmatrix]
    decide

/-! ## Compacting -/

/-- The handle is the same but for its directory, which differs in the named files only. -/
def Aside (names : List String) (s t : ChunkStore) : Prop :=
  ∃ d, s.dir.OnlyIn names d ∧ t = { s with dir := d }

namespace Aside

variable {names : List String} {s t u : ChunkStore}

theorem refl : Aside names s s := ⟨_, .refl, rfl⟩

theorem trans (H : Aside names s t) (H' : Aside names t u) : Aside names s u := by
  obtain ⟨d, hd, rfl⟩ := H
  obtain ⟨d', hd', rfl⟩ := H'
  exact ⟨d', hd.trans hd', rfl⟩

theorem of_dir {d : Dir} (H : s.dir.OnlyIn names d) : Aside names s { s with dir := d } :=
  ⟨d, H, rfl⟩

theorem mono (H : Aside names s t) {names' : List String} (h : names ⊆ names') :
    Aside names' s t := by
  obtain ⟨d, hd, rfl⟩ := H
  exact ⟨d, hd.mono h, rfl⟩

theorem repr (H : Aside names s t) {a : Contents} (hr : Repr s a) (hn : manifestName ∉ names) :
    Repr t a := by
  obtain ⟨d, hd, rfl⟩ := H
  exact { hr with active := by rw [← hr.active]; exact activePaths_congr (hd _ hn) }

end Aside

/-- Any program on a matrix that is being built beside the handle leaves the handle alone. -/
theorem inNewMatrix_wp {α : Type} {s : ChunkStore} {m : EmbeddingMatrix}
    {p : Prog EmbeddingMatrix Failure Step α} {Q : α → EmbeddingMatrix → Prop} {F : Prop}
    (H : Prog.wp p Q (fun _ t => m.Kept t ∧ F) (fun l t => ¬l.Published ∧ m.Kept t) m)
    (hQ : ∀ a t, Q a t → t.path = m.path) :
    Prog.wp (inNewMatrix m p)
      (fun r u => Q r.1 r.2 ∧ u = { s with dir := s.dir.write m.path (.matrix r.2.file) })
      (fun _ u => Aside [m.path] s u ∧ F) (fun l u => ¬l.Published ∧ Aside [m.path] s u) s := by
  have hset : ∀ t : EmbeddingMatrix, t.path = m.path →
      Aside [m.path] s { s with dir := s.dir.write t.path (.matrix t.file) } := fun t ht =>
    .of_dir (Dir.OnlyIn.refl.write (by simp [ht]) _)
  simp only [inNewMatrix, Prog.wp_focus, Prog.wp_bind, Prog.wp_get, Prog.wp_pure]
  refine H.mono (fun a t h => ⟨h, ?_⟩) (fun _ t h => ⟨hset t h.1.2, h.2⟩)
    (fun _ t h => ⟨h.1, hset t h.2.2⟩)
  rw [hQ a t h]

/-- The steps between the publication of the new pair and the switch of the handle. -/
def CompactStep.Reopens (f : CompactStep) : Prop :=
  f = .reopenDb ∨ f = .reconfigure ∨ f = .reopenMatrix

instance (f : CompactStep) : Decidable f.Reopens := inferInstanceAs (Decidable (_ ∨ _))

/-- The other steps that end a compaction; a failure to remove the old pair is ignored. -/
def CompactStep.Aborts (f : CompactStep) : Prop :=
  ¬f.Reopens ∧ f ≠ .removeMatrix ∧ f ≠ .removeDb

instance (f : CompactStep) : Decidable f.Aborts := inferInstanceAs (Decidable (_ ∧ _))

/-- The loop of `copyLive`: each live row goes to the next row of the new pair. -/
theorem copyLive_loop (fails : CompactStep → Bool) (a : Contents) :
    ∀ (es : List (RowId × ChunkRecord × List F16)) {s : ChunkStore} {m : EmbeddingMatrix} {db : Db}
      {t : ChunkTable} (i : Nat), Fills m db { a with table := t } →
      t.novel (es.map (·.2)) = es.map (·.2) → (∀ e ∈ es, e.2.2.length = a.dims) →
      Prog.wp (σ := ChunkStore) (ε := Failure) (ι := Step)
        (Prog.foldlP
          (fun (p : Nat × EmbeddingMatrix × Db) (q : RowId × ChunkRecord × List F16) => do
          let (row, m) ← inNewMatrix p.2.1
            (EmbeddingMatrix.append (fun f => fails (.append p.1 f)) q.2.2)
          failAt (fails (.insertChunk p.1))
          let db ← .ofExcept ((Db.insertChunk p.2.2 row q.2.1).mapError .error)
          return (p.1 + 1, m, db)) (i, m, db) es)
        (fun p u => Fills p.2.1 p.2.2 { a with table := t.insertAll (es.map (·.2)) } ∧
          p.2.1.path = m.path ∧ Aside [m.path] s u)
        (fun _ u => Aside [m.path] s u ∧ ∃ f, fails f = true ∧ f.Aborts)
        (fun l u => ¬l.Published ∧ Aside [m.path] s u) s
  | [], s, m, db, t, i, H, _, _ => by
    simp only [Prog.foldlP, Prog.wp_pure, List.map_nil, RowTable.insertAll_nil]
    exact ⟨H, trivial, .refl⟩
  | (r, e) :: es, s, m, db, t, i, H, hn, hl => by
    have he : Entry.hash e ∉ t.keys := fun h => by
      have := RowTable.novel_sublist (es.map (·.2)) t
      rw [List.map_cons, RowTable.novel_of_mem h] at hn
      rw [hn] at this
      exact absurd this.length_le (by simp)
    rw [List.map_cons, RowTable.novel_of_not_mem he, List.cons.injEq] at hn
    have hlen : e.2.length = m.dims := by
      rw [hl _ List.mem_cons_self, H.matrix.ready.dims]; exact H.pair.dims.symm
    simp only [Prog.foldlP, Prog.wp_bind]
    refine (inNewMatrix_wp (s := s) (F := ∃ f, fails (.append i f) = true)
      ((EmbeddingMatrix.append_wp H.matrix.ready hlen _).mono (fun _ _ h => h)
      (fun _ _ h => ⟨h.1, h.2.1.imp fun _ hf => hf.1⟩)
      (fun _ _ h => ⟨h.1.not_published, h.2⟩)) fun _ _ h => h.2.1.2).mono ?_
      (fun _ _ h => ⟨h.1, h.2.elim fun _ hf =>
        ⟨_, hf, by simp [CompactStep.Aborts, CompactStep.Reopens]⟩⟩)
      (fun _ _ h => h)
    rintro ⟨row, m'⟩ u ⟨⟨hrow, hk, hm', hh, hv⟩, rfl⟩
    obtain rfl : row = t.size := hrow.trans H.rows
    obtain ⟨hins, hdb'⟩ := H.pair.db.insertChunk he
    have haside : Aside [m.path] s { s with dir := s.dir.write m.path (.matrix m'.file) } :=
      .of_dir (Dir.OnlyIn.refl.write List.mem_cons_self _)
    have hrows : m.file.rows = t.size := H.matrix.ready.rows.symm.trans H.rows
    have hfills : Fills m' (db.withRows t.size [e]) { a with table := t.insert e } :=
      { pair := { (H.pair.extends hk.1) with
          db := hdb'
          commit := H.pair.commit
          rows := by
            rw [show m'.file.rows = m'.rows from hm'.ready.rows.symm]
            refine (RowTable.insert_size he).trans_le (Nat.le_of_eq ?_)
            rw [show m'.rows = m.rows + 1 from congrArg (·.rows) hh, H.rows]
          vectors := vectors_insert hk.1 hrows hv he H.pair.vectors }
        matrix := hm'
        rows := by
          rw [show m'.rows = m.rows + 1 from congrArg (·.rows) hh, H.rows]
          exact (RowTable.insert_size he).symm }
    have ih :=
      copyLive_loop fails a es (s := { s with dir := s.dir.write m.path (.matrix m'.file) })
      (i + 1) hfills hn.2 fun e' h => hl e' (List.mem_cons_of_mem _ h)
    rw [hk.2] at ih
    simp only [wp_failAt, hins, Except.mapError, Prog.wp_ofExcept, Prog.wp_pure]
    refine ⟨fun h => ⟨haside, _, h, by simp [CompactStep.Aborts, CompactStep.Reopens]⟩, fun _ =>
      ih.mono ?_ ?_ ?_⟩
    · exact fun _ _ h => ⟨h.1, h.2.1, haside.trans h.2.2⟩
    · exact fun _ _ h => ⟨haside.trans h.1, h.2⟩
    · exact fun _ _ h => ⟨h.1, haside.trans h.2⟩

theorem copyLive_wp {s : ChunkStore} {m : EmbeddingMatrix} {db : Db} {a : Contents}
    (fails : CompactStep → Bool) (es : List (RowId × ChunkRecord × List F16)) (newDb : String)
    (H : Fills m db { a with table := RowTable.empty })
    (hn : (RowTable.empty : ChunkTable).novel (es.map (·.2)) = es.map (·.2))
    (hl : ∀ e ∈ es, e.2.2.length = a.dims) (hne : newDb ≠ m.path) :
    Prog.wp (copyLive fails es newDb m db)
      (fun _ u => Aside [newDb, m.path] s u ∧ ∃ db' f,
        u.dir newDb = some (.db db') ∧ u.dir m.path = some (.matrix f) ∧
        Pair db' f { a with table := (RowTable.empty : ChunkTable).insertAll (es.map (·.2)) } ∧
        f.rows = ((RowTable.empty : ChunkTable).insertAll (es.map (·.2))).size)
      (fun _ u => Aside [newDb, m.path] s u ∧ ∃ f, fails f = true ∧ f.Aborts)
      (fun l u => ¬l.Published ∧ Aside [newDb, m.path] s u) s := by
  have hsub : [m.path] ⊆ [newDb, m.path] := List.subset_cons_self _ _
  simp only [copyLive, Prog.wp_bind, wp_failAt, Prog.wp_pure]
  refine ⟨fun h => ⟨.refl, _, h, by decide⟩, fun _ => ?_⟩
  refine (copyLive_loop (s := s) fails a es 0 H hn hl).mono ?_
    (fun _ _ h => ⟨h.1.mono hsub, h.2⟩) (fun _ _ h => ⟨h.1, h.2.mono hsub⟩)
  rintro ⟨_, m', db'⟩ u ⟨hfills, hpath, haside⟩
  have h1 := haside.mono hsub
  refine (inNewMatrix_wp (s := u) ((EmbeddingMatrix.flush_wp hfills.matrix.ready _).mono
    (fun _ _ h => h) (fun _ t h => ⟨?_, (h.2 hfills.matrix).1⟩)
    (fun _ t h => ⟨h.1.not_published, ?_⟩)) fun _ _ h => congrArg (·.path) h.1).mono ?_ ?_ ?_
  · rw [h.1]; exact ⟨.refl hfills.matrix.file, rfl⟩
  · rw [h.2]; exact ⟨.refl hfills.matrix.file, rfl⟩
  · rintro ⟨_, m''⟩ v ⟨⟨rfl, -⟩, rfl⟩
    rw [hpath]
    have h2 : Aside [newDb, m.path] s { u with dir := u.dir.write m.path (.matrix m''.file) } :=
      h1.trans (.of_dir (Dir.OnlyIn.refl.write (by simp) _))
    have h3 : Aside [newDb, m.path] s { u with
        dir := (u.dir.write m.path (.matrix m''.file)).write newDb (.db db') } :=
      h2.trans (.of_dir (Dir.OnlyIn.refl.write (by simp) _))
    have hrows : m''.rows * m''.dims = m''.file.rows * m''.file.dims := by
      rw [hfills.matrix.ready.rows, hfills.matrix.ready.dims]
    have htrunc := MatrixFile.extends_truncate hfills.matrix.file
    have h4 : Aside [newDb, m.path] s { u with
        dir := ((u.dir.write m.path (.matrix m''.file)).write newDb (.db db')).write m.path
          (.matrix (m''.file.setLen (m''.file.rows * m''.file.dims))) } :=
      h3.trans (.of_dir (Dir.OnlyIn.refl.write (by simp) _))
    simp only [inDir, Prog.wp_focus, Prog.wp_durable, hrows]
    refine ⟨fun h => ⟨h2, _, h, by decide⟩, fun _ => ⟨⟨by decide, h3⟩,
      fun h => ⟨h3, _, h, by decide⟩, fun _ => ⟨fun h => ⟨h3, _, h, by decide⟩,
        fun _ => ⟨⟨by decide, h4⟩, h4, _, _, ?_, Dir.write_self _ _ _,
          hfills.pair.extends htrunc, ?_⟩⟩⟩⟩
    · show Dir.write _ _ _ _ = _
      rw [Dir.write_of_ne _ _ hne, Dir.write_self]
    · exact hfills.matrix.ready.rows.symm.trans hfills.rows
  · rintro _ v ⟨h, hf⟩
    rw [hpath] at h
    exact ⟨h1.trans (h.mono hsub), _, hf, by decide⟩
  · rintro _ v ⟨hl, h⟩
    rw [hpath] at h
    exact ⟨hl, h1.trans (h.mono hsub)⟩

def manifestText (db matrix : String) : String := s!"version=1\ndb={db}\nmatrix={matrix}\n"

def manifestTmp (pid : Nat) : String := s!"{manifestName}.tmp-{pid}"

theorem manifestTmp_head (pid : Nat) : (manifestTmp pid).toList.head? = some 's' := by
  simp [manifestTmp, manifestName, toString]

theorem manifestName_ne_tmp (pid : Nat) : manifestName ≠ manifestTmp pid := by
  intro h
  have := congrArg (·.length) h
  have hlen : ".tmp-".length = 5 := by decide
  simp [manifestTmp, toString, hlen] at this
  omega

theorem publishManifest_wp (d : Dir) (fails : PublishStep → Bool) (pid : Nat) (db matrix : String) :
    Prog.wp (publishManifest fails pid db matrix)
      (fun _ d' => d.OnlyIn [manifestTmp pid, manifestName] d' ∧
        d' manifestName = some (.text (manifestText db matrix)))
      (fun _ d' => d.OnlyIn [manifestTmp pid] d' ∧ ∃ p, fails p = true)
      (fun l d' => (¬l.Published ∧ d.OnlyIn [manifestTmp pid] d') ∨
        (l = .manifestRename ∧ d.OnlyIn [manifestTmp pid, manifestName] d' ∧
          d' manifestName = some (.text (manifestText db matrix)))) d := by
  have hw : ∀ d' f, d.OnlyIn [manifestTmp pid] d' →
      d.OnlyIn [manifestTmp pid] (d'.write (manifestTmp pid) f) :=
    fun d' f h => h.write List.mem_cons_self f
  have h0 : d.OnlyIn [manifestTmp pid] d := .refl
  have h1 := hw d (.text "") h0
  have hrename : ∀ d', d.OnlyIn [manifestTmp pid] d' →
      d.OnlyIn [manifestTmp pid, manifestName]
        ((d'.remove (manifestTmp pid)).write manifestName (.text (manifestText db matrix))) :=
    fun d' h => ((h.mono (by simp)).remove (by simp)).write (by simp) _
  have h1 := hw d (.text "") h0
  have h2 := hw _ (.text "version=1\n") h1
  have h3 := hw _ (.text s!"version=1\ndb={db}\n") h2
  have h4 := hw _ (.text (manifestText db matrix)) h3
  simp only [publishManifest, Prog.wp_bind, wp_failAt, Prog.wp_durable]
  exact ⟨fun h => ⟨h0, _, h⟩, fun _ => ⟨.inl ⟨by decide, h1⟩, fun h => ⟨h1, _, h⟩,
    fun _ => ⟨.inl ⟨by decide, h2⟩, .inl ⟨by decide, h3⟩, .inl ⟨by decide, h4⟩,
      fun h => ⟨h4, _, h⟩, fun _ => ⟨fun h => ⟨h4, _, h⟩, fun _ =>
        ⟨.inr ⟨trivial, hrename _ h4, Dir.write_self _ _ _⟩, hrename _ h4, Dir.write_self _ _ _⟩⟩⟩⟩⟩

/-- The clock gives names that the pair in use does not bear. -/
structure FreshGeneration (s : ChunkStore) (pid nanos : Nat) : Prop where
  db : generationName dbName pid nanos ≠ s.dbPath
  matrix : generationName matrixName pid nanos ≠ s.matrix.path

/-- A store that has not been compacted bears the names that generations are made from. -/
theorem FreshGeneration.first {pid nanos : Nat} (hdb : s.dbPath = dbName)
    (hmatrix : s.matrix.path = matrixName) : FreshGeneration s pid nanos := by
  constructor
  · rw [hdb]
    exact generationName_ne dbName pid nanos
  · rw [hmatrix]
    exact generationName_ne matrixName pid nanos

/-- The manifest names a new pair that holds the contents, while the handle is still on the old
one. -/
structure Stranded (s : ChunkStore) (a : Contents) (newDb newMatrix : String) (t : ChunkStore) :
    Prop where
  conn : t.conn = s.conn
  matrix : t.matrix = s.matrix
  dbPath : t.dbPath = s.dbPath
  active : activePaths t.dir = .ok (newDb, newMatrix)
  pair : ∃ db f, t.dir newDb = some (.db db) ∧ t.dir newMatrix = some (.matrix f) ∧
    Pair db f a ∧ f.rows = a.table.size

/-- What `compact` reads of the old pair. -/
theorem Repr.selectLive {s : ChunkStore} {a : Contents} (H : Repr s a) :
    (s.conn.live.mapM fun c => do
      let vector ← s.matrix.row c.rowid
      return (c.rowid, c.record, vector)) = (.ok a.table.live : Except Failure _) := by
  rw [Except.mapM_eq_ok_map (g := fun c => (c.rowid, c.record, s.matrix.file.vector c.rowid))]
  · have h := congrArg (List.map fun p : RowId × ChunkRecord =>
      (p.1, p.2, s.matrix.file.vector p.1)) H.pair.db.live
    rw [List.map_map, List.map_map] at h
    refine congrArg _ (h.trans ?_)
    conv_rhs => rw [← List.map_id a.table.live]
    refine List.map_congr_left fun p hp => ?_
    simp only [Function.comp_apply, H.pair.vectors p hp, id]
  · intro c hc
    have hmem : (c.rowid, c.record) ∈ a.table.live.map fun p => (p.1, p.2.1) :=
      H.pair.db.live ▸ List.mem_map_of_mem hc
    obtain ⟨p, hp, hpc⟩ := List.mem_map.mp hmem
    have hrow : c.rowid < s.matrix.rows := by
      rw [H.rows, ← (Prod.mk.inj hpc).1]; exact a.table.inside p hp
    rw [H.matrix.row hrow]
    rfl

section compact

variable {s : ChunkStore} {a : Contents} {newDb newMatrix : String} {db : Db} {f : MatrixFile}

theorem Stranded.recovers {t : ChunkStore} (H : Repr s a) {b : Contents}
    (hdb : newDb ≠ s.dbPath) (hm : newMatrix ≠ s.matrix.path)
    (hc : newDb.toList.head? = some 'c') (he : newMatrix.toList.head? = some 'e')
    (h : Stranded s b newDb newMatrix t) : RecoversTo t.onDisk b := by
  obtain ⟨db, f, hd, hf, hp, -⟩ := h.pair
  refine recoversTo_of_pair (p := newDb) (q := newMatrix) ?_ hc he ?_ ?_ hp
  · rw [← h.active]
    refine activePaths_congr ?_
    rw [onDisk, h.matrix, h.dbPath,
      Dir.write_of_ne _ _ (head?_ne manifestName_head H.matrixPath (by decide)),
      Dir.write_of_ne _ _ (head?_ne manifestName_head H.dbPath (by decide))]
  · rw [onDisk, h.matrix, h.dbPath, Dir.write_of_ne _ _ (head?_ne hc H.matrixPath (by decide)),
      Dir.write_of_ne _ _ hdb, hd]
  · rw [onDisk, h.matrix, h.dbPath, Dir.write_of_ne _ _ hm,
      Dir.write_of_ne _ _ (head?_ne he H.dbPath (by decide)), hf]

/-- The switch brings a stranded handle over to the published pair. -/
theorem Stranded.switch {t : ChunkStore} (H : Repr s a) {b : Contents}
    (hc : newDb.toList.head? = some 'c') (he : newMatrix.toList.head? = some 'e')
    (h : Stranded s b newDb newMatrix t) :
    ∃ db m, openConnection t.dir newDb = .ok db ∧ openMatrix t.dir newMatrix = .ok m ∧
      ∀ names, manifestName ∉ names → ∀ d, t.onDisk.OnlyIn names d →
        Repr { t with dir := d, dbPath := newDb, conn := db, matrix := m } b := by
  obtain ⟨db, f, hd, hf, hp, hrows⟩ := h.pair
  obtain ⟨m, hopen, hm', hpath, hfile⟩ := EmbeddingMatrix.openMut_wf newMatrix hp.file
  refine ⟨db, m, by rw [openConnection, hd], by rw [openMatrix, hf]; exact hopen,
    fun names hn d hdir => ?_⟩
  refine ⟨hfile ▸ hp, hm', ?_, ?_, hc, hpath ▸ he⟩
  · rw [hm'.ready.rows, hfile, hrows]
  · rw [hpath, ← h.active]
    refine activePaths_congr ?_
    show d manifestName = _
    rw [hdir _ hn, onDisk, h.matrix, h.dbPath,
      Dir.write_of_ne _ _ (head?_ne manifestName_head H.matrixPath (by decide)),
      Dir.write_of_ne _ _ (head?_ne manifestName_head H.dbPath (by decide))]

theorem generationName_head {base : String} {c : Char} (h : base.toList.head? = some c)
    (pid nanos : Nat) : (generationName base pid nanos).toList.head? = some c := by
  rw [generationName_toList, List.head?_append, h, Option.some_or]

/-- Publication, the switch of the handle and the removal of the old pair. -/
theorem publish_wp {t : ChunkStore} {b : Contents} {names : List String}
    (ht : Aside names s t) (fails : CompactStep → Bool) (pid nanos : Nat)
    (hpair : ∃ db f, t.dir (generationName dbName pid nanos) = some (.db db) ∧
      t.dir (generationName matrixName pid nanos) = some (.matrix f) ∧ Pair db f b ∧
      f.rows = b.table.size) :
    Prog.wp (inDir (publishManifest (fun p => fails (.publish p)) pid
        (generationName dbName pid nanos) (generationName matrixName pid nanos)))
      (fun _ u => Stranded s b (generationName dbName pid nanos)
        (generationName matrixName pid nanos) u)
      (fun _ u => Aside (manifestTmp pid :: names) s u ∧ ∃ p, fails (.publish p) = true)
      (fun l u => (¬l.Published ∧ Aside (manifestTmp pid :: names) s u) ∨
        (l = .manifestRename ∧ Stranded s b (generationName dbName pid nanos)
          (generationName matrixName pid nanos) u)) t := by
  obtain ⟨d, hd, rfl⟩ := ht
  have hbefore : ∀ d', d.OnlyIn [manifestTmp pid] d' →
      Aside (manifestTmp pid :: names) s { s with dir := d' } := fun d' h =>
    .of_dir ((hd.mono (List.subset_cons_self _ _)).trans (h.mono (by simp)))
  have hafter : ∀ d', d.OnlyIn [manifestTmp pid, manifestName] d' →
      d' manifestName = some (.text (manifestText (generationName dbName pid nanos)
        (generationName matrixName pid nanos))) →
      Stranded s b (generationName dbName pid nanos) (generationName matrixName pid nanos)
        { s with dir := d' } := fun d' h hm => by
    have hkeep : ∀ n c, n.toList.head? = some c → c ≠ 's' → d' n = d n := fun n c hc hs => by
      refine h n ?_
      rw [List.mem_cons, List.mem_singleton, not_or]
      exact ⟨head?_ne hc (manifestTmp_head pid) hs, head?_ne hc manifestName_head hs⟩
    obtain ⟨db, f, hdb, hf, hp, hrows⟩ := hpair
    refine ⟨rfl, rfl, rfl, ?_, db, f, ?_, ?_, hp, hrows⟩
    · exact activePaths_published (plainName_dbName.generation pid nanos)
        (plainName_matrixName.generation pid nanos) hm
    · exact (hkeep _ 'c' (generationName_head (by decide) pid nanos) (by decide)).trans hdb
    · exact (hkeep _ 'e' (generationName_head (by decide) pid nanos) (by decide)).trans hf
  simp only [inDir, Prog.wp_focus]
  refine (publishManifest_wp d _ pid _ _).mono ?_ ?_ ?_
  · exact fun _ d' h => hafter d' h.1 h.2
  · exact fun _ d' h => ⟨hbefore d' h.1, h.2⟩
  · rintro l d' (h | h)
    · exact .inl ⟨h.1, hbefore d' h.2⟩
    · exact .inr ⟨h.1, hafter d' h.2.1 h.2.2⟩

theorem carryCommit_wp {t : ChunkStore} {t0 : ChunkTable} (hdb : db.Repr t0)
    (hcommit : db.metaValue "indexed_commit" = none) (fails : Bool) (c : Option String) :
    Prog.wp (carryCommit fails newDb db c)
      (fun db' u => Aside [newDb] t u ∧ db'.Repr t0 ∧ db'.metaValue "indexed_commit" = c)
      (fun _ u => Aside [newDb] t u ∧ fails = true)
      (fun l u => ¬l.Published ∧ Aside [newDb] t u) t := by
  cases c with
  | none => simpa [carryCommit] using ⟨Aside.refl, hdb, hcommit⟩
  | some c =>
    have h : Aside [newDb] t { t with
        dir := t.dir.write newDb (.db (db.setMeta "indexed_commit" c)) } :=
      .of_dir (Dir.OnlyIn.refl.write (by simp) _)
    simp only [carryCommit, Prog.wp_bind, wp_failAt, inDir, Prog.wp_focus, Prog.wp_durable,
      Prog.wp_pure]
    exact ⟨fun hf => ⟨.refl, hf⟩, fun _ => ⟨⟨by decide, h⟩, h, hdb.setMeta (by decide),
      Db.Repr.metaValue_setMeta⟩⟩

/-- The new pair holds the live rows, renumbered, and the commit marker. -/
theorem buildPair_wp (H : Repr s a) (fails : CompactStep → Bool) (hne : newDb ≠ newMatrix) :
    Prog.wp (buildPair fails s a.table.live newDb newMatrix)
      (fun _ u => Aside [newDb, newMatrix] s u ∧ ∃ db f,
        u.dir newDb = some (.db db) ∧ u.dir newMatrix = some (.matrix f) ∧
        Pair db f a.compact ∧ f.rows = a.compact.table.size)
      (fun _ u => Aside [newDb, newMatrix] s u ∧ ∃ f, fails f = true ∧ f.Aborts)
      (fun l u => ¬l.Published ∧ Aside [newDb, newMatrix] s u) s := by
  have h1 : Aside [newDb, newMatrix] s { s with dir := s.dir.remove newDb } :=
    .of_dir (Dir.OnlyIn.refl.remove (by simp))
  have h2 : Aside [newDb, newMatrix] s { s with dir := (s.dir.remove newDb).remove newMatrix } :=
    h1.trans (.of_dir (Dir.OnlyIn.refl.remove (by simp)))
  have hlen : s.matrix.modelId.utf8ByteSize ≤ modelIdCapacity := by
    rw [EmbeddingMatrix.modelId, H.matrix.header]; exact H.matrix.file.header.modelId
  simp only [buildPair, Prog.wp_bind, wp_failAt, inDir, Prog.wp_focus, Prog.wp_durable]
  refine ⟨⟨by decide, h1⟩, ⟨by decide, h2⟩, fun h => ⟨h2, _, h, by decide⟩, fun _ => ?_⟩
  refine (createMatrix_wp _ _ newMatrix s.matrix.dims s.matrix.modelId).mono ?_ ?_
    fun l d' h => ⟨h.1, h2.trans (.of_dir (h.2.mono (by simp)))⟩
  · rintro m d3 ⟨hm, hpath, hheader, hd3⟩
    have h3 : Aside [newDb, newMatrix] s { s with dir := d3 } :=
      h2.trans (.of_dir (hd3.mono (by simp)))
    refine (newConnection_wp d3 _ _ _ _ newDb).mono ?_ ?_
      fun l d' h => ⟨h.1, h3.trans (.of_dir (h.2.mono (by simp)))⟩
    · rintro db d4 ⟨hdb, hcommit, hd4⟩
      have h4 : Aside [newDb, newMatrix] s { s with dir := d4 } :=
        h3.trans (.of_dir (hd4.mono (by simp)))
      refine (carryCommit_wp (t := { s with dir := d4 }) hdb hcommit _ s.indexedCommit).mono ?_ ?_
        fun l u h => ⟨h.1, h4.trans (h.2.mono (by simp))⟩
      · rintro db' u ⟨h5, hdb', hcommit'⟩
        have h5 : Aside [newDb, newMatrix] s u := h4.trans (h5.mono (by simp))
        have hfile : m.file.header = ⟨matrixMagic, matrixFormatVersion, s.matrix.dims, 0,
            s.matrix.modelId⟩ := by rw [← hm.header, hheader]
        have hfills : Fills m db' { a with table := RowTable.empty } := by
          refine ⟨⟨hdb', hcommit'.trans H.pair.commit, hm.file, ?_, ?_, Nat.zero_le _,
            fun _ h => absurd h List.not_mem_nil⟩, hm, congrArg (·.rows) hheader⟩
          · exact (congrArg (·.dims) hfile).trans (H.matrix.ready.dims.trans H.pair.dims)
          · refine (congrArg (·.modelId) hfile).trans ?_
            rw [← H.pair.modelId, ← H.matrix.header]
            rfl
        have hvals : a.table.live.map (·.2) = a.table.vals := rfl
        have hnovel : (RowTable.empty : ChunkTable).novel (a.table.live.map (·.2)) =
            a.table.live.map (·.2) := by
          refine RowTable.novel_eq_self (by simp [RowTable.empty, RowTable.keys]) ?_
          rw [hvals, ← RowTable.keys_eq_map_vals]
          exact a.table.distinct
        refine (copyLive_wp (s := u) fails a.table.live newDb hfills hnovel
          (fun p hp => H.pair.length_vector hp) (hpath ▸ hne)).mono ?_ ?_ ?_
        · rintro _ v ⟨h6, db'', f, hd, hf, hp, hr⟩
          rw [hpath] at h6 hf
          rw [hvals, RowTable.insertAll_vals] at hp hr
          exact ⟨h5.trans h6, db'', f, hd, hf, hp, hr⟩
        · rintro _ v ⟨h6, hf⟩
          rw [hpath] at h6
          exact ⟨h5.trans h6, hf⟩
        · rintro l v ⟨hl, h6⟩
          rw [hpath] at h6
          exact ⟨hl, h5.trans h6⟩
      · exact fun _ u h => ⟨h4.trans (h.1.mono (by simp)), _, h.2, by decide⟩
    · rintro _ d' ⟨hd', hf⟩
      refine ⟨h3.trans (.of_dir (hd'.mono (by simp))), ?_⟩
      rcases hf with hf | hf | hf | hf <;> exact ⟨_, hf, by decide⟩
  · rintro _ d' ⟨hd', hf⟩
    obtain ⟨c, hc⟩ := hf hlen
    exact ⟨h2.trans (.of_dir (hd'.mono (by simp))), _, hc, by
      simp [CompactStep.Aborts, CompactStep.Reopens]⟩

theorem removeOld_wp {t : ChunkStore} {b : Contents} (fails : Bool) (oldFile newFile : String)
    {names : List String} (hold : oldFile ∈ names)
    (H : ∀ d, t.dir.OnlyIn names d → Repr { t with dir := d } b) :
    Prog.wp (removeOld fails oldFile newFile) (fun _ u => ∃ d, t.dir.OnlyIn names d ∧
      u = { t with dir := d }) (fun _ _ => False)
      (fun l u => l.Published ∧ Repr u b) t := by
  have h : t.dir.OnlyIn names (t.dir.remove oldFile) := Dir.OnlyIn.refl.remove hold
  simp only [removeOld, Prog.wp_ite, inDir, Prog.wp_focus, Prog.wp_durable, Prog.wp_pure]
  exact ⟨fun _ => ⟨⟨by decide, H _ h⟩, _, h, rfl⟩, fun _ => ⟨_, .refl, rfl⟩⟩

theorem reopenPair_wp {t : ChunkStore} (H : Repr s a) {b : Contents} (fails : CompactStep → Bool)
    (hc : newDb.toList.head? = some 'c') (he : newMatrix.toList.head? = some 'e')
    (h : Stranded s b newDb newMatrix t) :
    Prog.wp (reopenPair fails s.dbPath s.matrix.path newDb newMatrix) (fun _ u => Repr u b)
      (fun _ u => u = t ∧ ∃ f, fails f = true ∧ f.Reopens) (fun l u => l.Published ∧ Repr u b)
      t := by
  obtain ⟨db, m, hdb, hm, hrepr⟩ := h.switch H hc he
  have hn : manifestName ∉ [s.matrix.path, s.dbPath] := by
    rw [List.mem_cons, List.mem_singleton, not_or]
    exact ⟨head?_ne manifestName_head H.matrixPath (by decide),
      head?_ne manifestName_head H.dbPath (by decide)⟩
  simp only [reopenPair, Prog.wp_bind, wp_failAt, Prog.wp_get, hdb, hm, Prog.wp_ofExcept,
    Prog.wp_modify]
  refine ⟨fun h => ⟨trivial, _, h, by decide⟩, fun _ => ⟨fun h => ⟨trivial, _, h, by decide⟩,
    fun _ => ⟨fun h => ⟨trivial, _, h, by decide⟩, fun _ => ?_⟩⟩⟩
  refine (removeOld_wp (t := switchTo newDb db m t) (b := b) _ _ _ (by simp)
    (hrepr _ hn)).mono ?_ (fun _ _ h => h.elim) (fun _ _ h => h)
  rintro _ _ ⟨d, hd, rfl⟩
  refine (removeOld_wp (t := { t with dir := d, dbPath := newDb, conn := db, matrix := m }) (b := b)
    _ _ _ (by simp) (fun d' hd' => hrepr _ hn d' (hd.trans hd'))).mono ?_ (fun _ _ h => h.elim)
    (fun _ _ h => h)
  rintro _ _ ⟨d', hd', rfl⟩
  exact hrepr _ hn d' (hd.trans hd')

/-- Only what is left of a killed compaction depends on the names that the clock gives. -/
theorem compact_ends (H : Repr s a) (fails : CompactStep → Bool) (pid nanos : Nat) :
    Prog.wp (compact fails pid nanos)
      (fun rep t => Repr t a.compact ∧ rep = ⟨a.table.live.length,
        a.table.size - a.table.live.length, a.table.live.length, a.table.mapping⟩)
      (fun _ t => ∃ f, fails f = true ∧
        (f.Reopens ∧ Stranded s a.compact (generationName dbName pid nanos)
          (generationName matrixName pid nanos) t ∨
        f.Aborts ∧ (Repr t a ∨ Repr t a.compact)))
      (fun l t => FreshGeneration s pid nanos →
        RecoversTo t.onDisk (if l.Published then a.compact else a)) s := by
  have hc : (generationName dbName pid nanos).toList.head? = some 'c' :=
    generationName_head (by decide) pid nanos
  have he : (generationName matrixName pid nanos).toList.head? = some 'e' :=
    generationName_head (by decide) pid nanos
  have hn : manifestName ∉
      [generationName dbName pid nanos, generationName matrixName pid nanos] := by
    rw [List.mem_cons, List.mem_singleton, not_or]
    exact ⟨head?_ne manifestName_head hc (by decide), head?_ne manifestName_head he (by decide)⟩
  have hn' : manifestName ∉ [manifestTmp pid, generationName dbName pid nanos,
      generationName matrixName pid nanos] := by
    rw [List.mem_cons, not_or]
    exact ⟨manifestName_ne_tmp pid, hn⟩
  have hbefore : ∀ {t : ChunkStore} {f}, fails f = true → f.Aborts → Repr t a →
      ∃ f, fails f = true ∧ (f.Reopens ∧ Stranded s a.compact (generationName dbName pid nanos)
        (generationName matrixName pid nanos) t ∨ f.Aborts ∧ (Repr t a ∨ Repr t a.compact)) :=
    fun hf hr h => ⟨_, hf, .inr ⟨hr, .inl h⟩⟩
  have hC : ∀ {l : Step} {t : ChunkStore}, ¬l.Published → Repr t a → FreshGeneration s pid nanos →
      RecoversTo t.onDisk (if l.Published then a.compact else a) := fun hl h _ => by
    rw [if_neg hl]; exact h.recovers
  have hC' : ∀ {l : Step} {t : ChunkStore}, l.Published →
      (FreshGeneration s pid nanos → RecoversTo t.onDisk a.compact) → FreshGeneration s pid nanos →
      RecoversTo t.onDisk (if l.Published then a.compact else a) := fun hl h hfresh => by
    rw [if_pos hl]; exact h hfresh
  simp only [compact, Prog.wp_bind, wp_failAt, Prog.wp_get, H.selectLive, Prog.wp_ofExcept,
    H.active, Prog.wp_pure]
  refine ⟨fun h => hbefore h (by decide) H, fun _ =>
    ⟨fun h => hbefore h (by decide) H, fun _ => ?_⟩⟩
  refine (buildPair_wp H fails (head?_ne hc he (by decide))).mono ?_ ?_ ?_
  · rintro _ t ⟨ht, hpair⟩
    refine (publish_wp ht fails pid nanos hpair).mono ?_ ?_ ?_
    · rintro _ u hu
      refine (reopenPair_wp H fails hc he hu).mono ?_ ?_ ?_
      · intro _ v hv
        refine ⟨fun hf => ⟨_, hf, .inr ⟨by decide, .inr hv⟩⟩, fun _ => ⟨hv, ?_⟩⟩
        rw [ChunkStore.stats, H.pair.db.stats, ChunkStore.stats, hv.pair.db.stats]
        simp [Contents.compact, RowTable.compact, RowTable.mapping, RowTable.rows, RowTable.vals,
          List.zipIdx_map, Function.comp_def, Prod.map]
      · rintro _ _ ⟨rfl, f, hf, hr⟩
        exact ⟨f, hf, .inl ⟨hr, hu⟩⟩
      · exact fun l v h => hC' h.1 fun _ => h.2.recovers
    · rintro _ u ⟨hu, p, hp⟩
      exact hbefore hp (by simp [CompactStep.Aborts, CompactStep.Reopens]) (hu.repr H hn')
    · rintro l u (⟨hl, hu⟩ | ⟨rfl, hu⟩)
      · exact hC hl (hu.repr H hn')
      · exact hC' (by decide) fun hfresh => hu.recovers H hfresh.db hfresh.matrix hc he
  · rintro _ t ⟨ht, f, hf, hr⟩
    exact hbefore hf hr (ht.repr H hn)
  · rintro l t ⟨hl, ht⟩
    exact hC hl (ht.repr H hn)

theorem compact_wp (H : Repr s a) (fails : CompactStep → Bool) (pid nanos : Nat)
    (hfresh : FreshGeneration s pid nanos) :
    Prog.wp (compact fails pid nanos)
      (fun rep t => Repr t a.compact ∧ rep = ⟨a.table.live.length,
        a.table.size - a.table.live.length, a.table.live.length, a.table.mapping⟩)
      (fun _ t => ∃ f, fails f = true ∧
        (f.Reopens ∧ Stranded s a.compact (generationName dbName pid nanos)
          (generationName matrixName pid nanos) t ∨
        f.Aborts ∧ (Repr t a ∨ Repr t a.compact)))
      (fun l t => RecoversTo t.onDisk (if l.Published then a.compact else a)) s :=
  (compact_ends H fails pid nanos).mono (fun _ _ h => h) (fun _ _ h => h) fun _ _ h => h hfresh

end compact

end SiftMcp
