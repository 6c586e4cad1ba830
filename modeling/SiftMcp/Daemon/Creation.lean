import SiftMcp.Daemon.Completion
import SiftMcp.Storage.Compaction

/-!
# What a creation leaves behind

`ChunkStore::create` makes the matrix file first and the database behind it, and gives the database
its version last. The loader creates where none of the files is, and opens where one is. A creation
that is cut off in between leaves files that cannot be opened, and that keep the loader from
creating.

`Resident.leaves_resumable_iff` says at which steps a creation can be cut off without this.
-/

namespace SiftMcp
open Durable ChunkStore

/-! ## The loader -/

/-- The directory of the store behind a loader that is killed, or that has ended. It writes there
only what `create` writes. -/
def Resident.leaves (env : LoadEnv) (cfg : DaemonConfig) (killed : Option Nat) : Dir :=
  if (env.dir dbName).isSome ∨ (env.dir matrixName).isSome ∨ (env.dir manifestName).isSome then
    env.dir
  else (ChunkStore.create env.createFails cfg.embedder.dims cfg.embedder.modelId).leaves
    killed env.dir

/-- No call fails. -/
structure LoadEnv.Works (env : LoadEnv) (cfg : DaemonConfig) : Prop where
  create : ∀ c, env.createFails c = false
  lexical : env.lexicalError = none
  live : env.liveError = none
  identity : ∃ id, StoreIdentity.capture env.host cfg.storeDir cfg.embedder.modelId = .ok id

/-- A load gives a store that is empty and in order. -/
def LoadsEmpty (d : Dir) (cfg : DaemonConfig) : Prop :=
  ∀ env : LoadEnv, env.dir = d → env.Works cfg → ∃ r, Resident.load env cfg = .ok r ∧
    Repr r.store (.none cfg.embedder.dims cfg.embedder.modelId) ∧ r.store.verify = .ok 0

/-- Loads with parameters that the matrix takes give an empty store: those of the creation, or any
if the matrix does not take these. -/
def Resumable (d : Dir) (dims : Nat) (modelId : String) : Prop :=
  ∀ cfg : DaemonConfig, cfg.embedder.modelId.utf8ByteSize ≤ modelIdCapacity →
    (modelId.utf8ByteSize ≤ modelIdCapacity →
      cfg.embedder.dims = dims ∧ cfg.embedder.modelId = modelId) → LoadsEmpty d cfg

/-- An embedder of any parameters. -/
def zeroEmbedder (dims : Nat) (modelId : String) : Embedder where
  dims := dims
  modelId := modelId
  embed texts := texts.map fun _ => ⟨List.replicate dims 0, false⟩
  length texts := List.length_map _
  vector texts e he := by
    obtain ⟨_, -, rfl⟩ := List.mem_map.mp he
    exact List.length_replicate

/-! ## Where a creation stops -/

/-- Before the first file. -/
def StopsAtOnce (fails : CreateStoreStep → Bool) (killed : Option Nat) : Prop :=
  killed = some 0 ∨ fails .createDir ∨ fails (.matrix .createDir) ∨ fails (.matrix .openFile)

/-- Nowhere: no call fails, the header takes the model id, and a kill comes behind the last step. -/
structure RunsThrough (fails : CreateStoreStep → Bool) (modelId : String) (killed : Option Nat) :
    Prop where
  calls : ∀ c, fails c = false
  modelId : modelId.utf8ByteSize ≤ modelIdCapacity
  killed : Prog.Behind 6 killed

/-- There is a matrix file, and no database with a version. -/
structure Unversioned (d : Dir) : Prop where
  manifest : d manifestName = none
  matrix : (d matrixName).isSome
  db : ∃ db, openConnection d dbName = .ok db ∧ db.metaValue "schema_version" = none

variable {d : Dir} {fails : CreateStoreStep → Bool} {dims : Nat} {modelId : String}
  {killed : Option Nat} {cfg : DaemonConfig} {env : LoadEnv}

theorem failAt_bind {σ α : Type} {b : Bool} {f : Unit → Prog σ Failure Step α} {s : σ} :
    (failAt b >>= f).leaves killed s = if b then s else (f ()).leaves killed s := by
  cases b
  · rfl
  · exact Prog.leaves_fail

namespace Unversioned

theorem not_open (h : Unversioned d) : ∃ e, ChunkStore.open d = .error e := by
  obtain ⟨db, hdb, hversion⟩ := h.db
  have hmeta : ∃ e, db.metaU32 "schema_version" = .error e := by
    unfold Db.metaU32
    split
    · exact ⟨_, rfl⟩
    · rw [hversion]
      exact ⟨_, rfl⟩
  obtain ⟨e, he⟩ := hmeta
  have hopen : ChunkStore.open d = .error (.error e) := by
    simp only [ChunkStore.open, activePaths, h.manifest, hdb, he, bind, Except.bind,
      Except.mapError]
  exact ⟨_, hopen⟩

theorem load (h : Unversioned d) (henv : env.dir = d) : ∃ e, Resident.load env cfg = .error e := by
  subst henv
  obtain ⟨e, he⟩ := h.not_open
  have hload : Resident.load env cfg = .error (Fault.ofStore "open or create store" e) := by
    simp only [Resident.load, h.matrix, Bool.not_true, Bool.and_false, Bool.false_and, he, bind,
      Except.bind, Except.mapError]
    rfl
  exact ⟨_, hload⟩

theorem not_resumable (h : Unversioned d) : ¬Resumable d dims modelId := by
  intro hres
  let id := if modelId.utf8ByteSize ≤ modelIdCapacity then modelId else ""
  let cfg : DaemonConfig := ⟨"store", "repo", zeroEmbedder dims id⟩
  let env : LoadEnv := ⟨sampleHost, d, fun _ => false, [], none, none⟩
  have hid : id.utf8ByteSize ≤ modelIdCapacity := by
    unfold id
    split
    · assumption
    · decide
  have hworks : env.Works cfg := ⟨fun _ => rfl, rfl, rfl, _, rfl⟩
  obtain ⟨r, hr, -⟩ := hres cfg hid (fun hfits => ⟨rfl, if_pos hfits⟩) env rfl hworks
  obtain ⟨e, he⟩ := @load d cfg env h rfl
  rw [hr] at he
  cases he

theorem writeMatrix (hmanifest : d manifestName = none) (hdb : d dbName = none) (f : File) :
    Unversioned (d.write matrixName f) where
  manifest := by rw [Dir.write_of_ne _ _ (by decide), hmanifest]
  matrix := by rw [Dir.write_self]; rfl
  db := by
    refine ⟨.empty, ?_, rfl⟩
    rw [openConnection, Dir.write_of_ne _ _ (by decide), hdb]

theorem writeDb {db : Db} (h : Unversioned d) (hdb : db.metaValue "schema_version" = none) :
    Unversioned (d.write dbName (.db db)) where
  manifest := by rw [Dir.write_of_ne _ _ (by decide), h.manifest]
  matrix := by rw [Dir.write_of_ne _ _ (by decide)]; exact h.matrix
  db := ⟨db, by rw [openConnection, Dir.write_self], hdb⟩

end Unversioned

/-! ## The steps -/

/-- The file of an empty matrix. -/
def emptyMatrixFile (dims : Nat) (modelId : String) : MatrixFile :=
  ⟨⟨matrixMagic, matrixFormatVersion, dims, 0, modelId⟩, List.replicate (growBlockRows * dims) 0⟩

theorem leaves_createMatrix {α : Type} {calls : CreateStep → Bool} {path : String}
    {f : EmbeddingMatrix → Prog Dir Failure Step α} :
    let left := (EmbeddingMatrix.create calls path dims modelId >>= f).leaves killed d
    let stops := killed = some 0 ∨ calls .createDir ∨ calls .openFile
    let passes := (∀ c, calls c = false) ∧ modelId.utf8ByteSize ≤ modelIdCapacity ∧
      Prog.Behind 3 killed
    stops ∧ left = d ∨ (¬stops ∧ ¬passes ∧ ∃ file, left = d.write path file) ∨
      (¬stops ∧ passes ∧ ∃ m, left = (f m).leaves (((killed.map (· - 1)).map (· - 1)).map (· - 1))
        (d.write path (.matrix (emptyMatrixFile dims modelId)))) := by
  intro left stops passes
  have hleft : left = (EmbeddingMatrix.create calls path dims modelId >>= f).leaves killed d := rfl
  have hpasses : passes ↔ (∀ c, calls c = false) ∧ modelId.utf8ByteSize ≤ modelIdCapacity ∧
      killed ≠ some 0 ∧ killed.map (· - 1) ≠ some 0 ∧
        (killed.map (· - 1)).map (· - 1) ≠ some 0 := by
    simp only [passes, Prog.behind_succ, Prog.behind_zero, and_true]
  simp only [EmbeddingMatrix.create, Prog.bind_bind, failAt_bind, Prog.leaves_durable_bind,
    Dir.write_write] at hleft
  by_cases hdir : calls .createDir = true
  · exact .inl ⟨.inr (.inl hdir), by rw [hleft, if_pos hdir]⟩
  rw [if_neg hdir] at hleft
  by_cases hfile : calls .openFile = true
  · exact .inl ⟨.inr (.inr hfile), by rw [hleft, if_pos hfile]⟩
  rw [if_neg hfile] at hleft
  by_cases hkill : killed = some 0
  · exact .inl ⟨.inl hkill, by rw [hleft, if_pos hkill]⟩
  rw [if_neg hkill] at hleft
  have hstops : ¬stops := not_or.mpr ⟨hkill, not_or.mpr ⟨hdir, hfile⟩⟩
  -- From here on the file is there, and the creation passes or stops with it.
  rw [hpasses]
  refine .inr ?_
  by_cases hlen : calls .setLen = true
  · exact .inl ⟨hstops, fun h => by simp [h.1] at hlen, _, by rw [hleft, if_pos hlen]⟩
  rw [if_neg hlen] at hleft
  by_cases hkill1 : killed.map (· - 1) = some 0
  · exact .inl ⟨hstops, fun h => h.2.2.2.1 hkill1, _, by rw [hleft, if_pos hkill1]⟩
  rw [if_neg hkill1] at hleft
  by_cases hfits : modelId.utf8ByteSize ≤ modelIdCapacity
  · rw [MatrixHeader.encode, if_neg (Nat.not_lt.mpr hfits)] at hleft
    simp only [Except.mapError, Prog.ofExcept, Prog.bind_pure_left, failAt_bind,
      Prog.leaves_durable_bind, Dir.write_write] at hleft
    by_cases hheader : calls .writeHeader = true
    · exact .inl ⟨hstops, fun h => by simp [h.1] at hheader, _, by rw [hleft, if_pos hheader]⟩
    rw [if_neg hheader] at hleft
    by_cases hkill2 : (killed.map (· - 1)).map (· - 1) = some 0
    · exact .inl ⟨hstops, fun h => h.2.2.2.2 hkill2, _, by rw [hleft, if_pos hkill2]⟩
    rw [if_neg hkill2] at hleft
    by_cases hmap : calls .map = true
    · exact .inl ⟨hstops, fun h => by simp [h.1] at hmap, _, by rw [hleft, if_pos hmap]⟩
    rw [if_neg hmap] at hleft
    refine .inr ⟨hstops, ⟨fun c => ?_, hfits, hkill, hkill1, hkill2⟩, _, hleft⟩
    cases c with
    | createDir => exact Bool.eq_false_iff.mpr hdir
    | openFile => exact Bool.eq_false_iff.mpr hfile
    | setLen => exact Bool.eq_false_iff.mpr hlen
    | writeHeader => exact Bool.eq_false_iff.mpr hheader
    | map => exact Bool.eq_false_iff.mpr hmap
  · rw [MatrixHeader.encode, if_pos (Nat.lt_of_not_le hfits)] at hleft
    exact .inl ⟨hstops, fun h => hfits h.2.1, _, hleft.trans Prog.leaves_fail⟩

/-- The database as it is created. -/
def newDb : Db :=
  ({ Db.empty with tables := true } : Db).setMeta "schema_version" (toString schemaVersion)

theorem leaves_newConnection {α : Type} {openDb configure initSchema setVersion : Bool}
    {name : String} {f : Db → Prog Dir Failure Step α} :
    let left := (newConnection openDb configure initSchema setVersion name >>= f).leaves killed d
    let passes := (openDb = false ∧ configure = false ∧ initSchema = false ∧ setVersion = false) ∧
      Prog.Behind 3 killed
    (¬passes ∧
      (left = d ∨ ∃ db, db.metaValue "schema_version" = none ∧ left = d.write name (.db db))) ∨
      (passes ∧ left = (f newDb).leaves (((killed.map (· - 1)).map (· - 1)).map (· - 1))
        (d.write name (.db newDb))) := by
  intro left passes
  have hleft : left =
    (newConnection openDb configure initSchema setVersion name >>= f).leaves killed d := rfl
  have hinit : Db.empty.initSchema = .ok { Db.empty with tables := true } := rfl
  have hpasses : passes ↔ (openDb = false ∧ configure = false ∧ initSchema = false ∧
      setVersion = false) ∧ killed ≠ some 0 ∧ killed.map (· - 1) ≠ some 0 ∧
      (killed.map (· - 1)).map (· - 1) ≠ some 0 := by
    simp only [passes, Prog.behind_succ, Prog.behind_zero, and_true]
  rw [hpasses]
  simp only [newConnection, Prog.bind_bind, failAt_bind, Prog.leaves_durable_bind, hinit,
    Except.mapError, Prog.ofExcept, Prog.bind_pure_left, Dir.write_write] at hleft
  by_cases hopen : openDb = true
  · exact .inl ⟨fun h => by simp [h.1.1] at hopen, .inl (by rw [hleft, if_pos hopen])⟩
  rw [if_neg hopen] at hleft
  by_cases hkill : killed = some 0
  · exact .inl ⟨fun h => h.2.1 hkill, .inl (by rw [hleft, if_pos hkill])⟩
  rw [if_neg hkill] at hleft
  by_cases hconfigure : configure = true
  · exact .inl ⟨fun h => by simp [h.1.2.1] at hconfigure,
      .inr ⟨_, rfl, by rw [hleft, if_pos hconfigure]⟩⟩
  rw [if_neg hconfigure] at hleft
  by_cases hschema : initSchema = true
  · exact .inl
      ⟨fun h => by simp [h.1.2.2.1] at hschema, .inr ⟨_, rfl, by rw [hleft, if_pos hschema]⟩⟩
  rw [if_neg hschema] at hleft
  by_cases hkill1 : killed.map (· - 1) = some 0
  · exact .inl ⟨fun h => h.2.2.1 hkill1, .inr ⟨_, rfl, by rw [hleft, if_pos hkill1]⟩⟩
  rw [if_neg hkill1] at hleft
  by_cases hversion : setVersion = true
  · refine .inl
      ⟨fun h => by simp [h.1.2.2.2] at hversion, .inr ⟨_, ?_, by rw [hleft, if_pos hversion]⟩⟩
    rfl
  rw [if_neg hversion] at hleft
  by_cases hkill2 : (killed.map (· - 1)).map (· - 1) = some 0
  · refine .inl ⟨fun h => h.2.2.2 hkill2, .inr ⟨_, ?_, by rw [hleft, if_pos hkill2]⟩⟩
    rfl
  rw [if_neg hkill2] at hleft
  exact .inr ⟨⟨⟨Bool.eq_false_iff.mpr hopen, Bool.eq_false_iff.mpr hconfigure,
    Bool.eq_false_iff.mpr hschema, Bool.eq_false_iff.mpr hversion⟩, hkill, hkill1, hkill2⟩, hleft⟩

/-- The directory with the files of an empty store. -/
def withNewStore (d : Dir) (dims : Nat) (modelId : String) : Dir :=
  (d.write matrixName (.matrix (emptyMatrixFile dims modelId))).write dbName (.db newDb)

theorem leaves_create (hdb : d dbName = none) (hmatrix : d matrixName = none)
    (hmanifest : d manifestName = none) :
    let left := (ChunkStore.create fails dims modelId).leaves killed d
    StopsAtOnce fails killed ∧ left = d ∨
      (¬StopsAtOnce fails killed ∧ ¬RunsThrough fails modelId killed ∧ Unversioned left) ∨
      (RunsThrough fails modelId killed ∧ left = withNewStore d dims modelId) := by
  intro left
  have hleft : left = (ChunkStore.create fails dims modelId).leaves killed d := rfl
  simp only [ChunkStore.create, failAt_bind, Prog.leaves_get_bind, hdb, hmatrix, Option.isSome_none,
    Bool.false_eq_true, or_self, if_false] at hleft
  by_cases hdir : fails .createDir = true
  · exact .inl ⟨.inr (.inl hdir), by rw [hleft, if_pos hdir]⟩
  rw [if_neg hdir] at hleft
  rcases leaves_createMatrix with ⟨hstops, hd⟩ | ⟨hstops, hpasses, file, hd⟩ |
    ⟨hstops, hpasses, m, hd⟩
  · refine .inl ⟨?_, hleft.trans hd⟩
    rcases hstops with h | h | h
    · exact .inl h
    · exact .inr (.inr (.inl h))
    · exact .inr (.inr (.inr h))
  all_goals
    have hstops : ¬StopsAtOnce fails killed := fun h => by
      rcases h with h | h | h | h
      · exact hstops (.inl h)
      · exact hdir h
      · exact hstops (.inr (.inl h))
      · exact hstops (.inr (.inr h))
    refine .inr ?_
  · refine .inl ⟨hstops, fun h => hpasses ⟨fun c => h.calls _, h.modelId, ?_⟩, ?_⟩
    · exact fun n hn => Nat.le_trans (by decide) (h.killed n hn)
    · rw [hleft.trans hd]
      exact .writeMatrix hmanifest hdb file
  · have hmatrix : Unversioned (d.write matrixName (.matrix (emptyMatrixFile dims modelId))) :=
      .writeMatrix hmanifest hdb _
    rcases @leaves_newConnection _ _ _ (fails .openDb) (fails .configure) (fails .initSchema)
      (fails .setSchemaVersion) dbName _ with ⟨hnot, hd'⟩ | ⟨hpasses', hd'⟩
    · refine .inl ⟨hstops, fun h => hnot ⟨⟨h.calls _, h.calls _, h.calls _, h.calls _⟩, ?_⟩, ?_⟩
      · have := h.killed
        simp only [Prog.behind_succ] at this ⊢
        exact this.2.2.2
      · rcases hd' with hd' | ⟨db, hversion, hd'⟩
        · rw [hleft.trans (hd.trans hd')]
          exact hmatrix
        · rw [hleft.trans (hd.trans hd')]
          exact hmatrix.writeDb hversion
    · refine .inr ⟨⟨fun c => ?_, hpasses.2.1, ?_⟩, ?_⟩
      · obtain ⟨⟨hopen, hconfigure, hschema, hversion⟩, -⟩ := hpasses'
        cases c with
        | createDir => exact Bool.eq_false_iff.mpr hdir
        | matrix c => exact hpasses.1 c
        | openDb => exact hopen
        | configure => exact hconfigure
        | initSchema => exact hschema
        | setSchemaVersion => exact hversion
      · have h := hpasses.2.2
        have h' := hpasses'.2
        simp only [Prog.behind_succ] at h h' ⊢
        exact ⟨h.1, h.2.1, h.2.2.1, h'⟩
      · rw [hleft.trans (hd.trans hd'), Prog.leaves_get_bind, Prog.leaves_pure]
        rfl

/-! ## What can be loaded -/

theorem create_succeeds (hcalls : ∀ c, fails c = false)
    (hmodel : modelId.utf8ByteSize ≤ modelIdCapacity) (hdb : d dbName = none)
    (hmatrix : d matrixName = none) :
    ∃ s, (ChunkStore.create fails dims modelId d).result = .ok s := by
  have hwp : Prog.wp (ChunkStore.create fails dims modelId) (fun _ _ => True) (fun _ _ => False)
      (fun _ _ => True) d := by
    simp only [ChunkStore.create, Prog.wp_bind, wp_failAt, Prog.wp_get, Prog.wp_ite, Prog.wp_fail,
      Prog.wp_pure, hcalls, hdb, hmatrix]
    refine ⟨fun h => Bool.noConfusion h, fun _ => ⟨fun h => by simp at h, fun _ => ?_⟩⟩
    refine (createMatrix_wp d _ matrixName dims modelId).mono ?_ (fun _ _ h => ?_)
      (fun _ _ _ => trivial)
    · rintro m d' -
      refine (newConnection_wp d' _ _ _ _ dbName).mono (fun _ _ _ => trivial) (fun _ _ h => ?_)
        (fun _ _ _ => trivial)
      rcases h.2 with h | h | h | h <;> cases h
    · obtain ⟨c, hc⟩ := h.2 hmodel
      cases hc
  cases hr : (ChunkStore.create fails dims modelId d).result with
  | ok s => exact ⟨s, rfl⟩
  | error e => exact (hwp.error hr).elim

/-- An empty store can be searched. -/
theorem dense_of_empty {s : ChunkStore} (hs : Repr s (.none dims modelId)) :
    ∃ dense, DenseIndex.fromStore none s = .ok dense := by
  have hrows : s.matrix.rows = 0 := hs.rows
  have hdense : DenseIndex.fromStore none s = .ok ⟨[], 0, s.matrix.dims, s.matrix.modelId, []⟩ := by
    simp [DenseIndex.fromStore, LiveMask.fromStore, DenseIndex.prepare, DenseIndex.prepareSlice,
      EmbeddingMatrix.asSlice, hrows, bind, Except.bind]
  exact ⟨_, hdense⟩

theorem verify_empty {s : ChunkStore} (hs : Repr s (.none dims modelId)) : s.verify = .ok 0 :=
  verify_ok hs.pair.db hs.rows

theorem requireModel_empty {s : ChunkStore} (hs : Repr s (.none dims modelId)) :
    s.requireModel modelId = .ok () := by
  have hmodel : s.matrix.modelId = modelId := by
    rw [← show s.matrix.file.header.modelId = modelId from hs.pair.modelId]
    exact congrArg (·.modelId) hs.matrix.header
  rw [requireModel, if_neg (not_not_intro hmodel)]

/-- Nothing else of a load fails on an empty store. -/
theorem load_of_empty (hworks : env.Works cfg) {s : ChunkStore}
    (hs : Repr s (.none cfg.embedder.dims cfg.embedder.modelId))
    (hstore : (if !(env.dir dbName).isSome && !(env.dir matrixName).isSome &&
        !(env.dir manifestName).isSome then
      (ChunkStore.create env.createFails cfg.embedder.dims cfg.embedder.modelId
        env.dir).result.mapError (Fault.ofStore "open or create store")
      else (ChunkStore.open env.dir).mapError (Fault.ofStore "open or create store")) = .ok s) :
    ∃ r, Resident.load env cfg = .ok r ∧
      Repr r.store (.none cfg.embedder.dims cfg.embedder.modelId) ∧ r.store.verify = .ok 0 := by
  obtain ⟨dense, hdense⟩ := dense_of_empty hs
  obtain ⟨id, hid⟩ := hworks.identity
  refine ⟨⟨s, .open env.docs, dense, cfg.embedder, id, cfg.repoDir⟩, ?_, hs, verify_empty hs⟩
  unfold Resident.load
  dsimp only
  rw [hworks.lexical, hworks.live]
  split at hstore
  all_goals
    next hnew =>
      simp only [hnew, if_true]
      refine Except.bind_eq_ok.mpr ⟨s, hstore, ?_⟩
      refine Except.mapError_bind_eq_ok.mpr ⟨(), requireModel_empty hs, ?_⟩
      refine Except.mapError_bind_eq_ok.mpr ⟨(), rfl, ?_⟩
      refine Except.mapError_bind_eq_ok.mpr ⟨dense, hdense, ?_⟩
      exact Except.mapError_bind_eq_ok.mpr ⟨id, hid, rfl⟩

theorem loadsEmpty_of_none (hmodel : cfg.embedder.modelId.utf8ByteSize ≤ modelIdCapacity)
    (hdb : d dbName = none) (hmatrix : d matrixName = none) (hmanifest : d manifestName = none) :
    LoadsEmpty d cfg := by
  rintro env rfl hworks
  obtain ⟨s, hs⟩ :=
    @create_succeeds env.dir env.createFails cfg.embedder.dims _ hworks.create hmodel hdb hmatrix
  refine load_of_empty hworks ((create_wp hmanifest _ _ _).ok hs) ?_
  rw [hdb, hmatrix, hmanifest, hs]
  rfl

theorem recovers_withNewStore (hmodel : modelId.utf8ByteSize ≤ modelIdCapacity)
    (hmanifest : d manifestName = none) :
    RecoversTo (withNewStore d dims modelId) (.none dims modelId) := by
  have hd : ∀ {name : String}, name ≠ dbName → name ≠ matrixName →
      withNewStore d dims modelId name = d name := fun h h' => by
    rw [withNewStore, Dir.write_of_ne _ _ h, Dir.write_of_ne _ _ h']
  refine @recoversTo_of_pair _ dbName matrixName newDb (emptyMatrixFile dims modelId) _ ?_
    (by decide) (by decide) (Dir.write_self ..) ?_ ?_
  · rw [activePaths, hd (by decide) (by decide), hmanifest]
  · rw [withNewStore, Dir.write_of_ne _ _ (by decide), Dir.write_self]
  · refine ⟨⟨rfl, Db.Repr.metaValue_setMeta, rfl, rfl⟩, ?_, ⟨⟨rfl, rfl, hmodel⟩, ?_, ?_⟩, rfl, rfl,
      Nat.zero_le _, fun _ h => absurd h List.not_mem_nil⟩
    · rfl
    · rw [emptyMatrixFile, List.length_replicate]
      exact Dvd.intro_left _ rfl
    · simp [MatrixFile.rows, emptyMatrixFile]

theorem loadsEmpty_of_recovers (hdb : (d dbName).isSome)
    (hrec : RecoversTo d (.none cfg.embedder.dims cfg.embedder.modelId)) : LoadsEmpty d cfg := by
  rintro env rfl hworks
  obtain ⟨s, hs, hrepr⟩ := hrec
  refine load_of_empty hworks hrepr ?_
  rw [hdb, hs]
  rfl

theorem Resident.leaves_eq (hdb : env.dir dbName = none) (hmatrix : env.dir matrixName = none)
    (hmanifest : env.dir manifestName = none) :
    Resident.leaves env cfg killed =
      (ChunkStore.create env.createFails cfg.embedder.dims cfg.embedder.modelId).leaves killed
        env.dir := by
  rw [Resident.leaves, if_neg (by simp [hdb, hmatrix, hmanifest])]

theorem not_resumable_of_between (hdb : env.dir dbName = none) (hmatrix : env.dir matrixName = none)
    (hmanifest : env.dir manifestName = none) (hstops : ¬StopsAtOnce env.createFails killed)
    (hruns : ¬RunsThrough env.createFails cfg.embedder.modelId killed) :
    ¬Resumable (Resident.leaves env cfg killed) dims modelId := by
  rw [Resident.leaves_eq hdb hmatrix hmanifest]
  rcases leaves_create hdb hmatrix hmanifest with ⟨h, -⟩ | ⟨-, -, hleft⟩ | ⟨h, -⟩
  · exact absurd h hstops
  · exact hleft.not_resumable
  · exact absurd h hruns

/-- What a loader leaves of a creation can be loaded exactly when the creation was over before it
had made a file, or went through. -/
theorem Resident.leaves_resumable_iff (hdb : env.dir dbName = none)
    (hmatrix : env.dir matrixName = none) (hmanifest : env.dir manifestName = none) :
    Resumable (Resident.leaves env cfg killed) cfg.embedder.dims cfg.embedder.modelId ↔
      StopsAtOnce env.createFails killed ∨
        RunsThrough env.createFails cfg.embedder.modelId killed := by
  constructor
  · intro hres
    by_contra hbetween
    obtain ⟨hstops, hruns⟩ := not_or.mp hbetween
    exact not_resumable_of_between hdb hmatrix hmanifest hstops hruns hres
  · intro h
    rw [Resident.leaves_eq hdb hmatrix hmanifest]
    rcases leaves_create hdb hmatrix hmanifest with ⟨-, hleft⟩ | ⟨hstops, hruns, -⟩ | ⟨hruns, hleft⟩
    · rw [hleft]
      exact fun _ hfits _ => loadsEmpty_of_none hfits hdb hmatrix hmanifest
    · exact absurd h (not_or.mpr ⟨hstops, hruns⟩)
    · rw [hleft]
      intro cfg' _ hsame
      obtain ⟨hdims, hmodel⟩ := hsame hruns.modelId
      refine loadsEmpty_of_recovers (by rw [withNewStore, Dir.write_self]; rfl) ?_
      rw [hdims, hmodel]
      exact recovers_withNewStore hruns.modelId hmanifest

/-- Nothing goes wrong. -/
theorem Resident.leaves_resumable_through :
    Resumable (Resident.leaves sampleLoad sampleConfig none) 2 "model" := by
  have hnone : ∀ name, sampleLoad.dir name = none := fun _ => rfl
  refine (Resident.leaves_resumable_iff (hnone _) (hnone _) (hnone _)).mpr
    (.inr ⟨fun _ => rfl, by decide, fun _ h => by cases h⟩)

/-- A name that the header of the matrix does not take. -/
def longConfig : DaemonConfig :=
  ⟨"store", "repo", zeroEmbedder 2 (String.ofList (List.replicate 257 'm'))⟩

/-- The daemon is killed behind the first step, or is given a model with a long name. -/
theorem creation_not_resumable :
    ¬Resumable (Resident.leaves sampleLoad sampleConfig (some 1)) 2 "model" ∧
      ¬Resumable (Resident.leaves sampleLoad longConfig none) 2 longConfig.embedder.modelId := by
  have hnone : ∀ name, sampleLoad.dir name = none := fun _ => rfl
  have hgoes : ∀ {killed : Option Nat}, killed ≠ some 0 →
      ¬StopsAtOnce sampleLoad.createFails killed := by
    rintro killed hkilled (h | h | h | h)
    · exact hkilled h
    all_goals cases h
  constructor
  · refine not_resumable_of_between (hnone _) (hnone _) (hnone _) (hgoes (by decide)) fun h => ?_
    have := h.killed 1 rfl
    omega
  · refine not_resumable_of_between (hnone _) (hnone _) (hnone _) (hgoes (by decide)) fun h => ?_
    exact absurd h.modelId (by decide +kernel)

end SiftMcp
