import SiftMcp.Storage.Compaction

/-!
# Runs of the store

Two kinds of runs over the store's operations. `Run` lets operations succeed, or fail where the
store promises to undo them, and closes and reopens the store; beside the store it keeps the vector
that was supplied for each hash. `Reached` also kills the process at any durable step and opens
what it left behind, and opens the store again after a call that failed in any other way.

The main results are `Run.representation`, the representation invariant along a run, and
`Reached.crash_safe`: a store that has been killed at a durable step opens with the contents from
before the operation or from after it.
-/

namespace SiftMcp
open Durable ChunkStore

/-! ## Batches that fail before they append a row -/

/-- Every chunk has a live row already. -/
def AllKnown (s : ChunkStore) (es : List Entry) : Prop :=
  ∀ e ∈ es, (s.getByHash e.hash).isSome = true

/-- When the step fails the batch has neither appended a row nor taken the map away. -/
def InsertStep.Early (s : ChunkStore) (chunks : List Entry) : InsertStep → Prop
  | .lookup i | .append i .growOpenPlaceholder | .append i .growMapPlaceholder =>
    AllKnown s (chunks.take i)
  | .flush => AllKnown s chunks
  | _ => False

section
variable {s t : ChunkStore} {a : Contents}

theorem allKnown_iff (H : Repr s a) {es : List Entry} :
    AllKnown s es ↔ a.table.novel es = [] := by
  rw [RowTable.novel_eq_nil]
  refine forall₂_congr fun e _ => ?_
  rw [getByHash, H.pair.db.getByHash, Option.isSome_map, List.find?_isSome, RowTable.mem_keys]
  simp

theorem Kept.eq_of_matrix {u : ChunkStore} (H : Kept s u) (H' : Kept s t)
    (hm : u.matrix = t.matrix) : u = t := by
  have hd := H.frame.dir.trans H'.frame.dir.symm
  have hp := H.frame.dbPath.trans H'.frame.dbPath.symm
  have hc := H.conn.trans H'.conn.symm
  cases u; cases t
  simp only at hd hp hc hm
  rw [hd, hp, hc, hm]

/-- A loop that has met known chunks only has changed nothing. -/
theorem Allocating.usable_of_known (H : Repr s a) {done : List Entry} {al : Allocation}
    (I : Allocating s a done al t) (h : AllKnown s done) : Usable t a ∧ t.matrix.WF := by
  have hrows : t.matrix.rows = a.table.size + (a.table.novel done).length := by
    rw [← RowTable.insertAll_size]
    exact congrArg (·.rows) I.header
  rw [(allKnown_iff H).mp h] at hrows
  refine ⟨⟨?_, I.ready, hrows⟩, I.wf (.inl H.matrix)⟩
  rw [I.kept.conn]
  exact H.pair.extends I.kept.file

theorem InsertFault.usable_of_early (H : Repr s a) {chunks : List Entry} {f : InsertStep}
    (hk : Kept s t) (h : InsertFault s a chunks f t) (hf : f.Early s chunks) :
    Usable t a ∧ t.matrix.WF := by
  cases f with
  | lookup i =>
    obtain ⟨done, rest, rfl, rfl, al, I⟩ := h
    rw [InsertStep.Early, List.take_left] at hf
    exact I.usable_of_known H hf
  | append i g =>
    obtain ⟨done, rest, rfl, rfl, al, u, I, hm⟩ := h
    cases g with
    | growOpenPlaceholder | growMapPlaceholder =>
      rw [InsertStep.Early, List.take_left] at hf
      rw [hk.eq_of_matrix I.kept hm]
      exact I.usable_of_known H hf
    | _ => exact hf.elim
  | flush =>
    obtain ⟨al, I⟩ := h
    exact I.usable_of_known H hf
  | _ => exact hf.elim

end

/-! ## Operations -/

inductive StoreOp
  | insertBatch (fails : InsertStep → Bool) (chunks : List Entry)
  | tombstone (fails : Bool) (rows : List RowId)
  | rekeyFile (fails : Bool) (oldFile newFile : String)
  | setIndexedCommit (fails : Bool) (commit : String)
  | compact (fails : CompactStep → Bool) (pid nanos : Nat)

namespace StoreOp

def run : StoreOp → Prog ChunkStore Failure Step Unit
  | insertBatch fails chunks => do let _ ← ChunkStore.insertBatch fails chunks
  | tombstone fails rows => ChunkStore.tombstone fails rows
  | rekeyFile fails oldFile newFile => do let _ ← ChunkStore.rekeyFile fails oldFile newFile
  | setIndexedCommit fails commit => ChunkStore.setIndexedCommit fails commit
  | compact fails pid nanos => do let _ ← ChunkStore.compact fails pid nanos

/-- The same operation, with nothing failing. -/
def faultless : StoreOp → StoreOp
  | insertBatch _ chunks => insertBatch (fun _ => false) chunks
  | tombstone _ rows => tombstone false rows
  | rekeyFile _ oldFile newFile => rekeyFile false oldFile newFile
  | setIndexedCommit _ commit => setIndexedCommit false commit
  | compact _ pid nanos => compact (fun _ => false) pid nanos

/-- The contents that the operation is to leave. -/
def after : StoreOp → Contents → Contents
  | insertBatch _ chunks, a => a.insertBatch chunks
  | tombstone _ rows, a => a.tombstone rows
  | rekeyFile _ oldFile newFile, a => a.rekeyFile oldFile newFile
  | setIndexedCommit _ commit, a => a.setIndexedCommit commit
  | compact _ _ _, a => a.compact

/-- A new generation never takes the names of the pair in use. -/
def Fresh (s : ChunkStore) : StoreOp → Prop
  | compact _ pid nanos => FreshGeneration s pid nanos
  | _ => True

/-- The operation fails, if it does, in the metadata transaction of a batch, before a batch has
appended a row, or before a compaction has published its pair. -/
def Undone (s : ChunkStore) : StoreOp → Prop
  | insertBatch fails chunks =>
    (MetadataFault fails ∨ ∀ f, fails f = true → f.Early s chunks) ∧
      ∀ i, s.Misfit chunks i → AllKnown s (chunks.take i)
  | compact fails _ _ => ∀ f, fails f = true → ¬f.Reopens
  | _ => True

/-- Some call of the operation fails. -/
def Faulty : StoreOp → Prop
  | insertBatch fails _ => ∃ f, fails f = true
  | compact fails _ _ => ∃ f, fails f = true
  | tombstone fails _ | rekeyFile fails _ _ | setIndexedCommit fails _ => fails = true

/-- The store refuses no vector. -/
def Accepted (s : ChunkStore) : StoreOp → Prop
  | insertBatch _ chunks => s.Accepts chunks
  | _ => True

variable {s : ChunkStore} {a : Contents}

theorem undone_of_length {fails : InsertStep → Bool} {chunks : List Entry}
    (hlength : ∀ e ∈ chunks, e.2.length = s.matrix.dims)
    (hfails : MetadataFault fails ∨ ∀ f, fails f = true → f.Early s chunks) :
    (insertBatch fails chunks).Undone s :=
  ⟨hfails, fun i h => absurd h ((accepts_of_length hlength).2 i)⟩

/-- What an operation that returns an error leaves of a store with the contents. -/
structure Failed (op : StoreOp) (s : ChunkStore) (a : Contents) (t : ChunkStore) : Prop where
  kept : op.Undone s → ∃ b, Repr t b ∧ (b = a ∨ b = op.after a) ∧ b.table.vals = a.table.vals
  faulty : op.Accepted s → op.Faulty
  recovers : RecoversTo t.onDisk a ∨ RecoversTo t.onDisk (op.after a)

theorem failed_unchanged (H : Repr s a) {op : StoreOp} (hf : op.Faulty) : op.Failed s a s where
  kept _ := ⟨a, H, .inl rfl, rfl⟩
  faulty _ := hf
  recovers := .inl H.recovers

theorem failed_insertBatch (H : Repr s a) {fails : InsertStep → Bool} {chunks : List Entry}
    {e : Failure} {t : ChunkStore} (hk : Kept s t) (hstop : InsertStop s a fails chunks e t) :
    (insertBatch fails chunks).Failed s a t := by
  have kept : Usable t a ∧ t.matrix.WF →
      ∃ b, Repr t b ∧ (b = a ∨ b = a.insertBatch chunks) ∧ b.table.vals = a.table.vals :=
    fun h => ⟨a, H.usable_repr hk.frame h.1 h.2, .inl rfl, rfl⟩
  cases hstop with
  | refused hrefuses =>
    exact ⟨fun _ => kept ⟨H.usable, H.matrix⟩, fun hacc => absurd hrefuses hacc.1, .inl H.recovers⟩
  | misfit _ hmisfit I =>
    exact ⟨fun hu => kept (I.usable_of_known H (hu.2 _ hmisfit)),
      fun hacc => absurd hmisfit (hacc.2 _), .inl (H.recovers_kept hk)⟩
  | fault hf hfault hmeta =>
    exact ⟨fun hu => kept (hu.1.elim hmeta fun hearly =>
        hfault.usable_of_early H hk (hearly _ hf)),
      fun _ => ⟨_, hf⟩, .inl (H.recovers_kept hk)⟩

theorem run_wp (H : Repr s a) (op : StoreOp) (hfresh : op.Fresh s) :
    Prog.wp op.run (fun _ t => Repr t (op.after a)) (fun _ t => op.Failed s a t)
      (fun _ t => RecoversTo t.onDisk a ∨
        op.Accepted s ∧ RecoversTo t.onDisk (op.after a)) s := by
  cases op with
  | insertBatch fails chunks =>
    simp only [run, Prog.wp_bind, Prog.wp_pure]
    refine (insertBatch_wp H.usable fails chunks).mono ?_ ?_ ?_
    · exact fun _ t h => H.usable_repr h.2.2.1 h.1 h.2.1
    · exact fun _ t h => failed_insertBatch H h.1 (h.2 H.matrix)
    · intro l t h
      have hrec := H.insertCut_recovers h
      rw [InsertCut] at h
      split at hrec
      · rw [if_pos ‹_›] at h
        exact .inr ⟨h.1, hrec⟩
      · exact .inl hrec
  | tombstone fails rows =>
    refine (tombstone_wp H fails rows).mono (fun _ _ h => h.1) ?_
      fun _ _ h => .inr ⟨trivial, h.recovers⟩
    rintro _ _ ⟨rfl, hf⟩
    exact failed_unchanged H hf
  | rekeyFile fails oldFile newFile =>
    simp only [run, Prog.wp_bind, Prog.wp_pure]
    refine (rekeyFile_wp H fails oldFile newFile).mono (fun _ _ h => h.1) ?_
      fun _ _ h => .inr ⟨trivial, h.recovers⟩
    rintro _ _ ⟨rfl, hf⟩
    exact failed_unchanged H hf
  | setIndexedCommit fails commit =>
    refine (setIndexedCommit_wp H fails commit).mono (fun _ _ h => h.1) ?_
      fun _ _ h => .inr ⟨trivial, h.recovers⟩
    rintro _ _ ⟨rfl, hf⟩
    exact failed_unchanged H hf
  | compact fails pid nanos =>
    simp only [run, Prog.wp_bind, Prog.wp_pure]
    refine (compact_wp H fails pid nanos hfresh).mono (fun _ _ h => h.1) ?_ ?_
    · rintro _ t ⟨f, hf, hr⟩
      refine ⟨fun hu => ?_, fun _ => ⟨f, hf⟩, ?_⟩
      · rcases (hr.resolve_left fun h => hu f hf h.1).2 with h | h
        · exact ⟨a, h, .inl rfl, rfl⟩
        · exact ⟨_, h, .inr rfl, RowTable.compact_vals _⟩
      · rcases hr with ⟨-, h⟩ | ⟨-, h | h⟩
        · exact .inr (h.recovers H hfresh.db hfresh.matrix (generationName_head (by decide) _ _)
            (generationName_head (by decide) _ _))
        · exact .inl h.recovers
        · exact .inr h.recovers
    · intro l t h
      split at h
      · exact .inr ⟨trivial, h⟩
      · exact .inl h

end StoreOp

/-- The state after a list of operations. -/
def ChunkStore.runOps (s : ChunkStore) (ops : List StoreOp) : ChunkStore :=
  ops.foldl (fun s op => (op.run s).state) s

/-! ## The representation invariant -/

/-- The vector supplied when a row was last allocated for a hash. -/
abbrev Supplied := ContentHash → Option (List F16)

/-- Note the vectors of the hashes that have no live row yet. -/
def Supplied.record (live : List ContentHash) (g : Supplied) : List Entry → Supplied
  | [] => g
  | e :: es =>
    if e.hash ∈ live then record live g es
    else record (e.hash :: live) (Function.update g e.hash (some e.2)) es

/-- What an observer of the calls and their results notes. -/
def StoreOp.observe (s : ChunkStore) (g : Supplied) (op : StoreOp) : Supplied :=
  match op, (op.run s).result with
  | .insertBatch _ chunks, .ok _ => g.record (s.conn.live.map (·.hash)) chunks
  | _, _ => g

inductive Run : ChunkStore → Supplied → Prop
  | create {d : Dir} {fails dims modelId s} : d manifestName = none →
    (create fails dims modelId d).result = .ok s → Run s fun _ => none
  | op {s g} (op : StoreOp) : Run s g → op.Fresh s → op.Undone s →
    Run (op.run s).state (op.observe s g)
  | reopen {s g t} : Run s g → ChunkStore.open s.onDisk = .ok t → Run t g

/-- The vectors of the live chunks are those supplied. -/
def Supplied.Covers (g : Supplied) (a : Contents) : Prop :=
  ∀ e ∈ a.table.vals, g (Entry.hash e) = some e.2

theorem Supplied.covers_record : ∀ {es : List Entry} {live : List ContentHash} {g : Supplied}
    {a : Contents}, (∀ h, h ∈ live ↔ h ∈ a.table.keys) → g.Covers a →
    (g.record live es).Covers (a.insertBatch es)
  | [], _, _, _, _, H => H
  | e :: es, live, g, a, hl, H => by
    by_cases he : e.hash ∈ live
    · have hk := (hl _).mp he
      rw [record, if_pos he, Contents.insertBatch, RowTable.insertAll_cons,
        RowTable.insert_of_mem hk]
      exact covers_record hl H
    · have hk := mt (hl _).mpr he
      rw [record, if_neg he]
      refine covers_record (a := { a with table := a.table.insert e }) (fun h => ?_) ?_
      · rw [RowTable.mem_keys_insert, List.mem_cons, hl, or_comm, eq_comm]
      · intro e' he'
        rw [RowTable.vals, RowTable.insert_live hk, List.map_append, List.mem_append] at he'
        rcases he' with he' | he'
        · have hne : e'.hash ≠ e.hash := fun h => hk (by
            rw [RowTable.keys_eq_map_vals, ← h]; exact List.mem_map_of_mem he')
          rw [Function.update_of_ne hne]
          exact H e' he'
        · obtain rfl : e' = e := by simpa using he'
          rw [Function.update_self]

theorem Supplied.Covers.after {g : Supplied} {a : Contents} {s : ChunkStore} (H : g.Covers a)
    (hs : Repr s a) (op : StoreOp) {u : Unit} (hok : (op.run s).result = .ok u) :
    (op.observe s g).Covers (op.after a) := by
  have hsub : ∀ {b : Contents}, (∀ e ∈ b.table.vals, e ∈ a.table.vals) → g.Covers b :=
    fun h e he => H e (h e he)
  cases op with
  | insertBatch fails chunks =>
    simp only [StoreOp.observe, hok]
    refine covers_record (fun h => ?_) H
    rw [hs.pair.db.hashes]
  | tombstone fails rows =>
    refine hsub fun e he => ?_
    obtain ⟨p, hp, rfl⟩ := List.mem_map.mp he
    exact List.mem_map_of_mem (RowTable.mem_retire.mp hp).1
  | rekeyFile fails oldFile newFile =>
    intro e he
    obtain ⟨p, hp, rfl⟩ := List.mem_map.mp he
    obtain ⟨q, hq, rfl⟩ := List.mem_map.mp hp
    have := H q.2 (List.mem_map_of_mem hq)
    simp only [StoreOp.observe, Contents.hash_rekeyEntry, this]
    simp only [Contents.rekeyEntry]
    split <;> rfl
  | setIndexedCommit fails commit => exact H
  | compact fails pid nanos =>
    exact hsub fun e he => by rwa [StoreOp.after, Contents.compact, RowTable.compact_vals] at he

theorem Run.repr {s : ChunkStore} {g : Supplied} (H : Run s g) : ∃ a, Repr s a ∧ g.Covers a := by
  induction H with
  | create hd hs => exact ⟨_, (create_wp hd _ _ _).ok hs, nofun⟩
  | @op s g op _ hfresh hu ih =>
    obtain ⟨a, ha, hg⟩ := ih
    have hwp := op.run_wp ha hfresh
    cases hr : (op.run s).result with
    | ok u => exact ⟨_, hwp.ok hr, hg.after ha op hr⟩
    | error e =>
      obtain ⟨b, hb, -, hv⟩ := (hwp.error hr).kept hu
      refine ⟨b, hb, fun e he => ?_⟩
      have hobs : op.observe s g = g := by
        unfold StoreOp.observe; rw [hr]; cases op <;> rfl
      rw [hobs]
      exact hg e (hv ▸ he)
  | @reopen s g t _ ht ih =>
    obtain ⟨a, ha, hg⟩ := ih
    obtain ⟨t', ht', hrepr⟩ := ha.recovers
    obtain rfl : t = t' := Except.ok.inj (ht.symm.trans ht')
    exact ⟨a, hrepr, hg⟩

/-- In every run: the rows of the database are those of the matrix, no two live chunks share a hash,
the vector of a live chunk is the one that was supplied, and the store verifies and opens again. -/
theorem Run.representation {s : ChunkStore} {g : Supplied} (H : Run s g) :
    s.conn.chunks.map (·.rowid) = List.range s.matrix.rows ∧
    (s.conn.live.map (·.hash)).Nodup ∧
    (∀ c ∈ s.conn.live, ∃ v, g c.hash = some v ∧ s.matrix.row c.rowid = .ok v) ∧
    s.verify = .ok s.conn.live.length ∧
    ∃ t, ChunkStore.open s.onDisk = .ok t := by
  obtain ⟨a, ha, hg⟩ := H.repr
  refine ⟨by rw [ha.pair.db.rowids, ha.rows], ha.pair.db.hashes ▸ a.table.distinct, ?_, ?_, ?_⟩
  · intro c hc
    have hmem : (c.rowid, c.record) ∈ a.table.live.map fun p => (p.1, p.2.1) :=
      ha.pair.db.live ▸ List.mem_map_of_mem hc
    obtain ⟨p, hp, hpc⟩ := List.mem_map.mp hmem
    obtain ⟨hrow, hrec⟩ := Prod.mk.inj hpc
    refine ⟨p.2.2, ?_, ?_⟩
    · rw [ChunkRow.hash, ← hrec]
      exact hg p.2 (List.mem_map_of_mem hp)
    · rw [← hrow, ha.matrix.row (by rw [ha.rows]; exact a.table.inside p hp), ha.pair.vectors p hp]
  · rw [verify_ok ha.pair.db ha.rows, ha.pair.db.length_live]
  · obtain ⟨t, ht, -⟩ := ha.recovers
    exact ⟨t, ht⟩

/-- A chunk with its vector, for runs on fixed inputs. -/
def sampleChunk (n : Nat) : Entry :=
  (⟨"repo", "a.rs", "rust", "f", "function", "fn f()", none, 1, 2, ⟨BitVec.ofNat 256 n⟩⟩,
    [UInt16.ofNat n, 0])

/-- The store created in an empty directory. -/
def sampleStore : ChunkStore :=
  match (create (fun _ => false) 2 "model" Dir.empty).result with
  | .ok s => s
  | .error _ =>
    ⟨Dir.empty, "", .empty, ⟨"", ⟨[], 0, 0, 0, ""⟩, 0, .read 0, ⟨⟨[], 0, 0, 0, ""⟩, []⟩⟩⟩

theorem sampleStore_created :
    (create (fun _ => false) 2 "model" Dir.empty).result = .ok sampleStore := by
  have h : (create (fun _ => false) 2 "model" Dir.empty).result.isOk = true := by decide +kernel
  unfold sampleStore
  split
  · assumption
  · rename_i e he
    rw [he] at h; cases h

theorem sampleChunk_length {n : Nat} : (sampleChunk n).2.length = sampleStore.matrix.dims :=
  show 2 = _ by decide +kernel

theorem Run.representation_compacted :
    ∃ s g, Run s g ∧ s.matrix.rows = 2 ∧ s.verify = .ok 2 ∧
      ∀ c ∈ s.conn.live, ∃ v, g c.hash = some v ∧ s.matrix.row c.rowid = .ok v := by
  have h0 : Run sampleStore fun _ => none := .create rfl sampleStore_created
  have h1 := h0.op (.insertBatch (fun _ => false) [sampleChunk 1, sampleChunk 2, sampleChunk 1])
    trivial (StoreOp.undone_of_length (by decide +kernel) (.inl nofun))
  have h2 := h1.op (.insertBatch (fun f => f = .commit) [sampleChunk 3]) trivial
    (StoreOp.undone_of_length (by decide +kernel)
      (.inl fun f hf => .inr (.inr (.inr (of_decide_eq_true hf)))))
  have h3 := h2.op (.tombstone false [0]) trivial trivial
  have h4 := h3.op (.compact (fun _ => false) 7 7) ⟨by decide +kernel, by decide +kernel⟩ nofun
  have h5 := h4.op (.insertBatch (fun _ => false) [sampleChunk 3]) trivial
    (StoreOp.undone_of_length (by decide +kernel) (.inl nofun))
  obtain ⟨-, -, hvectors, hverify, -⟩ := h5.representation
  refine ⟨_, _, h5, by decide +kernel, hverify.trans (congrArg _ ?_), hvectors⟩
  decide +kernel

/-! ## Killed processes -/

inductive Reached : ChunkStore → Prop
  | create {d : Dir} {fails dims modelId s} : d manifestName = none →
    (create fails dims modelId d).result = .ok s → Reached s
  | op {s} (op : StoreOp) : Reached s → op.Fresh s → op.Undone s → Reached (op.run s).state
  | reopen {s t} : Reached s → ChunkStore.open s.onDisk = .ok t → Reached t
  | failed {s t} (op : StoreOp) : Reached s → op.Fresh s →
    ChunkStore.open (op.run s).state.onDisk = .ok t → Reached t
  | killed {s t l u} (op : StoreOp) : Reached s → op.Fresh s → (l, u) ∈ (op.run s).trace →
    ChunkStore.open u.onDisk = .ok t → Reached t

theorem Reached.repr {s : ChunkStore} (H : Reached s) : ∃ a, Repr s a := by
  induction H with
  | create hd hs => exact ⟨_, (create_wp hd _ _ _).ok hs⟩
  | @op s op _ hfresh hu ih =>
    obtain ⟨a, ha⟩ := ih
    have hwp := op.run_wp ha hfresh
    cases hr : (op.run s).result with
    | ok u => exact ⟨_, hwp.ok hr⟩
    | error e => exact ((hwp.error hr).kept hu).imp fun _ h => h.1
  | @reopen s t _ ht ih =>
    obtain ⟨a, ha⟩ := ih
    obtain ⟨t', ht', hrepr⟩ := ha.recovers
    obtain rfl : t = t' := Except.ok.inj (ht.symm.trans ht')
    exact ⟨a, hrepr⟩
  | @failed s t op _ hfresh ht ih =>
    obtain ⟨a, ha⟩ := ih
    have hwp := op.run_wp ha hfresh
    have : ∃ b, RecoversTo (op.run s).state.onDisk b := by
      cases hr : (op.run s).result with
      | ok u => exact ⟨_, (hwp.ok hr).recovers⟩
      | error e => exact (hwp.error hr).recovers.elim (⟨_, ·⟩) (⟨_, ·⟩)
    obtain ⟨b, t', ht', hrepr⟩ := this
    obtain rfl : t = t' := Except.ok.inj (ht.symm.trans ht')
    exact ⟨b, hrepr⟩
  | @killed s t l u op _ hfresh hmem ht ih =>
    obtain ⟨a, ha⟩ := ih
    have : ∃ b, RecoversTo u.onDisk b :=
      ((op.run_wp ha hfresh).trace hmem).elim (⟨_, ·⟩) fun h => ⟨_, h.2⟩
    obtain ⟨b, t', ht', hrepr⟩ := this
    obtain rfl : t = t' := Except.ok.inj (ht.symm.trans ht')
    exact ⟨b, hrepr⟩

/-- The live chunks with their rows and what reading their vectors gives. -/
def ChunkStore.liveChunks (s : ChunkStore) :
    List (RowId × ChunkRecord × Except Failure (List F16)) :=
  s.conn.live.map fun c => (c.rowid, c.record, s.matrix.row c.rowid)

theorem Repr.liveChunks {s : ChunkStore} {a : Contents} (H : Repr s a) :
    s.liveChunks = a.table.live.map fun p => (p.1, p.2.1, .ok p.2.2) := by
  have h := congrArg (List.map fun p : RowId × ChunkRecord => (p.1, p.2, s.matrix.row p.1))
    H.pair.db.live
  rw [List.map_map, List.map_map] at h
  refine h.trans (List.map_congr_left fun p hp => ?_)
  simp only [Function.comp_apply]
  rw [H.matrix.row (by rw [H.rows]; exact a.table.inside p hp), H.pair.vectors p hp]

/-- Without a failing call an accepted operation succeeds. -/
theorem StoreOp.faultless_repr {s : ChunkStore} {a : Contents} (H : Repr s a) (op : StoreOp)
    (hfresh : op.Fresh s) (hacc : op.Accepted s) :
    Repr (op.faultless.run s).state (op.after a) := by
  have hwp := op.faultless.run_wp H (by cases op <;> exact hfresh)
  cases hr : (op.faultless.run s).result with
  | ok u =>
    have := hwp.ok hr
    cases op <;> exact this
  | error e =>
    have := (hwp.error hr).faulty (by cases op <;> exact hacc)
    cases op <;> simp [faultless, Faulty] at this

/-- A process killed at any durable step of any operation leaves a store that opens, verifies, and
has the live chunks from before the operation or from after it. -/
theorem Reached.crash_safe {s : ChunkStore} (H : Reached s) (op : StoreOp) (hfresh : op.Fresh s)
    {u : ChunkStore} (hu : u = s ∨ ∃ l, (l, u) ∈ (op.run s).trace) :
    ∃ t, ChunkStore.open u.onDisk = .ok t ∧ t.verify = .ok t.conn.live.length ∧
      (t.liveChunks = s.liveChunks ∨ t.liveChunks = (op.faultless.run s).state.liveChunks) := by
  obtain ⟨a, ha⟩ := H.repr
  have recovered : ∀ {b : Contents}, RecoversTo u.onDisk b →
      ∃ t, ChunkStore.open u.onDisk = .ok t ∧ t.verify = .ok t.conn.live.length ∧ Repr t b := by
    rintro b ⟨t, ht, hb⟩
    exact ⟨t, ht, by rw [verify_ok hb.pair.db hb.rows, hb.pair.db.length_live], hb⟩
  rcases hu with rfl | ⟨l, hl⟩
  · obtain ⟨t, ht, hv, hb⟩ := recovered ha.recovers
    exact ⟨t, ht, hv, .inl (hb.liveChunks.trans ha.liveChunks.symm)⟩
  · rcases (op.run_wp ha hfresh).trace hl with h | ⟨hacc, h⟩
    · obtain ⟨t, ht, hv, hb⟩ := recovered h
      exact ⟨t, ht, hv, .inl (hb.liveChunks.trans ha.liveChunks.symm)⟩
    · obtain ⟨t, ht, hv, hb⟩ := recovered h
      exact ⟨t, ht, hv, .inr
        (hb.liveChunks.trans (op.faultless_repr ha hfresh hacc).liveChunks.symm)⟩

/-- A compaction killed between its first and its last step on the manifest. -/
theorem Reached.crash_safe_compact :
    ∃ u, (Step.manifestWrite, u) ∈ ((StoreOp.compact (fun _ => false) 7 7).run
        (sampleStore.runOps [.insertBatch (fun _ => false) [sampleChunk 1, sampleChunk 2],
          .tombstone false [0]])).trace ∧
      ∃ t, ChunkStore.open u.onDisk = .ok t ∧ t.verify = .ok t.conn.live.length := by
  have h0 : Reached sampleStore := .create rfl sampleStore_created
  have h1 := h0.op (.insertBatch (fun _ => false) [sampleChunk 1, sampleChunk 2]) trivial
    (StoreOp.undone_of_length (by decide +kernel) (.inl nofun))
  have h2 := h1.op (.tombstone false [0]) trivial trivial
  have htrace : ((StoreOp.compact (fun _ => false) 7 7).run (sampleStore.runOps
      [.insertBatch (fun _ => false) [sampleChunk 1, sampleChunk 2],
        .tombstone false [0]])).trace.any (·.1 = .manifestWrite) = true := by decide +kernel
  obtain ⟨⟨l, u⟩, hmem, hl⟩ := List.any_eq_true.mp htrace
  obtain rfl : l = .manifestWrite := of_decide_eq_true hl
  obtain ⟨t, ht, hv, -⟩ := h2.crash_safe (.compact (fun _ => false) 7 7)
    ⟨by decide +kernel, by decide +kernel⟩ (.inr ⟨_, hmem⟩)
  exact ⟨u, hmem, t, ht, hv⟩

/-- The lookup of the second chunk of a batch fails, and the row of the first stays. A process
killed behind the commit of the next batch on the same handle leaves a store that does not open. -/
theorem killed_behind_failed_lookup :
    let s := sampleStore.runOps [.insertBatch (fun _ => false) [sampleChunk 1]]
    let failing := StoreOp.insertBatch (fun f => f = .lookup 1) [sampleChunk 2, sampleChunk 3]
    let next := StoreOp.insertBatch (fun _ => false) [sampleChunk 4]
    Reached s ∧ (failing.run s).result = .error (.error (.io .other "injected failure")) ∧
      ∃ u, (Step.sqlCommit, u) ∈ (next.run (failing.run s).state).trace ∧
        (ChunkStore.open u.onDisk).map (fun _ => ()) =
          .error (.error (.corrupt (.broken [1] [] []))) := by
  have h0 : Reached sampleStore := .create rfl sampleStore_created
  have h1 := h0.op (.insertBatch (fun _ => false) [sampleChunk 1]) trivial
    (StoreOp.undone_of_length (by decide +kernel) (.inl nofun))
  refine ⟨h1, by decide +kernel, ?_⟩
  have htrace : (((StoreOp.insertBatch (fun _ => false) [sampleChunk 4]).run
      ((StoreOp.insertBatch (fun f => f = .lookup 1) [sampleChunk 2, sampleChunk 3]).run
        (sampleStore.runOps [.insertBatch (fun _ => false) [sampleChunk 1]])).state).trace.any
      fun p => p.1 = .sqlCommit ∧ (ChunkStore.open p.2.onDisk).map (fun _ => ()) =
        .error (.error (.corrupt (.broken [1] [] [])))) = true := by decide +kernel
  obtain ⟨⟨l, u⟩, hmem, hl⟩ := List.any_eq_true.mp htrace
  obtain ⟨rfl, hopen⟩ := of_decide_eq_true hl
  exact ⟨u, hmem, hopen⟩

end SiftMcp
