import SiftMcp.Indexing.Agreement
import SiftMcp.Indexing.Pipeline
import SiftMcp.Storage.Compaction

/-!
# What a step of the pipeline does to both backends

A step changes the store, then the lexical index, then commits the latter. `Synced` holds before and
after, `Staged` before the commit, and `Cut` of what a killed process leaves: a store that opens,
and documents that are those of its live rows as far as `Indexer::open` can tell, unless the step
was a re-key or a compaction that moved rows. The proposition `H` stands for the agreement of the
two backends at the start of the run.

* `retire_wp`, `renameFile_wp`, `flushBatch_wp`: the steps of the two loops.
* `finish_wp`: the end of a run.
-/

namespace SiftMcp
open Durable DocIndex

/-- A kill right behind the step leaves no rows under other names than their documents. -/
def RunStep.Good : RunStep → Prop
  | rekey rows source dest _ => rows = [] ∨ source = dest
  | compact rows l => l.Published → rows = List.range rows.length
  | _ => True

structure Holds (E : Embedder) (H : Prop) (a : Contents) (docs : Docs) (t : IndexState) : Prop where
  repr : Repr t.store a
  lexical : t.lexical = .open docs
  dims : a.dims = E.dims
  modelId : a.modelId = E.modelId
  agree : H → Agree a.table docs

structure Synced (ix : Indexer) (H : Prop) (a : Contents) (docs : Docs) (t : IndexState) : Prop
    extends Holds ix.embedder H a docs t where
  fresh : FreshGeneration t.store ix.pid ix.nanos

/-- The documents are staged, but not committed. -/
structure Staged (E : Embedder) (H : Prop) (a : Contents) (docs : Docs) (t : IndexState) : Prop
    where
  repr : Repr t.store a
  staged : t.lexical.staged = docs
  dims : a.dims = E.dims
  modelId : a.modelId = E.modelId
  agree : H → Agree a.table docs

/-- The store opens again. -/
def Recoverable (E : Embedder) (t : IndexState) : Prop :=
  ∃ b, RecoversTo t.store.onDisk b ∧ b.dims = E.dims ∧ b.modelId = E.modelId

/-- The count of documents tells whether they are those of the live rows, exactly when the step is a
good one to be killed behind. -/
def Guarded (l : RunStep) (t : ChunkTable) (docs : Docs) : Prop :=
  (l.Good → t.live.length = docs.length → Agree t docs) ∧
    ((t.live.length = docs.length → Agree.Matches t docs) → l.Good)

def Cut (E : Embedder) (H : Prop) (l : RunStep) (t : IndexState) : Prop :=
  ∃ b, RecoversTo t.store.onDisk b ∧ b.dims = E.dims ∧ b.modelId = E.modelId ∧
    (H → Guarded l b.table t.lexical.durable)

/-- No call of the run fails, and the test hook is off. -/
def Indexer.Faultless (ix : Indexer) : Prop :=
  ix.faults = Faults.none ∧ ix.interruptAfterBatches = none

/-- An error that `P` allows for without an injected failure. -/
def Failed (ix : Indexer) (P : Prop) (t : IndexState) : Prop :=
  Recoverable ix.embedder t ∧ (ix.Faultless → P)

variable {ix : Indexer} {E : Embedder} {H P : Prop} {a b : Contents} {docs docs' : Docs}
  {s t u : IndexState}

theorem Cut.recoverable {l : RunStep} (h : Cut E H l t) : Recoverable E t := by
  obtain ⟨b, hb, hd, hm, -⟩ := h
  exact ⟨b, hb, hd, hm⟩

/-- A failing call has been injected. -/
theorem Failed.injected (h : Recoverable ix.embedder t) (hf : ¬ix.Faultless) : Failed ix P t :=
  ⟨h, fun h => absurd h hf⟩

namespace Indexer.Faultless

theorem call (h : ix.Faultless) (n : Nat) : ix.faults.call n = false := by rw [h.1]; rfl

theorem insertBatch (h : ix.Faultless) (n : Nat) (f : InsertStep) :
    ix.faults.insertBatch n f = false := by rw [h.1]; rfl

theorem compact (h : ix.Faultless) (n : Nat) (f : CompactStep) : ix.faults.compact n f = false := by
  rw [h.1]; rfl

theorem lexical (h : ix.Faultless) (n : Nat) (f : LexicalCall) : ix.faults.lexical n f = false := by
  rw [h.1]; rfl

end Indexer.Faultless

theorem not_faultless_of_call {n : Nat} (h : ix.faults.call n = true) : ¬ix.Faultless :=
  fun hf => by
  rw [hf.call] at h; cases h

theorem not_faultless_of_lexical {n : Nat} (h : ∃ f, ix.faults.lexical n f = true) :
    ¬ix.Faultless := fun hf => by
  obtain ⟨f, h⟩ := h
  rw [hf.lexical] at h; cases h

theorem not_faultless_of_insertBatch {n : Nat} (h : ∃ f, ix.faults.insertBatch n f = true) :
    ¬ix.Faultless := fun hf => by
  obtain ⟨f, h⟩ := h
  rw [hf.insertBatch] at h; cases h

theorem not_faultless_of_compact {n : Nat} (h : ∃ f, ix.faults.compact n f = true) :
    ¬ix.Faultless := fun hf => by
  obtain ⟨f, h⟩ := h
  rw [hf.compact] at h; cases h

/-! ## Parts of the state -/

theorem Holds.congr (S : Holds E H a docs t) (hs : u.store = t.store)
    (hl : u.lexical = t.lexical) : Holds E H a docs u :=
  ⟨hs ▸ S.repr, hl ▸ S.lexical, S.dims, S.modelId, S.agree⟩

theorem Synced.congr (S : Synced ix H a docs t) (hs : u.store = t.store)
    (hl : u.lexical = t.lexical) : Synced ix H a docs u :=
  ⟨S.toHolds.congr hs hl, hs ▸ S.fresh⟩

theorem Holds.recoverable (S : Holds E H a docs t) : Recoverable E t :=
  ⟨a, S.repr.recovers, S.dims, S.modelId⟩

/-- A durable step of the store, with the documents as they were. -/
theorem Holds.cut (S : Holds E H a docs t) {l : RunStep} (hl : u.lexical = t.lexical)
    (hrec : RecoversTo u.store.onDisk b) (hd : b.dims = a.dims) (hm : b.modelId = a.modelId)
    (h : Agree a.table docs → Guarded l b.table docs) : Cut E H l u := by
  have hdocs : u.lexical.durable = docs := by rw [hl, S.lexical]; rfl
  exact ⟨b, hrec, hd.trans S.dims, hm.trans S.modelId, fun hH => by
    rw [hdocs]; exact h (S.agree hH)⟩

theorem Holds.failed (S : Holds ix.embedder H a docs t) (hf : ¬ix.Faultless) : Failed ix P t :=
  .injected S.recoverable hf

theorem FreshGeneration.frame {c d : ChunkStore} {pid nanos : Nat} (h : FreshGeneration c pid nanos)
    (hf : Frame c d) : FreshGeneration d pid nanos :=
  ⟨by rw [hf.dbPath]; exact h.db, by rw [hf.matrixPath]; exact h.matrix⟩

/-- Only the number of calls differs. -/
def IndexState.tick (t : IndexState) : IndexState := { t with calls := t.calls + 1 }

theorem Holds.tick (S : Holds E H a docs t) : Holds E H a docs t.tick := S.congr rfl rfl

theorem Synced.tick (S : Synced ix H a docs t) : Synced ix H a docs t.tick := S.congr rfl rfl

section wp

variable {α : Type} {E' : IndexFailure → IndexState → Prop} {C : RunStep → IndexState → Prop}

@[simp] theorem wp_nextCall {Q : Nat → IndexState → Prop} :
    Prog.wp nextCall Q E' C t ↔ Q t.calls t.tick := by
  simp [nextCall, IndexState.tick]

@[simp] theorem wp_report {Q : Unit → IndexState → Prop} {f : IndexReport → IndexReport} :
    Prog.wp (report f) Q E' C t ↔ Q () { t with report := f t.report } := by
  simp [report]

@[simp] theorem wp_mayFail {Q : Unit → IndexState → Prop} {e : IndexError} :
    Prog.wp (ix.mayFail e) Q E' C t ↔
      (ix.faults.call t.calls = true → E' (.error e) t.tick) ∧
        (ix.faults.call t.calls = false → Q () t.tick) := by
  simp [Indexer.mayFail]

@[simp] theorem wp_inStore {Q : α → IndexState → Prop} {lbl : Step → RunStep}
    {m : Prog ChunkStore Failure Step α} :
    Prog.wp (inStore lbl m) Q E' C t ↔
      Prog.wp m (fun x c => Q x { t with store := c })
        (fun e c => E' (.ofStore e) { t with store := c })
        (fun l c => C (lbl l) { t with store := c }) t.store := by
  rw [inStore, Prog.wp_focus]

@[simp] theorem wp_inLexical {Q : α → IndexState → Prop}
    {m : Prog LexicalIndex RetrievalError LexicalStep α} :
    Prog.wp (inLexical m) Q E' C t ↔
      Prog.wp m (fun x c => Q x { t with lexical := c })
        (fun e c => E' (.ofLexical e) { t with lexical := c })
        (fun _ c => C .lexical { t with lexical := c }) t.lexical := by
  rw [inLexical, Prog.wp_focus]

end wp

/-- What a program of the pipeline does when it starts in `t`. -/
abbrev Does {α : Type} (ix : Indexer) (H P : Prop) (m : IndexProg α) (Q : α → IndexState → Prop)
    (t : IndexState) : Prop :=
  Prog.wp m Q (fun _ u => Failed ix P u) (Cut ix.embedder H) t

/-! ## Commits of the lexical index -/

theorem commitLexical_wp (S : Staged ix.embedder H a docs t) :
    Does ix H P ix.commitLexical
      (fun _ u => u = { t.tick with lexical := .open docs } ∧ Holds ix.embedder H a docs u) t := by
  have hrec : ∀ x, Recoverable ix.embedder { t.tick with lexical := x } := fun _ =>
    ⟨a, S.repr.recovers, S.dims, S.modelId⟩
  simp only [Indexer.commitLexical, Prog.wp_bind, wp_nextCall, wp_inLexical]
  refine (LexicalIndex.commit_wp _).mono ?_ ?_ ?_
  · intro _ x hx
    obtain rfl : x = .open docs := by rw [hx]; exact congrArg _ S.staged
    exact ⟨rfl, S.repr, rfl, S.dims, S.modelId, S.agree⟩
  · intro _ x hx
    exact .injected (hrec x) (not_faultless_of_lexical hx.2)
  · intro _ x hx
    refine ⟨a, S.repr.recovers, S.dims, S.modelId, fun h => ⟨fun _ _ => ?_, fun _ => trivial⟩⟩
    rw [show x.durable = docs from hx.trans S.staged]
    exact S.agree h

/-! ## Retiring rows -/

theorem retire_wp (S : Synced ix H a docs t) (rows : List RowId) :
    Does ix H P (ix.retire rows)
      (fun _ u => Synced ix H (a.tombstone rows) (deleteAll rows docs) u ∧
        u.report = t.report) t := by
  simp only [Indexer.retire, Prog.wp_bind, wp_nextCall, wp_inStore, wp_inLexical]
  refine (tombstone_wp S.repr _ rows).mono ?_ ?_ ?_
  · intro _ c hc
    refine (LexicalIndex.remove_wp rows).mono ?_ (fun _ _ h => h.elim) (fun _ _ h => h.elim)
    intro _ x hx
    have hstaged : Staged ix.embedder H (a.tombstone rows) (deleteAll rows docs)
        ⟨c, x, t.tick.report, t.tick.batchesCommitted, t.tick.calls⟩ := by
      refine ⟨hc.1, ?_, S.dims, S.modelId, fun h => (S.agree h).retire rows⟩
      rw [hx]
      exact congrArg (fun x => deleteAll rows x.staged) S.lexical
    refine (commitLexical_wp hstaged).mono ?_ (fun _ _ h => h) (fun _ _ h => h)
    · intro _ u hu
      obtain ⟨rfl, hu⟩ := hu
      exact ⟨⟨hu, S.fresh.frame hc.2⟩, rfl⟩
  · intro _ c hc
    obtain ⟨rfl, hfail⟩ := hc
    exact S.tick.failed (not_faultless_of_call hfail)
  · intro _ c hc
    exact S.cut rfl hc.recovers rfl rfl fun h =>
      ⟨fun _ => h.retire_behind, fun _ => trivial⟩

/-! ## Re-keying a file -/

theorem rowsForFile_eq (S : Holds E H a docs t) (file : String) :
    t.store.rowsForFile file = Agree.rowsOf a.table file := S.repr.pair.db.rowsForFile file

theorem renameFile_wp (S : Synced ix H a docs t) (source dest : String) :
    Does ix H P (ix.renameFile source dest)
      (fun n u => n = (Agree.rowsOf a.table source).length ∧
        Synced ix H (a.rekeyFile source dest)
          (moveAll docs (((Agree.rowsOf a.table source).map fun row => (row, dest)).map
            LexicalIndex.pathMove) docs) u ∧ u.report = t.report) t := by
  have hrows := rowsForFile_eq S.toHolds source
  have hrows' : t.tick.store.rowsForFile source = Agree.rowsOf a.table source := hrows
  simp only [Indexer.renameFile, Prog.wp_bind, wp_mayFail, Prog.wp_get, wp_nextCall, wp_inStore]
  refine ⟨fun hf => S.tick.failed (not_faultless_of_call hf), fun _ => ?_⟩
  refine (rekeyFile_wp S.repr _ source dest).mono ?_ ?_ ?_
  · intro n c hc
    obtain ⟨hc, hn, hframe⟩ := hc
    obtain rfl : n = (Agree.rowsOf a.table source).length := hn.trans (congrArg _ hrows)
    simp only [hrows', Prog.wp_ite, Prog.wp_pure, Prog.wp_bind, wp_nextCall, wp_inLexical]
    constructor
    · intro hnil
      obtain hnil := List.length_eq_zero_iff.mp hnil
      rw [hnil]
      refine ⟨trivial, ⟨⟨hc, S.lexical, S.dims, S.modelId, fun h => ?_⟩, S.fresh.frame hframe⟩, rfl⟩
      exact ((S.agree h).rekey_behind source dest).1 (.inl hnil)
    · intro _
      refine (LexicalIndex.updateFilePaths_wp _ _).mono ?_ ?_ (fun _ _ h => h.elim)
      · intro _ x hx
        refine (commitLexical_wp (a := a.rekeyFile source dest) ⟨hc, rfl, S.dims, S.modelId,
          fun h => ?_⟩).mono ?_ (fun _ _ h => h) (fun _ _ h => h)
        · have hlex : IndexState.lexical _ = _ := S.lexical
          rw [hx]
          simp only [IndexState.tick, hlex]
          exact (S.agree h).rekey source dest
        · intro _ u hu
          obtain ⟨rfl, hu⟩ := hu
          have hlex : IndexState.lexical _ = _ := S.lexical
          have hstaged : x.staged = moveAll docs (((Agree.rowsOf a.table source).map
              fun row => (row, dest)).map LexicalIndex.pathMove) docs := by
            rw [hx]
            simp only [IndexState.tick, hlex]
            rfl
          rw [← hstaged]
          exact ⟨trivial, ⟨hu, S.fresh.frame hframe⟩, rfl⟩
      · intro _ x hx
        exact .injected ⟨_, hc.recovers, S.dims, S.modelId⟩ (not_faultless_of_lexical hx.2)
  · intro _ c hc
    obtain ⟨rfl, hf⟩ := hc
    exact S.tick.failed (not_faultless_of_call hf)
  · intro _ c hc
    refine S.cut rfl hc.recovers rfl rfl fun h => ?_
    rw [hrows']
    refine ⟨fun hg _ => (h.rekey_behind source dest).1 hg,
      fun h' => (h.rekey_behind source dest).2 (h' ?_)⟩
    rw [h.length]
    exact List.length_map _

/-! ## Batches -/

/-- The counters that the assertion at the end of a run compares. -/
def IndexReport.tally (r : IndexReport) : Nat × Nat × Nat :=
  (r.liveBefore, r.chunksAdded, r.chunksRemoved)

def IndexReport.added (r : IndexReport) (n : Nat) : Nat × Nat × Nat :=
  (r.liveBefore, r.chunksAdded + n, r.chunksRemoved)

namespace Indexer

theorem uniqueByHash_eq_self : ∀ {cs seen : List Chunk},
    (∀ c ∈ cs, c.record.contentHash ∉ hashesOf seen) → (hashesOf cs).Nodup →
      uniqueByHash seen cs = cs
  | [], _, _, _ => rfl
  | c :: cs, seen, hseen, hd => by
    rw [hashesOf, List.map_cons, List.nodup_cons] at hd
    rw [uniqueByHash, ← hashesOf, if_neg (hseen c List.mem_cons_self)]
    refine congrArg _ (uniqueByHash_eq_self (fun c' hc' => ?_) hd.2)
    rw [hashesOf, List.map_cons, List.mem_cons, not_or]
    refine ⟨fun h => hd.1 ?_, hseen c' (List.mem_cons_of_mem _ hc')⟩
    rw [← h]
    exact List.mem_map_of_mem hc'

/-- The records and vectors that are handed to the store for some chunks. -/
def batchOf (ix : Indexer) (cs : List Chunk) : List Entry :=
  (cs.zip (ix.embedder.embed (cs.map (·.body)))).map fun (c, e) => (c.record, e.vector)

variable (ix) (cs : List Chunk)

theorem length_embed : (ix.embedder.embed (cs.map (·.body))).length = cs.length := by
  rw [ix.embedder.length, List.length_map]

theorem batchOf_records : (ix.batchOf cs).map (·.1) = cs.map (·.record) := by
  rw [batchOf, List.map_map]
  refine Eq.trans ?_ (congrArg _ (List.map_fst_zip (ix.length_embed cs).ge))
  rw [List.map_map]
  rfl

theorem batchOf_hashes : (ix.batchOf cs).map Entry.hash = hashesOf cs := by
  have := congrArg (List.map ChunkRecord.contentHash) (ix.batchOf_records cs)
  rwa [List.map_map, List.map_map] at this

theorem batchOf_vector {e : Entry} (he : e ∈ ix.batchOf cs) : e.2.length = ix.embedder.dims := by
  obtain ⟨⟨c, emb⟩, hmem, rfl⟩ := List.mem_map.mp he
  exact ix.embedder.vector _ emb (List.of_mem_zip hmem).2

end Indexer

theorem Repr.matrix_dims {c : ChunkStore} (R : Repr c a) : c.matrix.dims = a.dims := by
  rw [← R.pair.dims]
  exact congrArg (·.dims) R.matrix.header

/-- Row ids and documents of a batch, side by side with the entries. -/
theorem forall₂_zip_docs {T : ChunkTable} :
    ∀ {ids : List RowId} {es : List Entry} {cs : List Chunk}, List.Forall₂ (RowOf T) ids es →
      es.map (·.1) = cs.map (·.record) →
      List.Forall₂ (fun p e => RowOf T p.1 e ∧ p.2.shown = e.1.shown)
        (ids.zip (cs.map Indexer.lexicalDoc)) es
  | _, _, [], h, hrec => by
    obtain rfl := List.map_eq_nil_iff.mp hrec
    cases h
    exact .nil
  | _, _, c :: cs, h, hrec => by
    cases h with
    | nil => cases hrec
    | @cons id e ids es h hs =>
      obtain ⟨he, hrec⟩ := List.cons.inj hrec
      refine .cons ⟨h, ?_⟩ (forall₂_zip_docs hs hrec)
      exact congrArg ChunkRecord.shown he.symm

theorem checkInterrupt_wp (S : Synced ix H a docs t) :
    Does ix H P ix.checkInterrupt (fun _ u => u = t) t := by
  simp only [Indexer.checkInterrupt, Prog.wp_bind, Prog.wp_get]
  cases hi : ix.interruptAfterBatches with
  | none => simp
  | some limit =>
    simp only [Prog.wp_ite, Prog.wp_fail, Prog.wp_pure]
    refine ⟨fun _ => S.failed fun hf => ?_, fun _ => trivial⟩
    rw [hf.2] at hi
    cases hi

/-- The documents of a batch go with its rows. -/
theorem agree_insertBatch {pending : List Chunk} {ids : List RowId} (h : Agree a.table docs)
    (hnovel : ∀ c ∈ pending, c.record.contentHash ∉ a.table.keys)
    (hdistinct : (Indexer.hashesOf pending).Nodup)
    (hids : List.Forall₂ (RowOf (a.insertBatch (ix.batchOf pending)).table) ids
      (ix.batchOf pending)) :
    Agree (a.insertBatch (ix.batchOf pending)).table
      (putAll (ids.zip (pending.map Indexer.lexicalDoc)) docs) := by
  refine h.insert (fun e he => ?_) ?_ (forall₂_zip_docs hids (ix.batchOf_records pending))
  · have hmem : e.hash ∈ Indexer.hashesOf pending := by
      rw [← ix.batchOf_hashes pending]
      exact List.mem_map_of_mem he
    obtain ⟨c, hc, hhash⟩ := List.mem_map.mp hmem
    rw [← hhash]
    exact hnovel c hc
  · rw [ix.batchOf_hashes]
    exact hdistinct

/-- Chunks whose hashes are new to the store, each under a row of its own. -/
theorem flushBatch_wp (S : Synced ix H a docs t) {pending : List Chunk}
    (hnovel : ∀ c ∈ pending, c.record.contentHash ∉ a.table.keys)
    (hdistinct : (Indexer.hashesOf pending).Nodup) :
    Does ix H P (ix.flushBatch pending)
      (fun _ u => (∃ ids, List.Forall₂ (RowOf (a.insertBatch (ix.batchOf pending)).table) ids
          (ix.batchOf pending) ∧
        Synced ix H (a.insertBatch (ix.batchOf pending))
          (putAll (ids.zip (pending.map Indexer.lexicalDoc)) docs) u) ∧
        u.report.tally = t.report.added pending.length) t := by
  have hunique : Indexer.uniqueByHash [] pending = pending :=
    Indexer.uniqueByHash_eq_self (fun c _ => List.not_mem_nil) hdistinct
  simp only [Indexer.flushBatch, Prog.wp_ite, Prog.wp_pure]
  constructor
  · rintro rfl
    exact ⟨⟨[], .nil, S⟩, rfl⟩
  intro _
  have hlen := ix.length_embed pending
  simp only [hunique, Prog.wp_bind, wp_mayFail, hlen, ne_eq, not_true_eq_false, if_false,
    wp_report, wp_nextCall, wp_inStore, wp_inLexical]
  refine ⟨fun hf => S.tick.failed (not_faultless_of_call hf), fun _ => ?_⟩
  have hbatch : ((pending.zip (ix.embedder.embed (pending.map (·.body)))).map
      fun (c, e) => (c.record, e.vector)) = ix.batchOf pending := rfl
  have hvec : ∀ e ∈ ix.batchOf pending, e.2.length = t.store.matrix.dims := fun e he => by
    rw [S.repr.matrix_dims, S.dims, ix.batchOf_vector pending he]
  refine (insertBatch_wp S.repr.usable _ (ix.batchOf pending)).mono ?_ ?_ ?_
  · intro ids c hc
    obtain ⟨hu, hwf, hframe, hids, -⟩ := hc
    have hc := S.repr.usable_repr hframe hu hwf
    refine (LexicalIndex.addBatch_wp _ _).mono ?_ ?_ (fun _ _ h => h.elim)
    · intro _ x hx
      refine (commitLexical_wp (a := a.insertBatch (ix.batchOf pending))
        ⟨hc, rfl, S.dims, S.modelId, fun h => ?_⟩).mono ?_ (fun _ _ h => h) (fun _ _ h => h)
      · have hlex : IndexState.lexical _ = _ := S.lexical
        rw [hx]
        simp only [IndexState.tick, hlex]
        exact agree_insertBatch (S.agree h) hnovel hdistinct hids
      · intro _ u hu
        obtain ⟨heq, hu⟩ := hu
        have hlex : IndexState.lexical _ = _ := S.lexical
        have hstaged : x.staged = putAll (ids.zip (pending.map Indexer.lexicalDoc)) docs := by
          rw [hx]
          simp only [IndexState.tick, hlex]
          rfl
        have S' : Synced ix H (a.insertBatch (ix.batchOf pending))
            (putAll (ids.zip (pending.map Indexer.lexicalDoc)) docs) u :=
          ⟨hstaged ▸ hu, by rw [heq]; exact S.fresh.frame hframe⟩
        simp only [Prog.wp_modify]
        apply (checkInterrupt_wp (S'.congr (by rfl) (by rfl))).mono _ (fun _ _ h => h)
          (fun _ _ h => h)
        intro _ v hv
        subst hv
        refine ⟨⟨ids, hids, S'.congr rfl rfl⟩, ?_⟩
        rw [heq]
        simp [IndexReport.tally, IndexReport.added, IndexState.tick, ix.embedder.length]
    · intro _ x hx
      exact .injected ⟨_, hc.recovers, S.dims, S.modelId⟩ (not_faultless_of_lexical hx.2)
  · intro _ c hc
    refine .injected ⟨a, S.repr.recovers_kept hc.1, S.dims, S.modelId⟩ ?_
    have haccepts := ChunkStore.accepts_of_length hvec
    cases hc.2 S.repr.matrix with
    | refused hrefuses => exact absurd hrefuses haccepts.1
    | misfit _ hmisfit => exact absurd hmisfit (haccepts.2 _)
    | fault hf => exact not_faultless_of_insertBatch ⟨_, hf⟩
  · intro l c hc
    have hrec := S.repr.insertCut_recovers hc
    split at hrec
    · exact S.cut rfl hrec rfl rfl fun h => ⟨fun _ => h.insert_behind, fun _ => trivial⟩
    · exact S.cut rfl hrec rfl rfl fun h => ⟨fun _ _ => h, fun _ => trivial⟩

/-! ## The end of a run -/

theorem recordCommit_wp (S : Synced ix H a docs t) (dirty : Bool)
    (hP : (∃ e, ix.git.headId = .error e) → P) :
    Does ix H P (ix.recordCommit dirty)
      (fun commit u => Synced ix H (a.setIndexedCommit commit) docs u ∧
        (∃ head, ix.git.headId = .ok head ∧ commit = ix.commitMarker dirty head) ∧
        u.report = t.report) t := by
  simp only [Indexer.recordCommit, Prog.wp_bind, Prog.wp_ofExcept]
  cases hh : ix.git.headId with
  | error e => exact ⟨S.recoverable, fun _ => hP ⟨e, hh⟩⟩
  | ok head =>
    simp only [Except.mapError, wp_nextCall, wp_inStore, Prog.wp_pure]
    refine (setIndexedCommit_wp S.repr _ _).mono ?_ ?_ ?_
    · intro _ c hc
      exact ⟨⟨⟨hc.1, S.lexical, S.dims, S.modelId, S.agree⟩, S.fresh.frame hc.2⟩,
        ⟨head, rfl, rfl⟩, rfl⟩
    · intro _ c hc
      obtain ⟨rfl, hf⟩ := hc
      exact S.tick.failed (not_faultless_of_call hf)
    · intro _ c hc
      exact S.cut rfl hc.recovers rfl rfl fun h => ⟨fun _ _ => h, fun _ => trivial⟩

/-- The same chunks under the same commit marker; their rows may be other ones. -/
structure SameChunks (a b : Contents) : Prop where
  vals : b.table.vals = a.table.vals
  commit : b.indexedCommit = a.indexedCommit

theorem SameChunks.length (h : SameChunks a b) : b.table.live.length = a.table.live.length := by
  simpa [RowTable.vals] using congrArg List.length h.vals

theorem liveRows_eq (S : Holds E H a docs t) : t.store.liveRows = a.table.rows :=
  S.repr.pair.db.liveRows

theorem storeStats_eq (S : Holds E H a docs t) : t.store.stats = a.stats := by
  rw [ChunkStore.stats, S.repr.pair.db.stats]
  rfl

/-- The compaction at the end of a run, if the dead rows ask for one. -/
def Compacted (ix : Indexer) (a : Contents) (docs : Docs) (b : Contents) (docs' : Docs) : Prop :=
  (ix.config.overThreshold a.stats = false ∧ b = a ∧ docs' = docs) ∨
    (ix.config.overThreshold a.stats = true ∧ b = a.compact ∧
      docs' = moveAll docs (a.table.mapping.map LexicalIndex.rowMove) docs)

theorem Compacted.sameChunks (h : Compacted ix a docs b docs') : SameChunks a b := by
  rcases h with ⟨-, rfl, -⟩ | ⟨-, rfl, -⟩
  · exact ⟨rfl, rfl⟩
  · exact ⟨RowTable.compact_vals _, rfl⟩

/-- Nothing is left to compact, or the rows are numbered from zero on. -/
def Settled (ix : Indexer) (a : Contents) : Prop :=
  ix.config.overThreshold a.stats = false ∨ a.table.rows = List.range a.table.live.length

theorem Compacted.settled (h : Compacted ix a docs b docs') : Settled ix b := by
  rcases id h with ⟨hover, rfl, -⟩ | ⟨-, rfl, -⟩
  · exact .inl hover
  · right
    rw [h.sameChunks.length]
    exact a.table.compact_rows

theorem maybeCompact_wp (S : Synced ix H a docs t) :
    Does ix H P ix.maybeCompact
      (fun _ u => (∃ b docs', Compacted ix a docs b docs' ∧ Holds ix.embedder H b docs' u) ∧
        u.report.tally = t.report.tally ∧
        u.report.embeddingsComputed = t.report.embeddingsComputed) t := by
  simp only [Indexer.maybeCompact, Prog.wp_bind, wp_mayFail, Prog.wp_get, Prog.wp_ite, Prog.wp_pure,
    storeStats_eq S.toHolds.tick]
  refine ⟨fun hf => S.tick.failed (not_faultless_of_call hf), fun _ =>
    ⟨fun hover => ?_, fun hover =>
    ⟨⟨a, docs, .inl ⟨by simpa using hover, rfl, rfl⟩, S.toHolds.tick⟩, rfl, rfl⟩⟩⟩
  simp only [wp_nextCall, wp_inStore, wp_inLexical, wp_report]
  refine (compact_wp S.repr _ _ _ S.fresh).mono ?_ ?_ ?_
  · intro rep c hc
    obtain ⟨hc, rfl⟩ := hc
    refine (LexicalIndex.renumber_wp _ _).mono ?_ ?_ (fun _ _ h => h.elim)
    · intro _ x hx
      refine (commitLexical_wp (a := a.compact) ⟨hc, rfl, S.dims, S.modelId, fun h => ?_⟩).mono ?_
        (fun _ _ h => h) (fun _ _ h => h)
      · have hlex : IndexState.lexical _ = _ := S.lexical
        rw [hx]
        simp only [IndexState.tick, hlex]
        exact (S.agree h).compact
      · intro _ u hu
        obtain ⟨heq, hu⟩ := hu
        have hlex : IndexState.lexical _ = _ := S.lexical
        refine ⟨⟨a.compact, _, .inr ⟨hover, rfl, ?_⟩, hu.congr rfl rfl⟩, ?_⟩
        · rw [hx]
          simp only [IndexState.tick, hlex]
          rfl
        · rw [heq]
          exact ⟨rfl, rfl⟩
    · intro _ x hx
      exact .injected ⟨_, hc.recovers, S.dims, S.modelId⟩ (not_faultless_of_lexical hx.2)
  · intro _ c hc
    obtain ⟨f, hf, hc⟩ := hc
    refine .injected ?_ (not_faultless_of_compact ⟨f, hf⟩)
    rcases hc with ⟨-, hc⟩ | ⟨-, hc | hc⟩
    · exact ⟨_, hc.recovers S.repr S.fresh.db S.fresh.matrix (generationName_head (by decide) _ _)
        (generationName_head (by decide) _ _), S.dims, S.modelId⟩
    · exact ⟨_, hc.recovers, S.dims, S.modelId⟩
    · exact ⟨_, hc.recovers, S.dims, S.modelId⟩
  · intro l c hc
    rw [show t.tick.store.liveRows = a.table.rows from liveRows_eq S.toHolds.tick]
    split at hc
    · rename_i hl
      refine S.cut rfl hc rfl rfl fun h => ?_
      have hlen : a.compact.table.live.length = docs.length := by
        rw [h.length]
        exact (SameChunks.mk (RowTable.compact_vals _) rfl : SameChunks a a.compact).length
      exact ⟨fun hg _ => h.compact_behind.1 (hg hl), fun h' _ => h.compact_behind.2 (h' hlen)⟩
    · rename_i hl
      exact S.cut rfl hc rfl rfl fun h => ⟨fun _ _ => h, fun _ h => absurd h hl⟩

theorem stats_eq (S : Holds E H a docs t) : t.store.stats.live = a.table.live.length := by
  rw [ChunkStore.stats, S.repr.pair.db.stats]

/-- The counters of a run whose store ends with `live` live rows add up. -/
def Reconciles (tally : Nat × Nat × Nat) (live : Nat) : Prop :=
  live + tally.2.2 = tally.1 + tally.2.1

/-- What the end of a run makes of the contents, the documents and the counters. -/
structure Finished (ix : Indexer) (r : IndexReport) (dirty : Bool) (a : Contents) (docs : Docs)
    (b : Contents) (docs' : Docs) (r' : IndexReport) : Prop where
  head : ∃ head, ix.git.headId = .ok head ∧
    Compacted ix (a.setIndexedCommit (ix.commitMarker dirty head)) docs b docs'
  reconciles : Reconciles r.tally a.table.live.length
  tally : r'.tally = r.tally
  embedded : r'.embeddingsComputed = r.embeddingsComputed
  liveAfter : r'.liveAfter = a.table.live.length

theorem finish_wp (S : Synced ix H a docs t) (dirty : Bool)
    (hP : (∃ e, ix.git.headId = .error e) ∨ ¬Reconciles t.report.tally a.table.live.length → P) :
    Does ix H P (ix.finish dirty)
      (fun r u => ∃ b docs', Holds ix.embedder H b docs' u ∧
        Finished ix t.report dirty a docs b docs' r) t := by
  simp only [Indexer.finish, Prog.wp_bind, wp_report, wp_mayFail, Prog.wp_get, Prog.wp_ite,
    Prog.wp_fail, Prog.wp_pure]
  refine (recordCommit_wp S dirty fun h => hP (.inl h)).mono ?_ (fun _ _ h => h) (fun _ _ h => h)
  intro commit u hu
  obtain ⟨S', ⟨head, hhead, rfl⟩, hreport⟩ := hu
  apply (maybeCompact_wp (S'.congr (by rfl) (by rfl))).mono _ (fun _ _ h => h) (fun _ _ h => h)
  intro _ v hv
  obtain ⟨⟨b, docs', hcomp, S''⟩, htally, hemb⟩ := hv
  have htally : v.report.tally = t.report.tally := by rw [htally, ← hreport]; rfl
  have hemb : v.report.embeddingsComputed = t.report.embeddingsComputed := by rw [hemb, ← hreport]
  have hlive : v.tick.store.stats.live = a.table.live.length :=
    (stats_eq S'').trans hcomp.sameChunks.length
  have hrec : (v.tick.store.stats.live + v.tick.report.chunksRemoved =
      v.tick.report.liveBefore + v.tick.report.chunksAdded) ↔
      Reconciles t.report.tally a.table.live.length := by
    rw [← htally, hlive]
    rfl
  refine ⟨fun hf => S''.tick.failed (not_faultless_of_call hf), fun _ =>
    ⟨fun hne => ?_, fun he => ?_⟩⟩
  · exact ⟨S''.recoverable, fun _ => hP (.inr fun h => hne (hrec.mpr h))⟩
  · exact ⟨b, docs', S''.tick.congr rfl rfl, ⟨head, hhead, hcomp⟩,
      hrec.mp (Decidable.not_not.mp he), htally, hemb, hlive⟩

end SiftMcp
