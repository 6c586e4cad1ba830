import SiftMcp.Indexing.Steps
import SiftMcp.Lib.Firsts

/-!
# What processing the work items does

The loop over the delivered files retires rows by file and hash, and takes up the first chunk of
each hash that the store did not hold when the loop began. `Processed` gives the rows that are left
in these terms; the order of delivery shows only in which of two files a shared chunk is taken from.

`processWorkItems_wp` is the theorem about the loop, and `Consuming` its invariant.
-/

namespace SiftMcp
open Durable DocIndex

namespace Indexer

/-- The file of the item has been parsed, and the chunk of the record is no longer in it. -/
def vanishes (ix : Indexer) (item : WorkItem) (r : ChunkRecord) : Bool :=
  match ix.chunks item with
  | none => false
  | some cs => r.file = item.rel ∧ r.contentHash ∉ hashesOf cs

def retires (ix : Indexer) (work : List WorkItem) (r : ChunkRecord) : Bool :=
  work.any fun item => ix.vanishes item r

/-- The chunks of the files that are parsed. -/
def chunksOf (ix : Indexer) (work : List WorkItem) : List Chunk :=
  work.flatMap fun item => (ix.chunks item).getD []

/-- The chunks that are taken up by a store with these hashes. -/
def taken (known : List ContentHash) (cs : List Chunk) : List Chunk :=
  firsts (·.record.contentHash) known cs

/-- How often a row is retired, over all items. -/
def retirements (ix : Indexer) (t : ChunkTable) (work : List WorkItem) : Nat :=
  (work.map fun item => t.live.countP fun p => ix.vanishes item p.2.1).sum

end Indexer

open Indexer

variable {ix : Indexer} {H P : Prop} {a b : Contents} {docs : Docs} {t u : IndexState}

theorem mem_chunksOf {work : List WorkItem} {c : Chunk} :
    c ∈ ix.chunksOf work ↔ ∃ item ∈ work, ∃ cs, ix.chunks item = some cs ∧ c ∈ cs := by
  simp only [chunksOf, List.mem_flatMap]
  refine exists_congr fun item => and_congr_right fun _ => ?_
  cases ix.chunks item <;> simp

theorem chunksOf_append (work work' : List WorkItem) :
    ix.chunksOf (work ++ work') = ix.chunksOf work ++ ix.chunksOf work' := List.flatMap_append

/-- The contents that processing the items leaves, `cs` being the chunks that have been inserted. -/
structure Processed (ix : Indexer) (a : Contents) (work : List WorkItem) (cs : List Chunk)
    (b : Contents) : Prop where
  size : a.table.size ≤ b.table.size
  commit : b.indexedCommit = a.indexedCommit
  live : ∃ new, b.table.live = a.table.live.filter (fun p => !ix.retires work p.2.1) ++ new ∧
    new.map (·.2.1) = cs.map (·.record) ∧ ∀ p ∈ new, a.table.size ≤ p.1

namespace Processed

variable {work : List WorkItem} {cs : List Chunk}

theorem nil : Processed ix a [] [] a :=
  ⟨Nat.le_refl _, rfl, [], by simp [retires], rfl, nofun⟩

theorem mem_live (h : Processed ix a work cs b) {p : RowId × Entry} (hp : p ∈ b.table.live) :
    (p ∈ a.table.live ∧ ix.retires work p.2.1 = false) ∨
      a.table.size ≤ p.1 ∧ ∃ c ∈ cs, p.2.1 = c.record := by
  obtain ⟨new, hlive, hrec, hrow⟩ := h.live
  rw [hlive, List.mem_append, List.mem_filter] at hp
  rcases hp with ⟨hp, hr⟩ | hp
  · exact .inl ⟨hp, by simpa using hr⟩
  · have : p.2.1 ∈ cs.map (·.record) := hrec ▸ List.mem_map_of_mem hp
    obtain ⟨c, hc, hcr⟩ := List.mem_map.mp this
    exact .inr ⟨hrow p hp, c, hc, hcr.symm⟩

theorem kept (h : Processed ix a work cs b) {p : RowId × Entry} (hp : p ∈ a.table.live)
    (hr : ix.retires work p.2.1 = false) : p ∈ b.table.live := by
  obtain ⟨new, hlive, -, -⟩ := h.live
  rw [hlive, List.mem_append, List.mem_filter]
  exact .inl ⟨hp, by simpa using hr⟩

theorem inserted (h : Processed ix a work cs b) {c : Chunk} (hc : c ∈ cs) :
    ∃ p ∈ b.table.live, p.2.1 = c.record := by
  obtain ⟨new, hlive, hrec, -⟩ := h.live
  have : c.record ∈ new.map (·.2.1) := hrec ▸ List.mem_map_of_mem hc
  obtain ⟨p, hp, hpc⟩ := List.mem_map.mp this
  exact ⟨p, by rw [hlive]; exact List.mem_append_right _ hp, hpc⟩

theorem mem_keys (h : Processed ix a work cs b) {k : ContentHash} :
    k ∈ b.table.keys → k ∈ a.table.keys ∨ k ∈ hashesOf cs := by
  intro hk
  obtain ⟨p, hp, rfl⟩ := RowTable.mem_keys.mp hk
  rcases h.mem_live hp with ⟨hp, -⟩ | ⟨-, c, hc, hr⟩
  · exact .inl (RowTable.mem_keys.mpr ⟨p, hp, rfl⟩)
  · right
    rw [Entry.hash, hr]
    exact List.mem_map_of_mem hc

/-- Retiring the rows that one more item has lost. -/
theorem retire (h : Processed ix a work cs b) (item : WorkItem) :
    Processed ix a (work ++ [item]) cs (b.tombstone
      ((a.table.live.filter fun p => ix.vanishes item p.2.1).map (·.1))) := by
  obtain ⟨new, hlive, hrec, hrow⟩ := h.live
  refine ⟨h.size, h.commit, new, ?_, hrec, hrow⟩
  have hold : ∀ p ∈ a.table.live,
      p.1 ∈ (a.table.live.filter fun p => ix.vanishes item p.2.1).map (·.1) ↔
        ix.vanishes item p.2.1 = true := by
    intro p hp
    constructor
    · intro hmem
      obtain ⟨q, hq, hqp⟩ := List.mem_map.mp hmem
      obtain ⟨hq, hv⟩ := List.mem_filter.mp hq
      rwa [← RowTable.eq_of_row hq hp hqp]
    · intro hv
      exact List.mem_map_of_mem (List.mem_filter.mpr ⟨hp, hv⟩)
  have hnew : ∀ p ∈ new,
      p.1 ∉ (a.table.live.filter fun p => ix.vanishes item p.2.1).map (·.1) := by
    intro p hp hmem
    obtain ⟨q, hq, hqp⟩ := List.mem_map.mp hmem
    have hlt := a.table.inside q (List.mem_filter.mp hq).1
    rw [hqp] at hlt
    exact absurd hlt (Nat.not_lt.mpr (hrow p hp))
  show (b.table.retire _).live = _
  generalize (a.table.live.filter fun p => ix.vanishes item p.2.1).map (·.1) = rows at hold hnew ⊢
  rw [RowTable.retire_live, hlive, List.filter_append, List.filter_filter]
  congr 1
  · refine List.filter_congr fun p hp => ?_
    simp [retires, hold p hp, Bool.and_comm]
  · exact List.filter_eq_self.mpr fun p hp => decide_eq_true (hnew p hp)

/-- An item that no row has been lost from. -/
theorem skip (h : Processed ix a work cs b) {item : WorkItem}
    (hnone : ∀ p ∈ a.table.live, ix.vanishes item p.2.1 = false) :
    Processed ix a (work ++ [item]) cs b := by
  obtain ⟨new, hlive, hrec, hrow⟩ := h.live
  refine ⟨h.size, h.commit, new, ?_, hrec, hrow⟩
  rw [hlive]
  congr 1
  refine List.filter_congr fun p hp => ?_
  simp [retires, hnone p hp]

/-- Inserting chunks that are new to the store. -/
theorem insert (h : Processed ix a work cs b) {pending : List Chunk}
    (hnovel : ∀ c ∈ pending, c.record.contentHash ∉ b.table.keys)
    (hdistinct : (hashesOf pending).Nodup) :
    Processed ix a work (cs ++ pending) (b.insertBatch (ix.batchOf pending)) := by
  obtain ⟨new, hlive, hrec, hrow⟩ := h.live
  have hself : b.table.novel (ix.batchOf pending) = ix.batchOf pending := by
    refine RowTable.novel_eq_self (fun e he => ?_) (ix.batchOf_hashes pending ▸ hdistinct)
    have : e.hash ∈ hashesOf pending := ix.batchOf_hashes pending ▸ List.mem_map_of_mem he
    obtain ⟨c, hc, hch⟩ := List.mem_map.mp this
    exact hch ▸ hnovel c hc
  refine ⟨?_, h.commit, new ++ ((ix.batchOf pending).zipIdx b.table.size).map Prod.swap, ?_, ?_, ?_⟩
  · rw [Contents.insertBatch, RowTable.insertAll_size]
    exact h.size.trans (Nat.le_add_right _ _)
  · rw [Contents.insertBatch, RowTable.insertAll_live, hself, hlive, List.append_assoc]
  · rw [List.map_append, List.map_append, hrec, ← ix.batchOf_records pending, List.map_map,
      ← List.zipIdx_map_fst b.table.size (ix.batchOf pending), List.map_map]
    simp [Function.comp_def]
  · intro p hp
    rcases List.mem_append.mp hp with hp | hp
    · exact hrow p hp
    · obtain ⟨q, hq, rfl⟩ := List.mem_map.mp hp
      exact h.size.trans (List.le_snd_of_mem_zipIdx hq)

end Processed

/-! ## What the loop reads -/

section reads

variable (S : Holds ix.embedder H a docs t)

include S

theorem get_eq {p : RowId × Entry} (hp : p ∈ a.table.live) : t.store.get p.1 = some p.2.1 :=
  S.repr.pair.db.get_of_mem hp

theorem hashRows_eq (rel : String) : hashRows t.store rel =
    (a.table.live.filter (·.2.1.file = rel)).map fun p => (p.2.hash, p.1) := by
  rw [hashRows, rowsForFile_eq S, Agree.rowsOf, List.filterMap_map, ← List.filterMap_eq_map]
  refine List.filterMap_congr fun p hp => ?_
  rw [Function.comp_apply, get_eq S (List.mem_filter.mp hp).1]
  rfl

theorem knownHashes_eq :
    (t.store.liveRows.filterMap fun row => (t.store.get row).map (·.contentHash)) =
      a.table.keys := by
  rw [liveRows_eq S, RowTable.rows, RowTable.keys, List.filterMap_map, ← List.filterMap_eq_map]
  refine List.filterMap_congr fun p hp => ?_
  rw [Function.comp_apply, get_eq S hp]
  rfl

end reads

theorem lookup_map {α β : Type} (key : α → String) (f : String → β) {as : List α} {x : α}
    (hx : x ∈ as) : (as.map fun y => (key y, f (key y))).lookup (key x) = some (f (key x)) := by
  induction as with
  | nil => cases hx
  | cons y as ih =>
    rw [List.map_cons, List.lookup_cons]
    split
    · rename_i h
      rw [eq_of_beq h]
    · rename_i h
      rcases List.mem_cons.mp hx with rfl | hx
      · simp at h
      · exact ih hx

theorem countP_retirements (T : ChunkTable) (done : List WorkItem) (item : WorkItem) :
    ix.retirements T (done ++ [item]) =
      ix.retirements T done + T.live.countP fun p => ix.vanishes item p.2.1 := by
  simp [retirements]

/-! ## The loop -/

theorem taken_append {known : List ContentHash} {cs ds : List Chunk} :
    taken known (cs ++ ds) = taken known cs ++ taken (hashesOf (taken known cs) ++ known) ds :=
  firsts.append

theorem taken_concat {known : List ContentHash} {cs : List Chunk} {chunk : Chunk}
    (hnew : chunk.record.contentHash ∉ hashesOf (taken known cs) ++ known) :
    taken known (cs ++ [chunk]) = taken known cs ++ [chunk] := by
  have hself : taken _ [chunk] = [chunk] :=
    (firsts.cons_of_not_mem hnew : firsts (·.record.contentHash) _ [chunk] = _)
  rw [taken_append, hself]

/-- The state of the consumer: the chunks of `cs` have been looked at, and the rows that the files
of `done` have lost are retired. What is taken of `cs` has been inserted, or is pending. -/
def Consuming (ix : Indexer) (H : Prop) (a : Contents) (start : Nat × Nat × Nat)
    (done : List WorkItem) (cs : List Chunk) (c : Consumer) (u : IndexState) : Prop :=
  ∃ b docs flushed, Synced ix H b docs u ∧ Processed ix a done flushed b ∧
    flushed ++ c.pending = taken a.table.keys cs ∧
    (∀ h, h ∈ c.known ↔ h ∈ hashesOf (taken a.table.keys cs) ++ a.table.keys) ∧
    u.report.tally = (start.1, start.2.1 + flushed.length,
      start.2.2 + ix.retirements a.table done)

namespace Consuming

variable {start : Nat × Nat × Nat} {done : List WorkItem} {cs : List Chunk} {c : Consumer}

theorem report (I : Consuming ix H a start done cs c t) (hs : u.store = t.store)
    (hl : u.lexical = t.lexical) (hr : u.report.tally = t.report.tally) :
    Consuming ix H a start done cs c u := by
  obtain ⟨b, docs, flushed, S, hp, hpend, hknown, htally⟩ := I
  exact ⟨b, docs, flushed, S.congr hs hl, hp, hpend, hknown, hr.trans htally⟩

/-- Chunks whose hashes are known add nothing. -/
theorem known (I : Consuming ix H a start done cs c t) {ds : List Chunk}
    (h : ∀ d ∈ ds, d.record.contentHash ∈ hashesOf (taken a.table.keys cs) ++ a.table.keys) :
    Consuming ix H a start done (cs ++ ds) c t := by
  have htaken : taken a.table.keys (cs ++ ds) = taken a.table.keys cs := by
    rw [taken_append, show taken _ ds = [] from firsts.eq_nil h, List.append_nil]
  obtain ⟨b, docs, flushed, S, hp, hpend, hknown, htally⟩ := I
  exact ⟨b, docs, flushed, S, hp, htaken ▸ hpend, htaken ▸ hknown, htally⟩

end Consuming

/-- What is pending is new to the store. -/
theorem pending_novel {flushed pending cs : List Chunk} {done : List WorkItem}
    (hp : Processed ix a done flushed b) (hpend : flushed ++ pending = taken a.table.keys cs) :
    (∀ c ∈ pending, c.record.contentHash ∉ b.table.keys) ∧ (hashesOf pending).Nodup := by
  have hnodup : (hashesOf (flushed ++ pending)).Nodup := hpend ▸ firsts.nodup
  rw [hashesOf, List.map_append, List.nodup_append] at hnodup
  refine ⟨fun c hc hk => ?_, hnodup.2.1⟩
  have htaken : c ∈ taken a.table.keys cs := hpend ▸ List.mem_append_right _ hc
  rcases hp.mem_keys hk with hk | hk
  · exact firsts.not_mem_known htaken hk
  · exact hnodup.2.2 _ hk _ (List.mem_map_of_mem hc) rfl

theorem flush_consuming {start : Nat × Nat × Nat} {done : List WorkItem} {cs flushed : List Chunk}
    {pending : List Chunk} {known : List ContentHash} (S : Synced ix H b docs t)
    (hp : Processed ix a done flushed b) (hpend : flushed ++ pending = taken a.table.keys cs)
    (hknown : ∀ h, h ∈ known ↔ h ∈ hashesOf (taken a.table.keys cs) ++ a.table.keys)
    (htally : t.report.tally = (start.1, start.2.1 + flushed.length,
      start.2.2 + ix.retirements a.table done)) :
    Does ix H P (ix.flushBatch pending)
      (fun _ u => Consuming ix H a start done cs ⟨known, []⟩ u) t := by
  obtain ⟨hnovel, hdistinct⟩ := pending_novel hp hpend
  refine (flushBatch_wp S hnovel hdistinct).mono ?_ (fun _ _ h => h) (fun _ _ h => h)
  intro _ u hu
  obtain ⟨⟨ids, -, S'⟩, htally'⟩ := hu
  refine ⟨_, _, flushed ++ pending, S', hp.insert hnovel hdistinct, ?_, hknown, ?_⟩
  · rw [List.append_nil, hpend]
  · obtain ⟨h1, h2, h3⟩ := Prod.mk.inj htally |>.imp_right Prod.mk.inj
    rw [htally', IndexReport.added, h1, h2, h3, List.length_append, Nat.add_assoc]

theorem takeChunk_wp {start : Nat × Nat × Nat} {done : List WorkItem} {cs : List Chunk}
    {c : Consumer} {old : HashRows} {chunk : Chunk} (I : Consuming ix H a start done cs c t)
    (hold : ∀ h ∈ old.map (·.1), h ∈ a.table.keys) :
    Does ix H P (ix.takeChunk old c chunk)
      (fun c' u => Consuming ix H a start done (cs ++ [chunk]) c' u) t := by
  obtain ⟨b, docs, flushed, S, hp, hpend, hknown, htally⟩ := id I
  by_cases hseen : chunk.record.contentHash ∈ old.map (·.1) ∨ chunk.record.contentHash ∈ c.known
  · have hmem : chunk.record.contentHash ∈ hashesOf (taken a.table.keys cs) ++ a.table.keys :=
      hseen.elim (fun h => List.mem_append_right _ (hold _ h)) (hknown _).mp
    simp only [takeChunk, if_pos hseen, Prog.wp_bind, wp_report, Prog.wp_pure]
    refine (I.known fun d hd => ?_).report rfl rfl rfl
    rw [List.mem_singleton.mp hd]
    exact hmem
  · have hnew : chunk.record.contentHash ∉ hashesOf (taken a.table.keys cs) ++ a.table.keys :=
      fun h => hseen (.inr ((hknown _).mpr h))
    have htaken := taken_concat hnew
    have hpend' : flushed ++ (c.pending ++ [chunk]) = taken a.table.keys (cs ++ [chunk]) := by
      rw [htaken, ← hpend, List.append_assoc]
    have hknown' : ∀ h, h ∈ chunk.record.contentHash :: c.known ↔
        h ∈ hashesOf (taken a.table.keys (cs ++ [chunk])) ++ a.table.keys := fun h => by
      rw [htaken, List.mem_cons, hknown]
      simp only [hashesOf, List.map_append, List.mem_append, List.map_singleton,
        List.mem_singleton]
      rw [or_comm, or_right_comm]
    simp only [takeChunk, if_neg hseen, Prog.wp_ite, Prog.wp_bind, Prog.wp_pure]
    exact ⟨fun _ => flush_consuming S hp hpend' hknown' htally,
      fun _ => ⟨b, docs, flushed, S, hp, hpend', hknown', htally⟩⟩

theorem takeChunks_wp {start : Nat × Nat × Nat} {done : List WorkItem} {cs ds : List Chunk}
    {c : Consumer} {old : HashRows} (I : Consuming ix H a start done cs c t)
    (hold : ∀ h ∈ old.map (·.1), h ∈ a.table.keys) :
    Does ix H P (.foldlP (ix.takeChunk old) c ds)
      (fun c' u => Consuming ix H a start done (cs ++ ds) c' u) t := by
  refine (Prog.wp_foldlP (fun seen _ c u => Consuming ix H a start done (cs ++ seen) c u) ?_ ds [] c
    t (by rwa [List.append_nil])).mono (fun _ _ h => h) (fun _ _ h => h) (fun _ _ h => h)
  intro seen chunk _ c u I
  rw [← List.append_assoc]
  exact takeChunk_wp I hold

theorem mem_sameHashes {x y : List ContentHash} (h : sameHashes x y = true) (k : ContentHash) :
    k ∈ x ↔ k ∈ y := by
  simp only [sameHashes, Bool.and_eq_true, List.all_eq_true, decide_eq_true_eq] at h
  exact ⟨h.1 k, h.2 k⟩

/-- The rows of the file that the item has lost, as the code finds them. -/
theorem vanished_rows {item : WorkItem} {cs : List Chunk} (hcs : ix.chunks item = some cs)
    (T : ChunkTable) :
    ((((T.live.filter (·.2.1.file = item.rel)).map fun p => (p.2.hash, p.1)).filter
      (·.1 ∉ hashesOf cs)).map (·.2)) =
        (T.live.filter fun p => ix.vanishes item p.2.1).map (·.1) := by
  rw [List.filter_map, List.map_map, List.filter_filter]
  congr 1
  refine List.filter_congr fun p _ => ?_
  simp [vanishes, hcs, Entry.hash, Bool.and_comm]

theorem retireVanished_wp {start : Nat × Nat × Nat} {done : List WorkItem} {cs : List Chunk}
    {c : Consumer} (I : Consuming ix H a start done cs c t) (item : WorkItem) :
    Does ix H P (ix.retireVanished
        ((a.table.live.filter fun p => ix.vanishes item p.2.1).map (·.1)))
      (fun _ u => Consuming ix H a start (done ++ [item]) cs c u) t := by
  obtain ⟨b, docs, flushed, S, hp, hpend, hknown, htally⟩ := I
  have hcount : (a.table.live.countP fun p => ix.vanishes item p.2.1) =
      ((a.table.live.filter fun p => ix.vanishes item p.2.1).map (·.1)).length := by
    rw [List.length_map, List.countP_eq_length_filter]
  simp only [retireVanished, Prog.wp_ite, Prog.wp_pure, Prog.wp_bind, wp_report]
  constructor
  · intro hnil
    have hnone : ∀ p ∈ a.table.live, ix.vanishes item p.2.1 = false := by
      have := List.filter_eq_nil_iff.mp (List.map_eq_nil_iff.mp hnil)
      simpa using this
    refine ⟨b, docs, flushed, S, hp.skip hnone, hpend, hknown, ?_⟩
    rw [htally, countP_retirements, hcount, hnil]
    rfl
  · intro _
    refine (retire_wp S _).mono ?_ (fun _ _ h => h) (fun _ _ h => h)
    intro _ u hu
    refine ⟨_, _, flushed, hu.1.congr rfl rfl, hp.retire item, hpend, hknown, ?_⟩
    obtain ⟨h1, h2, h3⟩ := Prod.mk.inj htally |>.imp_right Prod.mk.inj
    rw [countP_retirements, hcount, ← Nat.add_assoc, ← h1, ← h2, ← h3, hu.2]
    rfl

theorem chunksOf_singleton (item : WorkItem) :
    ix.chunksOf [item] = (ix.chunks item).getD [] := by
  simp [chunksOf]

/-- One delivered file. -/
theorem consume_wp {start : Nat × Nat × Nat} {done : List WorkItem} {c : Consumer}
    {existing : List (String × HashRows)} {item : WorkItem}
    (I : Consuming ix H a start done (ix.chunksOf done) c t)
    (hexist : existing.lookup item.rel =
      some ((a.table.live.filter (·.2.1.file = item.rel)).map fun p => (p.2.hash, p.1))) :
    Does ix H P (ix.consume existing c (ix.parse existing item))
      (fun c' u => Consuming ix H a start (done ++ [item]) (ix.chunksOf (done ++ [item])) c' u)
        t := by
  have hold : ∀ h ∈ ((a.table.live.filter (·.2.1.file = item.rel)).map
      fun p => (p.2.hash, p.1)).map (·.1), h ∈ a.table.keys := by
    intro h hh
    rw [List.map_map] at hh
    obtain ⟨p, hp, rfl⟩ := List.mem_map.mp hh
    exact RowTable.mem_keys.mpr ⟨p, (List.mem_filter.mp hp).1, rfl⟩
  -- Nothing is retired where no row has lost its chunk.
  have hskip : ∀ {cs}, (∀ p ∈ a.table.live, ix.vanishes item p.2.1 = false) →
      Consuming ix H a start done cs c t → Consuming ix H a start (done ++ [item]) cs c t := by
    intro cs hnone ⟨b, docs, flushed, S, hp, hpend, hknown, htally⟩
    refine ⟨b, docs, flushed, S, hp.skip hnone, hpend, hknown, ?_⟩
    have hcount : (a.table.live.countP fun p => ix.vanishes item p.2.1) = 0 := by
      rw [List.countP_eq_zero]
      simpa using hnone
    rw [htally, countP_retirements, hcount, Nat.add_zero]
  rw [chunksOf_append, chunksOf_singleton]
  cases hcs : ix.chunks item with
  | none =>
    simp only [parse, hcs, consume, Prog.wp_bind, wp_report, Prog.wp_pure, Option.getD_none,
      List.append_nil]
    exact (hskip (fun p _ => by simp [vanishes, hcs]) I).report rfl rfl rfl
  | some cs =>
    simp only [parse, hcs, hexist, Option.getD_some]
    split
    · rename_i hsame
      have hmem := mem_sameHashes hsame
      simp only [consume, Prog.wp_bind, wp_report, Prog.wp_pure]
      refine ((hskip (fun p hp => ?_) I).known fun d hd => ?_).report rfl rfl rfl
      · by_contra hv
        simp only [vanishes, hcs, decide_eq_true_eq, Bool.not_eq_false] at hv
        refine hv.2 ((hmem _).mpr ?_)
        rw [List.map_map]
        exact List.mem_map_of_mem (List.mem_filter.mpr ⟨hp, decide_eq_true hv.1⟩)
      · exact List.mem_append_right _ (hold _ ((hmem _).mp (List.mem_map_of_mem hd)))
    · simp only [consume, hexist, Option.getD_some, vanished_rows hcs, Prog.wp_bind, wp_report]
      apply (retireVanished_wp (I.report (by rfl) (by rfl) (by rfl)) item).mono _ (fun _ _ h => h)
        (fun _ _ h => h)
      intro _ u I'
      exact takeChunks_wp I' hold

theorem consumeAll_wp {start : Nat × Nat × Nat} {c : Consumer}
    {existing : List (String × HashRows)} (work : List WorkItem)
    (I : Consuming ix H a start [] [] c t)
    (hexist : ∀ item ∈ work, existing.lookup item.rel =
      some ((a.table.live.filter (·.2.1.file = item.rel)).map fun p => (p.2.hash, p.1))) :
    Does ix H P (.foldlP (fun c item => ix.consume existing c (ix.parse existing item)) c work)
      (fun c' u => Consuming ix H a start work (ix.chunksOf work) c' u) t := by
  refine (Prog.wp_foldlP (fun done rest c u => done ++ rest = work ∧
    Consuming ix H a start done (ix.chunksOf done) c u) ?_ work [] c t ⟨rfl, I⟩).mono
    (fun _ _ h => h.2) (fun _ _ h => h) (fun _ _ h => h)
  intro done item rest c u I
  refine (consume_wp I.2 (hexist item ?_)).mono (fun _ _ h => ⟨?_, h⟩) (fun _ _ h => h)
    (fun _ _ h => h)
  · rw [← I.1]
    exact List.mem_append_right _ List.mem_cons_self
  · rw [List.append_assoc]
    exact I.1

/-! ## The parser threads -/

/-- Parsing panics on none of the items. -/
def Indexer.Parses (ix : Indexer) (work : List WorkItem) : Prop :=
  ∀ item ∈ work, ix.parses item = true

theorem all_parses_iff {work : List WorkItem} : work.all ix.parses = true ↔ ix.Parses work :=
  List.all_eq_true

theorem delivered_eq {work : List WorkItem} (h : ix.Parses work) :
    ix.delivered work = ix.schedule work := by
  rw [delivered, if_pos (all_parses_iff.mpr h)]

theorem delivered_subset {work : List WorkItem} {item : WorkItem} (h : item ∈ ix.delivered work) :
    item ∈ work := by
  have hitem : item ∈ ix.schedule work := by
    unfold delivered at h
    split at h
    · exact h
    · exact List.mem_of_mem_filter h
  exact (ix.schedule_perm work).mem_iff.mp hitem

/-- What the consumer leaves is left behind by a panic of the parsers too. -/
theorem wp_joinParsers {work : List WorkItem} {consumer : IndexProg Unit}
    {Q : Unit → IndexState → Prop} {E : IndexFailure → IndexState → Prop}
    {C : RunStep → IndexState → Prop} (h : Prog.wp consumer Q E C t)
    (hQ : ¬ix.Parses work → ∀ u, Q () u → E scopePanic u) (hE : ∀ e u, E e u → E scopePanic u) :
    Prog.wp (ix.joinParsers work consumer) (fun _ u => ix.Parses work ∧ Q () u) E C t := by
  rw [joinParsers, Prog.wp_ite, all_parses_iff]
  refine ⟨fun hparses => h.mono (fun _ _ hu => ⟨hparses, hu⟩) (fun _ _ h => h) (fun _ _ h => h), ?_⟩
  intro hparses
  rw [Prog.wp_bind, Prog.wp_onError]
  refine h.mono (fun _ u hu => ?_) (fun e u hu => ?_) (fun _ _ h => h)
  · exact Prog.wp_fail.mpr (hQ hparses u hu)
  · cases e with
    | error e => exact Prog.wp_fail.mpr (hE _ u hu)
    | panic detail => exact Prog.wp_pure.mpr hu

/-- What the consumer makes of the files that are delivered. -/
theorem consumer_wp {work : List WorkItem} {start : Nat × Nat × Nat} {c : Consumer}
    {existing : List (String × HashRows)} (I : Consuming ix H a start [] [] c t)
    (hexist : ∀ item ∈ work, existing.lookup item.rel =
      some ((a.table.live.filter (·.2.1.file = item.rel)).map fun p => (p.2.hash, p.1))) :
    Does ix H P (do
        let c ← .foldlP (ix.consume existing) c (work.map (ix.parse existing))
        ix.flushBatch c.pending)
      (fun _ u => ∃ b docs', Synced ix H b docs' u ∧
        Processed ix a work (taken a.table.keys (ix.chunksOf work)) b ∧
        u.report.tally = (start.1, start.2.1 + (taken a.table.keys (ix.chunksOf work)).length,
          start.2.2 + ix.retirements a.table work)) t := by
  rw [Prog.foldlP_map, Does, Prog.wp_bind]
  refine (consumeAll_wp work I hexist).mono ?_ (fun _ _ h => h) (fun _ _ h => h)
  intro c u hu
  obtain ⟨b, docs', flushed, S', hp, hpend, hk, htally⟩ := hu
  refine (flush_consuming S' hp hpend hk htally).mono ?_ (fun _ _ h => h) (fun _ _ h => h)
  intro _ v hv
  obtain ⟨b', docs'', flushed', S'', hp', hpend', -, htally'⟩ := hv
  rw [List.append_nil] at hpend'
  subst hpend'
  exact ⟨b', docs'', S'', hp', htally'⟩

/-- The whole of the work, in the order of delivery. -/
theorem processWorkItems_wp (S : Synced ix H a docs t) (work : List WorkItem)
    (hP : ¬ix.Parses work → P) : Does ix H P (ix.processWorkItems work)
      (fun _ u => ix.Parses work ∧ ∃ b docs', Synced ix H b docs' u ∧
        Processed ix a (ix.schedule work)
          (taken a.table.keys (ix.chunksOf (ix.schedule work))) b ∧
        u.report.tally = (t.report.liveBefore,
          t.report.chunksAdded + (taken a.table.keys (ix.chunksOf (ix.schedule work))).length,
          t.report.chunksRemoved + ix.retirements a.table (ix.schedule work))) t := by
  simp only [processWorkItems, Prog.wp_ite, Prog.wp_pure, Prog.wp_bind, wp_mayFail, Prog.wp_get]
  constructor
  · rintro rfl
    have hnil : ix.schedule [] = [] := (ix.schedule_perm []).eq_nil
    rw [hnil]
    exact ⟨fun _ h => absurd h List.not_mem_nil, a, docs, S, .nil, rfl⟩
  intro _
  refine ⟨fun hf => S.tick.failed (not_faultless_of_call hf), fun _ => ?_⟩
  have hknown := knownHashes_eq S.tick.toHolds
  have I : Consuming ix H a t.report.tally [] []
      ⟨t.tick.store.liveRows.filterMap fun row => (t.tick.store.get row).map (·.contentHash), []⟩
      t.tick :=
    ⟨a, docs, [], S.tick, .nil, rfl, fun h => by rw [hknown]; rfl, rfl⟩
  refine (wp_joinParsers (consumer_wp I fun item hitem => ?_) (fun hpanics u hu => ?_)
    (fun _ _ h => h)).mono ?_ (fun _ _ h => h) (fun _ _ h => h)
  · rw [lookup_map (·.rel) (hashRows t.tick.store) (delivered_subset hitem),
      hashRows_eq S.tick.toHolds]
  · obtain ⟨b, docs', S', -⟩ := hu
    exact ⟨S'.recoverable, fun _ => hP hpanics⟩
  · intro _ u hu
    obtain ⟨hparses, hu⟩ := hu
    rw [delivered_eq hparses] at hu
    exact ⟨hparses, hu⟩

end SiftMcp
