import Mathlib.Data.List.Nodup
import Mathlib.Data.List.Range
import Mathlib.Data.List.Zip
import Mathlib.Order.Basic

/-!
# Append-only row tables

A `RowTable key` numbers its rows from zero and never reuses a number. Some of its rows are live;
the live rows are kept in ascending order, and no two of them bear the same key. Rows are retired,
inserted at the end, relabelled in place, and compacted, which renumbers the live rows from zero.

* `insertAll_live`: what a batch adds to the live rows.
* `compact_rows`: a compaction numbers the live rows from zero.
-/

universe u v

structure RowTable {α : Type u} {κ : Type v} (key : α → κ) where
  /-- Rows `0` to `size - 1` have been handed out. -/
  size : Nat
  live : List (Nat × α)
  inside : ∀ p ∈ live, p.1 < size
  sorted : live.Pairwise fun p q => p.1 < q.1
  distinct : (live.map fun p => key p.2).Nodup

namespace RowTable

variable {α : Type u} {κ : Type v} {key : α → κ}

@[ext] theorem ext {t t' : RowTable key} (hs : t.size = t'.size) (hl : t.live = t'.live) :
    t = t' := by
  cases t; cases t'; cases hs; cases hl; rfl

def vals (t : RowTable key) : List α := t.live.map (·.2)

def keys (t : RowTable key) : List κ := t.live.map fun p => key p.2

def rows (t : RowTable key) : List Nat := t.live.map (·.1)

theorem keys_eq_map_vals (t : RowTable key) : t.keys = t.vals.map key := by
  simp [keys, vals]

theorem mem_keys {t : RowTable key} {k : κ} : k ∈ t.keys ↔ ∃ p ∈ t.live, key p.2 = k := by
  simp [keys]

theorem nodup_rows (t : RowTable key) : t.rows.Nodup := by
  refine (List.pairwise_map.mpr (t.sorted.imp ?_))
  exact fun h => Nat.ne_of_lt h

theorem eq_of_row {t : RowTable key} {p q : Nat × α} (hp : p ∈ t.live) (hq : q ∈ t.live)
    (h : p.1 = q.1) : p = q :=
  List.inj_on_of_nodup_map t.nodup_rows hp hq h

theorem eq_of_key {t : RowTable key} {p q : Nat × α} (hp : p ∈ t.live) (hq : q ∈ t.live)
    (h : key p.2 = key q.2) : p = q :=
  List.inj_on_of_nodup_map t.distinct hp hq h

def empty : RowTable key := ⟨0, [], by simp, .nil, by simp⟩

/-! ## Retiring and relabelling -/

/-- The rows of the list are live no more. -/
def retire (rows : List Nat) (t : RowTable key) : RowTable key where
  size := t.size
  live := t.live.filter (·.1 ∉ rows)
  inside p hp := t.inside p (List.mem_of_mem_filter hp)
  sorted := t.sorted.filter _
  distinct := t.distinct.sublist (List.filter_sublist.map _)

theorem retire_live (rows : List Nat) (t : RowTable key) :
    (t.retire rows).live = t.live.filter (·.1 ∉ rows) := rfl

theorem mem_retire {rows : List Nat} {t : RowTable key} {p : Nat × α} :
    p ∈ (t.retire rows).live ↔ p ∈ t.live ∧ p.1 ∉ rows := by
  simp [retire]

/-- Change what the live rows hold, but not their keys. -/
def relabel (f : α → α) (hf : ∀ a, key (f a) = key a) (t : RowTable key) : RowTable key where
  size := t.size
  live := t.live.map fun p => (p.1, f p.2)
  inside := by
    rintro _ hq
    obtain ⟨p, hp, rfl⟩ := List.mem_map.mp hq
    exact t.inside p hp
  sorted := List.pairwise_map.mpr t.sorted
  distinct := by simpa [Function.comp_def, hf] using t.distinct

/-! ## Inserting -/

section insert

variable [DecidableEq κ]

/-- A new row for a value whose key no live row bears. -/
def insert (t : RowTable key) (a : α) : RowTable key :=
  if h : key a ∈ t.keys then t else {
    size := t.size + 1
    live := t.live ++ [(t.size, a)]
    inside := by
      simp only [List.mem_append, List.mem_singleton]
      rintro p (hp | rfl)
      · exact (t.inside p hp).trans (Nat.lt_succ_self _)
      · exact Nat.lt_succ_self _
    sorted := by
      refine List.pairwise_append.mpr ⟨t.sorted, List.pairwise_singleton _ _, ?_⟩
      simpa using fun a b h => t.inside (a, b) h
    distinct := by
      rw [List.map_append, List.nodup_append]
      refine ⟨t.distinct, by simp, ?_⟩
      rintro k hk _ hk' rfl
      simp only [List.map_cons, List.map_nil, List.mem_singleton] at hk'
      exact h (hk' ▸ hk) }

def insertAll (t : RowTable key) (as : List α) : RowTable key := as.foldl insert t

variable {t : RowTable key} {a : α}

theorem insert_of_mem (h : key a ∈ t.keys) : t.insert a = t := by simp [insert, h]

theorem insert_live (h : key a ∉ t.keys) : (t.insert a).live = t.live ++ [(t.size, a)] := by
  simp [insert, h]

theorem insert_size (h : key a ∉ t.keys) : (t.insert a).size = t.size + 1 := by
  simp [insert, h]

theorem mem_keys_insert {k : κ} : k ∈ (t.insert a).keys ↔ k ∈ t.keys ∨ key a = k := by
  by_cases h : key a ∈ t.keys
  · rw [insert_of_mem h]
    exact ⟨.inl, fun h' => h'.elim id (· ▸ h)⟩
  · simp [keys, insert_live h, eq_comm]

@[simp] theorem insertAll_nil : t.insertAll [] = t := rfl

@[simp] theorem insertAll_cons {as : List α} : t.insertAll (a :: as) = (t.insert a).insertAll as :=
  rfl

theorem insertAll_append {as bs : List α} :
    t.insertAll (as ++ bs) = (t.insertAll as).insertAll bs := List.foldl_append

theorem mem_keys_insertAll {k : κ} : ∀ {as : List α} {t : RowTable key},
    k ∈ (t.insertAll as).keys ↔ k ∈ t.keys ∨ ∃ a ∈ as, key a = k
  | [], t => by simp
  | a :: as, t => by
    rw [insertAll_cons, mem_keys_insertAll, mem_keys_insert]
    simp [or_assoc]

/-- The values of a list that `insertAll` takes up. -/
def novel : RowTable key → List α → List α
  | _, [] => []
  | t, a :: as => if key a ∈ t.keys then novel t as else a :: novel (t.insert a) as

theorem novel_of_mem {as : List α} (h : key a ∈ t.keys) : t.novel (a :: as) = t.novel as := by
  simp [novel, h]

theorem novel_of_not_mem {as : List α} (h : key a ∉ t.keys) :
    t.novel (a :: as) = a :: (t.insert a).novel as := by
  simp [novel, h]

theorem novel_append : ∀ {as bs : List α} {t : RowTable key},
    t.novel (as ++ bs) = t.novel as ++ (t.insertAll as).novel bs
  | [], _, _ => rfl
  | a :: as, bs, t => by
    by_cases h : key a ∈ t.keys
    · rw [List.cons_append, novel_of_mem h, novel_of_mem h, novel_append, insertAll_cons,
        insert_of_mem h]
    · rw [List.cons_append, novel_of_not_mem h, novel_of_not_mem h, novel_append, insertAll_cons,
        List.cons_append]

theorem novel_sublist : ∀ (as : List α) (t : RowTable key), (t.novel as).Sublist as
  | [], _ => .slnil
  | a :: as, t => by
    by_cases h : key a ∈ t.keys
    · rw [novel_of_mem h]; exact (novel_sublist as t).cons a
    · rw [novel_of_not_mem h]; exact (novel_sublist as _).cons_cons a

theorem novel_eq_self : ∀ {as : List α} {t : RowTable key}, (∀ a ∈ as, key a ∉ t.keys) →
    (as.map key).Nodup → t.novel as = as
  | [], _, _, _ => rfl
  | a :: as, t, h, hd => by
    rw [List.map_cons, List.nodup_cons] at hd
    rw [novel_of_not_mem (h a List.mem_cons_self), novel_eq_self (fun b hb hk => ?_) hd.2]
    rcases mem_keys_insert.mp hk with hk | hk
    · exact h b (List.mem_cons_of_mem _ hb) hk
    · exact hd.1 (hk ▸ List.mem_map_of_mem hb)

theorem novel_eq_nil : ∀ {as : List α} {t : RowTable key},
    t.novel as = [] ↔ ∀ a ∈ as, key a ∈ t.keys
  | [], t => by simp [novel]
  | a :: as, t => by
    by_cases h : key a ∈ t.keys
    · rw [novel_of_mem h, novel_eq_nil]; simp [h]
    · rw [novel_of_not_mem h]; simp [h]

theorem novel_novel : ∀ (as : List α) (t : RowTable key), t.novel (t.novel as) = t.novel as
  | [], _ => rfl
  | a :: as, t => by
    by_cases h : key a ∈ t.keys
    · rw [novel_of_mem h, novel_novel as t]
    · rw [novel_of_not_mem h, novel_of_not_mem h, novel_novel as _]

theorem insertAll_novel : ∀ (as : List α) (t : RowTable key),
    t.insertAll (t.novel as) = t.insertAll as
  | [], _ => rfl
  | a :: as, t => by
    by_cases h : key a ∈ t.keys
    · rw [novel_of_mem h, insertAll_novel as t, insertAll_cons, insert_of_mem h]
    · rw [novel_of_not_mem h, insertAll_cons, insertAll_novel as _, insertAll_cons]

/-- The rows of a table stay as they are; the novel values come behind them, numbered on. -/
theorem insertAll_live : ∀ (as : List α) (t : RowTable key),
    (t.insertAll as).live = t.live ++ ((t.novel as).zipIdx t.size).map Prod.swap
  | [], t => by simp [novel]
  | a :: as, t => by
    by_cases h : key a ∈ t.keys
    · rw [insertAll_cons, insert_of_mem h, novel_of_mem h, insertAll_live as t]
    · rw [insertAll_cons, novel_of_not_mem h, insertAll_live as, insert_live h, insert_size h]
      simp

theorem insertAll_size : ∀ (as : List α) (t : RowTable key),
    (t.insertAll as).size = t.size + (t.novel as).length
  | [], t => by simp [novel]
  | a :: as, t => by
    by_cases h : key a ∈ t.keys
    · rw [insertAll_cons, insert_of_mem h, novel_of_mem h, insertAll_size as t]
    · rw [insertAll_cons, novel_of_not_mem h, insertAll_size as, insert_size h, List.length_cons]
      omega

/-- A value inserted under a key that was live before is not taken up. -/
theorem mem_insertAll {as : List α} {p : Nat × α} (hp : p ∈ (t.insertAll as).live) :
    p ∈ t.live ∨ (p.2 ∈ as ∧ key p.2 ∉ t.keys ∧ t.size ≤ p.1) := by
  have hd := (t.insertAll as).distinct
  rw [insertAll_live] at hp hd
  rcases List.mem_append.mp hp with hp | hp
  · exact .inl hp
  · refine .inr ⟨?_, fun hk => ?_, ?_⟩
    · obtain ⟨⟨a, i⟩, hai, rfl⟩ := List.mem_map.mp hp
      exact (novel_sublist as t).subset (List.fst_mem_of_mem_zipIdx hai)
    · rw [List.map_append, List.nodup_append] at hd
      exact hd.2.2 _ hk _ (List.mem_map_of_mem hp) rfl
    · obtain ⟨⟨a, i⟩, hai, rfl⟩ := List.mem_map.mp hp
      exact (List.le_snd_of_mem_zipIdx hai)

theorem mem_insertAll_of_mem {as : List α} {p : Nat × α} (hp : p ∈ t.live) :
    p ∈ (t.insertAll as).live := by
  rw [insertAll_live]
  exact List.mem_append_left _ hp

end insert

/-! ## Compacting -/

/-- The live rows renumbered from zero, in their order. -/
def compact (t : RowTable key) : RowTable key where
  size := t.live.length
  live := t.vals.zipIdx.map Prod.swap
  inside := by
    rintro p hp
    obtain ⟨⟨a, i⟩, hai, rfl⟩ := List.mem_map.mp hp
    have := List.snd_lt_add_of_mem_zipIdx hai
    simpa [vals] using this
  sorted := by
    rw [List.pairwise_map, List.pairwise_iff_getElem]
    intro i j hi hj hij
    simpa using hij
  distinct := by
    have h : ((t.vals.zipIdx.map Prod.swap).map fun p => key p.2) = t.keys := by
      rw [List.map_map, keys_eq_map_vals, ← List.zipIdx_map_fst 0 t.vals, List.map_map]
      simp [Function.comp_def]
    rw [h]
    exact t.distinct

@[simp] theorem compact_vals (t : RowTable key) : t.compact.vals = t.vals := by
  simp [compact, vals, Function.comp_def]

/-- The compacted table is the one its values build from nothing. -/
theorem insertAll_vals [DecidableEq κ] (t : RowTable key) :
    (empty : RowTable key).insertAll t.vals = t.compact := by
  have h : (empty : RowTable key).novel t.vals = t.vals :=
    novel_eq_self (by simp [empty, keys]) (by rw [← keys_eq_map_vals]; exact t.distinct)
  refine RowTable.ext ?_ ?_
  · rw [insertAll_size, h]; simp [empty, compact, vals]
  · rw [insertAll_live, h]; rfl

/-- Old and new number of each live row. -/
def mapping (t : RowTable key) : List (Nat × Nat) := t.rows.zipIdx

theorem le_rows_getElem (t : RowTable key) : ∀ (i : Nat) (hi : i < t.rows.length), i ≤ t.rows[i]
  | 0, _ => Nat.zero_le _
  | i + 1, hi => by
    have hs : t.rows.Pairwise (· < ·) := List.pairwise_map.mpr t.sorted
    have := List.pairwise_iff_getElem.mp hs i (i + 1) (Nat.lt_of_succ_lt hi) hi (Nat.lt_succ_self i)
    exact (le_rows_getElem t i (Nat.lt_of_succ_lt hi)).trans_lt this

/-- A row never moves up: as many live rows as its new number are numbered below it. -/
theorem le_of_mem_mapping {t : RowTable key} {p : Nat × Nat} (hp : p ∈ t.mapping) : p.2 ≤ p.1 := by
  obtain ⟨i, hi, rfl⟩ := List.mem_iff_getElem.mp hp
  simp only [mapping, List.length_zipIdx] at hi
  simpa [mapping] using t.le_rows_getElem i hi

theorem getElem?_live {t : RowTable key} {i : Nat} {r : Nat} (h : t.rows[i]? = some r) {a : α} :
    t.vals[i]? = some a ↔ (r, a) ∈ t.live := by
  obtain ⟨⟨r', a'⟩, hp, hr⟩ : ∃ p, t.live[i]? = some p ∧ p.1 = r := by
    simpa [rows] using h
  have hmem : (r', a') ∈ t.live := List.mem_of_getElem? hp
  obtain rfl : r' = r := hr
  rw [vals, List.getElem?_map, hp]
  constructor
  · intro ha
    obtain rfl : a' = a := Option.some.inj ha
    exact hmem
  · intro ha
    rw [show a = a' from congrArg Prod.snd (eq_of_row ha hmem rfl)]
    rfl

theorem mem_compact {t : RowTable key} {n : Nat} {a : α} :
    (n, a) ∈ t.compact.live ↔ ∃ r, (r, n) ∈ t.mapping ∧ (r, a) ∈ t.live := by
  have hval : (n, a) ∈ t.compact.live ↔ t.vals[n]? = some a := by
    rw [compact, List.mem_map]
    constructor
    · intro ⟨⟨a', n'⟩, h, heq⟩
      obtain ⟨rfl, rfl⟩ := Prod.mk.inj heq
      exact List.mem_zipIdx_iff_getElem?.mp h
    · intro h
      exact ⟨(a, n), List.mem_zipIdx_iff_getElem?.mpr h, rfl⟩
  simp only [hval, mapping, List.mem_zipIdx_iff_getElem?]
  constructor
  · intro h
    obtain ⟨hn, -⟩ := List.getElem?_eq_some_iff.mp h
    have hlt : n < t.rows.length := by simpa [rows, vals] using hn
    have hr : t.rows[n]? = some t.rows[n] := List.getElem?_eq_getElem hlt
    exact ⟨_, hr, (getElem?_live hr).mp h⟩
  · intro ⟨r, hr, ha⟩
    exact (getElem?_live hr).mpr ha

/-- Compacting moves no row in front of which all rows are live. -/
theorem rows_getElem?_of_live {t : RowTable key} {n : Nat} (h : ∀ r < n, r ∈ t.rows) {i : Nat}
    (hi : i < n) : t.rows[i]? = some i := by
  induction i using Nat.strong_induction_on with
  | _ i ih =>
    obtain ⟨j, hj⟩ := List.mem_iff_getElem?.mp (h i hi)
    obtain ⟨hlt, heq⟩ := List.getElem?_eq_some_iff.mp hj
    have hle := t.le_rows_getElem j hlt
    rw [heq] at hle
    rcases hle.lt_or_eq with hless | rfl
    · have hself := ih j hless (hless.trans hi)
      rw [hj] at hself
      exact absurd (Option.some_inj.mp hself) hless.ne'
    · exact hj

theorem compact_rows (t : RowTable key) : t.compact.rows = List.range t.live.length := by
  simp [compact, rows, vals, List.zipIdx_map_snd, List.range_eq_range', Function.comp_def]

/-- Compacting a table whose live rows are numbered from zero without a gap moves no row. -/
theorem compact_live_eq_self {t : RowTable key} (h : t.rows = List.range t.live.length) :
    t.compact.live = t.live := by
  refine List.ext_getElem (by simp [compact, vals]) fun i hi hi' => ?_
  have hrow : (t.live[i]).1 = i := by
    have : t.rows[i]? = (List.range t.live.length)[i]? := by rw [h]
    simpa [rows, hi'] using this
  have hval : t.compact.live[i] = (i, (t.live[i]).2) := by simp [compact, vals]
  rw [hval]
  exact Prod.ext hrow.symm rfl

end RowTable
