import SiftMcp.Eval.Commits
import SiftMcp.Lib.ExceptSteps
import SiftMcp.Lib.Utf8Bytes

/-!
# Reports of mining

What is examined is kept or rejected, once (`reports_reconcile`): always for commits, and for
documentation unless a live row has no record, has the prelude or has the name of another.
-/

namespace SiftMcp

namespace MiningReport

variable {report : MiningReport} {reason : RejectReason}

def rejectedSum (report : MiningReport) : Nat := (report.rejected.map (·.2)).sum

def reconciles (report : MiningReport) : Bool :=
  report.labelsAccepted + report.rejectedSum == report.commitsExamined

theorem sum_bump {rejected : List (String × Nat)} :
    ((reject.bump reason rejected).map (·.2)).sum = (rejected.map (·.2)).sum + 1 := by
  induction rejected with
  | nil => rfl
  | cons p rejected ih =>
    obtain ⟨rule, n⟩ := p
    unfold reject.bump
    split
    · rw [List.map_cons, List.map_cons, List.sum_cons, List.sum_cons, Nat.add_right_comm]
    · rw [List.map_cons, List.map_cons, List.sum_cons, List.sum_cons, ih, Nat.add_assoc]

@[simp] theorem rejectedSum_reject : (report.reject reason).rejectedSum = report.rejectedSum + 1 :=
  sum_bump

/-- So many of what has been examined are neither kept nor rejected. -/
def Lost (report : MiningReport) (n : Nat) : Prop :=
  report.commitsExamined = report.labelsAccepted + report.rejectedSum + n

theorem Lost.iff_zero {n : Nat} (h : report.Lost n) : report.reconciles = true ↔ n = 0 := by
  rw [reconciles, beq_iff_eq, h]
  exact Nat.left_eq_add

end MiningReport

/-! ## Commits -/

section

variable {Tree : Type} {repo : MinedRepo Tree} {blake3 : List UInt8 → ContentHash} {ts : TreeSitter}
  {config : MiningConfig} {indexed : Pairs} {maintenance : List (String × (Text → Bool))}
  {m m' : CommitMining} {id : String}

/-- What a turn of the loop does with a commit: it rejects it for one reason, or it takes a label
from it. -/
inductive Settles (m : CommitMining) : CommitMining → Prop
  | reject (reason : RejectReason) : Settles m ⟨({ m.report with
      commitsExamined := m.report.commitsExamined + 1 } : MiningReport).reject reason, m.labels⟩
  | accept (label : Label) : Settles m ⟨{ m.report with
      commitsExamined := m.report.commitsExamined + 1
      labelsAccepted := m.report.labelsAccepted + 1 }, m.labels ++ [label]⟩

theorem settles_mineCommit
    (h : mineCommit repo blake3 ts config indexed maintenance m id = .ok m') : Settles m m' := by
  obtain ⟨commit, -, h⟩ := Except.bind_eq_ok.mp h
  dsimp only at h
  split at h
  · cases h
    exact .reject _
  obtain ⟨subject, -, h⟩ := Except.bind_eq_ok.mp h
  split at h
  · cases h
    exact .reject _
  split at h
  · cases h
    exact .reject _
  obtain ⟨parent, -, h⟩ := Except.bind_eq_ok.mp h
  obtain ⟨touched, -, h⟩ := Except.bind_eq_ok.mp h
  split at h
  · cases h
    exact .reject _
  split at h
  · cases h
    exact .reject _
  split at h
  · cases h
    exact .reject _
  · cases h
    exact .accept _

/-- All that is examined so far is kept or rejected, and what is kept has a label. -/
structure CommitMining.Balanced (m : CommitMining) : Prop where
  lost : m.report.Lost 0
  labels : m.report.labelsAccepted = m.labels.length

theorem Settles.balanced (h : Settles m m') (hm : m.Balanced) : m'.Balanced := by
  obtain ⟨hlost, hlabels⟩ := hm
  unfold MiningReport.Lost at hlost
  cases h with
  | reject reason =>
    refine ⟨?_, hlabels⟩
    show m.report.commitsExamined + 1 = m.report.labelsAccepted +
        MiningReport.rejectedSum (.reject _ reason) + 0
    rw [MiningReport.rejectedSum_reject, hlost]
    rfl
  | accept label =>
    refine ⟨?_, ?_⟩
    · show m.report.commitsExamined + 1 = m.report.labelsAccepted + 1 + m.report.rejectedSum + 0
      rw [hlost]
      omega
    · rw [List.length_append, ← hlabels]
      rfl

theorem balanced_mineWalk {walk : List (Except String String)} (hm : m.Balanced)
    (h : mineWalk repo blake3 ts config indexed maintenance m walk = .ok m') : m'.Balanced := by
  induction walk generalizing m with
  | nil =>
    cases h
    exact hm
  | cons info walk ih =>
    obtain ⟨id, -, h⟩ := Except.bind_eq_ok.mp h
    split at h
    · cases h
      exact hm
    · obtain ⟨next, hnext, h⟩ := Except.bind_eq_ok.mp h
      exact ih ((settles_mineCommit hnext).balanced hm) h

theorem reconciles_mineCommits {rows : Except String (List (Option ChunkRecord))}
    {chunker : Except String Unit} {labels : List Label} {report : MiningReport}
    (h : mineCommits repo blake3 ts config rows chunker = .ok (labels, report)) :
    report.reconciles = true ∧ report.labelsAccepted = labels.length := by
  obtain ⟨-, -, h⟩ := Except.bind_eq_ok.mp h
  obtain ⟨-, -, h⟩ := Except.bind_eq_ok.mp h
  obtain ⟨tip, -, h⟩ := Except.bind_eq_ok.mp h
  obtain ⟨rows, -, h⟩ := Except.bind_eq_ok.mp h
  obtain ⟨-, -, h⟩ := Except.bind_eq_ok.mp h
  obtain ⟨maintenance, -, h⟩ := Except.bind_eq_ok.mp h
  obtain ⟨walk, -, h⟩ := Except.bind_eq_ok.mp h
  obtain ⟨m, hm, h⟩ := Except.bind_eq_ok.mp h
  cases h
  have hstart : CommitMining.Balanced ⟨.new, []⟩ := ⟨rfl, rfl⟩
  obtain ⟨hlost, hlabels⟩ := balanced_mineWalk hstart hm
  exact ⟨hlost.iff_zero.mpr rfl, by rw [hlabels, List.length_insertionSort]⟩

end

/-! ## Documentation -/

section

variable {m : Mining} {rows : List (Option ChunkRecord)} {row : Option ChunkRecord}
  {rec : ChunkRecord} {chunks : List FragmentChunk} {n : Nat}

/-- The row is examined and neither kept nor rejected. -/
def Mining.Loses (m : Mining) : Option ChunkRecord → Prop
  | none => True
  | some rec => rec.symbol = String.ofList preludeSymbol ∨
      rec.docFirstLine.isSome = true ∧ m.seen.contains (rec.file, rec.symbol) = true

instance (m : Mining) (row : Option ChunkRecord) : Decidable (m.Loses row) := by
  unfold Mining.Loses
  split <;> infer_instance

theorem Mining.lost_row (h : m.report.Lost n) :
    (m.row row).report.Lost (n + if m.Loses row then 1 else 0) := by
  have hexamined : m.report.commitsExamined + 1 = m.report.labelsAccepted + m.report.rejectedSum +
      (n + 1) :=
    congrArg (· + 1) h
  cases row with
  | none => exact hexamined
  | some rec =>
    by_cases hprelude : rec.symbol = String.ofList preludeSymbol
    · have hlost : m.Loses (some rec) := .inl hprelude
      rw [Mining.row, if_pos hprelude, if_pos hlost]
      exact hexamined
    rw [Mining.row, if_neg hprelude]
    cases hdoc : rec.docFirstLine with
    | none =>
      have hkept : ¬m.Loses (some rec) := by
        simp [Mining.Loses, hprelude, hdoc]
      rw [if_neg hkept]
      show m.report.commitsExamined + 1 = m.report.labelsAccepted +
          MiningReport.rejectedSum (.reject _ _) + n
      rw [MiningReport.rejectedSum_reject, hexamined]
      show _ = m.report.labelsAccepted + (m.report.rejectedSum + 1) + n
      omega
    | some doc =>
      by_cases hseen : (rec.file, rec.symbol) ∈ m.seen
      · have hlost : m.Loses (some rec) := .inr ⟨by rw [hdoc]; rfl, List.contains_iff_mem.mpr hseen⟩
        rw [if_pos hlost]
        show MiningReport.Lost (if _ then _ else _ : Mining).report _
        rw [if_pos hseen]
        exact hexamined
      · have hkept : ¬m.Loses (some rec) := by
          simp [Mining.Loses, hprelude, hseen]
        rw [if_neg hkept]
        show MiningReport.Lost (if _ then _ else _ : Mining).report _
        rw [if_neg hseen]
        show m.report.commitsExamined + 1 = m.report.labelsAccepted + 1 + m.report.rejectedSum + n
        rw [hexamined]
        omega

theorem Mining.lost_chunk (h : m.report.Lost n) : (m.chunk rec).report.Lost n := by
  unfold Mining.chunk
  split
  · exact h
  split
  · exact h
  split
  · exact h
  · show m.report.commitsExamined + 1 = m.report.labelsAccepted + 1 + m.report.rejectedSum + n
    have h : m.report.commitsExamined = m.report.labelsAccepted + m.report.rejectedSum + n := h
    omega

theorem Mining.lost_chunks (h : m.report.Lost n) :
    (chunks.foldl (fun m c => m.chunk c.record) m).report.Lost n := by
  induction chunks generalizing m with
  | nil => exact h
  | cons c chunks ih => exact ih (Mining.lost_chunk h)

/-- The file and the symbol of a row with documentation. -/
def documented (row : Option ChunkRecord) : Option (String × String) :=
  row.bind fun rec => rec.docFirstLine.map fun _ => (rec.file, rec.symbol)

/-- The rows are those of symbols, and no two with documentation have one name. -/
structure Told (rows : List (Option ChunkRecord)) (seen : List (String × String)) : Prop where
  symbols : ∀ row ∈ rows, ∃ rec, row = some rec ∧ rec.symbol ≠ String.ofList preludeSymbol
  distinct : (rows.filterMap documented).Nodup
  fresh : ∀ key ∈ rows.filterMap documented, key ∉ seen

/-- The rows that are lost, from a state of the loop. -/
def Mining.lostRows (m : Mining) : List (Option ChunkRecord) → Nat
  | [] => 0
  | row :: rows => (if m.Loses row then 1 else 0) + (m.row row).lostRows rows

theorem Mining.lost_rows (h : m.report.Lost n) :
    (rows.foldl Mining.row m).report.Lost (n + m.lostRows rows) := by
  induction rows generalizing m n with
  | nil => exact h
  | cons row rows ih =>
    have hrest := ih (@Mining.lost_row m row n h)
    rwa [Nat.add_assoc] at hrest

theorem Mining.seen_row (h : ¬m.Loses row) :
    (m.row row).seen = (documented row).toList ++ m.seen := by
  cases row with
  | none => exact absurd trivial h
  | some rec =>
    obtain ⟨hprelude, hseen⟩ := not_or.mp h
    rw [Mining.row, if_neg hprelude]
    cases hdoc : rec.docFirstLine with
    | none => simp [documented, hdoc, Mining.examine]
    | some doc =>
      have hnew : (rec.file, rec.symbol) ∉ m.seen := fun hmem =>
        hseen ⟨by rw [hdoc]; rfl, List.contains_iff_mem.mpr hmem⟩
      simp [documented, hdoc, hnew, Mining.examine, Mining.push]

theorem Mining.loses_iff : ¬m.Loses row ↔
    (∃ rec, row = some rec ∧ rec.symbol ≠ String.ofList preludeSymbol) ∧
      ∀ key ∈ documented row, key ∉ m.seen := by
  cases row with
  | none => simp [Mining.Loses]
  | some rec => cases hdoc : rec.docFirstLine <;> simp [Mining.Loses, documented, hdoc]

/-- No row is lost exactly if the rows can be told apart. -/
theorem Mining.lostRows_eq_zero_iff : m.lostRows rows = 0 ↔ Told rows m.seen := by
  induction rows generalizing m with
  | nil => exact iff_of_true rfl ⟨by simp, by simp, by simp⟩
  | cons row rows ih =>
    by_cases hrow : m.Loses row
    · refine iff_of_false ?_ fun h => ?_
      · rw [Mining.lostRows, if_pos hrow, Nat.add_comm]
        exact Nat.succ_ne_zero _
      · refine Mining.loses_iff.mpr ⟨h.symbols row List.mem_cons_self, fun key hkey => ?_⟩ hrow
        exact h.fresh key (List.mem_filterMap.mpr ⟨row, List.mem_cons_self, hkey⟩)
    · rw [Mining.lostRows, if_neg hrow, Nat.zero_add, ih, Mining.seen_row hrow]
      obtain ⟨hsymbol, hfresh⟩ := Mining.loses_iff.mp hrow
      have hmap : (row :: rows).filterMap documented = (documented row).toList ++
          rows.filterMap documented := by
        cases hkey : documented row <;> simp [hkey]
      constructor
      · intro h
        refine ⟨List.forall_mem_cons.mpr ⟨hsymbol, h.symbols⟩, ?_, ?_⟩
        · rw [hmap]
          refine List.nodup_append.mpr ⟨by cases documented row <;> simp, h.distinct, ?_⟩
          rintro key hkey _ hrest rfl
          exact h.fresh key hrest (List.mem_append_left _ hkey)
        · rw [hmap]
          refine List.forall_mem_append.mpr
            ⟨fun key hkey => hfresh key (Option.mem_toList.mp hkey), ?_⟩
          exact fun key hkey hseen => h.fresh key hkey (List.mem_append_right _ hseen)
      · intro h
        obtain ⟨hsymbols, hdistinct, hnew⟩ := h
        rw [hmap] at hdistinct hnew
        obtain ⟨-, hrest, hdisjoint⟩ := List.nodup_append.mp hdistinct
        refine ⟨(List.forall_mem_cons.mp hsymbols).2, hrest, fun key hkey hmem => ?_⟩
        rcases List.mem_append.mp hmem with hmem | hmem
        · exact hdisjoint key hmem key hkey rfl
        · exact hnew key (List.mem_append_right _ hkey) hmem

end

/-- The reports of mining commits reconcile, and those of mining documentation exactly if every live
row has a record, none that of a prelude, and no two with documentation have the same file and
symbol. -/
theorem reports_reconcile {Tree : Type} (repo : MinedRepo Tree) (blake3 : List UInt8 → ContentHash)
    (ts : TreeSitter) (config : MiningConfig) (read : Except String (List (Option ChunkRecord)))
    (chunker : Except String Unit) (rows : List (Option ChunkRecord))
    (chunks : List FragmentChunk) :
    (∀ labels report, mineCommits repo blake3 ts config read chunker = .ok (labels, report) →
      report.reconciles = true ∧ report.labelsAccepted = labels.length) ∧
    ((mineDocstrings rows chunks).2.reconciles = true ↔ Told rows []) := by
  refine ⟨fun _ _ => reconciles_mineCommits, ?_⟩
  have hstart : MiningReport.Lost .new 0 := rfl
  have hrows := @Mining.lost_rows ⟨.new, [], []⟩ rows 0 hstart
  have hlost := @Mining.lost_chunks _ chunks _ hrows
  rw [Nat.zero_add] at hlost
  exact hlost.iff_zero.trans Mining.lostRows_eq_zero_iff

/-- A history of a commit that adds a function, one with a short subject, and a merge. -/
def mergeRepo : MinedRepo Unit where
  opened := .ok ()
  headCommit := .ok "c"
  headId := .ok "c"
  revWalk _ := .ok [.ok "c", .ok "b", .ok "a"]
  commit id :=
    if id = "a" then .ok ⟨"a", [], .ok "Add a first function".toList, .ok ()⟩
    else if id = "b" then .ok ⟨"b", ["a"], .ok "Tidy up".toList, .ok ()⟩
    else .ok ⟨"c", ["b", "side"], .ok "Merge side".toList, .ok ()⟩
  diffTreeToTree _ _ := .ok [.addition (utf8Bytes "a.py".toList) .blob]
  lookupEntryByPath _ _ := .ok (some ⟨.blob, "new"⟩)
  findObject _ := .ok (utf8Bytes commentSource)
  diffLines _ _ := []
  maintenanceRegex _ := .ok fun _ => false

theorem reports_reconcile_merge :
    (⟨3, 1, [("merge", 1), ("subject_too_short", 1)]⟩ : MiningReport).reconciles = true := by
  have hmined : (mineCommits mergeRepo (fun _ => ⟨0⟩) commentParser
      { MiningConfig.default with enforcePinnedRevision := false } (.ok [some commentChunk.record])
      (.ok ())).toOption = some ([⟨"Add a first function", [("a.py", "f")], .commitSubject, "a"⟩],
        ⟨3, 1, [("merge", 1), ("subject_too_short", 1)]⟩) := by
    decide +kernel
  exact ((reports_reconcile _ _ _ _ _ _ [] []).1 _ _ (Except.toOption_eq_some.mp hmined)).1

/-- A prelude is examined, and that is all. -/
theorem docstring_report_prelude :
    ¬∀ (rows : List (Option ChunkRecord)) (chunks : List FragmentChunk),
    (mineDocstrings rows chunks).2.reconciles = true := by
  intro h
  have hreport :=
    h [some { commentChunk.record with symbol := "<file_prelude>", docFirstLine := none }] []
  revert hreport
  decide

end SiftMcp
