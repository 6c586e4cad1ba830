import SiftMcp.Daemon.OneRepository
import SiftMcp.Daemon.WholeSymbols
import SiftMcp.Retrieval.Nearest
import SiftMcp.Retrieval.Places

/-!
# What a search shows

Behind every sequence of Index requests, a resident searches an index of its own store, and every
row that it ranks is live. So no hit is lost on the way to the results, and what is shown under a
row is what the store holds. Similar code is then the nearest of what is live.

* `Served.search_shows`: what a search shows, row by row.
* `Served.similar_nearest`: what is shown as similar code.
-/

namespace SiftMcp
open Durable Text
open String (utf8Len)

/-! ## Previews -/

/-- The longest beginning of a body that has no more than `n` bytes. -/
structure Excerpt (n : Nat) (body preview : String) : Prop where
  begins : preview.toList <+: body.toList
  fits : preview.utf8ByteSize ≤ n
  longest (p : Text) : p <+: body.toList → utf8Len p ≤ n → p <+: preview.toList

section

variable {n : Nat} {t p : Text}

theorem takeBytes_begins : takeBytes n t <+: t := by
  induction t generalizing n with
  | nil => exact List.nil_prefix
  | cons c t ih =>
    rw [takeBytes]
    split
    · exact List.cons_prefix_cons.mpr ⟨rfl, ih⟩
    · exact List.nil_prefix

theorem utf8Len_takeBytes : utf8Len (takeBytes n t) ≤ n := by
  induction t generalizing n with
  | nil => exact Nat.zero_le n
  | cons c t ih =>
    rw [takeBytes]
    split
    · next hfits =>
      rw [String.utf8Len_cons]
      exact Nat.add_le_of_le_sub hfits ih
    · exact Nat.zero_le n

theorem longest_takeBytes (h : p <+: t) (hp : utf8Len p ≤ n) : p <+: takeBytes n t := by
  induction t generalizing n p with
  | nil => exact h
  | cons c t ih =>
    cases p with
    | nil => exact List.nil_prefix
    | cons d p =>
      obtain ⟨rfl, hrest⟩ := List.cons_prefix_cons.mp h
      rw [String.utf8Len_cons] at hp
      rw [takeBytes, if_pos (Nat.le_of_add_left_le hp)]
      exact List.cons_prefix_cons.mpr ⟨rfl, ih hrest (Nat.le_sub_of_add_le hp)⟩

theorem excerpt_previewFromBody (body : String) :
    Excerpt previewMaxBytes body (previewFromBody body) := by
  rw [previewFromBody]
  split
  · next hfits => exact ⟨List.prefix_rfl, hfits, fun _ h _ => h⟩
  · refine ⟨?_, ?_, fun p h hp => ?_⟩
    · rw [String.toList_ofList]
      exact takeBytes_begins
    · rw [String.utf8ByteSize_ofList]
      exact utf8Len_takeBytes
    · rw [String.toList_ofList]
      exact longest_takeBytes h hp

end

/-! ## The index of a resident -/

section

variable {cfg : DaemonConfig} {allowed : List IndexRequest → Resident → IndexRequest → Prop}
  {qs : List IndexRequest} {r : Resident} {E : Embedder} {env : LoadEnv} {error : Option String}
  {s : ChunkStore} {d : DenseIndex}

theorem fromStore_ok (H : s.matrix.WF) (h : DenseIndex.fromStore error s = .ok d) :
    d = s.denseIndex := by
  cases error with
  | some e => cases h
  | none => exact (Except.ok.inj ((fromStore_eq H).symm.trans h)).symm

theorem Resident.load_dense (h : Resident.load env cfg = .ok r) :
    ∃ error, DenseIndex.fromStore error r.store = .ok r.dense := by
  unfold Resident.load at h
  dsimp only at h
  split at h
  all_goals
    obtain ⟨store, -, h⟩ := Except.bind_eq_ok.mp h
    obtain ⟨_, -, h⟩ := Except.bind_eq_ok.mp h
    obtain ⟨_, -, h⟩ := Except.bind_eq_ok.mp h
    obtain ⟨dense, hdense, h⟩ := Except.mapError_bind_eq_ok.mp h
    obtain ⟨identity, -, h⟩ := Except.bind_eq_ok.mp h
    obtain rfl := Except.ok.inj h
    exact ⟨_, hdense⟩

/-- A resident searches an index of its store. -/
theorem Served.dense_eq (h : Served cfg allowed qs r) : r.dense = r.store.denseIndex := by
  obtain ⟨-, a, docs, S⟩ := h.backed
  cases h with
  | loaded hdb hmatrix hmanifest hdocs hload =>
    obtain ⟨error, hdense⟩ := Resident.load_dense hload
    exact fromStore_ok S.repr.matrix hdense
  | indexed _ _ _ hrun =>
    obtain ⟨-, -, hdense, -⟩ := runEnd_built hrun
    exact fromStore_ok S.repr.matrix hdense

/-- The mask has the live rows of the store alone. -/
theorem mem_liveRows_of_isLive {row : RowId} (h : s.denseIndex.live.isLive row = true) :
    row ∈ s.liveRows := by
  refine (isLive_denseIndex ?_).mp h
  by_contra hge
  have hnone : s.denseIndex.live[row]? = none := by
    have hnone : (List.range s.matrix.rows)[row]? = none := by
      apply List.getElem?_eq_none
      rw [List.length_range]
      exact Nat.le_of_not_lt hge
    rw [ChunkStore.denseIndex, List.getElem?_map, hnone]
    rfl
  rw [LiveMask.isLive, hnone] at h
  cases h

end

/-! ## Results -/

/-- What the dense retriever returns is live. -/
def Backends.Live (B : Backends) : Prop :=
  ∀ (d : DenseIndex) (query : List F16) (limit : Nat) (rows : Scored),
    B.scores d query limit = .ok rows →
    ∀ x ∈ rows, d.live.isLive x.row = true

/-- A result shows the record that is live under the row, the beginning of the body that is stored
behind the hash of the record, and the scores of the row. -/
inductive Resident.Shows (r : Resident) (x : FusedRow F32) : SearchResult → Prop
  | mk (record : ChunkRecord) (body : String) : r.store.get x.row = some record →
    r.backends.Stores record.contentHash body →
    Excerpt previewMaxBytes body (previewFromBody body) →
    Shows r x (searchResult record (some body) x)

section

variable {B : Backends} {cfg : DaemonConfig}
  {allowed : List IndexRequest → Resident → IndexRequest → Prop}
  {qs : List IndexRequest} {r : Resident} {E : Embedder} {host : Host} {role : Role} {text : String}
  {topK : Nat} {x : FusedRow F32} {lexical dense : Scored} {vector : List F16} {resp : Response}

theorem forall₂_filterMap {α β : Type} {R : α → β → Prop} {f : α → Option β} {l : List α}
    (h : ∀ a ∈ l, ∃ b, f a = some b ∧ R a b) : List.Forall₂ R l (l.filterMap f) := by
  induction l with
  | nil => exact .nil
  | cons a l ih =>
    obtain ⟨⟨b, hb, hab⟩, hrest⟩ := List.forall_mem_cons.mp h
    rw [List.filterMap_cons_some hb]
    exact .cons hab (ih hrest)

/-- A live row has a record, and a body behind the hash of that. -/
theorem Resident.Backed.shows (hr : r.Backed E) (hrow : x.row ∈ r.store.liveRows) :
    ∃ result, ((r.store.get x.row).map fun record =>
      searchResult record (bodyOf r.lexical.reader x.row) x) = some result ∧ r.Shows x result := by
  obtain ⟨-, a, docs, S⟩ := hr
  have hlive : r.store.liveRows = a.table.rows := S.repr.pair.db.liveRows
  obtain ⟨⟨row, e⟩, he, hx⟩ := List.mem_map.mp (hlive ▸ hrow)
  obtain rfl : row = x.row := hx
  have hget : r.store.get x.row = some e.1 := S.repr.pair.db.get_of_mem he
  obtain ⟨d, hd, -⟩ := (S.agree trivial).complete x.row e he
  have hreader : r.lexical.reader = docs := congrArg DocIndex.reader S.lexical
  have hbody : bodyOf r.lexical.reader x.row = some d.body := by
    rw [hreader, bodyOf, (S.agree trivial).unique.load hd]
    rfl
  rw [hget, hbody]
  refine ⟨_, rfl, .mk e.1 d.body hget ?_ (excerpt_previewFromBody _)⟩
  exact S.stores_iff.mpr ⟨x.row, e, d, he, rfl, hd, rfl⟩

/-- What is ranked is live. -/
theorem Resident.Backed.live_of_mem_fuse (hr : r.Backed E)
    (hl : ∀ y ∈ lexical, y.row ∈ DocIndex.keys r.lexical.reader)
    (hd : ∀ y ∈ dense, y.row ∈ r.store.liveRows) (hx : x ∈ fuse B.scoring B.fusion lexical dense) :
    x.row ∈ r.store.liveRows := by
  obtain ⟨-, a, docs, S⟩ := hr
  have hlive : r.store.liveRows = a.table.rows := S.repr.pair.db.liveRows
  have hreader : r.lexical.reader = docs := congrArg DocIndex.reader S.lexical
  have hrow := (mem_fuse.mp hx).1
  rw [List.map_append, List.mem_append, FusionConfig.lexicalPlaces, FusionConfig.densePlaces,
    places_rows, places_rows] at hrow
  rcases hrow with h | h
  · obtain ⟨y, hy, hyx⟩ := List.mem_map.mp h
    obtain ⟨d, hd⟩ := DocIndex.mem_keys.mp (hreader ▸ hl y (List.mem_of_mem_take hy))
    obtain ⟨e, he, -⟩ := (S.agree trivial).sound y.row d hd
    rw [hlive, ← hyx]
    exact List.mem_map_of_mem he
  · obtain ⟨y, hy, hyx⟩ := List.mem_map.mp h
    rw [← hyx]
    exact hd y (List.mem_of_mem_take hy)

/-- No row that is ranked is lost on the way to the results. -/
theorem Resident.Backed.forall₂_hits (hr : r.Backed E)
    (hl : ∀ y ∈ lexical, y.row ∈ DocIndex.keys r.lexical.reader)
    (hd : ∀ y ∈ dense, y.row ∈ r.store.liveRows) :
    List.Forall₂ r.Shows ((fuse B.scoring B.fusion lexical dense).take topK)
      (B.hits r topK lexical dense) :=
  forall₂_filterMap fun _ hx => hr.shows (hr.live_of_mem_fuse hl hd (List.mem_of_mem_take hx))

theorem search_eq_ok (h : r.search B.retrieval host role text topK = .ok resp) :
    ∃ vector, B.embed r.embedder role text = .ok vector ∧
      ∃ found, B.found r role text topK vector = .ok found ∧ resp = .search found := by
  cases hcheck : r.identity.checkStillValid host with
  | error e =>
    rw [Resident.search, hcheck] at h
    cases h
  | ok _ =>
    rw [resident_search hcheck] at h
    cases hembed : B.embed r.embedder role text with
    | error e =>
      rw [hembed] at h
      cases h
    | ok vector =>
      rw [hembed] at h
      change ((B.found r role text topK vector).mapError mapRetrievalErr).map Response.search =
        .ok resp at h
      cases hfound : B.found r role text topK vector with
      | error e =>
        rw [hfound] at h
        cases h
      | ok found =>
        rw [hfound] at h
        exact ⟨vector, rfl, found, hfound, (Except.ok.inj h).symm⟩

theorem Backends.mem_lexicalOutcome (hB : B.Lawful) {y : ScoredRow F32}
    (hy : y ∈ rowsOf (B.lexicalOutcome r text role)) : y.row ∈ DocIndex.keys r.lexical.reader := by
  cases role with
  | document => cases hy
  | query =>
    cases h : B.lexicalSearch r.lexical.reader text B.fusion.lexicalDepth with
    | error e =>
      rw [lexicalOutcome, h] at hy
      cases hy
    | ok rows =>
      rw [lexicalOutcome, h] at hy
      exact (lexicalSearch_ok hB h).2 y hy

theorem Backends.mem_denseOutcome (hB : B.Live) (hdense : r.dense = r.store.denseIndex)
    {y : ScoredRow F32} (hy : y ∈ rowsOf (B.denseOutcome r vector)) : y.row ∈ r.store.liveRows := by
  cases h : B.denseOutcome r vector with
  | error e =>
    rw [h] at hy
    cases hy
  | ok rows =>
    rw [h] at hy
    unfold denseOutcome denseSearch at h
    split at h
    · cases h
    · split at h
      · cases h
      · split at h
        · obtain rfl := Except.ok.inj h
          cases hy
        · exact mem_liveRows_of_isLive (hdense ▸ hB _ _ _ _ h y hy)

/-- Whatever has been indexed, a search that is answered shows the best of what its retrievers have
ranked, each row of it with what the store holds, and says of both retrievers whether they have
failed. -/
theorem Served.search_shows (hserved : Served cfg allowed qs r) (hB : B.Lawful) (hlive : B.Live)
    (h : r.search B.retrieval host role text topK = .ok resp) :
    ∃ vector results, B.embed cfg.embedder role text = .ok vector ∧
      let lexical := B.lexicalOutcome r text role
      let dense := B.denseOutcome r vector
      resp = .search ⟨results, diagnosticsOf lexical dense⟩ ∧
      (errorOf lexical = none ∨ errorOf dense = none) ∧
      List.Forall₂ r.Shows ((fuse B.scoring B.fusion (rowsOf lexical) (rowsOf dense)).take topK)
        results := by
  have hr := hserved.backed
  obtain ⟨vector, hembed, found, hfound, rfl⟩ := search_eq_ok h
  obtain ⟨hok, -, -, rfl⟩ := found_ok.mp hfound
  rw [hr.1] at hembed
  exact ⟨vector, _, hembed, rfl, hok, hr.forall₂_hits (fun _ => B.mem_lexicalOutcome hB)
    fun _ => B.mem_denseOutcome hlive hserved.dense_eq⟩

/-! ## Similar code -/

/-- A result shows a chunk of the store, under the score that its vector has. -/
def Resident.ShowsScored (r : Resident) (x : ScoredRow F32) (result : SearchResult) : Prop :=
  ∃ y : FusedRow F32, y.row = x.row ∧ y.lexical = ⟨none, none⟩ ∧ y.dense.score = some x.score ∧
  r.Shows y result

/-- Of a dense ranking alone, the rows come back in its order, with their scores. -/
theorem Resident.Backed.forall₂_dense (hr : r.Backed E) (hS : B.scoring.Lawful)
    (hdesc : B.scoring.Descends B.fusion.denseDepth) (hrows : (dense.map (·.row)).Nodup)
    (hl : ∀ y ∈ lexical, y.row ∈ DocIndex.keys r.lexical.reader)
    (hd : ∀ y ∈ dense, y.row ∈ r.store.liveRows)
    (hlexical : lexical.take B.fusion.lexicalDepth = []) :
    List.Forall₂ r.ShowsScored (dense.take (min topK B.fusion.denseDepth))
      (B.hits r topK lexical dense) := by
  have hshown := @forall₂_hits B r E topK lexical dense hr hl hd
  rw [fuse_of_dense hS hdesc hrows hlexical, ← List.map_take, List.take_take,
    List.forall₂_map_left_iff] at hshown
  have hmem : ∀ x ∈ dense.take (min topK B.fusion.denseDepth), x ∈ dense.take B.fusion.denseDepth :=
    fun x hx => List.take_subset_take_left _ (Nat.min_le_right _ _) hx
  have hboth := (List.forall₂_and_left _ _).mpr ⟨hmem, hshown⟩
  refine hboth.imp fun x result hx => ⟨_, rfl, rfl, ?_, hx.2⟩
  exact contribution_of_mem (hrows.sublist ((List.take_sublist _ _).map _)) hx.1

variable [LinearOrder F32] {F : DenseMachine F32}

/-- The dense retriever is that of the CPU. -/
def Backends.OnCpu (B : Backends) (F : DenseMachine F32) : Prop :=
  ∀ (d : DenseIndex) (query : List F16) (limit : Nat) (rows : Scored),
    B.scores d query limit = .ok rows →
    d.searchCpu F query limit = .ok rows

theorem Backends.OnCpu.live (h : B.OnCpu F) : B.Live := by
  intro d query limit rows hrows x hx
  have hcpu := h d query limit rows hrows
  rw [DenseIndex.searchCpu] at hcpu
  split at hcpu
  · cases hcpu
  · obtain ⟨-, -, rfl⟩ := selectScores_eq_iff.mp hcpu
    exact (mem_referenceRows.mp (List.mem_mergeSort.mp (List.mem_of_mem_take hx))).1

theorem Backends.OnCpu.nodup (h : B.OnCpu F) {d : DenseIndex} {limit : Nat}
    (hrows : B.scores d vector limit = .ok dense) : (dense.map (·.row)).Nodup := by
  have hcpu := h d vector limit dense hrows
  rw [DenseIndex.searchCpu] at hcpu
  split at hcpu
  · cases hcpu
  · obtain ⟨-, -, rfl⟩ := selectScores_eq_iff.mp hcpu
    have hperm := (@ranks_sortRows _ _ (referenceRows d.live (d.scores F vector))).perm
    exact ((hperm.map _).nodup_iff.mpr nodup_rows_referenceRows).sublist
      ((List.take_sublist _ _).map _)

theorem Backends.OnCpu.search (h : B.OnCpu F) {d : DenseIndex} {modelId : String} {limit : Nat}
    (hrows : B.denseSearch d vector modelId limit = .ok dense) :
    d.search F vector modelId limit = .ok dense := by
  unfold Backends.denseSearch at hrows
  unfold DenseIndex.search
  split at hrows
  · cases hrows
  · next hdims =>
    split at hrows
    · cases hrows
    · next hmodel =>
      rw [if_neg hdims, if_neg hmodel]
      split at hrows
      · next hlimit =>
        rw [if_pos hlimit, Except.ok.inj hrows]
      · next hlimit =>
        rw [if_neg hlimit]
        exact h _ _ _ _ hrows

/-- What the dense retriever ranks is the nearest of what is live, as far as it is looked at. -/
theorem Backends.OnCpu.nearest (hcpu : B.OnCpu F) (hr : r.Backed E)
    (hdense_eq : r.dense = r.store.denseIndex) (h : B.denseOutcome r vector = .ok dense) :
    ∃ a, Repr r.store a ∧ dense = (a.nearest F vector).take B.fusion.denseDepth := by
  obtain ⟨-, a, docs, S⟩ := hr
  have hsearch := hcpu.search h
  rw [hdense_eq] at hsearch
  exact ⟨a, S.repr, denseIndex_search S.repr hsearch⟩

/-- Similar code is the nearest of what is live, as far as the dense ranking is looked at. -/
theorem Served.similar_nearest (hserved : Served cfg allowed qs r) (hB : B.Lawful)
    (hcpu : B.OnCpu F) (hdesc : B.scoring.Descends B.fusion.denseDepth)
    (h : r.search B.retrieval host .document text topK = .ok resp) :
    ∃ a vector results error, Repr r.store a ∧ B.embed cfg.embedder .document text = .ok vector ∧
      resp = .search ⟨results, ⟨true, error.isNone, none, error⟩⟩ ∧
      (error = none → List.Forall₂ r.ShowsScored
        ((a.nearest F vector).take (min topK B.fusion.denseDepth)) results) ∧
      (error ≠ none → results = []) := by
  have hr := hserved.backed
  obtain ⟨vector, hembed, found, hfound, rfl⟩ := search_eq_ok h
  obtain ⟨-, -, -, rfl⟩ := found_ok.mp hfound
  rw [hr.1] at hembed
  have hresults : List.Forall₂ r.ShowsScored
      ((rowsOf (B.denseOutcome r vector)).take (min topK B.fusion.denseDepth))
      (B.hits r topK [] (rowsOf (B.denseOutcome r vector))) :=
    hr.forall₂_dense hB.scoring hdesc (B.denseSearch_nodup hB) nofun
      (fun _ => @B.mem_denseOutcome _ vector hcpu.live hserved.dense_eq _) List.take_nil
  cases hdense : B.denseOutcome r vector with
  | error e =>
    rw [hdense] at hresults
    change List.Forall₂ _ (List.take _ []) _ at hresults
    rw [List.take_nil] at hresults
    obtain ⟨-, a, docs, S⟩ := hr
    exact ⟨a, vector, _, some e, S.repr, hembed, rfl, nofun, fun _ =>
      List.forall₂_nil_left_iff.mp hresults⟩
  | ok dense =>
    obtain ⟨a, hrepr, rfl⟩ := hcpu.nearest hr hserved.dense_eq hdense
    rw [hdense] at hresults
    change List.Forall₂ _ (List.take _ (List.take _ _)) _ at hresults
    rw [List.take_take, Nat.min_eq_left (Nat.min_le_right _ _)] at hresults
    exact ⟨a, vector, _, none, hrepr, hembed, rfl, fun _ => hresults, fun hne => absurd rfl hne⟩

end

/-! ## Sample searches -/

theorem sampleBackends_live : sampleBackends.Live := by
  intro d query limit rows h x hx
  obtain rfl := Except.ok.inj h
  obtain ⟨row, hrow, rfl⟩ := List.mem_map.mp hx
  have hlive := (List.mem_filter.mp (List.mem_of_mem_take hrow)).2
  rwa [List.getD_eq_getElem?_getD] at hlive

/-- Two files have been indexed, and a name of the first is looked for. -/
theorem Served.search_shows_first : ∃ results lexical dense,
    firstResident.search sampleBackends.retrieval sampleHost .query "f" 5 =
      .ok (.search ⟨results, diagnosticsOf lexical dense⟩) ∧
    List.Forall₂ firstResident.Shows
      ((fuse sampleScoring ⟨50, 50⟩ (rowsOf lexical) (rowsOf dense)).take 5) results := by
  have hok : (firstResident.search sampleBackends.retrieval sampleHost .query "f" 5).isOk =
      true := by
    decide +kernel
  cases h : firstResident.search sampleBackends.retrieval sampleHost .query "f" 5 with
  | error e =>
    rw [h] at hok
    cases hok
  | ok resp =>
    have hserved : Served sampleConfig (fun _ _ _ => True) [firstRequest] firstResident :=
      firstResident_served trivial
    obtain ⟨vector, results, -, rfl, -, hshown⟩ :=
      Served.search_shows hserved sampleBackends_lawful sampleBackends_live h
    exact ⟨results, _, _, rfl, hshown⟩

/-- The place of a number in the order of `f32::total_cmp`. -/
def totalKey (x : F32) : Int := if x < 0x80000000 then x.toNat else 0x7fffffff - x.toNat

theorem totalKey_injective : Function.Injective totalKey := by
  intro x y h
  unfold totalKey at h
  apply UInt32.toNat_inj.mp
  split at h <;> split at h <;>
    simp only [UInt32.lt_iff_toNat_lt, UInt32.toNat_ofNat] at * <;> omega

abbrev totalOrder : LinearOrder F32 := LinearOrder.lift' totalKey totalKey_injective

/-- Sums of bits. -/
def bitMachine : DenseMachine F32 :=
  ⟨fun x => x.toUInt32, 0, (· + ·), (· * ·), fun x => x < 0x7f800000, fun _ => true⟩

/-- The dense retriever is that of the CPU, and two places of it are looked at. -/
def cpuBackends : Backends :=
  { sampleBackends with
    scores := fun d query limit =>
      match @DenseIndex.searchCpu F32 totalOrder bitMachine d query limit with
      | .ok rows => .ok rows
      | .error (.error text) => .error text
      | .error (.panic detail) => .error detail
      | .error (.abort _) => .error "memory allocation failed"
    fusion := ⟨2, 2⟩ }

theorem cpuBackends_onCpu : @Backends.OnCpu totalOrder cpuBackends bitMachine := by
  intro d query limit rows h
  change (match @DenseIndex.searchCpu F32 totalOrder bitMachine d query limit with
    | .ok rows => .ok rows
    | .error (.error text) => .error text
    | .error (.panic detail) => .error detail
    | .error (.abort _) => .error "memory allocation failed") = Except.ok rows at h
  split at h
  · next hrows => rw [hrows, Except.ok.inj h]
  · cases h
  · cases h
  · cases h

theorem cpuBackends_lawful : cpuBackends.Lawful where
  scoring := sampleScoring_lawful
  tantivy := sampleBackends_lawful.tantivy
  scores _ _ _ _ h := @Backends.OnCpu.nodup _ _ _ totalOrder _ cpuBackends_onCpu _ _ h

def Response.diagnostics : Response → Option SearchDiagnostics
  | hello .. | symbol .. | indexProgress .. | indexDone _ | status _ | error _ => none
  | search r => some r.diagnostics

/-- What is looked for is the text of the second file. -/
theorem Served.similar_nearest_first :
    ∃ (a : Contents) (vector : List F16) (results : List SearchResult), Repr firstResident.store a ∧
    firstResident.search cpuBackends.retrieval sampleHost .document "fn h() {}" 1 =
      .ok (.search ⟨results, true, true, none, none⟩) ∧
    List.Forall₂ firstResident.ShowsScored
      ((@Contents.nearest F32 totalOrder bitMachine a vector).take 1) results := by
  have hok :
      (firstResident.search cpuBackends.retrieval sampleHost .document "fn h() {}" 1).toOption.bind
      Response.diagnostics = some ⟨true, true, none, none⟩ := by
    decide +kernel
  cases h : firstResident.search cpuBackends.retrieval sampleHost .document "fn h() {}" 1 with
  | error e =>
    rw [h] at hok
    cases hok
  | ok resp =>
    have hserved : Served sampleConfig (fun _ _ _ => True) [firstRequest] firstResident :=
      firstResident_served trivial
    have hdesc : cpuBackends.scoring.Descends cpuBackends.fusion.denseDepth := by
      intro m n hmn hn
      obtain rfl : m = 0 := Nat.lt_one_iff.mp (hmn.trans_le (Nat.le_of_lt_succ hn))
      obtain rfl : n = 1 := Nat.le_antisymm (Nat.le_of_lt_succ hn) hmn
      decide
    obtain ⟨a, vector, results, error, hrepr, -, rfl, hshown, -⟩ :=
      @Served.similar_nearest cpuBackends _ _ _ _ _ _ _ _ totalOrder bitMachine hserved
        cpuBackends_lawful cpuBackends_onCpu hdesc h
    rw [h] at hok
    obtain rfl : error = none := congrArg SearchDiagnostics.denseError (Option.some.inj hok)
    exact ⟨a, vector, results, hrepr, rfl, hshown rfl⟩

end SiftMcp
