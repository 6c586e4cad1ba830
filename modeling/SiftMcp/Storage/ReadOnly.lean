import SiftMcp.Storage.MatrixAccess

/-!
# Files opened for reading

The map of a matrix opened for reading refuses writes. An append that finds the matrix full replaces
the map before it writes, by one that is writable: such a file is extended and written like any
other.

`ByteMatrix.staysReadOnly_iff` says when a file stays as it is, whatever is appended.
-/

namespace SiftMcp
open Durable

namespace ByteMatrix

variable {utf8Error : List UInt8 → String} {checks : Bool} {f : FileContent} {m : ByteMatrix}

/-- Nothing that can be seen of the matrix differs. -/
structure Same (checks : Bool) (m t : ByteMatrix) : Prop where
  file : t.file = m.file
  rows : t.rows = m.rows
  row : ∀ r, t.row checks r = m.row checks r

/-- Each attempt to append returns an error and leaves what was there, whatever calls into the
operating system fail. -/
def Refuses (checks : Bool) : List ((AppendStep → Bool) × List F16) → ByteMatrix → Prop
  | [], _ => True
  | (fails, v) :: rest, m => Prog.wp (append checks fails v) (fun _ _ => False)
      (fun e t => Returned e ∧ Same checks m t ∧ Refuses checks rest t)
      (fun _ t => t.file = m.file) m

def StaysReadOnly (checks : Bool) (m : ByteMatrix) (vs : List (List F16)) : Prop :=
  ∀ attempts, attempts.map (·.2) = vs → Refuses checks attempts m

theorem append_wrongLength {v : List F16} (hv : v.length ≠ m.dims) (fails : AppendStep → Bool) :
    Prog.wp (append checks fails v) (fun _ _ => False) (fun e t => Returned e ∧ t = m)
      (fun _ _ => False) m := by
  simp only [append, Prog.wp_bind, Prog.wp_get, Prog.wp_ite, Prog.wp_fail]
  exact ⟨fun _ => ⟨⟨_, rfl⟩, trivial⟩, fun h => absurd hv h⟩

/-- A map for reading refuses the row. -/
theorem append_readOnly (H : m.Fresh f) (hmap : ∃ n, m.map = .read n)
    (hroom : m.rows < m.capacityRows) (fails : AppendStep → Bool) (v : List F16) :
    Prog.wp (append checks fails v) (fun _ _ => False) (fun e t => Returned e ∧ t = m)
      (fun _ _ => False) m := by
  have hlen := f.length_lt
  have hmul : headerSize + m.capacityRows * m.dims * 2 ≤ f.bytes.length :=
    H.capacity ▸ roomFor_mul_le H.length
  have hle : m.rows * m.dims * 2 ≤ m.capacityRows * m.dims * 2 :=
    Nat.mul_le_mul_right 2 (Nat.mul_le_mul_right _ hroom.le)
  have hoff : headerSize + m.rows * m.dims * 2 < 2 ^ 64 := by omega
  simp only [append, Prog.wp_bind, Prog.wp_get, Prog.wp_ite, Prog.wp_fail]
  refine ⟨fun _ => ⟨⟨_, rfl⟩, trivial⟩, fun _ =>
    ⟨fun h => absurd h (Nat.not_le.mpr hroom), fun _ => ?_⟩⟩
  simp only [writeRow, Prog.wp_bind, Prog.wp_get, rowOffset_ok hoff, Prog.wp_ofExcept]
  exact (wp_asBytesMut_read hmap).mpr ⟨⟨_, rfl⟩, rfl⟩

theorem refuses_of_unchanged
    (h : ∀ fails, ∀ v ∈ vs, Prog.wp (append checks fails v) (fun _ _ => False)
    (fun e t => Returned e ∧ t = m) (fun _ _ => False) m) : StaysReadOnly checks m vs := by
  intro attempts hvs
  subst hvs
  induction attempts with
  | nil => trivial
  | cons p rest ih =>
    obtain ⟨fails, v⟩ := p
    refine (h fails v List.mem_cons_self).mono (fun _ _ h => h) ?_ fun _ _ h => h.elim
    rintro e t ⟨he, rfl⟩
    exact ⟨he, ⟨rfl, rfl, fun _ => rfl⟩, ih fun fails v hv => h fails v (List.mem_cons_of_mem _ hv)⟩

/-- The first vector of the right length breaks through. -/
theorem not_refuses_full (H : m.Fresh f) (hfull : m.capacityRows ≤ m.rows) {vs : List (List F16)}
    (hvs : ∃ v ∈ vs, v.length = m.dims) :
    ¬Refuses checks (vs.map fun v => (fun _ => false, v)) m := by
  induction vs with
  | nil =>
    obtain ⟨v, hv, -⟩ := hvs
    cases hv
  | cons w vs ih =>
    intro hrefuses
    have hwp : Prog.wp (append checks (fun _ => false) w) _ _ _ m := hrefuses
    cases hr : (append checks (fun _ => false) w m).result with
    | ok row => exact hwp.ok hr
    | error e =>
      obtain ⟨he, hsame, hrest⟩ := hwp.error hr
      by_cases hw : w.length = m.dims
      · obtain ⟨-, r, hne⟩ := (append_full H hfull hw).error hr he
        exact hne (hsame.row r)
      · rw [((append_wrongLength hw _).error hr).2] at hrest
        obtain ⟨v, hv, hlen⟩ := hvs
        rcases List.mem_cons.mp hv with rfl | hv
        · exact hw hlen
        · exact ih ⟨v, hv, hlen⟩ hrest

theorem staysReadOnly_iff (h : ByteMatrix.open utf8Error f = .ok m) (vs : List (List F16)) :
    StaysReadOnly checks m vs ↔ statedRows f.bytes < roomFor (statedDims f.bytes) f.bytes.length ∨
      ∀ v ∈ vs, v.length ≠ statedDims f.bytes := by
  obtain ⟨H, hmap⟩ := fresh_open h
  rw [← H.rows, ← H.dims, ← H.capacity]
  constructor
  · intro hstays
    by_contra hnot
    rw [not_or] at hnot
    obtain ⟨hfull, hvs⟩ := hnot
    refine not_refuses_full H (Nat.le_of_not_lt hfull) ?_
      (hstays (vs.map fun v => (fun _ => false, v)) ?_)
    · simpa using hvs
    · simp [Function.comp_def]
  · rintro (hroom | hvs)
    · exact refuses_of_unchanged fun fails v _ => append_readOnly H ⟨_, hmap⟩ hroom fails v
    · exact refuses_of_unchanged fun fails v hv => append_wrongLength (hvs v hv) fails

/-- A file with room for a second row. -/
def roomyFile : FileContent :=
  ⟨oneRow.layout (List.replicate 260 0 ++ [7, 0, 0, 0]), by decide +kernel⟩

theorem staysReadOnly_iff_roomy : ∃ m, ByteMatrix.open (fun _ => "") roomyFile = .ok m ∧
    StaysReadOnly true m [[9], [9]] := by
  have h : ByteMatrix.open (fun _ => "") roomyFile = .ok
      ⟨oneRow, 2, .read 292, roomyFile.bytes⟩ := by decide +kernel
  exact ⟨_, h, (staysReadOnly_iff h _).mpr (.inl (by decide +kernel))⟩

/-- A full file opened for reading is extended and written. -/
theorem not_staysReadOnly_fullFile : ∃ m, ByteMatrix.open (fun _ => "") fullFile = .ok m ∧
    ∀ checks, (append checks (fun _ => false) [9] m).result = .ok 1 ∧
      (append checks (fun _ => false) [9] m).state.file ≠ m.file ∧
        ¬StaysReadOnly checks m [[9]] := by
  have h : ByteMatrix.open (fun _ => "") fullFile = .ok
      ⟨oneRow, 1, .read 290, fullFile.bytes⟩ := by decide +kernel
  refine ⟨_, h, fun checks => ?_⟩
  have hok : (append checks (fun _ => false) [9] ⟨oneRow, 1, .read 290,
      fullFile.bytes⟩).result = .ok 1 := by cases checks <;> decide +kernel
  have hfile : (append checks (fun _ => false) [9] ⟨oneRow, 1, .read 290,
      fullFile.bytes⟩).state.file ≠ fullFile.bytes := by cases checks <;> decide +kernel
  refine ⟨hok, hfile, fun hstays => ?_⟩
  have hwp : Prog.wp (append checks (fun _ => false) [9]) _ _ _ _ :=
    hstays [(fun _ => false, [9])] rfl
  exact hwp.ok hok

end ByteMatrix

end SiftMcp
