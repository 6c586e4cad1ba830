import Mathlib.Logic.Function.Iterate

/-!
# Search with a stack

A loop takes the top from a stack, notes what it finds there and pushes its successors. A loop that
has come to an empty stack has taken each element that can be reached from those it started with,
and no other, and has noted what there is at these.

* `mem_found_iff`: what is noted is what there is at the elements that can be reached.
* `exists_turns_end`: the loop comes to an empty stack where no chain of successors goes on forever.
-/

universe u v

namespace StackSearch

variable {α : Type u} {β : Type v} (next : α → List α) (out : α → List β)

/-- One turn of the loop, on the stack and on what has been found. The last successor comes to the
top. -/
def turn : List α × List β → List α × List β
  | ([], found) => ([], found)
  | (a :: stack, found) => ((next a).reverse ++ stack, found ++ out a)

/-- The stack and what has been found after some turns. -/
def turns (start : List α) (n : Nat) : List α × List β := (turn next out)^[n] (start, [])

inductive Reached (start : List α) : α → Prop
  | start {a} : a ∈ start → Reached start a
  | next {a b} : Reached start a → b ∈ next a → Reached start b

/-- The element that the turn takes. -/
def top (start : List α) (n : Nat) : Option α := (turns next out start n).1.head?

variable {next out} {start : List α} {a : α} {n m : Nat}

theorem turns_succ : turns next out start (n + 1) = turn next out (turns next out start n) :=
  Function.iterate_succ_apply' _ _ _

theorem turns_of_top (h : top next out start n = some a) : ∃ stack,
    (turns next out start n).1 = a :: stack ∧
      turns next out start (n + 1) =
        ((next a).reverse ++ stack, (turns next out start n).2 ++ out a) := by
  rw [turns_succ]
  unfold top at h
  generalize turns next out start n = p at h ⊢
  rcases p with ⟨_ | ⟨b, stack⟩, found⟩
  · cases h
  · obtain rfl := Option.some.inj h
    exact ⟨stack, rfl, rfl⟩

theorem turns_of_no_top (h : top next out start n = none) :
    turns next out start (n + 1) = turns next out start n := by
  rw [turns_succ]
  unfold top at h
  generalize turns next out start n = p at h ⊢
  rcases p with ⟨_ | ⟨b, stack⟩, found⟩
  · rfl
  · cases h

/-- Only what can be reached comes onto the stack. -/
theorem reached_of_mem (h : a ∈ (turns next out start n).1) : Reached next start a := by
  induction n generalizing a with
  | zero => exact .start h
  | succ n ih =>
    cases ht : top next out start n with
    | none =>
      rw [turns_of_no_top ht] at h
      exact ih h
    | some b =>
      obtain ⟨stack, hstack, hnext⟩ := turns_of_top ht
      rw [hnext] at h
      rcases List.mem_append.mp h with h | h
      · refine .next (ih ?_) (List.mem_reverse.mp h)
        rw [hstack]
        exact List.mem_cons_self
      · refine ih ?_
        rw [hstack]
        exact List.mem_cons_of_mem _ h

/-- What lies on the stack is taken before the stack is empty. -/
theorem exists_top_of_mem (hend : (turns next out start m).1 = []) (hn : n ≤ m)
    (h : a ∈ (turns next out start n).1) : ∃ i, n ≤ i ∧ i < m ∧ top next out start i = some a := by
  obtain ⟨d, rfl⟩ := Nat.exists_eq_add_of_le hn
  clear hn
  induction d generalizing n with
  | zero =>
    rw [Nat.add_zero] at hend
    rw [hend] at h
    cases h
  | succ d ih =>
    have hend' : (turns next out start (n + 1 + d)).1 = [] := by
      rw [Nat.add_right_comm]
      exact hend
    have hlater : a ∈ (turns next out start (n + 1)).1 →
        ∃ i, n ≤ i ∧ i < n + (d + 1) ∧ top next out start i = some a := fun h => by
      obtain ⟨i, hi, hlt, ht⟩ := ih h hend'
      exact ⟨i, Nat.le_of_succ_le hi, by rwa [← Nat.add_assoc, Nat.add_right_comm], ht⟩
    cases ht : top next out start n with
    | none => exact hlater (by rwa [turns_of_no_top ht])
    | some b =>
      obtain ⟨stack, hstack, hnext⟩ := turns_of_top ht
      rw [hstack] at h
      rcases List.mem_cons.mp h with rfl | h
      · exact ⟨n, Nat.le_refl n, Nat.lt_add_of_pos_right (Nat.succ_pos d), ht⟩
      · exact hlater (by rw [hnext]; exact List.mem_append_right _ h)

/-- A loop that has come to its end has taken what can be reached. -/
theorem exists_top_iff (hend : (turns next out start m).1 = []) :
    (∃ i < m, top next out start i = some a) ↔ Reached next start a := by
  constructor
  · intro ⟨i, _, ht⟩
    obtain ⟨stack, hstack, -⟩ := turns_of_top ht
    have hmem : a ∈ (turns next out start i).1 := by
      rw [hstack]
      exact List.mem_cons_self
    exact reached_of_mem hmem
  · intro h
    induction h with
    | start h =>
      obtain ⟨i, -, hi, ht⟩ := exists_top_of_mem hend (Nat.zero_le m) h
      exact ⟨i, hi, ht⟩
    | next _ hb ih =>
      obtain ⟨i, hi, ht⟩ := ih
      obtain ⟨stack, -, hnext⟩ := turns_of_top ht
      obtain ⟨j, -, hj, ht'⟩ := exists_top_of_mem hend (Nat.succ_le_of_lt hi)
        (by rw [hnext]; exact List.mem_append_left _ (List.mem_reverse.mpr hb))
      exact ⟨j, hj, ht'⟩

theorem mem_found {x : β} : x ∈ (turns next out start n).2 ↔
    ∃ i < n, ∃ a, top next out start i = some a ∧ x ∈ out a := by
  induction n with
  | zero =>
    constructor
    · intro h
      cases h
    · intro ⟨i, hi, _⟩
      exact absurd hi (Nat.not_lt_zero i)
  | succ n ih =>
    have hsplit : (∃ i < n + 1, ∃ a, top next out start i = some a ∧ x ∈ out a) ↔
        (∃ i < n, ∃ a, top next out start i = some a ∧ x ∈ out a) ∨
          ∃ a, top next out start n = some a ∧ x ∈ out a := by
      simp only [Nat.lt_succ_iff_lt_or_eq, or_and_right, exists_or, exists_eq_left]
    rw [hsplit, ← ih]
    cases ht : top next out start n with
    | none => simp [turns_of_no_top ht]
    | some b =>
      obtain ⟨stack, -, hnext⟩ := turns_of_top ht
      simp [hnext]

/-- A loop that has come to its end has found what there is at the elements that can be reached. -/
theorem mem_found_iff (hend : (turns next out start m).1 = []) {x : β} :
    x ∈ (turns next out start m).2 ↔ ∃ a, Reached next start a ∧ x ∈ out a := by
  rw [mem_found]
  constructor
  · intro ⟨i, hi, a, ht, hx⟩
    exact ⟨a, (exists_top_iff hend).mp ⟨i, hi, ht⟩, hx⟩
  · intro ⟨a, ha, hx⟩
    obtain ⟨i, hi, ht⟩ := (exists_top_iff hend).mpr ha
    exact ⟨i, hi, a, ht, hx⟩

/-! ## Loops that come to an end -/

theorem clears_append {l : List α} (h : ∀ b ∈ l, ∀ stack found, ∃ n found',
      (turn next out)^[n] (b :: stack, found) = (stack, found')) (stack : List α) (found : List β) :
    ∃ n found', (turn next out)^[n] (l ++ stack, found) = (stack, found') := by
  induction l generalizing found with
  | nil => exact ⟨0, found, rfl⟩
  | cons b l ih =>
    obtain ⟨hb, hl⟩ := List.forall_mem_cons.mp h
    obtain ⟨n, found', hn⟩ := hb (l ++ stack) found
    obtain ⟨m, found'', hm⟩ := ih hl found'
    refine ⟨m + n, found'', ?_⟩
    rw [List.cons_append, Function.iterate_add_apply, hn, hm]

/-- What has been pushed for an element is gone after some turns. -/
theorem clears (h : Acc (fun b a => b ∈ next a) a) (stack : List α) (found : List β) :
    ∃ n found', (turn next out)^[n] (a :: stack, found) = (stack, found') := by
  induction h generalizing stack found with
  | intro a _ ih =>
    obtain ⟨n, found', hn⟩ := clears_append (l := (next a).reverse)
      (fun b hb => ih b (List.mem_reverse.mp hb)) stack (found ++ out a)
    refine ⟨n + 1, found', ?_⟩
    rw [Function.iterate_succ_apply]
    exact hn

/-- The loop comes to an end if no chain of successors goes on for ever. -/
theorem exists_turns_end (h : ∀ a ∈ start, Acc (fun b a => b ∈ next a) a) :
    ∃ n, (turns next out start n).1 = [] := by
  obtain ⟨n, found, hn⟩ := @clears_append _ _ next out _ (fun a ha => clears (h a ha)) [] []
  rw [List.append_nil] at hn
  exact ⟨n, congrArg Prod.fst hn⟩

/-! ## Loops that take nothing twice -/

/-- The elements that have been taken, in their order. -/
def taken (next : α → List α) (start : List α) (n : Nat) : List α :=
  (turns next (fun a => [a]) start n).2

theorem turns_eq_taken : turns next out start n =
    ((turns next (fun a => [a]) start n).1, (taken next start n).flatMap out) := by
  induction n with
  | zero => rfl
  | succ n ih =>
    unfold taken at ih ⊢
    rw [turns_succ, turns_succ, ih]
    generalize turns next (fun a => [a]) start n = p
    rcases p with ⟨_ | ⟨b, stack⟩, found⟩
    · rfl
    · simp [turn]

theorem mem_taken_iff (hend : (turns next out start m).1 = []) :
    a ∈ taken next start m ↔ Reached next start a := by
  rw [turns_eq_taken] at hend
  unfold taken
  rw [mem_found_iff hend]
  simp

/-- What has been taken and what is still on the stack were there at the start or come after an
element that has been taken, and nothing is there twice. -/
structure Fresh (next : α → List α) (start : List α) (p : List α × List α) : Prop where
  nodup : (p.2 ++ p.1).Nodup
  after : ∀ b ∈ p.2 ++ p.1, b ∈ start ∨ ∃ a ∈ p.2, b ∈ next a

/-- If an element comes after one other only, and only once, then the loop takes none twice. -/
theorem Fresh.turns (hstart : start.Nodup) (hnext : ∀ a, (next a).Nodup)
    (hpred : ∀ {a a' b}, b ∈ next a → b ∈ next a' → a = a')
    (hfresh : ∀ {a b}, b ∈ next a → b ∉ start) :
    Fresh next start (turns next (fun a => [a]) start n) := by
  induction n with
  | zero => exact ⟨hstart, fun b hb => .inl hb⟩
  | succ n ih =>
    rw [turns_succ]
    generalize StackSearch.turns next (fun a => [a]) start n = p at ih
    rcases p with ⟨_ | ⟨a, stack⟩, found⟩
    · exact ih
    · obtain ⟨hnodup, hafter⟩ := ih
      have hperm : (found ++ [a] ++ ((next a).reverse ++ stack)).Perm
          (next a ++ (found ++ a :: stack)) := by
        have hmove := (@List.perm_append_comm _ (found ++ [a]) (next a).reverse).append_right stack
        have htake : found ++ [a] ++ stack = found ++ a :: stack := List.append_cons .. |>.symm
        rw [List.append_assoc _ _ stack, List.append_assoc _ _ stack, htake] at hmove
        exact hmove.trans ((List.reverse_perm (next a)).append_right _)
      have ha : a ∉ found := by
        intro h
        exact (List.nodup_append.mp hnodup).2.2 a h a List.mem_cons_self rfl
      constructor
      · show (found ++ [a] ++ ((next a).reverse ++ stack)).Nodup
        rw [hperm.nodup_iff, List.nodup_append]
        refine ⟨hnext a, hnodup, fun b hb c hc hbc => ?_⟩
        subst hbc
        rcases hafter b hc with h | ⟨a', ha', h⟩
        · exact hfresh hb h
        · exact ha (hpred hb h ▸ ha')
      · intro b hb
        rcases List.mem_append.mp (hperm.mem_iff.mp hb) with hb | hb
        · exact .inr ⟨a, List.mem_append_right _ (List.mem_singleton_self a), hb⟩
        · rcases hafter b hb with h | ⟨a', ha', h⟩
          · exact .inl h
          · exact .inr ⟨a', List.mem_append_left _ ha', h⟩

end StackSearch
