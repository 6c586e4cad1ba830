import Mathlib.Data.List.Forall2
import Mathlib.Data.List.Nodup
import Mathlib.Data.List.Pairwise

/-!
# Steps that may have no result, along a list

`mapM` with a function that may have no result has one exactly if the function has one at every
element, and then the list of these.
-/

universe u v

namespace OptionList

variable {α : Type u} {β : Type v} {f : α → Option β} {l : List α} {ys : List β}

theorem mapM_eq_some_iff : l.mapM f = some ys ↔ List.Forall₂ (fun a b => f a = some b) l ys := by
  induction l generalizing ys with
  | nil =>
    rw [List.mapM_nil, List.forall₂_nil_left_iff]
    exact ⟨fun h => (Option.some.inj h).symm, fun h => congrArg some h.symm⟩
  | cons a l ih =>
    rw [List.mapM_cons, List.forall₂_cons_left_iff]
    constructor
    · intro h
      obtain ⟨b, hb, h⟩ := Option.bind_eq_some_iff.mp h
      obtain ⟨bs, hbs, h⟩ := Option.bind_eq_some_iff.mp h
      exact ⟨b, bs, hb, ih.mp hbs, (Option.some.inj h).symm⟩
    · rintro ⟨b, bs, hb, hbs, rfl⟩
      rw [hb, ih.mpr hbs]
      rfl

theorem mapM_range_eq_some_iff {n : Nat} {f : Nat → Option β} : (List.range n).mapM f = some ys ↔
    ys.length = n ∧ ∀ i y, ys[i]? = some y → f i = some y := by
  rw [mapM_eq_some_iff, List.forall₂_iff_get]
  refine (and_congr_left' (by rw [List.length_range, eq_comm])).trans
    (and_congr_right fun hlength => ⟨fun h i y hy => ?_, fun h i hi hi' => ?_⟩)
  · obtain ⟨hi, rfl⟩ := List.getElem?_eq_some_iff.mp hy
    have := h i (by rw [List.length_range, ← hlength]; exact hi) hi
    rwa [List.get_eq_getElem, List.getElem_range] at this
  · rw [List.get_eq_getElem, List.getElem_range]
    exact h i _ (List.getElem?_eq_some_iff.mpr ⟨hi', rfl⟩)

/-- The result at a place is that of the element at this place. -/
theorem exists_of_getElem?_mapM {i : Nat} {b : β} (h : l.mapM f = some ys) (hb : ys[i]? = some b) :
    ∃ a, l[i]? = some a ∧ f a = some b := by
  have hall := mapM_eq_some_iff.mp h
  obtain ⟨hi, rfl⟩ := List.getElem?_eq_some_iff.mp hb
  have hl : i < l.length := hall.length_eq ▸ hi
  exact ⟨l[i], List.getElem?_eq_getElem hl, hall.get hl hi⟩

theorem isSome_mapM_iff : (l.mapM f).isSome = true ↔ ∀ a ∈ l, (f a).isSome = true := by
  rw [Option.isSome_iff_exists]
  constructor
  · rintro ⟨ys, h⟩ a ha
    have hall := mapM_eq_some_iff.mp h
    clear h
    induction hall with
    | nil => cases ha
    | cons hb _ ih =>
      rcases List.mem_cons.mp ha with rfl | ha
      · exact Option.isSome_iff_exists.mpr ⟨_, hb⟩
      · exact ih ha
  · intro h
    induction l with
    | nil => exact ⟨[], rfl⟩
    | cons a l ih =>
      obtain ⟨ha, hl⟩ := List.forall_mem_cons.mp h
      obtain ⟨b, hb⟩ := Option.isSome_iff_exists.mp ha
      obtain ⟨bs, hbs⟩ := ih hl
      exact ⟨b :: bs, mapM_eq_some_iff.mpr (.cons hb (mapM_eq_some_iff.mp hbs))⟩

/-- Every result is one of some element. -/
theorem exists_of_mem_mapM {b : β} (h : l.mapM f = some ys) (hb : b ∈ ys) :
    ∃ a ∈ l, f a = some b := by
  have hall := mapM_eq_some_iff.mp h
  clear h
  induction hall with
  | nil => cases hb
  | cons ha _ ih =>
    rcases List.mem_cons.mp hb with rfl | hb
    · exact ⟨_, List.mem_cons_self, ha⟩
    · obtain ⟨a, hmem, ha⟩ := ih hb
      exact ⟨a, List.mem_cons_of_mem _ hmem, ha⟩

/-- The results are different exactly if no two elements have one in common. -/
theorem nodup_filterMap_iff (h : l.Nodup) :
    (l.filterMap f).Nodup ↔ ∀ a ∈ l, ∀ b ∈ l, ∀ c, f a = some c → f b = some c → a = b := by
  rw [List.Nodup, List.pairwise_filterMap]
  constructor
  · intro hp a ha b hb c hac hbc
    by_contra hne
    have : Std.Symm fun a b => ∀ c, f a = some c → ∀ d, f b = some d → c ≠ d :=
      ⟨fun a b hab c hc d hd heq => hab d hd c hc heq.symm⟩
    exact hp.forall ha hb hne c hac c hbc rfl
  · intro hinj
    refine h.pairwise_of_forall_ne fun a ha b hb hne c hac d hbd hcd => ?_
    exact hne (hinj a ha b hb c hac (hcd ▸ hbd))

end OptionList
