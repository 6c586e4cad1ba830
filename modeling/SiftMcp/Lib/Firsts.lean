import Mathlib.Data.List.Nodup

/-!
# First occurrences

`firsts key known l` keeps the first element of `l` for each key that is not among the known ones.
It is what a loop keeps that looks an element's key up in a set and adds it there.
-/

universe u v

variable {α : Type u} {κ : Type v} [DecidableEq κ] {key : α → κ}

def firsts (key : α → κ) : List κ → List α → List α
  | _, [] => []
  | known, a :: as =>
    if key a ∈ known then firsts key known as else a :: firsts key (key a :: known) as

namespace firsts

variable {known : List κ} {a : α} {as bs : List α}

theorem cons_of_mem (h : key a ∈ known) : firsts key known (a :: as) = firsts key known as := by
  rw [firsts, if_pos h]

theorem cons_of_not_mem (h : key a ∉ known) :
    firsts key known (a :: as) = a :: firsts key (key a :: known) as := by
  rw [firsts, if_neg h]

/-- Only the set of the known keys counts. -/
theorem congr {known' : List κ} (h : ∀ k, k ∈ known ↔ k ∈ known') :
    firsts key known as = firsts key known' as := by
  induction as generalizing known known' with
  | nil => rfl
  | cons a as ih =>
    have hcons : ∀ k, k ∈ key a :: known ↔ k ∈ key a :: known' := fun k => by
      rw [List.mem_cons, List.mem_cons, h]
    by_cases ha : key a ∈ known
    · rw [cons_of_mem ha, cons_of_mem ((h _).mp ha), ih h]
    · rw [cons_of_not_mem ha, cons_of_not_mem (mt (h _).mpr ha), ih hcons]

theorem append : firsts key known (as ++ bs) =
    firsts key known as ++ firsts key ((firsts key known as).map key ++ known) bs := by
  induction as generalizing known with
  | nil => rfl
  | cons a as ih =>
    by_cases ha : key a ∈ known
    · rw [List.cons_append, cons_of_mem ha, cons_of_mem ha, ih]
    · rw [List.cons_append, cons_of_not_mem ha, cons_of_not_mem ha, ih, List.cons_append]
      refine congrArg (fun l => _ :: (_ ++ l)) (congr fun k => ?_)
      simp only [List.map_cons, List.cons_append, List.mem_append, List.mem_cons]
      rw [or_left_comm]

theorem sublist : (firsts key known as).Sublist as := by
  induction as generalizing known with
  | nil => exact .slnil
  | cons a as ih =>
    by_cases ha : key a ∈ known
    · rw [cons_of_mem ha]; exact ih.cons a
    · rw [cons_of_not_mem ha]; exact ih.cons_cons a

theorem not_mem_known (h : a ∈ firsts key known as) : key a ∉ known := by
  induction as generalizing known with
  | nil => cases h
  | cons b as ih =>
    by_cases hb : key b ∈ known
    · rw [cons_of_mem hb] at h; exact ih h
    · rw [cons_of_not_mem hb] at h
      rcases List.mem_cons.mp h with rfl | h
      · exact hb
      · exact fun hk => ih h (List.mem_cons_of_mem _ hk)

theorem nodup : ((firsts key known as).map key).Nodup := by
  induction as generalizing known with
  | nil => exact .nil
  | cons a as ih =>
    by_cases ha : key a ∈ known
    · rw [cons_of_mem ha]; exact ih
    · rw [cons_of_not_mem ha, List.map_cons, List.nodup_cons]
      refine ⟨fun h => ?_, ih⟩
      obtain ⟨b, hb, hk⟩ := List.mem_map.mp h
      exact not_mem_known hb (hk ▸ List.mem_cons_self)

theorem mem_keys {k : κ} :
    k ∈ (firsts key known as).map key ↔ k ∉ known ∧ k ∈ as.map key := by
  induction as generalizing known with
  | nil => simp [firsts]
  | cons a as ih =>
    by_cases ha : key a ∈ known
    · rw [cons_of_mem ha, ih, List.map_cons, List.mem_cons]
      refine and_congr_right fun hk => ⟨.inr, ?_⟩
      rintro (rfl | h)
      · exact absurd ha hk
      · exact h
    · rw [cons_of_not_mem ha, List.map_cons, List.map_cons, List.mem_cons, List.mem_cons, ih,
        List.mem_cons, not_or]
      constructor
      · rintro (rfl | ⟨⟨_, hk⟩, h⟩)
        · exact ⟨ha, .inl rfl⟩
        · exact ⟨hk, .inr h⟩
      · rintro ⟨hk, rfl | h⟩
        · exact .inl rfl
        · by_cases heq : k = key a
          · exact .inl heq
          · exact .inr ⟨⟨heq, hk⟩, h⟩

/-- Elements with known keys add nothing. -/
theorem eq_nil (h : ∀ a ∈ as, key a ∈ known) : firsts key known as = [] := by
  induction as with
  | nil => rfl
  | cons a as ih =>
    rw [cons_of_mem (h a List.mem_cons_self)]
    exact ih fun b hb => h b (List.mem_cons_of_mem _ hb)

/-- An element is kept exactly when its key is unknown and nothing before it bears the key. -/
theorem mem_iff : a ∈ firsts key known as ↔
    key a ∉ known ∧ ∃ pre post, as = pre ++ a :: post ∧ ∀ b ∈ pre, key b ≠ key a := by
  induction as generalizing known with
  | nil => simp [firsts]
  | cons c as ih =>
    by_cases hc : key c ∈ known
    · rw [cons_of_mem hc, ih]
      refine and_congr_right fun hk =>
        ⟨fun ⟨pre, post, h, hpre⟩ => ?_, fun ⟨pre, post, h, hpre⟩ => ?_⟩
      · refine ⟨c :: pre, post, by rw [h, List.cons_append], fun b hb => ?_⟩
        rcases List.mem_cons.mp hb with rfl | hb
        · exact fun h => hk (h ▸ hc)
        · exact hpre b hb
      · cases pre with
        | nil =>
          obtain ⟨rfl, -⟩ := List.cons.inj h
          exact absurd hc hk
        | cons d pre =>
          obtain ⟨-, rfl⟩ := List.cons.inj h
          exact ⟨pre, post, rfl, fun b hb => hpre b (List.mem_cons_of_mem _ hb)⟩
    · rw [cons_of_not_mem hc, List.mem_cons, ih, List.mem_cons, not_or]
      constructor
      · rintro (rfl | ⟨⟨hne, hk⟩, pre, post, h, hpre⟩)
        · exact ⟨hc, [], as, rfl, nofun⟩
        · refine ⟨hk, c :: pre, post, by rw [h, List.cons_append], fun b hb => ?_⟩
          rcases List.mem_cons.mp hb with rfl | hb
          · exact fun h => hne h.symm
          · exact hpre b hb
      · rintro ⟨hk, pre, post, h, hpre⟩
        cases pre with
        | nil => exact .inl (List.cons.inj h).1.symm
        | cons d pre =>
          obtain ⟨rfl, rfl⟩ := List.cons.inj h
          exact .inr ⟨⟨fun h => hpre _ List.mem_cons_self h.symm, hk⟩, pre, post, rfl,
            fun b hb => hpre b (List.mem_cons_of_mem _ hb)⟩

/-- Their number does not depend on the order. -/
theorem length_perm (h : as.Perm bs) :
    (firsts key known as).length = (firsts key known bs).length := by
  have hperm : ((firsts key known as).map key).Perm ((firsts key known bs).map key) := by
    refine (List.perm_ext_iff_of_nodup nodup nodup).mpr fun k => ?_
    rw [mem_keys, mem_keys, (h.map key).mem_iff]
  simpa using hperm.length_eq

end firsts
