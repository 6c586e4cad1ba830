import SiftMcp.Lib.Prog
import Mathlib.Data.List.Forall2

/-!
# Programs in lockstep

Two programs, each over states of its own, run in lockstep from two states when they give the same
result or the same error, and take the same durable steps through related states. The rules go along
the two program texts; where only one of them computes or looks at its state, the other one waits.

* `Prog.Lockstep.bind`: lockstep is kept by sequencing.
* `Prog.Lockstep.wp`: what `wp` says of the second program holds of the first, up to the relation.
-/

namespace Durable.Prog

variable {σ τ ε ι α β : Type} {R : σ → τ → Prop} {s : σ} {t : τ}

/-- The same label, and related states. -/
def Passes (R : σ → τ → Prop) (p : ι × σ) (q : ι × τ) : Prop := p.1 = q.1 ∧ R p.2 q.2

/-- The outcomes are the same, up to the states. -/
structure Corresponds (R : σ → τ → Prop) (o : Outcome σ ε ι α) (o' : Outcome τ ε ι α) : Prop where
  result : o.result = o'.result
  state : R o.state o'.state
  trace : List.Forall₂ (Passes R) o.trace o'.trace

def Lockstep (R : σ → τ → Prop) (m : Prog σ ε ι α) (n : Prog τ ε ι α) (s : σ) (t : τ) : Prop :=
  Corresponds R (m s) (n t)

theorem bind_of_ok {m : Prog σ ε ι α} {f : α → Prog σ ε ι β} {a : α} (h : (m s).result = .ok a) :
    (m >>= f) s = ⟨(f a (m s).state).result, (f a (m s).state).state,
      (m s).trace ++ (f a (m s).state).trace⟩ := by
  simp only [Bind.bind]
  rcases hm : m s with ⟨r, s', l⟩
  rw [hm] at h
  obtain rfl : r = .ok a := h
  rfl

theorem bind_of_error {m : Prog σ ε ι α} {f : α → Prog σ ε ι β} {e : ε}
    (h : (m s).result = .error e) : (m >>= f) s = ⟨.error e, (m s).state, (m s).trace⟩ := by
  simp only [Bind.bind]
  rcases hm : m s with ⟨r, s', l⟩
  rw [hm] at h
  obtain rfl : r = .error e := h
  rfl

namespace Lockstep

theorem pure {a : α} (h : R s t) :
    Lockstep R (Pure.pure a : Prog σ ε ι α) (Pure.pure a) s t := ⟨rfl, h, .nil⟩

theorem fail {e : ε} (h : R s t) : Lockstep R (Prog.fail e : Prog σ ε ι α) (.fail e) s t :=
  ⟨rfl, h, .nil⟩

theorem bind {m : Prog σ ε ι α} {n : Prog τ ε ι α} {f : α → Prog σ ε ι β} {g : α → Prog τ ε ι β}
    (h : Lockstep R m n s t)
    (hk : ∀ a, (n t).result = .ok a → Lockstep R (f a) (g a) (m s).state (n t).state) :
    Lockstep R (m >>= f) (n >>= g) s t := by
  obtain ⟨hresult, hstate, htrace⟩ := h
  cases hn : (n t).result with
  | error e =>
    rw [hn] at hresult
    rw [Lockstep, bind_of_error hresult, bind_of_error hn]
    exact ⟨rfl, hstate, htrace⟩
  | ok a =>
    rw [hn] at hresult
    obtain ⟨hresult', hstate', htrace'⟩ := hk a hn
    rw [Lockstep, bind_of_ok hresult, bind_of_ok hn]
    exact ⟨hresult', hstate', List.rel_append htrace htrace'⟩

/-! ## Single steps -/

section

variable {f : α → Prog σ ε ι β} {g : α → Prog τ ε ι β} {m : Prog σ ε ι β} {n : Prog τ ε ι β}

theorem get_bind {f : σ → Prog σ ε ι β} {g : τ → Prog τ ε ι β} (h : Lockstep R (f s) (g t) s t) :
    Lockstep R (Prog.get >>= f) (Prog.get >>= g) s t := h

theorem get_left {f : σ → Prog σ ε ι β} (h : Lockstep R (f s) n s t) :
    Lockstep R (Prog.get >>= f) n s t := h

theorem modify_bind {φ : σ → σ} {ψ : τ → τ} {f : Unit → Prog σ ε ι β} {g : Unit → Prog τ ε ι β}
    (h : Lockstep R (f ()) (g ()) (φ s) (ψ t)) :
    Lockstep R (Prog.modify φ >>= f) (Prog.modify ψ >>= g) s t := h

theorem modify {φ : σ → σ} {ψ : τ → τ} (h : R (φ s) (ψ t)) :
    Lockstep R (Prog.modify φ : Prog σ ε ι Unit) (.modify ψ) s t := ⟨rfl, h, .nil⟩

theorem durable {l : ι} {φ : σ → σ} {ψ : τ → τ} (h : R (φ s) (ψ t)) :
    Lockstep R (Prog.durable l φ : Prog σ ε ι Unit) (.durable l ψ) s t :=
  ⟨rfl, h, .cons ⟨rfl, h⟩ .nil⟩

theorem durable_bind {l : ι} {φ : σ → σ} {ψ : τ → τ} {f : Unit → Prog σ ε ι β}
    {g : Unit → Prog τ ε ι β} (h : R (φ s) (ψ t)) (hk : Lockstep R (f ()) (g ()) (φ s) (ψ t)) :
    Lockstep R (Prog.durable l φ >>= f) (Prog.durable l ψ >>= g) s t :=
  bind (durable h) fun _ _ => hk

/-- The first program computes a value, and the computation succeeds. -/
theorem ofExcept_left {x : Except ε α} {a : α} (hx : x = .ok a) (h : Lockstep R (f a) n s t) :
    Lockstep R (Prog.ofExcept x >>= f) n s t := by
  rw [hx]
  exact h

theorem ofExcept_right {x : Except ε α} {a : α} (hx : x = .ok a) (h : Lockstep R m (g a) s t) :
    Lockstep R m (Prog.ofExcept x >>= g) s t := by
  rw [hx]
  exact h

/-- A check that fails in both or in neither. -/
theorem ite {c c' : Prop} [Decidable c] [Decidable c'] {m' : Prog σ ε ι β} {n' : Prog τ ε ι β}
    (hc : c ↔ c') (h : c → Lockstep R m n s t) (h' : ¬c → Lockstep R m' n' s t) :
    Lockstep R (if c then m else m') (if c' then n else n') s t := by
  by_cases hyes : c
  · rw [if_pos hyes, if_pos (hc.mp hyes)]
    exact h hyes
  · rw [if_neg hyes, if_neg (mt hc.mpr hyes)]
    exact h' hyes

end

/-! ## What is known of the second program -/

theorem trace_left {l : List (ι × σ)} {l' : List (ι × τ)} (h : List.Forall₂ (Passes R) l l') :
    ∀ p ∈ l, ∃ q ∈ l', Passes R p q := by
  induction h with
  | nil => exact fun p hp => absurd hp List.not_mem_nil
  | cons hpq _ ih =>
    intro p hp
    rcases List.mem_cons.mp hp with rfl | hp
    · exact ⟨_, List.mem_cons_self, hpq⟩
    · obtain ⟨q, hq, h⟩ := ih p hp
      exact ⟨q, List.mem_cons_of_mem _ hq, h⟩

theorem wp {m : Prog σ ε ι α} {n : Prog τ ε ι α} {Q : α → τ → Prop} {E : ε → τ → Prop}
    {C : ι → τ → Prop} (h : Lockstep R m n s t) (hn : Prog.wp n Q E C t) :
    Prog.wp m (fun a s' => ∃ t', R s' t' ∧ Q a t') (fun e s' => ∃ t', R s' t' ∧ E e t')
      (fun l s' => ∃ t', R s' t' ∧ C l t') s := by
  constructor
  · intro p hp
    obtain ⟨q, hq, hl, hR⟩ := trace_left h.trace p hp
    refine ⟨q.2, hR, ?_⟩
    rw [hl]
    exact hn.trace hq
  · rw [h.result]
    cases hr : (n t).result with
    | ok a => exact ⟨_, h.state, hn.ok hr⟩
    | error e => exact ⟨_, h.state, hn.error hr⟩

/-- A result of the first program is one of the second. -/
theorem ok {m : Prog σ ε ι α} {n : Prog τ ε ι α} {a : α} (h : Lockstep R m n s t)
    (hm : (m s).result = .ok a) : (n t).result = .ok a := h.result ▸ hm

end Lockstep

end Durable.Prog
