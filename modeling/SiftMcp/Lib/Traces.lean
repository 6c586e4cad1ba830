/-!
# Traces of labelled transition systems

`Trace step s es t`: the steps of the labels `es`, one after the other, lead from `s` to `t`. A
property that each step preserves holds at the end of every trace that starts with it; where only
the steps of some labels preserve it, of every trace with those labels.
-/

universe u v

variable {σ : Type u} {ε : Type v}

inductive Trace (step : σ → ε → σ → Prop) : σ → List ε → σ → Prop
  | nil {s} : Trace step s [] s
  | cons {s e t es u} : step s e t → Trace step t es u → Trace step s (e :: es) u

namespace Trace

variable {step : σ → ε → σ → Prop} {s t u : σ} {e : ε} {es es' : List ε}

theorem append (h : Trace step s es t) (h' : Trace step t es' u) : Trace step s (es ++ es') u := by
  induction h with
  | nil => exact h'
  | cons hstep _ ih => exact .cons hstep (ih h')

theorem mono {step' : σ → ε → σ → Prop} (hstep : ∀ s e t, step s e t → step' s e t)
    (h : Trace step s es t) : Trace step' s es t := by
  induction h with
  | nil => exact .nil
  | cons hs _ ih => exact .cons (hstep _ _ _ hs) ih

/-- Invariants of steps with labels of a kind. -/
theorem invariant_of {allowed : ε → Prop} {I : σ → Prop}
    (hstep : ∀ s e t, allowed e → I s → step s e t → I t) (h : Trace step s es t)
    (hes : ∀ e ∈ es, allowed e) (hI : I s) : I t := by
  induction h with
  | nil => exact hI
  | cons hs _ ih =>
    obtain ⟨he, hes⟩ := List.forall_mem_cons.mp hes
    exact ih hes (hstep _ _ _ he hI hs)

theorem invariant {I : σ → Prop} (hstep : ∀ s e t, I s → step s e t → I t) (h : Trace step s es t)
    (hI : I s) : I t :=
  @invariant_of σ ε step s t es (fun _ => True) I (fun s e t _ => hstep s e t) h
    (fun _ _ => trivial) hI

/-- Invariants that look back on the labels. -/
theorem invariant_labels {I : List ε → σ → Prop}
    (hstep : ∀ es s e t, I es s → step s e t → I (es ++ [e]) t) (h : Trace step s es' t)
    (hI : I es s) : I (es ++ es') t := by
  induction h generalizing es with
  | nil => rwa [List.append_nil]
  | @cons s e m es' t hs _ ih =>
    have hm := ih (hstep _ _ _ _ hI hs)
    rwa [List.append_assoc] at hm

end Trace
