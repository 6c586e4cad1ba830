import Mathlib.Logic.Basic

/-!
# Programs with durable steps

A `Prog σ ε ι α` runs from a state, ends in a result or an error, and leaves a trace of the states
its durable steps passed through. A process that is killed is found in one of the states of the
trace, or in the state the program started from; no later step of the program, not even an error
handler, runs then. `wp m Q E C s` asks for all three at once: `Q` of a result, `E` of an error and
`C` of every state a durable step leaves. The rules below compute `wp` along the program text.

* `wp_foldlP`: the rule for a loop.
* `leaves_durable_bind`: what is left of a program that is killed.
-/

namespace Durable

/-- One run of a program. The trace is oldest first, and each state carries the label of the
durable step that led to it. -/
structure Outcome (σ ε ι α : Type) where
  result : Except ε α
  state : σ
  trace : List (ι × σ)

def Prog (σ ε ι α : Type) := σ → Outcome σ ε ι α

namespace Prog

variable {σ τ ε ε' ι κ α β : Type}

instance : Monad (Prog σ ε ι) where
  pure a s := ⟨.ok a, s, []⟩
  bind m f s :=
    match m s with
    | ⟨.ok a, s', t⟩ => let r := f a s'; ⟨r.result, r.state, t ++ r.trace⟩
    | ⟨.error e, s', t⟩ => ⟨.error e, s', t⟩

def get : Prog σ ε ι σ := fun s => ⟨.ok s, s, []⟩

/-- A change of the volatile part of the state: nothing of it outlives the process. -/
def modify (f : σ → σ) : Prog σ ε ι Unit := fun s => ⟨.ok (), f s, []⟩

/-- One durable step. -/
def durable (l : ι) (f : σ → σ) : Prog σ ε ι Unit := fun s => ⟨.ok (), f s, [(l, f s)]⟩

def fail (e : ε) : Prog σ ε ι α := fun s => ⟨.error e, s, []⟩

def ofExcept : Except ε α → Prog σ ε ι α
  | .ok a => pure a
  | .error e => fail e

/-- Run `h` when `m` ends in an error, and end in the same error afterwards. -/
def onError (m : Prog σ ε ι α) (h : ε → Prog σ ε ι Unit) : Prog σ ε ι α := fun s =>
  match m s with
  | ⟨.ok a, s', t⟩ => ⟨.ok a, s', t⟩
  | ⟨.error e, s', t⟩ =>
    match h e s' with
    | ⟨.ok _, s'', t'⟩ => ⟨.error e, s'', t ++ t'⟩
    | ⟨.error e', s'', t'⟩ => ⟨.error e', s'', t ++ t'⟩

/-- Run a program of a part `τ` of the state. `put` writes the part back, also in the states of
the trace. -/
def focus (part : σ → τ) (put : τ → σ → σ) (err : ε' → ε) (lbl : κ → ι)
    (m : Prog τ ε' κ α) : Prog σ ε ι α := fun s =>
  let r := m (part s)
  ⟨match r.result with | .ok a => .ok a | .error e => .error (err e), put r.state s,
    r.trace.map fun p => (lbl p.1, put p.2 s)⟩

/-! ## The weakest precondition -/

/-- `Q` of a result, `E` of an error, and `C` of every state that a durable step leaves. -/
def wp (m : Prog σ ε ι α) (Q : α → σ → Prop) (E : ε → σ → Prop) (C : ι → σ → Prop) (s : σ) :
    Prop :=
  (∀ p ∈ (m s).trace, C p.1 p.2) ∧
    match (m s).result with
    | .ok a => Q a (m s).state
    | .error e => E e (m s).state

variable {Q : α → σ → Prop} {E : ε → σ → Prop} {C : ι → σ → Prop} {s : σ}

theorem wp.trace {m : Prog σ ε ι α} (h : wp m Q E C s) {p : ι × σ} (hp : p ∈ (m s).trace) :
    C p.1 p.2 := h.1 _ hp

theorem wp.ok {m : Prog σ ε ι α} (h : wp m Q E C s) {a : α} (ha : (m s).result = .ok a) :
    Q a (m s).state := by
  have := h.2; rwa [ha] at this

theorem wp.error {m : Prog σ ε ι α} (h : wp m Q E C s) {e : ε} (he : (m s).result = .error e) :
    E e (m s).state := by
  have := h.2; rwa [he] at this

theorem wp.mono {Q' : α → σ → Prop} {E' : ε → σ → Prop} {C' : ι → σ → Prop} {m : Prog σ ε ι α}
    (h : wp m Q E C s) (hQ : ∀ a t, Q a t → Q' a t) (hE : ∀ e t, E e t → E' e t)
    (hC : ∀ l t, C l t → C' l t) : wp m Q' E' C' s := by
  refine ⟨fun p hp => hC _ _ (h.1 p hp), ?_⟩
  have := h.2
  cases hr : (m s).result with
  | ok a => rw [hr] at this; exact hQ _ _ this
  | error e => rw [hr] at this; exact hE _ _ this

theorem wp.and {Q' : α → σ → Prop} {E' : ε → σ → Prop} {C' : ι → σ → Prop} {m : Prog σ ε ι α}
    (h : wp m Q E C s) (h' : wp m Q' E' C' s) :
    wp m (fun a t => Q a t ∧ Q' a t) (fun e t => E e t ∧ E' e t) (fun l t => C l t ∧ C' l t) s := by
  refine ⟨fun p hp => ⟨h.1 p hp, h'.1 p hp⟩, ?_⟩
  have h2 := h.2
  have h2' := h'.2
  cases hr : (m s).result with
  | ok a => rw [hr] at h2 h2'; exact ⟨h2, h2'⟩
  | error e => rw [hr] at h2 h2'; exact ⟨h2, h2'⟩

theorem wp_of_forall {m : Prog σ ε ι α} (hQ : ∀ a t, Q a t) (hE : ∀ e t, E e t)
    (hC : ∀ l t, C l t) : wp m Q E C s := by
  refine ⟨fun p _ => hC _ _, ?_⟩
  cases (m s).result with
  | ok a => exact hQ _ _
  | error e => exact hE _ _

/-- `Q` of a result, whatever a failing run or a killed one may leave. -/
abbrev Ensures (m : Prog σ ε ι α) (Q : α → σ → Prop) (s : σ) : Prop :=
  wp m Q (fun _ _ => True) (fun _ _ => True) s

theorem ensures_of_forall {m : Prog σ ε ι α} (h : ∀ a t, Q a t) : Ensures m Q s := by
  refine ⟨fun _ _ => trivial, ?_⟩
  cases (m s).result with
  | ok a => exact h _ _
  | error e => trivial

theorem ensures_mono {Q' : α → σ → Prop} {m : Prog σ ε ι α} (h : Ensures m Q s)
    (hQ : ∀ a t, Q a t → Q' a t) : Ensures m Q' s :=
  wp.mono h hQ (fun _ _ h => h) (fun _ _ h => h)

@[simp] theorem wp_pure {a : α} : wp (pure a : Prog σ ε ι α) Q E C s ↔ Q a s := by
  simp [wp, pure]

@[simp] theorem wp_get {Q : σ → σ → Prop} : wp (get : Prog σ ε ι σ) Q E C s ↔ Q s s := by
  simp [wp, get]

@[simp] theorem wp_modify {Q : Unit → σ → Prop} {f : σ → σ} :
    wp (modify f : Prog σ ε ι Unit) Q E C s ↔ Q () (f s) := by
  simp [wp, modify]

@[simp] theorem wp_durable {Q : Unit → σ → Prop} {l : ι} {f : σ → σ} :
    wp (durable l f : Prog σ ε ι Unit) Q E C s ↔ C l (f s) ∧ Q () (f s) := by
  simp [wp, durable]

@[simp] theorem wp_fail {e : ε} : wp (fail e : Prog σ ε ι α) Q E C s ↔ E e s := by
  simp [wp, fail]

@[simp] theorem wp_ofExcept {x : Except ε α} :
    wp (ofExcept x : Prog σ ε ι α) Q E C s ↔
      match x with | .ok a => Q a s | .error e => E e s := by
  cases x <;> simp [ofExcept]

@[simp] theorem wp_bind {Q : β → σ → Prop} {m : Prog σ ε ι α} {f : α → Prog σ ε ι β} :
    wp (m >>= f) Q E C s ↔ wp m (fun a t => wp (f a) Q E C t) E C s := by
  simp only [wp, bind]
  rcases m s with ⟨_ | _, s', t⟩ <;> simp [or_imp, forall_and, and_assoc]

@[simp] theorem wp_onError {m : Prog σ ε ι α} {h : ε → Prog σ ε ι Unit} :
    wp (onError m h) Q E C s ↔
      wp m Q (fun e t => wp (h e) (fun _ u => E e u) E C t) C s := by
  simp only [wp, onError]
  rcases m s with ⟨e | a, s', t⟩
  · dsimp only
    generalize h e s' = r
    rcases r with ⟨_ | _, s'', t'⟩ <;> simp [or_imp, forall_and, and_assoc]
  · simp

@[simp] theorem wp_focus {part : σ → τ} {put : τ → σ → σ} {err : ε' → ε} {lbl : κ → ι}
    {m : Prog τ ε' κ α} :
    wp (focus part put err lbl m) Q E C s ↔
      wp m (fun a t => Q a (put t s)) (fun e t => E (err e) (put t s))
        (fun l t => C (lbl l) (put t s)) (part s) := by
  simp only [wp, focus, List.forall_mem_map]
  rcases m (part s) with ⟨_ | _, s', t⟩ <;> rfl

@[simp] theorem wp_ite {c : Prop} [Decidable c] {m m' : Prog σ ε ι α} :
    wp (if c then m else m') Q E C s ↔ (c → wp m Q E C s) ∧ (¬c → wp m' Q E C s) := by
  split <;> simp [*]

/-! ## Loops -/

/-- Run `f` on each element in turn; the loop's own variable is threaded through. -/
def foldlP (f : β → α → Prog σ ε ι β) : β → List α → Prog σ ε ι β
  | b, [] => pure b
  | b, a :: as => f b a >>= fun b' => foldlP f b' as

theorem foldlP_map {γ : Type} {f : β → α → Prog σ ε ι β} (g : γ → α) :
    ∀ (b : β) (cs : List γ), foldlP f b (cs.map g) = foldlP (fun b c => f b (g c)) b cs
  | _, [] => rfl
  | b, c :: cs => by
    simp only [List.map_cons, foldlP]
    congr 1
    funext b'
    exact foldlP_map g b' cs

/-- The loop rule: the invariant speaks of the elements already done and those still to do. -/
theorem wp_foldlP {f : β → α → Prog σ ε ι β} (I : List α → List α → β → σ → Prop)
    (step : ∀ done a rest b t, I done (a :: rest) b t →
      wp (f b a) (fun b' u => I (done ++ [a]) rest b' u) E C t) :
    ∀ (as done : List α) (b : β) (s : σ), I done as b s →
      wp (foldlP f b as) (fun b' t => I (done ++ as) [] b' t) E C s
  | [], done, b, s, h => by simpa [foldlP] using h
  | a :: as, done, b, s, h => by
    simp only [foldlP, wp_bind]
    refine (step done a as b s h).mono (fun b' t hb => ?_) (fun _ _ h => h) (fun _ _ h => h)
    simpa using wp_foldlP I step as (done ++ [a]) b' t hb

/-! ## Invariants -/

/-- `I` of the state that a result comes with, besides what holds of errors and durable steps. -/
abbrev Keeps (I : σ → Prop) (E : ε → σ → Prop) (C : ι → σ → Prop) (m : Prog σ ε ι α) (s : σ) :
    Prop :=
  wp m (fun _ t => I t) E C s

/-- `I` of the state that is left, whether with a result or an error, and of every state that a
durable step leaves. -/
abbrev Always (I : σ → Prop) (m : Prog σ ε ι α) (s : σ) : Prop :=
  Keeps I (fun _ t => I t) (fun _ t => I t) m s

section keeps

variable {I : σ → Prop} {E' : ε → σ → Prop} {C' : ι → σ → Prop}

theorem Keeps.and {m : Prog σ ε ι α} (h : Keeps I E C m s) (h' : wp m Q E' C' s) :
    wp m (fun a t => Q a t ∧ I t) E C s :=
  (h'.and h).mono (fun _ _ h => h) (fun _ _ h => h.2) (fun _ _ h => h.2)

/-- What the first program is known to do can be used of the second. -/
theorem Keeps.bind {m : Prog σ ε ι α} {f : α → Prog σ ε ι β} {R : β → σ → Prop}
    (h : Keeps I E C m s) (h' : wp m Q E' C' s) (hf : ∀ a t, Q a t → I t → wp (f a) R E C t) :
    wp (m >>= f) R E C s :=
  wp_bind.mpr ((h.and h').mono (fun a t h => hf a t h.1 h.2) (fun _ _ h => h) (fun _ _ h => h))

theorem keeps_foldlP {D : ε → σ → Prop} {K : ι → σ → Prop} {f : β → α → Prog σ ε ι β}
    (J : List α → List α → β → σ → Prop) (step : ∀ done a rest b t, J done (a :: rest) b t → I t →
      Keeps I E C (f b a) t ∧ wp (f b a) (fun b' u => J (done ++ [a]) rest b' u) D K t)
    (as : List α) (b : β) (s : σ) (hJ : J [] as b s) (hI : I s) :
    Keeps I E C (foldlP f b as) s := by
  refine (wp_foldlP (fun done rest b t => J done rest b t ∧ I t) ?_ as [] b s ⟨hJ, hI⟩).mono
    (fun _ _ h => h.2) (fun _ _ h => h) (fun _ _ h => h)
  intro done a rest b t h
  obtain ⟨hkeeps, hwp⟩ := step done a rest b t h.1 h.2
  exact hkeeps.and hwp

end keeps

/-! ## What a killed process leaves -/

/-- The state that is found behind a process killed after so many durable steps, or behind one that
was not killed, or had ended before. -/
def leaves (m : Prog σ ε ι α) (killed : Option Nat) (s : σ) : σ :=
  match killed with
  | none => (m s).state
  | some 0 => s
  | some (n + 1) => (m s).trace[n]?.elim (m s).state (·.2)

/-- A kill, if there is one, comes behind so many durable steps. -/
def Behind (k : Nat) (killed : Option Nat) : Prop := ∀ n, killed = some n → k ≤ n

theorem behind_zero {killed : Option Nat} : Behind 0 killed := fun n _ => Nat.zero_le n

theorem behind_succ {k : Nat} {killed : Option Nat} :
    Behind (k + 1) killed ↔ killed ≠ some 0 ∧ Behind k (killed.map (· - 1)) := by
  constructor
  · refine fun h => ⟨fun h0 => absurd (h 0 h0) (by omega), fun n hn => ?_⟩
    obtain ⟨m, hm, rfl⟩ := Option.map_eq_some_iff.mp hn
    have := h m hm
    show k ≤ m - 1
    omega
  · rintro ⟨h0, h⟩ n rfl
    have hn : n ≠ 0 := fun hn => h0 (hn ▸ rfl)
    have := h (n - 1) rfl
    omega

section leaves

variable {killed : Option Nat}

@[simp] theorem leaves_pure {a : α} : (pure a : Prog σ ε ι α).leaves killed s = s := by
  rcases killed with _ | _ | n <;> rfl

@[simp] theorem leaves_fail {e : ε} : (fail e : Prog σ ε ι α).leaves killed s = s := by
  rcases killed with _ | _ | n <;> rfl

theorem bind_pure_left {a : α} {f : α → Prog σ ε ι β} : (pure a >>= f) = f a := rfl

theorem leaves_durable_bind {l : ι} {g : σ → σ} {f : Unit → Prog σ ε ι β} :
    (durable l g >>= f).leaves killed s =
      if killed = some 0 then s else (f ()).leaves (killed.map (· - 1)) (g s) := by
  rcases killed with _ | _ | _ | n <;> rfl

theorem leaves_get_bind {f : σ → Prog σ ε ι β} :
    (get >>= f).leaves killed s = (f s).leaves killed s := by
  rcases killed with _ | _ | n <;> rfl

theorem bind_bind {γ : Type} {m : Prog σ ε ι α} {f : α → Prog σ ε ι β} {g : β → Prog σ ε ι γ} :
    (m >>= f >>= g) = m >>= fun a => f a >>= g := by
  funext s
  simp only [bind]
  rcases m s with ⟨_ | a, s', t⟩
  · rfl
  · dsimp only
    rcases f a s' with ⟨_ | b, s'', t'⟩
    · rfl
    · simp only [List.append_assoc]

end leaves

end Prog

end Durable
