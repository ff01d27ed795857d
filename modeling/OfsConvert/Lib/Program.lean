import Mathlib.Tactic.Basic

/-!
# Weakest preconditions for programs that may stop

A program is a state transformer that returns a value or stops with a cause; both outcomes
carry the state reached. `wp x Q E s` holds when running `x` from `s` either returns with `Q`
or stops with `E`. Invariants that must hold however the program ends go into both.
-/

namespace OfsConvert

universe u

variable {ε σ α β : Type u}

/-- Running `x` from `s` returns with `Q` or stops with `E`. -/
def wp (x : EStateM ε σ α) (Q : α → σ → Prop) (E : ε → σ → Prop) (s : σ) : Prop :=
  match x s with
  | .ok a t => Q a t
  | .error e t => E e t

/-- The state in which a run ends, however it ends. -/
def finalState (x : EStateM ε σ α) (s : σ) : σ :=
  match x s with
  | .ok _ t => t
  | .error _ t => t

/-- Running `x` from `s` returns. -/
def returns (x : EStateM ε σ α) (s : σ) : Bool :=
  match x s with
  | .ok _ _ => true
  | .error _ _ => false

/-- A run that returns satisfies the postcondition that holds if it does. -/
theorem exists_of_returns {x : EStateM ε σ α} {Q : α → σ → Prop} {E : ε → σ → Prop} {s : σ}
    (h : wp x Q E s) (hx : returns x s = true) : ∃ a t, x s = .ok a t ∧ Q a t := by
  unfold wp at h
  unfold returns at hx
  cases hrun : x s with
  | ok a t =>
    rw [hrun] at h
    exact ⟨a, t, rfl, h⟩
  | error e t =>
    rw [hrun] at hx
    exact absurd hx Bool.false_ne_true

/-- A run of which it is known that it returns. -/
theorem exists_ok_of_returns {x : EStateM ε σ α} {s : σ}
    (h : returns x s = true) : ∃ a t, x s = .ok a t := by
  unfold returns at h
  cases hrun : x s with
  | ok a t => exact ⟨a, t, rfl⟩
  | error e t =>
    rw [hrun] at h
    exact absurd h Bool.false_ne_true

/-- Running `x` from `s` returns, with a value and a state that pass a test. -/
def returnsWith (test : α → σ → Bool) (x : EStateM ε σ α) (s : σ) : Bool :=
  match x s with
  | .ok a t => test a t
  | .error _ _ => false

/-- What a run returns passes the test. -/
theorem of_returnsWith {test : α → σ → Bool} {x : EStateM ε σ α} {s t : σ} {a : α}
    (h : returnsWith test x s = true) (hx : x s = .ok a t) : test a t = true := by
  unfold returnsWith at h
  rw [hx] at h
  exact h

/-- Running `x` from `s` stops, with a cause and a state that pass a test. -/
def stopsWith (test : ε → σ → Bool) (x : EStateM ε σ α) (s : σ) : Bool :=
  match x s with
  | .ok _ _ => false
  | .error e t => test e t

/-- A run that stops as tested has a cause and a final state. -/
theorem exists_of_stopsWith {test : ε → σ → Bool} {x : EStateM ε σ α} {s : σ}
    (h : stopsWith test x s = true) : ∃ e t, x s = .error e t ∧ test e t = true := by
  unfold stopsWith at h
  cases hrun : x s with
  | ok a t =>
    rw [hrun] at h
    exact absurd h Bool.false_ne_true
  | error e t =>
    rw [hrun] at h
    exact ⟨e, t, rfl, h⟩

/-- A value is returned without a step. -/
@[simp] theorem wp_pure (a : α) (Q : α → σ → Prop) (E : ε → σ → Prop) (s : σ) :
    wp (pure a) Q E s ↔ Q a s := Iff.rfl

/-- A sequence runs its first part and then its second. -/
@[simp] theorem wp_bind (x : EStateM ε σ α) (f : α → EStateM ε σ β) (Q : β → σ → Prop)
    (E : ε → σ → Prop) (s : σ) :
    wp (x >>= f) Q E s ↔ wp x (fun a t => wp (f a) Q E t) E s := by
  change wp (EStateM.bind x f) Q E s ↔ _
  unfold wp EStateM.bind
  cases x s <;> rfl

/-- The state is read. -/
@[simp] theorem wp_get (Q : σ → σ → Prop) (E : ε → σ → Prop) (s : σ) :
    wp get Q E s ↔ Q s s := Iff.rfl

/-- The state is replaced. -/
@[simp] theorem wp_set (t : σ) (Q : PUnit → σ → Prop) (E : ε → σ → Prop) (s : σ) :
    wp (set t) Q E s ↔ Q ⟨⟩ t := Iff.rfl

/-- The state is changed. -/
@[simp] theorem wp_modify (f : σ → σ) (Q : PUnit → σ → Prop) (E : ε → σ → Prop) (s : σ) :
    wp (modify f) Q E s ↔ Q ⟨⟩ (f s) := Iff.rfl

/-- A program that stops. -/
@[simp] theorem wp_throw (e : ε) (Q : α → σ → Prop) (E : ε → σ → Prop) (s : σ) :
    wp (throw e) Q E s ↔ E e s := Iff.rfl

/-- A weaker postcondition holds whenever a stronger one does. -/
theorem wp_mono {x : EStateM ε σ α} {Q Q' : α → σ → Prop} {E E' : ε → σ → Prop} {s : σ}
    (h : wp x Q E s) (hQ : ∀ a t, Q a t → Q' a t) (hE : ∀ e t, E e t → E' e t) :
    wp x Q' E' s := by
  unfold wp at h ⊢
  cases hx : x s with
  | ok a t => rw [hx] at h; exact hQ a t h
  | error e t => rw [hx] at h; exact hE e t h

/-- A weaker return condition holds whenever a stronger one does. -/
theorem wp_mono_ok {x : EStateM ε σ α} {Q Q' : α → σ → Prop} {E : ε → σ → Prop} {s : σ}
    (h : wp x Q E s) (hQ : ∀ a t, Q a t → Q' a t) : wp x Q' E s :=
  wp_mono h hQ fun _ _ h => h

/-- Two facts about one run hold together. -/
theorem wp_and {x : EStateM ε σ α} {Q Q' : α → σ → Prop} {E E' : ε → σ → Prop} {s : σ}
    (h : wp x Q E s) (h' : wp x Q' E' s) :
    wp x (fun a t => Q a t ∧ Q' a t) (fun e t => E e t ∧ E' e t) s := by
  unfold wp at h h' ⊢
  cases hx : x s with
  | ok a t => rw [hx] at h h'; exact ⟨h, h'⟩
  | error e t => rw [hx] at h h'; exact ⟨h, h'⟩

/-- What a run that returned guarantees. -/
theorem wp_ok {x : EStateM ε σ α} {Q : α → σ → Prop} {E : ε → σ → Prop} {s t : σ} {a : α}
    (h : wp x Q E s) (hx : x s = .ok a t) : Q a t := by
  unfold wp at h
  rw [hx] at h
  exact h

/-- What a run that stopped guarantees. -/
theorem wp_error {x : EStateM ε σ α} {Q : α → σ → Prop} {E : ε → σ → Prop} {s t : σ} {e : ε}
    (h : wp x Q E s) (hx : x s = .error e t) : E e t := by
  unfold wp at h
  rw [hx] at h
  exact h

/-- A run that cannot stop returns. -/
theorem exists_ok_of_wp {x : EStateM ε σ α} {Q : α → σ → Prop} {s : σ}
    (h : wp x Q (fun _ _ => False) s) : ∃ a t, x s = .ok a t ∧ Q a t := by
  unfold wp at h
  cases hx : x s with
  | ok a t =>
    rw [hx] at h
    exact ⟨a, t, rfl, h⟩
  | error e t =>
    rw [hx] at h
    exact h.elim

/-- A run that cannot stop and has one outcome. -/
theorem eq_ok_of_wp {x : EStateM ε σ α} {a : α} {s t : σ}
    (h : wp x (fun b u => u = t ∧ b = a) (fun _ _ => False) s) : x s = .ok a t := by
  obtain ⟨b, u, hrun, rfl, rfl⟩ := exists_ok_of_wp h
  exact hrun

/-- A fact that holds however the run ends holds of the final state. -/
theorem wp_finalState {x : EStateM ε σ α} {I : σ → Prop} {s : σ}
    (h : wp x (fun _ t => I t) (fun _ t => I t) s) : I (finalState x s) := by
  unfold wp at h
  unfold finalState
  cases hx : x s with
  | ok a t => rw [hx] at h; exact h
  | error e t => rw [hx] at h; exact h

/-- A branch satisfies what each of its arms satisfies. -/
theorem wp_ite {c : Prop} [Decidable c] {x y : EStateM ε σ α} {Q : α → σ → Prop}
    {E : ε → σ → Prop} {s : σ} (ht : c → wp x Q E s) (hf : ¬ c → wp y Q E s) :
    wp (if c then x else y) Q E s := by
  split
  · exact ht ‹_›
  · exact hf ‹_›

/-- Two continuations give the same run when they agree on what the first part returns. -/
theorem bind_congr_run {x : EStateM ε σ α} {f f' : α → EStateM ε σ β} {s : σ}
    (h : ∀ a t, x s = .ok a t → f a t = f' a t) : (x >>= f) s = (x >>= f') s := by
  change EStateM.bind x f s = EStateM.bind x f' s
  unfold EStateM.bind
  cases hx : x s with
  | ok a t => exact h a t hx
  | error e t => rfl

/-- Two first parts with the same run give the same run with one continuation. -/
theorem bind_congr_left {x y : EStateM ε σ α} {f : α → EStateM ε σ β} {s : σ} (h : x s = y s) :
    (x >>= f) s = (y >>= f) s := by
  change EStateM.bind x f s = EStateM.bind y f s
  unfold EStateM.bind
  rw [h]

/-- Reading the state passes it on. -/
theorem run_get_bind (f : σ → EStateM ε σ α) (s : σ) :
    ((get : EStateM ε σ σ) >>= f) s = f s s := rfl

/-- However `x` ends, the state it reaches is related to the one it ran from. -/
def Keeps (R : σ → σ → Prop) (x : EStateM ε σ α) : Prop :=
  ∀ s, wp x (fun _ t => R s t) (fun _ t => R s t) s

section Keeps

variable {R : σ → σ → Prop}

/-- Returning keeps a reflexive relation. -/
theorem Keeps.pure (hrefl : ∀ s, R s s) (a : α) : Keeps R (pure a : EStateM ε σ α) := hrefl

/-- Stopping keeps a reflexive relation. -/
theorem Keeps.throw (hrefl : ∀ s, R s s) (e : ε) : Keeps R (throw e : EStateM ε σ α) := hrefl

/-- Reading the state keeps a reflexive relation. -/
theorem Keeps.get (hrefl : ∀ s, R s s) : Keeps R (get : EStateM ε σ σ) := hrefl

/-- A change of the state that is in the relation keeps it. -/
theorem Keeps.modify {f : σ → σ} (h : ∀ s, R s (f s)) :
    Keeps R (modify f : EStateM ε σ PUnit) := h

/-- What both parts keep, a sequence of them keeps. -/
theorem Keeps.bind {x : EStateM ε σ α} {f : α → EStateM ε σ β}
    (htrans : ∀ {s t u}, R s t → R t u → R s u) (hx : Keeps R x) (hf : ∀ a, Keeps R (f a)) :
    Keeps R (x >>= f) := by
  intro s
  rw [wp_bind]
  refine wp_mono_ok (hx s) fun a t hst => ?_
  exact wp_mono (hf a t) (fun _ _ h => htrans hst h) (fun _ _ h => htrans hst h)

/-- Both branches keep the relation, so the choice does. -/
theorem Keeps.ite {c : Prop} [Decidable c] {x y : EStateM ε σ α} (hx : Keeps R x)
    (hy : Keeps R y) : Keeps R (if c then x else y) :=
  fun s => wp_ite (fun _ => hx s) (fun _ => hy s)

end Keeps

end OfsConvert
