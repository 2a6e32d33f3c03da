import Mathlib.Data.List.Defs

/-! Programs over a state that a throw does not undo, and the rules to reason about
what they leave behind, whether they return or throw. -/
set_option autoImplicit false

abbrev Program (ε σ α : Type) := ExceptT ε (StateM σ) α

namespace Program

variable {ε σ α β : Type}

def exec (x : Program ε σ α) (s : σ) : Except ε α × σ := x.run.run s

/-- From `s` the program returns into `Q`, or throws into `E`. -/
def Ensures (s : σ) (x : Program ε σ α) (Q : α → σ → Prop) (E : σ → Prop) : Prop :=
  match exec x s with
  | (.ok a,t) => Q a t
  | (.error _,t) => E t

/-- A computation without a state. -/
def lift (x : Except ε α) : Program ε σ α :=
  match x with
  | .ok a => pure a
  | .error e => throw e

theorem exec_bind (x : Program ε σ α) (f : α → Program ε σ β) (s : σ) :
    exec (x >>= f) s = match exec x s with
      | (.ok a,t) => exec (f a) t
      | (.error e,t) => (.error e,t) := by
  unfold exec
  rw [ExceptT.run_bind,StateT.run_bind]
  obtain ⟨r,t⟩ := x.run.run s
  cases r with
  | ok a => rfl
  | error e => rfl

@[simp] theorem exec_pure (a : α) (s : σ) : exec (pure a : Program ε σ α) s = (.ok a,s) := rfl

@[simp] theorem exec_throw (e : ε) (s : σ) : exec (throw e : Program ε σ α) s = (.error e,s) := rfl

@[simp] theorem exec_get (s : σ) : exec (get : Program ε σ σ) s = (.ok s,s) := rfl

@[simp] theorem exec_modify (f : σ → σ) (s : σ) :
    exec (modify f : Program ε σ PUnit) s = (.ok ⟨⟩,f s) := rfl

@[simp] theorem exec_lift_ok (a : α) (s : σ) :
    exec (lift (.ok a) : Program ε σ α) s = (.ok a,s) := rfl

section
variable {s : σ} {Q : α → σ → Prop} {R : β → σ → Prop} {E : σ → Prop}

theorem Ensures.ok {x : Program ε σ α} {a : α} {t : σ} (h : Ensures s x Q E)
    (hx : exec x s = (.ok a,t)) : Q a t := by
  simpa only [Ensures,hx] using h

theorem Ensures.thrown {x : Program ε σ α} {e : ε} {t : σ} (h : Ensures s x Q E)
    (hx : exec x s = (.error e,t)) : E t := by
  simpa only [Ensures,hx] using h

/-- What holds of the state either way. -/
theorem Ensures.state {x : Program ε σ α} {r : Except ε α} {t : σ}
    (h : Ensures s x (fun _ => E) E) (hx : exec x s = (r,t)) : E t := by
  cases r with
  | ok a => exact h.ok hx
  | error e => exact h.thrown hx

theorem Ensures.mono {Q' : α → σ → Prop} {E' : σ → Prop} {x : Program ε σ α}
    (h : Ensures s x Q E) (hQ : ∀ a t, Q a t → Q' a t) (hE : ∀ t, E t → E' t) :
    Ensures s x Q' E' := by
  unfold Ensures at h ⊢
  split at h
  · exact hQ _ _ h
  · exact hE _ h

theorem Ensures.bind {x : Program ε σ α} {f : α → Program ε σ β} (h : Ensures s x Q E)
    (hf : ∀ a t, Q a t → Ensures t (f a) R E) : Ensures s (x >>= f) R E := by
  unfold Ensures
  rw [exec_bind]
  unfold Ensures at h
  split at h
  · exact hf _ _ h
  · exact h

/-- The rule for a program that never throws. -/
theorem Ensures.bind_of_total {x : Program ε σ α} {f : α → Program ε σ β}
    (h : Ensures s x Q fun _ => False) (hf : ∀ a t, Q a t → Ensures t (f a) R E) :
    Ensures s (x >>= f) R E :=
  (h.mono (fun _ _ h => h) fun _ h => h.elim).bind hf

theorem ensures_pure {a : α} (h : Q a s) : Ensures s (pure a : Program ε σ α) Q E := h

theorem ensures_throw {e : ε} (h : E s) : Ensures s (throw e : Program ε σ α) Q E := h

theorem ensures_get_bind {f : σ → Program ε σ β} (h : Ensures s (f s) R E) :
    Ensures s (get >>= f) R E := h

theorem ensures_modify {f : σ → σ} {Q : Unit → σ → Prop} (h : Q () (f s)) :
    Ensures s (modify f : Program ε σ Unit) Q E := h

theorem ensures_lift {x : Except ε α} (hQ : ∀ a, x = .ok a → Q a s)
    (hE : ∀ e, x = .error e → E s) : Ensures s (lift x) Q E := by
  cases x with
  | ok a => exact hQ a rfl
  | error e => exact hE e rfl

/-- The rule for a loop over a list. The invariant speaks of the elements that are left. -/
theorem ensures_forM {f : α → Program ε σ PUnit} {I : List α → σ → Prop}
    (hf : ∀ a rest t, I (a :: rest) t → Ensures t (f a) (fun _ => I rest) E)
    {as : List α} (h : I as s) : Ensures s (as.forM f) (fun _ => I []) E := by
  induction as generalizing s with
  | nil => exact h
  | cons a as ih => exact (hf a as s h).bind fun _ t ht => ih ht

end

end Program
