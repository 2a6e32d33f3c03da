import Mathlib.Data.List.Perm.Basic

/-! Runs of a machine. Every choice the environment makes is in the label, so a
step is a partial function and a run can be computed. -/
set_option autoImplicit false

namespace Machine

variable {σ α : Type*}

/-- The state after the labels, when each of them is enabled in turn. -/
def run (step : σ → α → Option σ) : σ → List α → Option σ
  | s, [] => some s
  | s, a :: as => (step s a).bind fun t => run step t as

/-- Every step of the run from `s` meets `G` in the state it is taken from. -/
def Along (step : σ → α → Option σ) (G : σ → α → Prop) : σ → List α → Prop
  | _, [] => True
  | s, a :: as => G s a ∧ ∀ t, step s a = some t → Along step G t as

/-- Two runs under the same labels. -/
def pair (step : σ → α → Option σ) (p : σ × σ) (a : α) : Option (σ × σ) :=
  (step p.1 a).bind fun t => (step p.2 a).map fun u => (t,u)

theorem pair_some {step : σ → α → Option σ} {p q : σ × σ} {a : α} (h : pair step p a = some q) :
    step p.1 a = some q.1 ∧ step p.2 a = some q.2 := by
  obtain ⟨t,ht,h⟩ := Option.bind_eq_some_iff.mp h
  obtain ⟨u,hu,rfl⟩ := Option.map_eq_some_iff.mp h
  exact ⟨ht,hu⟩

/-- The suspended task with a number, and the others. -/
def takeTask {κ : Type*} (pending : List κ) (i : Nat) : Option (κ × List κ) :=
  (pending[i]?).map fun c => (c,pending.eraseIdx i)

theorem takeTask_mem {κ : Type*} {pending rest : List κ} {i : Nat} {c : κ}
    (h : takeTask pending i = some (c,rest)) : c ∈ pending ∧ ∀ d ∈ rest, d ∈ pending := by
  obtain ⟨d,hd,he⟩ := Option.map_eq_some_iff.mp h
  cases he
  exact ⟨List.mem_of_getElem? hd,fun e he => List.mem_of_mem_eraseIdx he⟩

theorem takeTask_cases {κ : Type*} {pending rest : List κ} {i : Nat} {c : κ}
    (h : takeTask pending i = some (c,rest)) {d : κ} (hd : d ∈ pending) : d = c ∨ d ∈ rest := by
  obtain ⟨e,he,hrest⟩ := Option.map_eq_some_iff.mp h
  cases hrest
  obtain ⟨j,hj⟩ := List.mem_iff_getElem?.mp hd
  by_cases hij : j = i
  · rw [hij,he] at hj
    exact .inl (Option.some.inj hj).symm
  · exact .inr (List.mem_eraseIdx_iff_getElem?.mpr ⟨j,hij,hj⟩)

theorem takeTask_get {κ : Type*} {pending rest : List κ} {i : Nat} {c : κ}
    (h : takeTask pending i = some (c,rest)) : pending[i]? = some c := by
  obtain ⟨d,hd,he⟩ := Option.map_eq_some_iff.mp h
  cases he
  exact hd

theorem takeTask_perm {κ : Type*} {pending rest : List κ} {i : Nat} {c : κ}
    (h : takeTask pending i = some (c,rest)) : (c :: rest).Perm pending := by
  obtain ⟨d,hd,he⟩ := Option.map_eq_some_iff.mp h
  cases he
  obtain ⟨hi,rfl⟩ := List.getElem?_eq_some_iff.mp hd
  exact List.getElem_cons_eraseIdx_perm hi

section
variable {step : σ → α → Option σ} {G H : σ → α → Prop} {I : σ → Prop}

@[simp] theorem run_nil (s : σ) : run step s [] = some s := rfl

theorem run_cons {s t u : σ} {a : α} {as : List α} (h : step s a = some t)
    (hr : run step t as = some u) : run step s (a :: as) = some u := by
  simp [run,h,hr]

theorem run_cons_inv {s u : σ} {a : α} {as : List α} (h : run step s (a :: as) = some u) :
    ∃ t, step s a = some t ∧ run step t as = some u := by
  simpa [run,Option.bind_eq_some_iff] using h

theorem run_append (s : σ) (as bs : List α) :
    run step s (as ++ bs) = (run step s as).bind fun t => run step t bs := by
  induction as generalizing s with
  | nil => rfl
  | cons a as ih =>
    cases h : step s a with
    | none => simp [run,h]
    | some t => simp [run,h,ih]

theorem run_snoc {s t u : σ} {a : α} {as : List α} (hr : run step s as = some t)
    (h : step t a = some u) : run step s (as ++ [a]) = some u := by
  simp [run_append,hr,run,h]

theorem along_append (s : σ) (as bs : List α) :
    Along step G s (as ++ bs) ↔
      Along step G s as ∧ ∀ t, run step s as = some t → Along step G t bs := by
  induction as generalizing s with
  | nil => simp [Along,run]
  | cons a as ih =>
    cases h : step s a with
    | none => simp [Along,run,h]
    | some t => simp [Along,run,h,ih,and_assoc]

theorem Along.imp {s : σ} {as : List α} (h : Along step G s as)
    (hGH : ∀ s a, G s a → H s a) : Along step H s as := by
  induction as generalizing s with
  | nil => trivial
  | cons a as ih => exact ⟨hGH s a h.1,fun t ht => ih (h.2 t ht)⟩

theorem Along.and {s : σ} {as : List α} (hG : Along step G s as) (hH : Along step H s as) :
    Along step (fun s a => G s a ∧ H s a) s as := by
  induction as generalizing s with
  | nil => trivial
  | cons a as ih => exact ⟨⟨hG.1,hH.1⟩,fun t ht => ih (hG.2 t ht) (hH.2 t ht)⟩

theorem along_of_forall {P : α → Prop} {as : List α} (s : σ) (h : ∀ a ∈ as, P a) :
    Along step (fun _ a => P a) s as := by
  induction as generalizing s with
  | nil => trivial
  | cons a as ih =>
    exact ⟨h a List.mem_cons_self,fun t _ => ih t fun b hb => h b (List.mem_cons_of_mem a hb)⟩

/-- Whether a check passes at every step of the run. -/
def check (step : σ → α → Option σ) (g : σ → α → Bool) : σ → List α → Bool
  | _, [] => true
  | s, a :: as => g s a && (step s a).all fun t => check step g t as

theorem along_of_check {g : σ → α → Bool} (hg : ∀ s a, g s a = true → G s a) {s : σ} {as : List α}
    (h : check step g s as = true) : Along step G s as := by
  induction as generalizing s with
  | nil => trivial
  | cons a as ih =>
    simp only [check,Bool.and_eq_true] at h
    exact ⟨hg s a h.1,fun t ht => ih (by simpa [ht] using h.2)⟩

/-- The one induction on runs: what each step that meets `G` preserves, a run
whose steps all meet `G` preserves. -/
theorem invariant_run (hstep : ∀ s a t, I s → G s a → step s a = some t → I t)
    {s t : σ} {as : List α} (hs : I s) (hG : Along step G s as)
    (hr : run step s as = some t) : I t := by
  induction as generalizing s with
  | nil =>
    have hst : s = t := by simpa using hr
    exact hst ▸ hs
  | cons a as ih =>
    obtain ⟨u,hu,hr⟩ := run_cons_inv hr
    exact ih (hstep s a u hs hG.1 hu) (hG.2 u hu) hr

/-- A condition on steps that follows from another wherever an invariant holds that the
other keeps. -/
theorem Along.imp_of_guarded (hstep : ∀ s a t, I s → G s a → step s a = some t → I t)
    (hGH : ∀ s a, I s → G s a → H s a) {s : σ} (hs : I s) {as : List α}
    (h : Along step G s as) : Along step H s as := by
  induction as generalizing s with
  | nil => trivial
  | cons a as ih => exact ⟨hGH s a hs h.1,fun t ht => ih (hstep s a t hs h.1 ht) (h.2 t ht)⟩

theorem Along.imp_of_invariant (hstep : ∀ s a t, I s → step s a = some t → I t)
    (hGH : ∀ s a, I s → G s a → H s a) {s : σ} (hs : I s) {as : List α}
    (h : Along step G s as) : Along step H s as :=
  h.imp_of_guarded (fun s a t hs _ ht => hstep s a t hs ht) hGH hs

/-- Two conditions on steps that agree wherever an invariant holds agree along every run. -/
theorem along_iff_of_invariant (hstep : ∀ s a t, I s → step s a = some t → I t)
    (hGH : ∀ s a, I s → (G s a ↔ H s a)) {s : σ} (hs : I s) (as : List α) :
    Along step G s as ↔ Along step H s as :=
  ⟨Along.imp_of_invariant hstep (fun s a hi => (hGH s a hi).mp) hs,
    Along.imp_of_invariant hstep (fun s a hi => (hGH s a hi).mpr) hs⟩

/-- Where steps that meet a condition keep an invariant, the invariant gives a property, and a
step that does not meet it can break the property, a run all of whose steps meet the condition
is one that only reaches states with the property. -/
theorem along_iff_kept {V : σ → α → Prop} {K : σ → Prop}
    (hstep : ∀ s a t, I s → V s a → G s a → step s a = some t → I t) (hkept : ∀ s, I s → K s)
    (hback : ∀ s a, I s → V s a → (∀ t, step s a = some t → K t) → G s a)
    {s : σ} (hs : I s) {as : List α} (hV : Along step V s as) :
    Along step G s as ↔ ∀ bs t, bs <+: as → run step s bs = some t → K t := by
  induction as generalizing s with
  | nil =>
    constructor
    · intro _ bs t hbs hr
      cases List.prefix_nil.mp hbs
      cases hr
      exact hkept s hs
    · intro _
      trivial
  | cons a as ih =>
    constructor
    · intro h bs t hbs hr
      cases bs with
      | nil =>
        cases hr
        exact hkept s hs
      | cons b bs =>
        obtain ⟨rfl,htail⟩ := List.cons_prefix_cons.mp hbs
        obtain ⟨u,hu,hr⟩ := run_cons_inv hr
        have hi := hstep s b u hs hV.1 h.1 hu
        exact (ih hi (hV.2 u hu)).mp (h.2 u hu) bs t htail hr
    · intro h
      have hG : G s a := hback s a hs hV.1 fun t ht =>
        h [a] t (List.cons_prefix_cons.mpr ⟨rfl,List.nil_prefix⟩) (run_cons ht (run_nil t))
      refine ⟨hG,fun u hu => (ih (hstep s a u hs hV.1 hG hu) (hV.2 u hu)).mpr ?_⟩
      intro bs t hbs hr
      exact h (a :: bs) t (List.cons_prefix_cons.mpr ⟨rfl,hbs⟩) (run_cons hu hr)

/-- Where the condition on a step says just that it keeps an invariant, a run whose steps all
meet it is one that only reaches states with the invariant. -/
theorem along_iff_reached (hstep : ∀ s a, I s → (G s a ↔ ∀ t, step s a = some t → I t))
    {s : σ} (hs : I s) (as : List α) :
    Along step G s as ↔ ∀ bs t, bs <+: as → run step s bs = some t → I t :=
  along_iff_kept (fun s a t hi _ hG ht => (hstep s a hi).mp hG t ht) (fun _ hi => hi)
    (fun s a hi _ hK => (hstep s a hi).mpr hK) hs
    (along_of_forall (P := fun _ => True) s fun _ _ => trivial)

/-- What holds of the empty run, and of a run with one more step if it held before, holds of
every run and the state it ends in. -/
theorem run_induction {P : List α → σ → Prop} {init s : σ} {as : List α} (hnil : P [] init)
    (hsnoc : ∀ as s a t, run step init as = some s → P as s → step s a = some t → P (as ++ [a]) t)
    (hr : run step init as = some s) : P as s := by
  have hfrom : ∀ bs pre u, run step init pre = some u → P pre u → run step u bs = some s →
      P (pre ++ bs) s := by
    intro bs
    induction bs with
    | nil =>
      intro pre u _ hP hr
      rw [run_nil] at hr
      cases hr
      rw [List.append_nil]
      exact hP
    | cons b bs ih =>
      intro pre u hpre hP hr
      obtain ⟨t,ht,hr⟩ := run_cons_inv hr
      have h := ih (pre ++ [b]) t (run_snoc hpre ht) (hsnoc pre u b t hpre hP ht) hr
      rw [List.append_assoc] at h
      exact h
  exact hfrom as [] init rfl hnil hr

/-- The unconditional form of `invariant_run`. -/
theorem invariant_run' (hstep : ∀ s a t, I s → step s a = some t → I t)
    {s t : σ} {as : List α} (hs : I s) (hr : run step s as = some t) : I t := by
  induction as generalizing s with
  | nil =>
    have hst : s = t := by simpa using hr
    exact hst ▸ hs
  | cons a as ih =>
    obtain ⟨u,hu,hr⟩ := run_cons_inv hr
    exact ih (hstep s a u hs hu) hr

end

end Machine
