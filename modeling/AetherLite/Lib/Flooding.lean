import AetherLite.Lib.MessageNet
import Mathlib.Logic.Relation

/-! Flooding: who has a message passes it on, once, along every link but the one it came
by. Nothing more is needed for it to reach every machine there is a path to. -/
set_option autoImplicit false

namespace Flooding

open MessageNet

variable {κ σ μ α ε : Type*}

/-- The part of a network that floods one message: the links between its members, what
shows that a machine has passed the message on, and which messages carry it. -/
structure Wave (κ σ μ : Type*) where
  member : κ → Prop
  link : κ → κ → Prop
  link_member : ∀ k j, link k j → member j
  passed : σ → Prop
  carries : μ → Prop

section
variable (W : Wave κ σ μ)

/-- What the rule asks of one step of a machine, which came of a message from `source` or
of none: who now passes the message on serves every link but the one to the source. -/
structure Obeys (k : κ) (source : Option κ) (s s' : σ) (out : List (κ × μ)) : Prop where
  kept : W.passed s → W.passed s'
  spreads : ¬W.passed s → W.passed s' → ∀ j, W.link k j →
    j = k ∨ source = some j ∨ ∃ m, (j,m) ∈ out ∧ W.carries m
  origin : ∀ p ∈ out, W.carries p.2 → W.passed s'

/-- Whoever passed the message on has its neighbours served: they have passed it on, or it
is under way to them. Exempt are the machines that the step at hand serves. -/
structure Front (exempt : κ → Prop) (n : Net κ σ μ) : Prop where
  served : ∀ k, W.member k → W.passed (n.node k) → ∀ j, W.link k j →
    exempt j ∨ W.passed (n.node j) ∨ ∃ m ∈ n.mail, m.dst = j ∧ W.carries m.body
  origin : ∀ m ∈ n.mail ++ n.delivered, W.carries m.body → W.passed (n.node m.src)

end

section
variable {W : Wave κ σ μ} {n : Net κ σ μ}

theorem Front.take {i : Nat} {m : Mail κ μ} {rest : List (Mail κ μ)}
    (hf : Front W (fun _ => False) n) (ht : Machine.takeTask n.mail i = some (m,rest)) :
    Front W (fun j => W.carries m.body ∧ j = m.dst)
      { n with mail := rest, delivered := m :: n.delivered } := by
  constructor
  · intro k hk hp j hl
    rcases hf.served k hk hp j hl with hj | hj | ⟨m',hm',hd,hc⟩
    · exact hj.elim
    · exact .inr (.inl hj)
    · rcases Machine.takeTask_cases ht hm' with rfl | hm'
      · exact .inl ⟨hc,hd.symm⟩
      · exact .inr (.inr ⟨m',hm',hd,hc⟩)
  · intro m' hm' hc
    refine hf.origin m' ?_ hc
    have hperm : (rest ++ m :: n.delivered).Perm (n.mail ++ n.delivered) :=
      List.perm_middle.trans ((takeTask_perm ht).symm.append_right _)
    exact hperm.mem_iff.mp hm'

/-- When nothing is under way, what one member passed on every member has that the links
lead to. -/
theorem Front.reached (hf : Front W (fun _ => False) n)
    (hquiet : ∀ m ∈ n.mail, W.carries m.body → ¬W.member m.dst) {i j : κ} (hi : W.member i)
    (hp : W.passed (n.node i)) (hpath : Relation.ReflTransGen W.link i j) :
    W.passed (n.node j) := by
  have hboth : W.member j ∧ W.passed (n.node j) := by
    induction hpath with
    | refl => exact ⟨hi,hp⟩
    | tail _ hl ih =>
      refine ⟨W.link_member _ _ hl,?_⟩
      rcases hf.served _ ih.1 ih.2 _ hl with hx | hp | ⟨m,hm,rfl,hc⟩
      · exact hx.elim
      · exact hp
      · exact absurd (W.link_member _ _ hl) (hquiet m hm hc)
  exact hboth.2

end

/-- Every step is one of a member, and one that obeys the rule; who gets the message has
passed it on after the step, if it had not before. -/
def ObeysStep [DecidableEq κ] (M : Machines κ σ μ α ε) (W : Wave κ σ μ) (n : Net κ σ μ) :
    Action κ α ε → Prop
  | .act k a => W.member k ∧ ∀ s out, M.step k (n.node k) a = some (s,out) →
      Obeys W k none (n.node k) s out
  | .deliver i e => ∀ m rest, Machine.takeTask n.mail i = some (m,rest) →
      W.member m.dst ∧ ∀ s out,
        M.step m.dst (n.node m.dst) (M.receive m.src m.body e) = some (s,out) →
        (W.carries m.body → Obeys W m.dst (some m.src) (n.node m.dst) s out ∧ W.passed s) ∧
        (¬W.carries m.body → Obeys W m.dst none (n.node m.dst) s out)

section
variable [DecidableEq κ] {M : Machines κ σ μ α ε} {W : Wave κ σ μ} {n n' : Net κ σ μ}
  {k : κ} {a : α} {exempt : κ → Prop}

theorem Front.act (source : Option κ) (hf : Front W exempt n) (h : act M n k a = some n')
    (hsource : ∀ j, source = some j → W.passed (n.node j))
    (ho : ∀ s out, M.step k (n.node k) a = some (s,out) →
      Obeys W k source (n.node k) s out ∧ ∀ j, exempt j → j = k ∧ W.passed s) :
    Front W (fun _ => False) n' := by
  obtain ⟨s,out,hs,rfl⟩ := act_some h
  obtain ⟨hk,hx⟩ := ho s out hs
  have hself : ∀ j, j = k → W.passed s → W.passed (Function.update n.node k s j) := by
    rintro j rfl hp
    rwa [Function.update_self]
  have hup : ∀ j, W.passed (n.node j) → W.passed (Function.update n.node k s j) := by
    intro j hj
    by_cases hjk : j = k
    · subst hjk
      exact hself j rfl (hk.kept hj)
    · rwa [Function.update_of_ne hjk]
  constructor
  · intro i hi hp j hl
    refine .inr ?_
    by_cases hold : W.passed (n.node i)
    · rcases hf.served i hi hold j hl with hj | hj | ⟨m,hm,hmi⟩
      · exact .inl (hself j (hx j hj).1 (hx j hj).2)
      · exact .inl (hup j hj)
      · exact .inr ⟨m,List.mem_append_left _ hm,hmi⟩
    · have hik : i = k := by
        by_contra hne
        simp only [Function.update_of_ne hne] at hp
        exact hold hp
      subst hik
      simp only [Function.update_self] at hp
      rcases hk.spreads hold hp j hl with hj | hsrc | ⟨m,hm,hc⟩
      · exact .inl (hself j hj hp)
      · exact .inl (hup j (hsource j hsrc))
      · exact .inr ⟨⟨i,j,m⟩,List.mem_append_right _ (List.mem_map.mpr ⟨(j,m),hm,rfl⟩),rfl,hc⟩
  · intro m hm hc
    rcases List.mem_append.mp hm with hm | hm
    · rcases List.mem_append.mp hm with hm | hm
      · exact hup _ (hf.origin m (List.mem_append_left _ hm) hc)
      · obtain ⟨p,hp,rfl⟩ := List.mem_map.mp hm
        exact hself k rfl (hk.origin p hp hc)
    · exact hup _ (hf.origin m (List.mem_append_right _ hm) hc)

theorem front_step {x : Action κ α ε} (hf : Front W (fun _ => False) n)
    (ho : ObeysStep M W n x) (h : step M n x = some n') : Front W (fun _ => False) n' := by
  cases x with
  | act k a =>
    refine hf.act none h (fun _ hj => by cases hj) fun s out hs => ?_
    exact ⟨ho.2 s out hs,fun j hj => hj.elim⟩
  | deliver i e =>
    obtain ⟨m,rest,ht,ha⟩ := deliver_some h
    obtain ⟨-,hm⟩ := ho m rest ht
    have htaken := hf.take ht
    by_cases hc : W.carries m.body
    · refine htaken.act (some m.src) ha ?_ fun s out hs => ?_
      · rintro j hj
        cases hj
        exact htaken.origin m (List.mem_append_right _ List.mem_cons_self) hc
      · obtain ⟨hobeys,hp⟩ := (hm s out hs).1 hc
        exact ⟨hobeys,fun j hj => ⟨hj.2,hp⟩⟩
    · refine htaken.act none ha (fun _ hj => by cases hj) fun s out hs => ?_
      exact ⟨(hm s out hs).2 hc,fun j hj => absurd hj.1 hc⟩

theorem front_run {xs : List (Action κ α ε)} (hf : Front W (fun _ => False) n)
    (ho : Machine.Along (step M) (ObeysStep M W) n xs)
    (hr : Machine.run (step M) n xs = some n') : Front W (fun _ => False) n' :=
  Machine.invariant_run (fun _ _ _ hf ho hs => front_step hf ho hs) hf ho hr

end

end Flooding
