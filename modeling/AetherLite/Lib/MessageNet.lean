import AetherLite.Lib.Machine
import Mathlib.Data.List.Perm.Basic
import Mathlib.Data.List.Count
import Mathlib.Data.Multiset.Basic
import Mathlib.Logic.Function.Basic

/-! A network of machines that send each other messages. Messages under way can be
delivered in any order, and each machine also takes steps of its own. -/
set_option autoImplicit false

namespace MessageNet

variable {κ σ μ α ε : Type*}

/-- A message, who sent it and who it is for. -/
structure Mail (κ μ : Type*) where
  src : κ
  dst : κ
  body : μ
  deriving DecidableEq

/-- The machines of a network: what a step of one gives, and which step it takes when a
message arrives. -/
structure Machines (κ σ μ α ε : Type*) where
  step : κ → σ → α → Option (σ × List (κ × μ))
  receive : κ → μ → ε → α

structure Net (κ σ μ : Type*) where
  node : κ → σ
  mail : List (Mail κ μ) := []
  /-- The messages that have arrived, latest first. -/
  delivered : List (Mail κ μ) := []

inductive Action (κ α ε : Type*) where
  | act (k : κ) (a : α)
  /-- The message with a number arrives, in surroundings that the receiver asks. -/
  | deliver (i : Nat) (e : ε)

variable [DecidableEq κ] (M : Machines κ σ μ α ε)

/-- A step of one machine, and its messages on their way. -/
def act (n : Net κ σ μ) (k : κ) (a : α) : Option (Net κ σ μ) :=
  (M.step k (n.node k) a).map fun r =>
    { n with node := Function.update n.node k r.1, mail := n.mail ++ r.2.map fun p => ⟨k,p.1,p.2⟩ }

def step (n : Net κ σ μ) : Action κ α ε → Option (Net κ σ μ)
  | .act k a => act M n k a
  | .deliver i e =>
    (Machine.takeTask n.mail i).bind fun (m,rest) =>
      act M { n with mail := rest, delivered := m :: n.delivered } m.dst
        (M.receive m.src m.body e)

section
variable {M} {n n' : Net κ σ μ} {k : κ} {a : α}

theorem act_some (h : act M n k a = some n') : ∃ s out, M.step k (n.node k) a = some (s,out) ∧
    n' = { n with
      node := Function.update n.node k s, mail := n.mail ++ out.map fun p => ⟨k,p.1,p.2⟩ } := by
  obtain ⟨⟨s,out⟩,hs,rfl⟩ := Option.map_eq_some_iff.mp h
  exact ⟨s,out,hs,rfl⟩

theorem deliver_some {i : Nat} {e : ε} (h : step M n (.deliver i e) = some n') :
    ∃ m rest, Machine.takeTask n.mail i = some (m,rest) ∧
      act M { n with mail := rest, delivered := m :: n.delivered } m.dst
        (M.receive m.src m.body e) = some n' := by
  obtain ⟨⟨m,rest⟩,ht,ha⟩ := Option.bind_eq_some_iff.mp h
  exact ⟨m,rest,ht,ha⟩

/-- Which machine takes a step, and which step it is. -/
def taken (M : Machines κ σ μ α ε) (n : Net κ σ μ) : Action κ α ε → Option (κ × α)
  | .act k a => some (k,a)
  | .deliver i e =>
    (Machine.takeTask n.mail i).map fun (m,_) => (m.dst,M.receive m.src m.body e)

/-- A step of the network is a step of one of its machines, and the others stay as they are. -/
theorem step_node {x : Action κ α ε} (h : step M n x = some n') :
    ∃ k a s out, taken M n x = some (k,a) ∧ M.step k (n.node k) a = some (s,out) ∧
      n'.node = Function.update n.node k s := by
  cases x with
  | act k a =>
    obtain ⟨s,out,hs,rfl⟩ := act_some h
    exact ⟨k,a,s,out,rfl,hs,rfl⟩
  | deliver i e =>
    obtain ⟨m,rest,ht,ha⟩ := deliver_some h
    obtain ⟨s,out,hs,rfl⟩ := act_some ha
    exact ⟨m.dst,_,s,out,by rw [taken,ht]; rfl,hs,rfl⟩

/-- What every step of a machine keeps, every machine keeps in a run of the network. -/
theorem nodes_run {I : κ → σ → Prop} {G : κ → σ → α → Prop}
    (hstep : ∀ k s a s' out, I k s → G k s a → M.step k s a = some (s',out) → I k s')
    {xs : List (Action κ α ε)} (hI : ∀ k, I k (n.node k))
    (hG : Machine.Along (step M) (fun n x => ∀ p ∈ taken M n x, G p.1 (n.node p.1) p.2) n xs)
    (hr : Machine.run (step M) n xs = some n') : ∀ k, I k (n'.node k) := by
  refine Machine.invariant_run (I := fun n : Net κ σ μ => ∀ k, I k (n.node k)) ?_ hI hG hr
  intro n x n' hI hG hs j
  obtain ⟨k,a,s,out,ht,hs,hn⟩ := step_node hs
  rw [hn]
  by_cases hj : j = k
  · subst hj
    rw [Function.update_self]
    exact hstep j _ a s out (hI j) (hG (j,a) ht) hs
  · rw [Function.update_of_ne hj]
    exact hI j

/-- What a machine has sent so far, as its state shows it. -/
def Sends (M : Machines κ σ μ α ε) (sent : σ → List (κ × μ)) : Prop :=
  ∀ k s a s' out, M.step k s a = some (s',out) → (sent s').Perm (out ++ sent s)

/-- The messages from `k` to `j` are those under way and those that have arrived, and no
message is lost, made up or delivered twice. -/
def Conserved (sent : σ → List (κ × μ)) (n : Net κ σ μ) : Prop :=
  ∀ k, ((n.mail ++ n.delivered).filter fun m => m.src = k).Perm
    ((sent (n.node k)).map fun p => ⟨k,p.1,p.2⟩)

theorem filter_outgoing (k j : κ) (out : List (κ × μ)) :
    (out.map fun p => (⟨k,p.1,p.2⟩ : Mail κ μ)).filter (fun m => m.src = j) =
      if k = j then out.map fun p => ⟨k,p.1,p.2⟩ else [] := by
  split
  · next h =>
    rw [List.filter_eq_self]
    intro m hm
    obtain ⟨p,-,rfl⟩ := List.mem_map.mp hm
    simpa using h
  · next h =>
    rw [List.filter_eq_nil_iff]
    intro m hm
    obtain ⟨p,-,rfl⟩ := List.mem_map.mp hm
    simpa using h

theorem Conserved.act {sent : σ → List (κ × μ)} (hsent : Sends M sent) (hc : Conserved sent n)
    (h : act M n k a = some n') : Conserved sent n' := by
  obtain ⟨s,out,hs,rfl⟩ := act_some h
  intro j
  have hperm : ((n.mail ++ out.map fun p => (⟨k,p.1,p.2⟩ : Mail κ μ)) ++ n.delivered).Perm
      ((out.map fun p => ⟨k,p.1,p.2⟩) ++ (n.mail ++ n.delivered)) := by
    rw [List.append_assoc]
    exact List.perm_append_comm_assoc _ _ _
  refine (hperm.filter _).trans ?_
  rw [List.filter_append,filter_outgoing]
  by_cases hj : k = j
  · subst hj
    rw [if_pos rfl]
    show List.Perm _ ((sent (Function.update n.node k s k)).map _)
    rw [Function.update_self]
    refine ((hc k).append_left _).trans ?_
    rw [← List.map_append]
    exact ((hsent k (n.node k) a s out hs).symm).map _
  · rw [if_neg hj,List.nil_append]
    show List.Perm _ ((sent (Function.update n.node k s j)).map _)
    rw [Function.update_of_ne (Ne.symm hj)]
    exact hc j

theorem takeTask_perm {τ : Type*} {pending rest : List τ} {i : Nat} {c : τ}
    (h : Machine.takeTask pending i = some (c,rest)) : pending.Perm (c :: rest) := by
  obtain ⟨d,hd,he⟩ := Option.map_eq_some_iff.mp h
  cases he
  obtain ⟨hi,rfl⟩ := List.getElem?_eq_some_iff.mp hd
  exact (List.getElem_cons_eraseIdx_perm hi).symm

theorem conserved_step {sent : σ → List (κ × μ)} (hsent : Sends M sent) {x : Action κ α ε}
    (hc : Conserved sent n) (h : step M n x = some n') : Conserved sent n' := by
  cases x with
  | act k a => exact hc.act hsent h
  | deliver i e =>
    obtain ⟨m,rest,ht,ha⟩ := deliver_some h
    refine Conserved.act hsent (n := { n with mail := rest, delivered := m :: n.delivered }) ?_ ha
    intro j
    have hperm : (rest ++ m :: n.delivered).Perm (n.mail ++ n.delivered) :=
      List.perm_middle.trans ((takeTask_perm ht).symm.append_right _)
    exact (hperm.filter _).trans (hc j)

theorem conserved_run {sent : σ → List (κ × μ)} (hsent : Sends M sent)
    {xs : List (Action κ α ε)} (hc : Conserved sent n)
    (hr : Machine.run (step M) n xs = some n') : Conserved sent n' :=
  Machine.invariant_run' (fun _ _ _ => conserved_step hsent) hc hr

end

end MessageNet
