import Mathlib.Data.Fintype.EquivFin
import Mathlib.Data.List.Count
import Mathlib.Logic.Relation
import Mathlib.Order.WellFounded

/-! The algorithm of Kahn: of every node the number of parents that have not been shown,
and a queue of the nodes whose number has reached zero. -/
set_option autoImplicit false

namespace TopologicalSort

variable {ν : Type*} [DecidableEq ν]

/-- How many of the parents have not been shown, counted as often as they are named. -/
def missing (shown parents : List ν) : Nat := parents.countP fun p => p ∉ shown

theorem missing_append_singleton {shown : List ν} {n : ν} (hn : n ∉ shown) (parents : List ν) :
    missing (shown ++ [n]) parents + parents.countP (fun p => p = n) = missing shown parents := by
  induction parents with
  | nil => rfl
  | cons p parents ih =>
    unfold missing at ih ⊢
    rw [List.countP_cons,List.countP_cons,List.countP_cons]
    by_cases hp : p = n
    · subst hp
      rw [if_neg (by simp),if_pos (by simp),if_pos (by simp [hn])]
      omega
    · have hsame : (p ∉ shown ++ [n]) = (p ∉ shown) := by simp [hp]
      simp only [hsame,decide_eq_true_eq,hp,if_false]
      omega

theorem missing_eq_zero {shown parents : List ν} :
    missing shown parents = 0 ↔ ∀ p ∈ parents, p ∈ shown := by
  simp [missing,List.countP_eq_zero]

variable {nodes : List ν} {parents : ν → List ν}

/-- No node is its own ancestor. -/
def Acyclic (nodes : List ν) (parents : ν → List ν) : Prop :=
  ∀ n, ¬Relation.TransGen (fun p c => c ∈ nodes ∧ p ∈ parents c) n n

/-- The counts are right, and every node without a missing parent has been queued. -/
structure Progress (nodes : List ν) (parents : ν → List ν) (shown queue : List ν)
    (degree : ν → Int) : Prop where
  degree_eq : ∀ n ∈ nodes, degree n = missing shown (parents n)
  queued : ∀ n ∈ nodes, degree n = 0 → n ∈ shown ∨ n ∈ queue
  known : ∀ n ∈ queue, n ∈ nodes

/-- The head of the queue is shown. Its children count one parent less for each time they
name it, and those that come to zero enter the queue. -/
theorem Progress.release {shown queue queue' : List ν} {n : ν} {degree degree' : ν → Int}
    (h : Progress nodes parents shown (n :: queue) degree) (hn : n ∉ shown)
    (hdegree : ∀ c ∈ nodes, degree' c = degree c - (parents c).countP fun p => p = n)
    (hqueue : ∀ c ∈ queue, c ∈ queue') (hknown : ∀ c ∈ queue', c ∈ nodes)
    (hready : ∀ c ∈ nodes, 0 < degree c → degree' c = 0 → c ∈ queue') :
    Progress nodes parents (shown ++ [n]) queue' degree' := by
  refine ⟨fun c hc => ?_,fun c hc hzero => ?_,hknown⟩
  · have hold := h.degree_eq c hc
    have hnew := missing_append_singleton hn (parents c)
    have hstep := hdegree c hc
    omega
  · have hold := h.degree_eq c hc
    by_cases hpos : 0 < degree c
    · exact .inr (hready c hc hpos hzero)
    · have hwas : degree c = 0 := by omega
      rcases h.queued c hc hwas with hs | hq
      · exact .inl (List.mem_append_left _ hs)
      · rcases List.mem_cons.mp hq with rfl | hq
        · exact .inl (List.mem_append_right _ (List.mem_singleton_self _))
        · exact .inr (hqueue c hq)

theorem wellFounded_of_acyclic (h : Acyclic nodes parents) :
    WellFounded fun p c : {n // n ∈ nodes} => p.1 ∈ parents c.1 := by
  let r : {n // n ∈ nodes} → {n // n ∈ nodes} → Prop := fun p c => p.1 ∈ parents c.1
  have hlift : ∀ a b, Relation.TransGen r a b →
      Relation.TransGen (fun p c => c ∈ nodes ∧ p ∈ parents c) a.1 b.1 := fun a b hab =>
    hab.lift Subtype.val fun p c hpc => ⟨c.2,hpc⟩
  have hirrefl : Std.Irrefl (Relation.TransGen r) := ⟨fun a ha => h a.1 (hlift a a ha)⟩
  have hfinite : Finite {n // n ∈ nodes} := inferInstance
  have hwf : WellFounded (Relation.TransGen r) :=
    Finite.wellFounded_of_trans_of_irrefl _
  exact Subrelation.wf (fun hpc => Relation.TransGen.single hpc) hwf

/-- With the queue empty, a node that has not been shown has a parent that has not. -/
theorem Progress.complete (hacyclic : Acyclic nodes parents)
    (hclosed : ∀ c ∈ nodes, ∀ p ∈ parents c, p ∈ nodes) {shown : List ν} {degree : ν → Int}
    (h : Progress nodes parents shown [] degree) : ∀ n ∈ nodes, n ∈ shown := by
  have hall : ∀ c : {n // n ∈ nodes}, c.1 ∈ shown := fun c => by
    induction c using (wellFounded_of_acyclic hacyclic).induction with
    | _ c ih =>
      have hparents : missing shown (parents c.1) = 0 :=
        missing_eq_zero.mpr fun p hp => ih ⟨p,hclosed c.1 c.2 p hp⟩ hp
      have hzero : degree c.1 = 0 := by simp [h.degree_eq c.1 c.2,hparents]
      exact (h.queued c.1 c.2 hzero).resolve_right (List.not_mem_nil)
  exact fun n hn => hall ⟨n,hn⟩

variable {κ : Type*}

/-- The node has not been shown, and all its parents have. -/
structure Ready (nodes : List κ) (parents : κ → List κ) (shown : List κ) (n : κ) : Prop where
  node : n ∈ nodes
  fresh : n ∉ shown
  parents : ∀ p ∈ parents n, p ∈ shown

/-- What is shown after the nodes shown already: the least of the nodes that are ready, as
long as there is one. -/
inductive Canonical (lt : κ → κ → Prop) (nodes : List κ) (parents : κ → List κ) :
    List κ → List κ → Prop where
  | done {shown : List κ} (h : ∀ n, ¬Ready nodes parents shown n) :
    Canonical lt nodes parents shown []
  | next {shown rest : List κ} {n : κ} (hn : Ready nodes parents shown n)
    (hleast : ∀ m, Ready nodes parents shown m → m ≠ n → lt n m)
    (h : Canonical lt nodes parents (shown ++ [n]) rest) :
    Canonical lt nodes parents shown (n :: rest)

/-- A parent is shown before the node. -/
def Edge (nodes : List κ) (parents : κ → List κ) (p c : κ) : Prop := c ∈ nodes ∧ p ∈ parents c

/-- The node is on a cycle, or comes after one. -/
def Stuck (nodes : List κ) (parents : κ → List κ) (n : κ) : Prop :=
  ∃ m, Relation.TransGen (Edge nodes parents) m m ∧ Relation.ReflTransGen (Edge nodes parents) m n

section
variable {nodes : List κ} {parents : κ → List κ} {lt : κ → κ → Prop} {shown rest : List κ}

theorem Stuck.parent {n : κ} (h : Stuck nodes parents n) :
    ∃ p ∈ parents n, Stuck nodes parents p := by
  obtain ⟨m,hcycle,hreach⟩ := h
  obtain rfl | ⟨p,hmp,hpn⟩ := Relation.ReflTransGen.cases_tail hreach
  · obtain ⟨p,hmp,hpn⟩ := Relation.TransGen.tail'_iff.mp hcycle
    exact ⟨p,hpn.2,n,hcycle,hmp⟩
  · exact ⟨p,hpn.2,m,hcycle,hmp⟩

theorem Stuck.child {n p : κ} (hn : n ∈ nodes) (hp : p ∈ parents n)
    (h : Stuck nodes parents p) : Stuck nodes parents n := by
  obtain ⟨m,hcycle,hreach⟩ := h
  exact ⟨m,hcycle,hreach.tail ⟨hn,hp⟩⟩

theorem Canonical.unique (hlt : ∀ m n, lt m n → ¬lt n m)
    (h : Canonical lt nodes parents shown rest) {rest' : List κ}
    (h' : Canonical lt nodes parents shown rest') : rest = rest' := by
  induction h generalizing rest' with
  | done hnone =>
    cases h' with
    | done _ => rfl
    | next hn _ _ => exact absurd hn (hnone _)
  | @next shown rest n hn hleast _ ih =>
    cases h' with
    | done hnone => exact absurd hn (hnone _)
    | @next _ _ m hm hleast' h' =>
      have hsame : m = n := by
        by_contra hne
        exact hlt n m (hleast m hm hne) (hleast' n hn (Ne.symm hne))
      subst hsame
      rw [ih h']

/-- The order of the nodes and parents in the lists does not matter. -/
theorem Canonical.congr {nodes' : List κ} {parents' : κ → List κ}
    (hnodes : ∀ n, n ∈ nodes ↔ n ∈ nodes')
    (hparents : ∀ n ∈ nodes, ∀ p, p ∈ parents n ↔ p ∈ parents' n)
    (h : Canonical lt nodes parents shown rest) : Canonical lt nodes' parents' shown rest := by
  have hready {shown : List κ} {n : κ} :
      Ready nodes parents shown n ↔ Ready nodes' parents' shown n := by
    constructor
    · intro hn
      exact ⟨(hnodes n).mp hn.node,hn.fresh,fun p hp =>
        hn.parents p ((hparents n hn.node p).mpr hp)⟩
    · intro hn
      have hnode := (hnodes n).mpr hn.node
      exact ⟨hnode,hn.fresh,fun p hp => hn.parents p ((hparents n hnode p).mp hp)⟩
  induction h with
  | done hnone => exact .done fun n hn => hnone n (hready.mpr hn)
  | next hn hleast _ ih =>
    exact .next (hready.mp hn) (fun m hm => hleast m (hready.mpr hm)) ih

theorem Canonical.split (h : Canonical lt nodes parents shown rest) {before after : List κ}
    {n : κ} (hrest : rest = before ++ n :: after) :
    Ready nodes parents (shown ++ before) n ∧
      ∀ m, Ready nodes parents (shown ++ before) m → m ≠ n → lt n m := by
  induction h generalizing before with
  | done _ => simp at hrest
  | @next shown rest k hk hleast _ ih =>
    cases before with
    | nil =>
      obtain ⟨rfl,-⟩ := List.cons.inj hrest
      rw [List.append_nil]
      exact ⟨hk,hleast⟩
    | cons b before =>
      obtain ⟨rfl,htail⟩ := List.cons.inj hrest
      have hih := ih htail
      rwa [List.append_assoc] at hih

theorem Canonical.nodup (h : Canonical lt nodes parents shown rest) (hshown : shown.Nodup) :
    (shown ++ rest).Nodup := by
  induction h with
  | done _ => simpa using hshown
  | @next shown rest n hn _ _ ih =>
    have hsnoc : (shown ++ [n]).Nodup := by
      rw [List.nodup_append]
      refine ⟨hshown,List.nodup_singleton n,fun a ha b hb => ?_⟩
      rintro rfl
      exact hn.fresh (List.mem_singleton.mp hb ▸ ha)
    simpa using ih hsnoc

theorem Canonical.sound (h : Canonical lt nodes parents shown rest)
    (hshown : ∀ n ∈ shown, ¬Stuck nodes parents n) :
    ∀ n ∈ rest, n ∈ nodes ∧ ¬Stuck nodes parents n := by
  induction h with
  | done _ => simp
  | @next shown rest n hn _ _ ih =>
    have hfree : ¬Stuck nodes parents n := by
      intro hstuck
      obtain ⟨p,hp,hp'⟩ := hstuck.parent
      exact hshown p (hn.parents p hp) hp'
    intro k hk
    obtain rfl | hk := List.mem_cons.mp hk
    · exact ⟨hn.node,hfree⟩
    · refine ih (fun m hm => ?_) k hk
      obtain hm | hm := List.mem_append.mp hm
      · exact hshown m hm
      · exact List.mem_singleton.mp hm ▸ hfree

/-- At the end no node is ready. -/
theorem Canonical.final (h : Canonical lt nodes parents shown rest) :
    ∀ n, ¬Ready nodes parents (shown ++ rest) n := by
  induction h with
  | done hnone => simpa using hnone
  | next _ _ _ ih => simpa using ih

theorem Canonical.complete (hclosed : ∀ c ∈ nodes, ∀ p ∈ parents c, p ∈ nodes)
    (h : Canonical lt nodes parents shown rest) {n : κ} (hn : n ∈ nodes)
    (hfree : ¬Stuck nodes parents n) : n ∈ shown ++ rest := by
  classical
  let free := nodes.filter fun n => ¬Stuck nodes parents n
  have hmem {n : κ} : n ∈ free ↔ n ∈ nodes ∧ ¬Stuck nodes parents n := by
    simp [free,List.mem_filter]
  have hacyclic : Acyclic free parents := by
    intro m hcycle
    obtain ⟨p,-,hpm⟩ := Relation.TransGen.tail'_iff.mp hcycle
    have hlift : ∀ a b, b ∈ free ∧ a ∈ parents b → Edge nodes parents a b :=
      fun a b hab => ⟨(hmem.mp hab.1).1,hab.2⟩
    exact (hmem.mp hpm.1).2 ⟨m,Relation.TransGen.mono hlift _ _ hcycle,.refl⟩
  have hall : ∀ c : {n // n ∈ free}, c.1 ∈ shown ++ rest := fun c => by
    induction c using (wellFounded_of_acyclic hacyclic).induction with
    | _ c ih =>
      obtain ⟨hc,hcfree⟩ := hmem.mp c.2
      have hparents : ∀ p ∈ parents c.1, p ∈ shown ++ rest := fun p hp =>
        ih ⟨p,hmem.mpr ⟨hclosed c.1 hc p hp,fun hstuck => hcfree (hstuck.child hc hp)⟩⟩ hp
      by_contra hnot
      exact h.final c.1 ⟨hc,hnot,hparents⟩
  exact hall ⟨n,hmem.mpr ⟨hn,hfree⟩⟩

/-- The nodes that are shown are those that no cycle comes before. -/
theorem Canonical.mem_iff (hclosed : ∀ c ∈ nodes, ∀ p ∈ parents c, p ∈ nodes)
    (h : Canonical lt nodes parents [] rest) (n : κ) :
    n ∈ rest ↔ n ∈ nodes ∧ ¬Stuck nodes parents n :=
  ⟨h.sound (by simp) n,fun ⟨hn,hfree⟩ => by simpa using h.complete hclosed hn hfree⟩

end

end TopologicalSort
