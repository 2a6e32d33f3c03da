import AetherLite.Lib.TopologicalSort
import AetherLite.Logic.ThreadDAGManager

/-! When the order of a thread exists and has every post in it. -/
set_option autoImplicit false

namespace ThreadDAGManager

open Js Js.Val PacketBuilder

section
variable {ω : Type} (loc : JsLocale)

def ids (d : DAG ω) : List Val := (JsMap.values d.nodes).map DAGPost.packetId

/-- The parents in the DAG of the post with an id, none where there is no such post or its
parents are no array. -/
def parentsOf (d : DAG ω) (id : Val) : List Val :=
  match JsMap.get d.nodes id with
  | none => []
  | some n => (validParents d n).toOption.getD []

/-- No post is its own ancestor. -/
def Acyclic (d : DAG ω) : Prop := TopologicalSort.Acyclic (ids d) (parentsOf d)

/-- What the order asks of a post: an id that is no object, parents that can be filtered
and a time that can be written. -/
structure Sortable (n : DAGPost ω) : Prop where
  id : n.packetId.isObject = false
  parents : throws (elementsOf n.post.parents) = false
  createdAt : throws (n.post.createdAt.callToString loc.format) = false

structure Sound (d : DAG ω) : Prop extends Keyed d where
  sortable : ∀ n ∈ JsMap.values d.nodes, Sortable loc n
  acyclic : Acyclic d

/-- The comparison of the sort does not throw. -/
structure Orderable (d : DAG ω) : Prop extends Keyed d where
  sortable : ∀ n ∈ JsMap.values d.nodes, Sortable loc n

theorem Sound.orderable {loc : JsLocale} {d : DAG ω} (h : Sound loc d) : Orderable loc d :=
  ⟨h.toKeyed,h.sortable⟩

end

theorem beq_self_of_not_isObject {v : Val} (h : v.isObject = false) : (v == v) = true := by
  change sameValueZero v v = true
  cases v with
  | num n => cases n <;> simp [sameValueZero,strictEq,Number.strictEq]
  | bytes | date | arr | obj => cases h
  | _ => simp [sameValueZero,strictEq]

theorem throws_toStr_of_not_isObject (fmt : Format) {v : Val} (h : v.isObject = false) :
    throws (v.toStr fmt) = false := by
  cases v with
  | bytes | date | arr | obj => cases h
  | _ => simp [toStr]

section
variable {ω : Type} {loc : JsLocale} {d : DAG ω}

theorem Keyed.get_packetId (hd : Keyed d) {n : DAGPost ω} (hn : n ∈ JsMap.values d.nodes)
    (hself : (n.packetId == n.packetId) = true) : JsMap.get d.nodes n.packetId = some n := by
  obtain ⟨e,he,rfl⟩ := List.mem_map.mp hn
  have hkey := hd.key e he
  have hdistinct := hd.distinct
  unfold JsMap.keys at hdistinct
  generalize d.nodes = m at he hdistinct
  induction m with
  | nil => cases he
  | cons f m ih =>
    obtain ⟨hf,hm⟩ := List.pairwise_cons.mp hdistinct
    rcases List.mem_cons.mp he with rfl | he
    · simp [JsMap.get,hkey,hself]
    · have hne : (f.1 == e.2.packetId) = false :=
        hkey ▸ hf e.1 (List.mem_map_of_mem he)
      simp [JsMap.get,hne,ih he hm]

theorem Orderable.self (h : Orderable loc d) {n : DAGPost ω} (hn : n ∈ JsMap.values d.nodes) :
    (n.packetId == n.packetId) = true := beq_self_of_not_isObject (h.sortable n hn).id

theorem Orderable.get (h : Orderable loc d) {n : DAGPost ω} (hn : n ∈ JsMap.values d.nodes) :
    JsMap.get d.nodes n.packetId = some n := h.toKeyed.get_packetId hn (h.self hn)

theorem Orderable.node (h : Orderable loc d) {id : Val} (hid : id ∈ ids d) :
    ∃ n ∈ JsMap.values d.nodes, n.packetId = id ∧ JsMap.get d.nodes id = some n := by
  obtain ⟨n,hn,rfl⟩ := List.mem_map.mp hid
  exact ⟨n,hn,rfl,h.get hn⟩

/-- On the ids of a DAG the comparison of keys is equality. -/
theorem Orderable.beq_iff (h : Orderable loc d) {id : Val} (hid : id ∈ ids d) (v : Val) :
    (v == id) = true ↔ v = id := by
  obtain ⟨n,hn,rfl⟩ := List.mem_map.mp hid
  constructor
  · exact eq_of_beq
  · rintro rfl
    exact h.self hn

theorem mem_ids_of_has (hd : Keyed d) {v : Val} (h : JsMap.has d.nodes v = true) :
    v ∈ ids d := by
  obtain ⟨n,hn⟩ := Option.isSome_iff_exists.mp h
  have hid := (packetId_of_get hd hn).1
  exact hid ▸ List.mem_map_of_mem (JsMap.get_mem_values hn)

theorem Orderable.validParents (h : Orderable loc d) {n : DAGPost ω} (hn : n ∈ JsMap.values d.nodes) :
    ThreadDAGManager.validParents d n = .ok (parentsOf d n.packetId) := by
  obtain ⟨ps,hps⟩ := throws_eq_false (h.sortable n hn).parents
  have hv : ThreadDAGManager.validParents d n = .ok (ps.filter fun p => JsMap.has d.nodes p) := by
    simp [ThreadDAGManager.validParents,hps,bind,Except.bind]
  have hparents : parentsOf d n.packetId = ps.filter fun p => JsMap.has d.nodes p := by
    simp only [parentsOf,h.get hn,hv]
    rfl
  rw [hv,hparents]

theorem Orderable.parentsOf_mem (h : Orderable loc d) {id p : Val} (hid : id ∈ ids d)
    (hp : p ∈ parentsOf d id) : p ∈ ids d := by
  obtain ⟨n,hn,rfl,-⟩ := h.node hid
  obtain ⟨ps,-,hv⟩ := bind_ok (h.validParents hn)
  rw [← Except.ok.inj hv] at hp
  exact mem_ids_of_has h.toKeyed (List.mem_filter.mp hp).2

theorem Orderable.tieBreakerValue (h : Orderable loc d) {id : Val} (hid : id ∈ ids d) :
    throws (tieBreakerValue loc d id) = false := by
  obtain ⟨n,hn,-,hg⟩ := h.node hid
  obtain ⟨t,ht⟩ := throws_eq_false (h.sortable n hn).createdAt
  obtain ⟨u,hu⟩ := throws_eq_false (throws_toStr_of_not_isObject loc.format (h.sortable n hn).id)
  simp [ThreadDAGManager.tieBreakerValue,hg,ht,hu,bind,Except.bind]

theorem Orderable.sortQueue (h : Orderable loc d) {queue : List Val} (hq : ∀ id ∈ queue, id ∈ ids d) :
    ∃ sorted, sortQueue loc d queue = .ok sorted := by
  apply throws_eq_false
  unfold ThreadDAGManager.sortQueue
  split
  · rfl
  · have hkeyed : throws (queue.mapM fun id => do
        .ok (← ThreadDAGManager.tieBreakerValue loc d id,id)) = false := by
      rw [throws_mapM,List.any_eq_false]
      intro id hid
      obtain ⟨t,ht⟩ := throws_eq_false (h.tieBreakerValue (hq id hid))
      simp [ht,bind,Except.bind]
    obtain ⟨keyed,hk⟩ := throws_eq_false hkeyed
    rw [hk]
    rfl

/-- Different posts of the DAG, as many as it has, are all of them. -/
theorem mem_of_length {posts : List (DAGPost ω)}
    (hposts : ∀ n ∈ posts, n ∈ JsMap.values d.nodes) (hnodup : posts.Nodup)
    (hlength : posts.length = (JsMap.values d.nodes).length) :
    ∀ n ∈ JsMap.values d.nodes, n ∈ posts := by
  have hp := (List.subperm_of_subset hnodup hposts).perm_of_length_le hlength.ge
  exact fun n hn => hp.symm.subset hn

section Links
open scoped Classical

/-- The children of a post, each as often as it names the post. -/
def childrenOf (l : Links) (id : Val) : List Val := (JsMap.get l.childrenMap id).getD []

def degreeOf (inDegree : JsMap Val Int) (id : Val) : Int := (JsMap.get inDegree id).getD 0

theorem get_addChild (childId : Val) (m : JsMap Val (List Val)) (ps : List Val) (id : Val) :
    (JsMap.get (ps.foldl (addChild childId) m) id).getD [] =
      (JsMap.get m id).getD [] ++ (ps.filter fun p => p == id).map fun _ => childId := by
  induction ps generalizing m with
  | nil => simp
  | cons p ps ih =>
    rw [List.foldl_cons,ih,addChild,JsMap.get_set]
    by_cases hp : (p == id) = true
    · simp [hp,JsMap.get_congr m hp]
    · simp [hp]

theorem degreeOf_set {inDegree : JsMap Val Int} {id c : Val} (hself : (c == c) = true)
    (degree : Int) : degreeOf (JsMap.set inDegree id degree) c =
      if id = c then degree else degreeOf inDegree c := by
  unfold degreeOf
  rw [JsMap.get_set]
  by_cases hc : id = c
  · simp [hc,hself]
  · have hne : (id == c) = false := by
      by_contra h
      exact hc (eq_of_beq (by simpa using h))
    simp [hc,hne]

variable (h : Orderable loc d)
include h

theorem Orderable.links {ns : List (DAGPost ω)} (hns : ∀ n ∈ ns, n ∈ JsMap.values d.nodes)
    (hdistinct : ns.Pairwise fun m n => m.packetId ≠ n.packetId) (l : Links) :
    ∃ l', links d ns l = .ok l' ∧
      (∀ id ∈ ids d, (∀ n ∈ ns, n.packetId ≠ id) → degreeOf l'.inDegree id = degreeOf l.inDegree id) ∧
      (∀ n ∈ ns, degreeOf l'.inDegree n.packetId = (parentsOf d n.packetId).length) ∧
      ∀ id, childrenOf l' id = childrenOf l id ++ ns.flatMap fun n =>
        ((parentsOf d n.packetId).filter fun p => p == id).map fun _ => n.packetId := by
  induction ns generalizing l with
  | nil => exact ⟨l,rfl,fun _ _ _ => rfl,nofun,by simp⟩
  | cons n ns ih =>
    obtain ⟨hn,hns'⟩ := List.forall_mem_cons.mp hns
    obtain ⟨hne,hd⟩ := List.pairwise_cons.mp hdistinct
    obtain ⟨l',hl',hold,hnew,hchildren⟩ := ih hns' hd {
      inDegree := JsMap.set l.inDegree n.packetId (parentsOf d n.packetId).length
      childrenMap := (parentsOf d n.packetId).foldl (addChild n.packetId) l.childrenMap }
    have hnid : n.packetId ∈ ids d := List.mem_map_of_mem hn
    refine ⟨l',?_,fun id hid hnot => ?_,fun m hm => ?_,fun id => ?_⟩
    · simp only [ThreadDAGManager.links,h.validParents hn,bind,Except.bind]
      exact hl'
    · obtain ⟨m,hm,rfl,-⟩ := h.node hid
      obtain ⟨hhead,htail⟩ := List.forall_mem_cons.mp hnot
      rw [hold _ hid htail,degreeOf_set (h.self hm),if_neg hhead]
    · rcases List.mem_cons.mp hm with rfl | hm
      · rw [hold _ hnid fun k hk => (hne k hk).symm,degreeOf_set (h.self hn),if_pos rfl]
      · exact hnew m hm
    · have hhead : childrenOf { inDegree := JsMap.set l.inDegree n.packetId (parentsOf d n.packetId).length
                                childrenMap := (parentsOf d n.packetId).foldl
                                  (addChild n.packetId) l.childrenMap } id =
          childrenOf l id ++
            ((parentsOf d n.packetId).filter fun p => p == id).map fun _ => n.packetId :=
        get_addChild _ _ _ id
      rw [hchildren id,hhead,List.flatMap_cons,List.append_assoc]

/-- The count of a post among the children of another is the count of the other among its
parents. -/
theorem Orderable.count_children {ns : List (DAGPost ω)} (hns : ∀ n ∈ ns, n ∈ JsMap.values d.nodes)
    (hdistinct : ns.Pairwise fun m n => m.packetId ≠ n.packetId) {id : Val} (hid : id ∈ ids d)
    (c : DAGPost ω) (hc : c ∈ ns) :
    (ns.flatMap fun n => ((parentsOf d n.packetId).filter fun p => p == id).map fun _ =>
      n.packetId).countP (fun v => v = c.packetId) =
        (parentsOf d c.packetId).countP fun p => p = id := by
  have hfilter : ∀ ps : List Val, (ps.filter fun p => p == id).length =
      ps.countP fun p => p = id := by
    intro ps
    rw [List.countP_eq_length_filter]
    congr 2
    funext p
    exact Bool.eq_iff_iff.mpr ((h.beq_iff hid p).trans decide_eq_true_iff.symm)
  have hother : ∀ ms : List (DAGPost ω), (∀ m ∈ ms, m.packetId ≠ c.packetId) →
      (ms.flatMap fun n => ((parentsOf d n.packetId).filter fun p => p == id).map fun _ =>
        n.packetId).countP (fun v => v = c.packetId) = 0 := by
    intro ms hms
    rw [List.countP_eq_zero]
    intro v hv
    obtain ⟨m,hm,hv⟩ := List.mem_flatMap.mp hv
    obtain ⟨p,-,rfl⟩ := List.mem_map.mp hv
    simpa using hms m hm
  induction ns with
  | nil => cases hc
  | cons n ns ih =>
    obtain ⟨hne,hd⟩ := List.pairwise_cons.mp hdistinct
    rw [List.flatMap_cons,List.countP_append]
    rcases List.mem_cons.mp hc with rfl | hc
    · rw [hother ns fun m hm => (hne m hm).symm,List.countP_map,List.countP_eq_length.mpr (by simp),
        hfilter]
      rfl
    · have hzero : (((parentsOf d n.packetId).filter fun p => p == id).map fun _ =>
          n.packetId).countP (fun v => v = c.packetId) = 0 := by
        have hn := hother [n] (by simpa using hne c hc)
        simpa only [List.flatMap_singleton] using hn
      rw [hzero,ih (List.forall_mem_cons.mp hns).2 hd hc]
      omega

end Links

section Drain
open scoped Classical

/-- What the loop over the children does to the degrees and the queue. -/
structure Released (d : DAG ω) (children queue queue' : List Val)
    (inDegree inDegree' : JsMap Val Int) : Prop where
  degree : ∀ c ∈ ids d, degreeOf inDegree' c =
    degreeOf inDegree c - children.countP fun v => v = c
  kept : ∀ c ∈ queue, c ∈ queue'
  known : ∀ c ∈ queue', c ∈ ids d
  ready : ∀ c ∈ ids d, 0 < degreeOf inDegree c → degreeOf inDegree' c = 0 → c ∈ queue'

variable (h : Orderable loc d)
include h

theorem Orderable.releaseChildren {children queue : List Val} {inDegree : JsMap Val Int}
    (hchildren : ∀ c ∈ children, c ∈ ids d) (hqueue : ∀ c ∈ queue, c ∈ ids d) :
    ∃ inDegree' queue', releaseChildren loc d children inDegree queue = .ok (inDegree',queue') ∧
      Released d children queue queue' inDegree inDegree' := by
  induction children generalizing queue inDegree with
  | nil =>
    refine ⟨inDegree,queue,rfl,by simp,fun c hc => hc,hqueue,?_⟩
    intro c _ hpos hzero
    omega
  | cons childId children ih =>
    obtain ⟨hchild,hrest⟩ := List.forall_mem_cons.mp hchildren
    have hset : ∀ c ∈ ids d, degreeOf (JsMap.set inDegree childId (degreeOf inDegree childId-1)) c =
        degreeOf inDegree c - if childId = c then 1 else 0 := by
      intro c hc
      rw [degreeOf_set ((h.beq_iff hc c).mpr rfl)]
      split
      · next heq => rw [heq]
      · omega
    -- The child enters the queue when its degree has come to zero.
    obtain ⟨sorted,hstep,hsub,hknown,hready⟩ : ∃ sorted,
        ThreadDAGManager.releaseChildren loc d (childId :: children) inDegree queue =
          ThreadDAGManager.releaseChildren loc d children
            (JsMap.set inDegree childId (degreeOf inDegree childId-1)) sorted ∧
        (∀ c ∈ queue, c ∈ sorted) ∧ (∀ c ∈ sorted, c ∈ ids d) ∧
          (degreeOf inDegree childId-1 = 0 → childId ∈ sorted) := by
      by_cases hzero : degreeOf inDegree childId-1 = 0
      · have happend : ∀ c ∈ queue ++ [childId], c ∈ ids d := fun c hc => by
          rcases List.mem_append.mp hc with hc | hc
          · exact hqueue c hc
          · exact List.mem_singleton.mp hc ▸ hchild
        obtain ⟨sorted,hs⟩ := h.sortQueue happend
        have hp := sortQueue_perm hs
        refine ⟨sorted,?_,fun c hc => ?_,fun c hc => happend c (hp.subset hc),fun _ => ?_⟩
        · unfold degreeOf at hzero ⊢
          simp only [ThreadDAGManager.releaseChildren,hzero,if_true,hs,bind,Except.bind]
        · exact hp.symm.subset (List.mem_append_left _ hc)
        · exact hp.symm.subset (List.mem_append_right _ (List.mem_singleton_self _))
      · refine ⟨queue,?_,fun c hc => hc,hqueue,fun hz => absurd hz hzero⟩
        unfold degreeOf at hzero ⊢
        simp only [ThreadDAGManager.releaseChildren,hzero,if_false]
    obtain ⟨inDegree',queue',hr,hrel⟩ : ∃ inDegree' queue',
        ThreadDAGManager.releaseChildren loc d children
          (JsMap.set inDegree childId (degreeOf inDegree childId-1)) sorted = .ok (inDegree',queue') ∧
        Released d children sorted queue'
          (JsMap.set inDegree childId (degreeOf inDegree childId-1)) inDegree' := ih hrest hknown
    refine ⟨inDegree',queue',hstep.trans hr,fun c hc => ?_,fun c hc => hrel.kept c (hsub c hc),
      hrel.known,fun c hc hpos hzero => ?_⟩
    · rw [hrel.degree c hc,hset c hc,List.countP_cons]
      simp only [decide_eq_true_eq]
      split <;> omega
    · by_cases hlast : childId = c ∧ degreeOf inDegree childId-1 = 0
      · exact hrel.kept c (hlast.1 ▸ hready hlast.2)
      · refine hrel.ready c hc ?_ hzero
        rw [hset c hc]
        split
        · next heq =>
          subst heq
          have hne : degreeOf inDegree childId-1 ≠ 0 := fun hz => hlast ⟨rfl,hz⟩
          omega
        · omega

theorem Orderable.mem_of_ids {posts : List (DAGPost ω)}
    (hposts : ∀ n ∈ posts, n ∈ JsMap.values d.nodes)
    (hids : ∀ id ∈ ids d, id ∈ posts.map DAGPost.packetId) :
    ∀ n ∈ JsMap.values d.nodes, n ∈ posts := by
  intro n hn
  obtain ⟨m,hm,hid⟩ := List.mem_map.mp (hids _ (List.mem_map_of_mem hn))
  have hm' := h.get (hposts m hm)
  rw [hid,h.get hn] at hm'
  exact Option.some.inj hm' ▸ hm

/-- The state of the loop over the queue. -/
structure Loop (d : DAG ω) (queue : List Val) (inDegree : JsMap Val Int)
    (result : List (DAGPost ω)) : Prop where
  progress : TopologicalSort.Progress (ids d) (parentsOf d) (result.map DAGPost.packetId) queue
    (degreeOf inDegree)
  enqueued : Enqueued inDegree (result.map DAGPost.packetId ++ queue)
  known : ∀ n ∈ result, n ∈ JsMap.values d.nodes

omit h in
theorem Loop.not_shown {currentId : Val} {queue : List Val} {inDegree : JsMap Val Int}
    {result : List (DAGPost ω)} (hloop : Loop d (currentId :: queue) inDegree result)
    (hself : (currentId == currentId) = true) : currentId ∉ result.map DAGPost.packetId := by
  intro hmem
  have hne := (List.pairwise_append.mp hloop.enqueued.distinct).2.2 _ hmem _ List.mem_cons_self
  rw [hself] at hne
  cases hne

/-- The links that `links` makes. -/
structure Linked (d : DAG ω) (l : Links) : Prop where
  count : ∀ id ∈ ids d, ∀ c ∈ ids d,
    (childrenOf l id).countP (fun v => v = c) = (parentsOf d c).countP fun p => p = id
  children : ∀ id, ∀ c ∈ childrenOf l id, c ∈ ids d

/-- Each turn of the loop shows a post that has not been shown. -/
theorem Orderable.turn {l : Links} (hlinked : Linked d l) {currentId : Val} {queue : List Val}
    {inDegree : JsMap Val Int} {result : List (DAGPost ω)}
    (hloop : Loop d (currentId :: queue) inDegree result) :
    ∃ currentNode inDegree' queue', JsMap.get d.nodes currentId = some currentNode ∧
      currentNode.packetId = currentId ∧
      ThreadDAGManager.releaseChildren loc d ((JsMap.get l.childrenMap currentId).getD []) inDegree
        queue = .ok (inDegree',queue') ∧ Loop d queue' inDegree' (result ++ [currentNode]) := by
  have hcurrent := hloop.progress.known currentId List.mem_cons_self
  obtain ⟨currentNode,hnode,hid,hget⟩ := h.node hcurrent
  obtain ⟨inDegree',queue',hr,hrel⟩ : ∃ inDegree' queue',
      ThreadDAGManager.releaseChildren loc d (childrenOf l currentId) inDegree queue =
        .ok (inDegree',queue') ∧
      Released d (childrenOf l currentId) queue queue' inDegree inDegree' :=
    h.releaseChildren (hlinked.children currentId) fun c hc =>
      hloop.progress.known c (List.mem_cons_of_mem _ hc)
  have hshown := hloop.not_shown ((h.beq_iff hcurrent currentId).mpr rfl)
  have hmap : (result ++ [currentNode]).map DAGPost.packetId =
      result.map DAGPost.packetId ++ [currentId] := by simp [hid]
  refine ⟨currentNode,inDegree',queue',hget,hid,hr,?_,?_,?_⟩
  · rw [hmap]
    refine hloop.progress.release hshown (fun c hc => ?_) hrel.kept hrel.known hrel.ready
    rw [hrel.degree c hc,hlinked.count currentId hcurrent c hc]
  · have hshift : Enqueued inDegree ((result ++ [currentNode]).map DAGPost.packetId ++ queue) := by
      rw [hmap,List.append_assoc]
      exact hloop.enqueued
    exact hshift.releaseChildren hr
  · intro n hn
    obtain hn | hn := List.mem_append.mp hn
    · exact hloop.known n hn
    · exact List.mem_singleton.mp hn ▸ hnode

omit h in
/-- The loop ends when the queue is empty or every post has been shown. -/
theorem Sound.drain (h : Sound loc d) {l : Links} (hlinked : Linked d l) {fuel : Nat}
    {queue : List Val} {inDegree : JsMap Val Int} {result : List (DAGPost ω)}
    (hloop : Loop d queue inDegree result)
    (hfuel : fuel + result.length = (JsMap.values d.nodes).length) :
    ∃ posts, drain loc d l fuel queue inDegree result = .ok posts ∧
      ∀ n ∈ JsMap.values d.nodes, n ∈ posts := by
  induction fuel generalizing queue inDegree result with
  | zero =>
    have hnodup := nodup_of_distinct hloop.enqueued fun n hn => h.orderable.self (hloop.known n hn)
    exact ⟨result,rfl,mem_of_length hloop.known hnodup (by omega)⟩
  | succ fuel ih =>
    cases queue with
    | nil =>
      have hids := hloop.progress.complete h.acyclic fun c hc p hp => h.orderable.parentsOf_mem hc hp
      exact ⟨result,rfl,h.orderable.mem_of_ids hloop.known hids⟩
    | cons currentId queue =>
      obtain ⟨currentNode,inDegree',queue',hget,-,hr,hnext⟩ := h.orderable.turn hlinked hloop
      obtain ⟨posts,hp,hall⟩ := ih hnext (by
        simp only [List.length_append,List.length_singleton]
        omega)
      refine ⟨posts,?_,hall⟩
      simp only [ThreadDAGManager.drain,hget,hr,bind,Except.bind]
      exact hp

end Drain

/-- The posts without a parent in the DAG. -/
def roots (d : DAG ω) (l : Links) : List Val :=
  ((JsMap.values d.nodes).filter fun n => (JsMap.get l.inDegree n.packetId).getD 0 = 0).map
    DAGPost.packetId

theorem Orderable.mem_roots (h : Orderable loc d) (l : Links) (id : Val) :
    id ∈ roots d l ↔ id ∈ ids d ∧ degreeOf l.inDegree id = 0 := by
  constructor
  · intro hid
    obtain ⟨n,hn,rfl⟩ := List.mem_map.mp hid
    obtain ⟨hn,hzero⟩ := List.mem_filter.mp hn
    exact ⟨List.mem_map_of_mem hn,of_decide_eq_true hzero⟩
  · intro ⟨hid,hzero⟩
    obtain ⟨n,hn,rfl,-⟩ := h.node hid
    exact List.mem_map_of_mem (List.mem_filter.mpr ⟨hn,decide_eq_true hzero⟩)

theorem Orderable.distinct_ids (h : Orderable loc d) :
    (JsMap.values d.nodes).Pairwise fun m n => m.packetId ≠ n.packetId := by
  have hkeys : (JsMap.values d.nodes).map DAGPost.packetId = JsMap.keys d.nodes := by
    simp only [JsMap.values,JsMap.keys,List.map_map]
    exact List.map_congr_left fun e he => (h.key e he).symm
  have hd := List.pairwise_map.mp (hkeys ▸ h.distinct)
  refine hd.imp_of_mem fun {m n} hm _ hne heq => ?_
  rw [← heq,h.self hm] at hne
  cases hne

theorem Orderable.enqueued_roots (h : Orderable loc d) (l : Links) : Enqueued l.inDegree (roots d l) := by
  refine ⟨?_,fun id hid => ((h.mem_roots l id).mp hid).2.le⟩
  have hsub : ((JsMap.values d.nodes).filter fun n =>
      (JsMap.get l.inDegree n.packetId).getD 0 = 0).Pairwise fun m n => m.packetId ≠ n.packetId :=
    h.distinct_ids.sublist List.filter_sublist
  refine List.pairwise_map.mpr (hsub.imp fun {m n} hne => ?_)
  by_contra heq
  exact hne (eq_of_beq (by simpa using heq))

section
open scoped Classical

theorem Orderable.linked (h : Orderable loc d) :
    ∃ l, ThreadDAGManager.links d (JsMap.values d.nodes) {} = .ok l ∧ Linked d l ∧
      ∀ n ∈ JsMap.values d.nodes,
        degreeOf l.inDegree n.packetId = (parentsOf d n.packetId).length := by
  obtain ⟨l,hl,-,hdegree,hlist⟩ := h.links (fun n hn => hn) h.distinct_ids {}
  have hchildren : ∀ id, childrenOf l id = (JsMap.values d.nodes).flatMap fun n =>
      ((parentsOf d n.packetId).filter fun p => p == id).map fun _ => n.packetId := hlist
  refine ⟨l,hl,⟨fun id hid c hc => ?_,fun id c hc => ?_⟩,hdegree⟩
  · obtain ⟨n,hn,rfl,-⟩ := h.node hc
    rw [hchildren]
    exact h.count_children (fun n hn => hn) h.distinct_ids hid n hn
  · rw [hchildren] at hc
    obtain ⟨n,hn,hc⟩ := List.mem_flatMap.mp hc
    obtain ⟨p,-,rfl⟩ := List.mem_map.mp hc
    exact List.mem_map_of_mem hn

/-- The loop begins with the posts that have no parent. -/
theorem Orderable.start (h : Orderable loc d) :
    ∃ l queue, ThreadDAGManager.links d (JsMap.values d.nodes) {} = .ok l ∧ Linked d l ∧
      ThreadDAGManager.sortQueue loc d (roots d l) = .ok queue ∧ Loop d queue l.inDegree [] := by
  obtain ⟨l,hl,hlinked,hdegree⟩ := h.linked
  obtain ⟨queue,hq⟩ := h.sortQueue fun id hid => ((h.mem_roots l id).mp hid).1
  have hp := sortQueue_perm hq
  refine ⟨l,queue,hl,hlinked,hq,⟨fun id hid => ?_,fun id hid hzero => ?_,fun id hid => ?_⟩,
    (h.enqueued_roots l).perm hp,fun n hn => by cases hn⟩
  · obtain ⟨n,hn,rfl,-⟩ := h.node hid
    have hall : TopologicalSort.missing [] (parentsOf d n.packetId) =
        (parentsOf d n.packetId).length := by
      simp [TopologicalSort.missing]
    rw [hdegree n hn]
    exact congrArg Nat.cast hall.symm
  · exact .inr (hp.symm.subset ((h.mem_roots l id).mpr ⟨hid,hzero⟩))
  · exact ((h.mem_roots l id).mp (hp.subset hid)).1

/-- What the loop returns is the order. -/
theorem getSortedPosts_eq {l : Links} {queue : List Val} {posts : List (DAGPost ω)}
    (hl : links d (JsMap.values d.nodes) {} = .ok l) (hq : sortQueue loc d (roots d l) = .ok queue)
    (hposts : drain loc d l (JsMap.values d.nodes).length queue l.inDegree [] = .ok posts) :
    getSortedPosts loc d = .ok posts := by
  unfold getSortedPosts
  dsimp only
  split
  · next hempty =>
    rw [List.isEmpty_iff.mp hempty] at hposts
    exact hposts
  have hq' : sortQueue loc d (((JsMap.values d.nodes).filter fun n =>
    (JsMap.get l.inDegree n.packetId).getD 0 = 0).map DAGPost.packetId) = .ok queue := hq
  simp only [hl,hq',bind,Except.bind]
  exact hposts

/-- The order of a sound DAG exists and has every post in it. -/
theorem getSortedPosts_complete (h : Sound loc d) :
    ∃ posts, getSortedPosts loc d = .ok posts ∧ ∀ n ∈ JsMap.values d.nodes, n ∈ posts := by
  obtain ⟨l,queue,hl,hlinked,hq,hloop⟩ := h.orderable.start
  obtain ⟨posts,hposts,hall⟩ : ∃ posts,
      ThreadDAGManager.drain loc d l (JsMap.values d.nodes).length queue l.inDegree [] = .ok posts ∧
        ∀ n ∈ JsMap.values d.nodes, n ∈ posts := h.drain hlinked hloop rfl
  exact ⟨posts,getSortedPosts_eq hl hq hposts,hall⟩

end

end

end ThreadDAGManager
