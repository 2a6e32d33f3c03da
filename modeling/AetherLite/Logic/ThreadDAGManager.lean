import AetherLite.Lib.JsOps
import AetherLite.Crypto.PacketBuilder

/-! The posts of a thread and the order they are shown in. -/
set_option autoImplicit false

namespace ThreadDAGManager

open Js Js.Val PacketBuilder

/-- How the platform writes Numbers and orders strings. -/
structure JsLocale where
  format : Format
  compare : String → String → Ordering

/-- A post with the id of its packet, and whatever the owner of the DAG keeps with it. -/
structure DAGPost (ω : Type) where
  packetId : Val
  post : Post
  origin : ω

structure DAG (ω : Type) where
  threadId : String
  nodes : JsMap Val (DAGPost ω) := []

section
variable {ω : Type}

/-- `addPost`, none when it returns false. -/
def addPost (d : DAG ω) (p : DAGPost ω) : Option (DAG ω) :=
  if JsMap.has d.nodes p.packetId then none
  else if !p.post.threadId.strictEq (.str d.threadId) then none
  else some { d with nodes := JsMap.set d.nodes p.packetId p }

def noMethod : Thrown := .typeError "is not a function"

/-- The elements of an array; `filter` and `forEach` exist on nothing else here. A
Uint8Array has them too. -/
def elementsOf : Val → Except Thrown (List Val)
  | .arr xs => .ok xs
  | .bytes bs => .ok (bs.map fun b => .num (Number.ofNat b.toNat))
  | _ => .error noMethod

def padStart15 (s : String) : String :=
  String.ofList (List.replicate (15-utf16Length s) '0') ++ s

variable (loc : JsLocale)

def tieBreakerValue (d : DAG ω) (id : Val) : Except Thrown String :=
  match JsMap.get d.nodes id with
  | none => .error (.typeError "Cannot read properties of undefined")
  | some n => do
    let createdAt ← n.post.createdAt.callToString loc.format
    .ok (padStart15 createdAt ++ "_" ++ (← n.packetId.toStr loc.format))

/-- A queue of fewer than two ids is sorted without a comparison. -/
def sortQueue (d : DAG ω) (queue : List Val) : Except Thrown (List Val) :=
  if queue.length < 2 then .ok queue
  else do
    let keyed ← queue.mapM fun id => do .ok (← tieBreakerValue loc d id,id)
    .ok ((keyed.mergeSort fun a b => loc.compare a.1 b.1 ≠ .gt).map Prod.snd)

/-- The parents of a post that are in the DAG. -/
def validParents (d : DAG ω) (n : DAGPost ω) : Except Thrown (List Val) := do
  .ok ((← elementsOf n.post.parents).filter fun p => JsMap.has d.nodes p)

structure Links where
  inDegree : JsMap Val Int := []
  childrenMap : JsMap Val (List Val) := []

def addChild (childId : Val) (m : JsMap Val (List Val)) (parent : Val) : JsMap Val (List Val) :=
  JsMap.set m parent ((JsMap.get m parent).getD [] ++ [childId])

def links (d : DAG ω) : List (DAGPost ω) → Links → Except Thrown Links
  | [], l => .ok l
  | n :: ns, l => do
    let parents ← validParents d n
    links d ns {
      inDegree := JsMap.set l.inDegree n.packetId parents.length
      childrenMap := parents.foldl (addChild n.packetId) l.childrenMap }

/-- The children of a shown post: one parent less each, into the queue at none. -/
def releaseChildren (d : DAG ω) :
    List Val → JsMap Val Int → List Val → Except Thrown (JsMap Val Int × List Val)
  | [], inDegree, queue => .ok (inDegree,queue)
  | childId :: children, inDegree, queue =>
    let newDegree := (JsMap.get inDegree childId).getD 0-1
    let inDegree := JsMap.set inDegree childId newDegree
    if newDegree = 0 then do
      releaseChildren d children inDegree (← sortQueue loc d (queue ++ [childId]))
    else releaseChildren d children inDegree queue

/-- The loop over the queue. A post enters the queue once, so there are as many turns
as posts. -/
def drain (d : DAG ω) (l : Links) :
    Nat → List Val → JsMap Val Int → List (DAGPost ω) → Except Thrown (List (DAGPost ω))
  | 0, _, _, result => .ok result
  | _+1, [], _, result => .ok result
  | fuel+1, currentId :: queue, inDegree, result =>
    match JsMap.get d.nodes currentId with
    | none => .error (.typeError "Cannot read properties of undefined")
    | some currentNode => do
      let (inDegree,queue) ←
        releaseChildren loc d ((JsMap.get l.childrenMap currentId).getD []) inDegree queue
      drain d l fuel queue inDegree (result ++ [currentNode])

def getSortedPosts (d : DAG ω) : Except Thrown (List (DAGPost ω)) :=
  let all := JsMap.values d.nodes
  if all.isEmpty then .ok []
  else do
    let l ← links d all {}
    let roots := all.filter fun n => (JsMap.get l.inDegree n.packetId).getD 0 = 0
    let queue ← sortQueue loc d (roots.map DAGPost.packetId)
    drain loc d l all.length queue l.inDegree []

/-- The parents named by any post. -/
def namedParents : List (DAGPost ω) → Except Thrown (List Val)
  | [] => .ok []
  | n :: ns => do
    let parents ← elementsOf n.post.parents
    .ok (parents ++ (← namedParents ns))

/-- The order of two tips: the difference of their weights, else of their times. -/
def tipOrder (a b : DAGPost ω) : Except Thrown Number := do
  let weight ← b.post.cumulativePow.minus a.post.cumulativePow
  if weight.truthy then .ok weight else b.post.createdAt.minus a.post.createdAt

/-- Insertion by the comparison, stable as `sort` is. -/
def insertTip (t : DAGPost ω) : List (DAGPost ω) → Except Thrown (List (DAGPost ω))
  | [] => .ok [t]
  | u :: us => do
    if (Number.fin 0).lt (← tipOrder t u) then .ok (u :: (← insertTip t us))
    else .ok (t :: u :: us)

def sortTips : List (DAGPost ω) → Except Thrown (List (DAGPost ω))
  | [] => .ok []
  | t :: ts => do insertTip t (← sortTips ts)

/-- The ids of up to two posts that are nobody's parent. -/
def getTips (d : DAG ω) : Except Thrown (List Val) := do
  let all := JsMap.values d.nodes
  let hasChildren ← namedParents all
  let tips := all.filter fun n => !hasChildren.any (· == n.packetId)
  .ok (((← sortTips tips).take 2).map DAGPost.packetId)

/-- The greatest weight, as the comparison `>` finds it. -/
def maxPowFrom (max : Val) : List (DAGPost ω) → Except Thrown Val
  | [] => .ok max
  | n :: ns => do
    if ← max.lessThan loc.format n.post.cumulativePow then maxPowFrom n.post.cumulativePow ns
    else maxPowFrom max ns

def getMaxCumulativePow (d : DAG ω) : Except Thrown Val :=
  maxPowFrom loc (.num (.fin 0)) (JsMap.values d.nodes)

end

section
variable {ω : Type} {loc : JsLocale}

theorem mem_of_addPost {d d' : DAG ω} {q n : DAGPost ω} (h : addPost d q = some d')
    (hn : n ∈ JsMap.values d'.nodes) : n = q ∨ n ∈ JsMap.values d.nodes := by
  unfold addPost at h
  split at h
  · cases h
  split at h
  · cases h
  · cases h
    exact JsMap.mem_values_set hn

theorem addPost_threadId {d d' : DAG ω} {q : DAGPost ω} (h : addPost d q = some d') :
    d'.threadId = d.threadId ∧ q.post.threadId.strictEq (.str d.threadId) = true := by
  unfold addPost at h
  split at h
  · cases h
  split at h
  · cases h
  · next hs =>
    cases h
    exact ⟨rfl,by simpa using hs⟩

theorem mem_of_drain {d : DAG ω} {l : Links} {fuel : Nat} {queue : List Val}
    {inDegree : JsMap Val Int} {result posts : List (DAGPost ω)}
    (h : drain loc d l fuel queue inDegree result = .ok posts) :
    ∀ n ∈ posts, n ∈ result ∨ n ∈ JsMap.values d.nodes := by
  induction fuel generalizing queue inDegree result with
  | zero =>
    cases h
    exact fun n hn => .inl hn
  | succ fuel ih =>
    cases queue with
    | nil =>
      cases h
      exact fun n hn => .inl hn
    | cons currentId queue =>
      unfold drain at h
      cases hg : JsMap.get d.nodes currentId with
      | none => simp [hg] at h
      | some currentNode =>
        simp only [hg] at h
        cases hr : releaseChildren loc d ((JsMap.get l.childrenMap currentId).getD [])
            inDegree queue with
        | error e => simp [hr,bind,Except.bind] at h
        | ok r =>
          simp only [hr,bind,Except.bind] at h
          intro n hn
          rcases ih h n hn with hn | hn
          · rcases List.mem_append.mp hn with hn | hn
            · exact .inl hn
            · rw [List.mem_singleton.mp hn]
              exact .inr (JsMap.get_mem_values hg)
          · exact .inr hn

/-- Nothing is shown that was not added. -/
theorem mem_of_getSortedPosts {d : DAG ω} {posts : List (DAGPost ω)}
    (h : getSortedPosts loc d = .ok posts) : ∀ n ∈ posts, n ∈ JsMap.values d.nodes := by
  unfold getSortedPosts at h
  dsimp only at h
  split at h
  · cases h
    intro n hn
    cases hn
  cases hl : links d (JsMap.values d.nodes) {} with
  | error e => simp [hl,bind,Except.bind] at h
  | ok l =>
    simp only [hl,bind,Except.bind] at h
    split at h
    · cases h
    · intro n hn
      rcases mem_of_drain h n hn with hn | hn
      · cases hn
      · exact hn

/-- Each post is in the DAG once, under the id of its packet. -/
structure Keyed (d : DAG ω) : Prop where
  key : ∀ e ∈ d.nodes, e.1 = e.2.packetId
  distinct : (JsMap.keys d.nodes).Pairwise fun a b => (a == b) = false

theorem Keyed.addPost {d d' : DAG ω} (h : Keyed d) {q : DAGPost ω}
    (ha : addPost d q = some d') : Keyed d' := by
  unfold ThreadDAGManager.addPost at ha
  split at ha
  · cases ha
  next hhas =>
  split at ha
  · cases ha
  cases ha
  have hnone : JsMap.get d.nodes q.packetId = none := by
    simpa [JsMap.has] using hhas
  refine ⟨fun e he => ?_,?_⟩
  · rcases List.mem_append.mp (JsMap.set_of_get_none q hnone ▸ he) with he | he
    · exact h.key e he
    · rw [List.mem_singleton.mp he]
  · simp only [JsMap.keys,JsMap.set_of_get_none q hnone,List.map_append,List.pairwise_append]
    refine ⟨h.distinct,List.pairwise_singleton _ _,fun a ha b hb => ?_⟩
    obtain ⟨e,he,rfl⟩ := List.mem_map.mp ha
    have hbq : b = q.packetId := by simpa using hb
    exact hbq ▸ JsMap.get_none hnone e he

theorem values_of_addPost {d d' : DAG ω} {q : DAGPost ω} (h : addPost d q = some d') :
    JsMap.values d'.nodes = JsMap.values d.nodes ++ [q] := by
  unfold ThreadDAGManager.addPost at h
  split at h
  · cases h
  next hhas =>
  split at h
  · cases h
  cases h
  exact JsMap.values_set_of_get_none q (by simpa [JsMap.has] using hhas)

theorem packetId_of_get {d : DAG ω} (h : Keyed d) {id : Val} {n : DAGPost ω}
    (hg : JsMap.get d.nodes id = some n) : n.packetId = id ∧ (id == id) = true := by
  obtain ⟨k,hm,hk⟩ := JsMap.get_mem hg
  have hkey : k = n.packetId := h.key _ hm
  have hid := eq_of_beq hk
  exact ⟨hkey.symm.trans hid,hid ▸ hk⟩

theorem sortQueue_perm {d : DAG ω} {queue sorted : List Val}
    (h : sortQueue loc d queue = .ok sorted) : sorted.Perm queue := by
  unfold sortQueue at h
  split at h
  · cases h
    exact .refl _
  obtain ⟨keyed,hk,h⟩ := bind_ok h
  cases h
  have hids : keyed.map Prod.snd = queue := by
    refine map_of_mapM (fun id q hq => ?_) hk
    obtain ⟨t,-,ht⟩ := bind_ok hq
    cases ht
    rfl
  rw [← hids]
  exact (List.mergeSort_perm keyed _).map _

/-- The ids that have been in the queue: each came once, when its degree had reached 0,
and no degree ever rises. -/
structure Enqueued (inDegree : JsMap Val Int) (ids : List Val) : Prop where
  distinct : ids.Pairwise fun a b => (a == b) = false
  degree : ∀ id ∈ ids, (JsMap.get inDegree id).getD 0 ≤ 0

theorem Enqueued.perm {inDegree : JsMap Val Int} {ids ids' : List Val}
    (h : Enqueued inDegree ids) (hp : ids'.Perm ids) : Enqueued inDegree ids' :=
  ⟨(hp.pairwise_iff fun {_ _} hab => BEq.symm_false hab).mpr h.distinct,
    fun id hid => h.degree id (hp.subset hid)⟩

theorem Enqueued.release {inDegree : JsMap Val Int} {ids : List Val}
    (h : Enqueued inDegree ids) (childId : Val) :
    let newDegree := (JsMap.get inDegree childId).getD 0-1
    Enqueued (JsMap.set inDegree childId newDegree)
      (if newDegree = 0 then ids ++ [childId] else ids) := by
  intro newDegree
  have hold : ∀ id ∈ ids, (JsMap.get (JsMap.set inDegree childId newDegree) id).getD 0 ≤ 0 := by
    intro id hid
    rw [JsMap.get_set]
    split
    · next heq =>
      have hdeg := h.degree id hid
      rw [← JsMap.get_congr inDegree heq] at hdeg
      simp only [Option.getD_some]
      omega
    · exact h.degree id hid
  split
  · next hzero =>
    have hone : (JsMap.get inDegree childId).getD 0-1 = 0 := hzero
    refine ⟨List.pairwise_append.mpr ⟨h.distinct,List.pairwise_singleton _ _,?_⟩,?_⟩
    · intro a ha b hb
      rw [List.mem_singleton.mp hb]
      by_contra hab
      have hdeg := h.degree a ha
      rw [JsMap.get_congr inDegree (Bool.not_eq_false _ ▸ hab)] at hdeg
      omega
    · intro id hid
      rcases List.mem_append.mp hid with hid | hid
      · exact hold id hid
      · rw [List.mem_singleton.mp hid,JsMap.get_set]
        split
        · simp [hzero]
        · next hne =>
          -- a key that is not equal to itself is in no map
          have hnone : JsMap.get inDegree childId = none := by
            by_contra hsome
            obtain ⟨degree,hg⟩ := Option.ne_none_iff_exists'.mp hsome
            obtain ⟨k,-,hk⟩ := JsMap.get_mem hg
            exact hne (BEq.trans (BEq.symm hk) hk)
          simp [hnone]
  · exact ⟨h.distinct,hold⟩

theorem Enqueued.releaseChildren {d : DAG ω} {children shown queue queue' : List Val}
    {inDegree inDegree' : JsMap Val Int} (h : Enqueued inDegree (shown ++ queue))
    (hr : releaseChildren loc d children inDegree queue = .ok (inDegree',queue')) :
    Enqueued inDegree' (shown ++ queue') := by
  induction children generalizing inDegree queue with
  | nil =>
    cases hr
    exact h
  | cons childId children ih =>
    have hc := h.release childId
    unfold ThreadDAGManager.releaseChildren at hr
    dsimp only at hc hr
    split at hr
    · next hzero =>
      rw [if_pos hzero] at hc
      cases hq : sortQueue loc d (queue ++ [childId]) with
      | error e => simp [hq,bind,Except.bind] at hr
      | ok sorted =>
        simp only [hq,bind,Except.bind] at hr
        refine ih (hc.perm ?_) hr
        rw [List.append_assoc]
        exact (sortQueue_perm hq).append_left shown
    · next hne =>
      rw [if_neg hne] at hc
      exact ih hc hr

theorem nodup_of_distinct {inDegree : JsMap Val Int} {queue : List Val}
    {posts : List (DAGPost ω)} (h : Enqueued inDegree (posts.map DAGPost.packetId ++ queue))
    (hrefl : ∀ n ∈ posts, (n.packetId == n.packetId) = true) : posts.Nodup := by
  have hd := List.pairwise_map.mp (List.pairwise_append.mp h.distinct).1
  refine hd.imp_of_mem fun {a b} ha _ hab heq => ?_
  rw [← heq,hrefl a ha] at hab
  cases hab

theorem nodup_of_drain {d : DAG ω} (hd : Keyed d) {l : Links} {fuel : Nat} {queue : List Val}
    {inDegree : JsMap Val Int} {result posts : List (DAGPost ω)}
    (h : Enqueued inDegree (result.map DAGPost.packetId ++ queue))
    (hrefl : ∀ n ∈ result, (n.packetId == n.packetId) = true)
    (hp : drain loc d l fuel queue inDegree result = .ok posts) : posts.Nodup := by
  induction fuel generalizing queue inDegree result with
  | zero =>
    cases hp
    exact nodup_of_distinct h hrefl
  | succ fuel ih =>
    cases queue with
    | nil =>
      cases hp
      exact nodup_of_distinct h hrefl
    | cons currentId queue =>
      unfold drain at hp
      cases hg : JsMap.get d.nodes currentId with
      | none => simp [hg] at hp
      | some currentNode =>
        simp only [hg] at hp
        obtain ⟨hid,hself⟩ := packetId_of_get hd hg
        cases hr : ThreadDAGManager.releaseChildren loc d
            ((JsMap.get l.childrenMap currentId).getD []) inDegree queue with
        | error e => simp [hr,bind,Except.bind] at hp
        | ok r =>
          simp only [hr,bind,Except.bind] at hp
          have h' : Enqueued inDegree
              ((result ++ [currentNode]).map DAGPost.packetId ++ queue) := by
            simpa [hid] using h
          refine ih (h'.releaseChildren hr) (fun n hn => ?_) hp
          rcases List.mem_append.mp hn with hn | hn
          · exact hrefl n hn
          · rw [List.mem_singleton.mp hn,hid]
            exact hself

/-- No post is shown twice. -/
theorem getSortedPosts_nodup {d : DAG ω} (hd : Keyed d) {posts : List (DAGPost ω)}
    (h : getSortedPosts loc d = .ok posts) : posts.Nodup := by
  unfold getSortedPosts at h
  dsimp only at h
  split at h
  · cases h
    exact List.nodup_nil
  cases hl : links d (JsMap.values d.nodes) {} with
  | error e => simp [hl,bind,Except.bind] at h
  | ok l =>
    simp only [hl,bind,Except.bind] at h
    split at h
    · cases h
    · next queue hq =>
      refine nodup_of_drain hd ?_ (fun n hn => by cases hn) h
      have hids : (JsMap.values d.nodes).map DAGPost.packetId = JsMap.keys d.nodes := by
        simp only [JsMap.values,JsMap.keys,List.map_map]
        exact List.map_congr_left fun e he => (hd.key e he).symm
      have hroots : Enqueued l.inDegree (((JsMap.values d.nodes).filter fun n =>
          (JsMap.get l.inDegree n.packetId).getD 0 = 0).map DAGPost.packetId) := by
        refine ⟨?_,fun id hid => ?_⟩
        · refine List.Pairwise.sublist ?_ (hids ▸ hd.distinct)
          exact List.filter_sublist.map _
        · obtain ⟨n,hn,rfl⟩ := List.mem_map.mp hid
          have hz := (List.mem_filter.mp hn).2
          simp only [decide_eq_true_eq] at hz
          omega
      exact hroots.perm (sortQueue_perm hq)

end

/-- Numbers written as their integer part, strings ordered by their characters. -/
def sampleLocale : JsLocale where
  format := { number := fun n => toString ((n.toInt?).getD 0), date := fun _ => "" }
  compare := compare

end ThreadDAGManager
