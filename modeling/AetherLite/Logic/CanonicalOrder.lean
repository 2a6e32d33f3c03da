import Mathlib.Data.String.Basic
import Mathlib.Data.Prod.Lex
import Mathlib.Tactic.IntervalCases
import AetherLite.Crypto.NodeIdentity
import AetherLite.Logic.ThreadOrder

/-! Posts with hex ids and integer times are shown in one order, in whatever order they came. -/
set_option autoImplicit false

namespace ThreadDAGManager

open Js Js.Val NodeIdentity

/-! Times of as many digits are compared as texts like the numbers they are. -/

def fixedDigits : Nat → Nat → List Char
  | 0, _ => []
  | k+1, n => fixedDigits k (n/10) ++ [(n % 10).digitChar]

@[simp] theorem fixedDigits_length (k n : Nat) : (fixedDigits k n).length = k := by
  induction k generalizing n with
  | zero => rfl
  | succ k ih => simp [fixedDigits,ih]

theorem fixedDigits_zero (k : Nat) : fixedDigits k 0 = List.replicate k '0' := by
  induction k with
  | zero => rfl
  | succ k ih => rw [fixedDigits,Nat.zero_div,ih,List.replicate_succ']; rfl

theorem fixedDigits_eq {k n : Nat} (hn : n < 10^(k+1)) :
    fixedDigits (k+1) n =
      List.replicate (k+1-(Nat.toDigits 10 n).length) '0' ++ Nat.toDigits 10 n := by
  induction k generalizing n with
  | zero =>
    have hten : n < 10 := hn
    rw [fixedDigits,Nat.toDigits_of_lt_base hten,Nat.mod_eq_of_lt hten]
    rfl
  | succ k ih =>
    by_cases hten : n < 10
    · rw [fixedDigits,Nat.div_eq_of_lt hten,Nat.mod_eq_of_lt hten,fixedDigits_zero,
        Nat.toDigits_of_lt_base hten]
      rfl
    · have hdiv : n/10 < 10^(k+1) := by
        rw [Nat.pow_succ] at hn
        omega
      rw [fixedDigits,ih hdiv,Nat.toDigits_of_base_le (by omega) (not_lt.mp hten)]
      simp only [List.length_append,List.length_singleton,List.append_assoc]
      rw [Nat.add_sub_add_right]

theorem append_lt_append {a b : List Char} (h : a < b) (hlen : a.length = b.length)
    (x y : List Char) : a ++ x < b ++ y := by
  induction h with
  | nil => simp at hlen
  | cons _ ih => exact .cons (ih (by simpa using hlen))
  | rel h => exact .rel h

theorem digitChar_lt {i j : Nat} (hij : i < j) (hj : j < 10) : i.digitChar < j.digitChar := by
  interval_cases j <;> interval_cases i <;> decide

theorem fixedDigits_lt {k m n : Nat} (hmn : m < n) (hn : n < 10^k) :
    fixedDigits k m < fixedDigits k n := by
  induction k generalizing m n with
  | zero => simp at hn; omega
  | succ k ih =>
    have hdiv : n/10 < 10^k := by
      rw [Nat.pow_succ] at hn
      omega
    unfold fixedDigits
    by_cases hlt : m/10 < n/10
    · exact append_lt_append (ih hlt hdiv) (by simp) _ _
    · have heq : m/10 = n/10 := by omega
      rw [heq]
      exact List.append_left_lt (.rel (digitChar_lt (by omega) (by omega)))

/-- The time of a post as `getSortedPosts` writes it. -/
def paddedTime (n : Nat) : String := padStart15 (toString n)

theorem paddedTime_eq {n : Nat} (hn : n < 10^15) :
    paddedTime n = String.ofList (fixedDigits 15 n) := by
  have hdigits : (toString n).toList = Nat.toDigits 10 n := by
    rw [Nat.toString_eq_ofList_toDigits,String.toList_ofList]
  have hascii : ∀ c ∈ (toString n).toList, c.val ≤ 127 := by
    intro c hc
    rw [hdigits] at hc
    have hc := Nat.isDigit_of_mem_toDigits (by omega) (by omega) hc
    simp only [Char.isDigit,Bool.and_eq_true,decide_eq_true_eq] at hc
    exact UInt32.le_trans hc.2 (by decide)
  rw [paddedTime,padStart15,utf16Length_of_ascii hascii,fixedDigits_eq hn,hdigits,
    String.ofList_append]
  rw [← hdigits,String.ofList_toList]

theorem paddedTime_lt {m n : Nat} (hmn : m < n) (hn : n < 10^15) : paddedTime m < paddedTime n := by
  rw [paddedTime_eq (by omega),paddedTime_eq hn,String.lt_iff,String.toList_ofList,
    String.toList_ofList]
  exact fixedDigits_lt hmn hn

theorem compare_paddedTime {m n : Nat} (hm : m < 10^15) (hn : n < 10^15) :
    compare (paddedTime m) (paddedTime n) = compare m n := by
  obtain h | rfl | h := Nat.lt_trichotomy m n
  · rw [compare_lt_iff_lt.mpr h,compare_lt_iff_lt.mpr (paddedTime_lt h hn)]
  · rw [compare_eq_iff_eq.mpr rfl,compare_eq_iff_eq.mpr rfl]
  · rw [compare_gt_iff_gt.mpr h,compare_gt_iff_gt.mpr (paddedTime_lt h hm)]

theorem paddedTime_hex {n : Nat} (hn : n < 10^15) :
    (paddedTime n).toList.all isHexDigit = true ∧ (paddedTime n).length = 15 := by
  rw [paddedTime_eq hn]
  refine ⟨?_,by simp⟩
  rw [String.toList_ofList,List.all_eq_true]
  have hall (k : Nat) : ∀ m, ∀ c ∈ fixedDigits k m, c.isDigit = true := by
    induction k with
    | zero => simp [fixedDigits]
    | succ k ih =>
      intro m c hc
      obtain hc | hc := List.mem_append.mp hc
      · exact ih _ c hc
      · rw [List.mem_singleton.mp hc]
        rw [Nat.isDigit_digitChar,decide_eq_true_eq]
        omega
  intro c hc
  simp [isHexDigit,hall 15 n c hc]

/-- What is known of the platform: how it writes the integers, and how it orders texts of
digits and the letters to f. -/
structure HexLocale (loc : JsLocale) : Prop where
  format : ∀ n : Nat, n < 10^15 → loc.format.number (.ofNat n) = toString n
  compare : ∀ s t u v : String, s.toList.all isHexDigit = true → t.toList.all isHexDigit = true →
    u.toList.all isHexDigit = true → v.toList.all isHexDigit = true → s.length = t.length →
      loc.compare (s ++ "_" ++ u) (t ++ "_" ++ v) = (compare s t).then (compare u v)

theorem compare_append {s t : String} (h : s.length = t.length) (u v : String) :
    compare (s ++ "_" ++ u) (t ++ "_" ++ v) = (compare s t).then (compare u v) := by
  have hlen : s.toList.length = t.toList.length := by rw [String.length_toList,String.length_toList,h]
  obtain hlt | rfl | hlt := lt_trichotomy s t
  · rw [compare_lt_iff_lt.mpr hlt,compare_lt_iff_lt.mpr]
    · rfl
    · rw [String.lt_iff] at hlt ⊢
      simpa using append_lt_append hlt hlen ("_".toList ++ u.toList) ("_".toList ++ v.toList)
  · have hsame (x y : String) (hxy : x < y) : s ++ "_" ++ x < s ++ "_" ++ y := by
      rw [String.lt_iff] at hxy ⊢
      simp only [String.toList_append]
      exact List.append_left_lt hxy
    obtain huv | rfl | huv := lt_trichotomy u v
    · rw [compare_lt_iff_lt.mpr huv,compare_lt_iff_lt.mpr (hsame _ _ huv),compare_eq_iff_eq.mpr rfl]
      rfl
    · rw [compare_eq_iff_eq.mpr rfl,compare_eq_iff_eq.mpr rfl,compare_eq_iff_eq.mpr rfl]
      rfl
    · rw [compare_gt_iff_gt.mpr huv,compare_gt_iff_gt.mpr (hsame _ _ huv),compare_eq_iff_eq.mpr rfl]
      rfl
  · rw [compare_gt_iff_gt.mpr hlt,compare_gt_iff_gt.mpr]
    · rfl
    · rw [String.lt_iff] at hlt ⊢
      simpa using append_lt_append hlt hlen.symm ("_".toList ++ v.toList) ("_".toList ++ u.toList)

theorem hexLocale_sample : HexLocale sampleLocale where
  format := by
    intro n _
    simp only [sampleLocale,Number.toInt?_ofNat,Option.getD_some]
    rfl
  compare := by
    intro s t u v _ _ _ _ h
    exact compare_append h u v

section
variable {ω : Type} {loc : JsLocale} {threadId : String} {d : DAG ω}

/-- A post of the thread with a hex id, an integer time and a list of parents. -/
structure Regular (threadId : String) (n : DAGPost ω) : Prop where
  threadId : n.post.threadId = .str threadId
  id : ∃ s : String, n.packetId = .str s ∧ s.toList.all isHexDigit = true
  createdAt : ∃ k : Nat, k < 10^15 ∧ n.post.createdAt = .num (.ofNat k)
  parents : ∃ ps, n.post.parents = .arr ps

def idText : Val → String
  | .str s => s
  | _ => ""

def timeOf (n : DAGPost ω) : Nat :=
  match n.post.createdAt with
  | .num x => (x.toInt?.getD 0).toNat
  | _ => 0

/-- By `created_at`, and by `packet_id` where that is the same. -/
def Earlier (m n : DAGPost ω) : Prop :=
  timeOf m < timeOf n ∨ timeOf m = timeOf n ∧ idText m.packetId < idText n.packetId

/-- The pair that is compared, as the posts of a DAG have it. -/
def sortKey (d : DAG ω) (id : Val) : Nat ×ₗ String :=
  match JsMap.get d.nodes id with
  | none => toLex (0,"")
  | some n => toLex (timeOf n,idText n.packetId)

theorem earlier_iff {m n : DAGPost ω} :
    Earlier m n ↔ toLex (timeOf m,idText m.packetId) < toLex (timeOf n,idText n.packetId) := by
  rw [Prod.Lex.toLex_lt_toLex]
  rfl

theorem Earlier.asymm {m n : DAGPost ω} (h : Earlier m n) : ¬Earlier n m := by
  rw [earlier_iff] at h ⊢
  exact lt_asymm h

theorem Regular.sortable {n : DAGPost ω} (h : Regular threadId n) : Sortable loc n := by
  obtain ⟨s,hs,-⟩ := h.id
  obtain ⟨k,-,hk⟩ := h.createdAt
  obtain ⟨ps,hps⟩ := h.parents
  refine ⟨?_,?_,?_⟩
  · rw [hs]
    rfl
  · rw [hps]
    rfl
  · rw [hk]
    rfl

/-- The posts of a DAG are regular. -/
structure AllRegular (threadId : String) (d : DAG ω) : Prop extends Keyed d where
  regular : ∀ n ∈ JsMap.values d.nodes, Regular threadId n

theorem AllRegular.orderable (h : AllRegular threadId d) : Orderable loc d :=
  ⟨h.toKeyed,fun n hn => (h.regular n hn).sortable⟩

theorem Regular.tieBreakerValue (hloc : HexLocale loc) {n : DAGPost ω}
    (hn : Regular threadId n) {id : Val} (hget : JsMap.get d.nodes id = some n) :
    tieBreakerValue loc d id = .ok (paddedTime (timeOf n) ++ "_" ++ idText n.packetId) ∧
      timeOf n < 10^15 ∧ (idText n.packetId).toList.all isHexDigit = true := by
  obtain ⟨s,hs,hhex⟩ := hn.id
  obtain ⟨k,hk,hcreated⟩ := hn.createdAt
  have htime : timeOf n = k := by
    simp [timeOf,hcreated,Number.toInt?_ofNat]
  have htext : (n.post.createdAt).callToString loc.format = .ok (toString k) := by
    rw [hcreated,callToString]
    simp only [isNullish,Bool.false_eq_true,if_false,toStr,hloc.format k hk]
  have hid : n.packetId.toStr loc.format = .ok (idText n.packetId) := by
    rw [hs]
    rfl
  refine ⟨?_,htime ▸ hk,by rw [hs]; exact hhex⟩
  simp only [ThreadDAGManager.tieBreakerValue,hget,htext,hid,bind,Except.bind,htime,paddedTime]

/-- The text that is compared. -/
def sortText (d : DAG ω) (id : Val) : String :=
  match JsMap.get d.nodes id with
  | none => ""
  | some n => paddedTime (timeOf n) ++ "_" ++ idText n.packetId

theorem AllRegular.node (h : AllRegular threadId d) (loc : JsLocale) {id : Val}
    (hid : id ∈ ids d) :
    ∃ n, JsMap.get d.nodes id = some n ∧ n ∈ JsMap.values d.nodes ∧ n.packetId = id := by
  have ho : Orderable loc d := h.orderable
  obtain ⟨n,hn,hnid,hget⟩ := ho.node hid
  exact ⟨n,hget,hn,hnid⟩

theorem AllRegular.compare (h : AllRegular threadId d) (hloc : HexLocale loc) {a b : Val}
    (ha : a ∈ ids d) (hb : b ∈ ids d) :
    loc.compare (sortText d a) (sortText d b) ≠ .gt ↔ sortKey d a ≤ sortKey d b := by
  obtain ⟨m,hm,hmem,-⟩ := h.node loc ha
  obtain ⟨n,hn,hnmem,-⟩ := h.node loc hb
  obtain ⟨-,hmsmall,hmhex⟩ := (h.regular m hmem).tieBreakerValue hloc hm
  obtain ⟨-,hnsmall,hnhex⟩ := (h.regular n hnmem).tieBreakerValue hloc hn
  have hmtime := paddedTime_hex hmsmall
  have hntime := paddedTime_hex hnsmall
  have hcompare := hloc.compare (paddedTime (timeOf m)) (paddedTime (timeOf n))
    (idText m.packetId) (idText n.packetId) hmtime.1 hntime.1 hmhex hnhex
      (hmtime.2.trans hntime.2.symm)
  simp only [sortText,sortKey,hm,hn]
  rw [hcompare,compare_paddedTime hmsmall hnsmall,Prod.Lex.toLex_le_toLex]
  obtain hlt | heq | hgt := Nat.lt_trichotomy (timeOf m) (timeOf n)
  · rw [compare_lt_iff_lt.mpr hlt]
    simp [hlt,Ordering.then]
  · rw [compare_eq_iff_eq.mpr heq]
    simp only [heq,Ordering.then,lt_irrefl,true_and,false_or]
    rw [ne_eq,compare_gt_iff_gt]
    exact not_lt
  · rw [compare_gt_iff_gt.mpr hgt]
    simp [hgt.not_gt,hgt.ne',Ordering.then]

/-- The sort of the queue is by time and id. -/
theorem AllRegular.sortQueue (h : AllRegular threadId d) (hloc : HexLocale loc) {queue : List Val}
    (hq : ∀ id ∈ queue, id ∈ ids d) :
    sortQueue loc d queue = .ok (queue.mergeSort fun a b => decide (sortKey d a ≤ sortKey d b)) := by
  unfold ThreadDAGManager.sortQueue
  split
  · next hshort =>
    cases queue with
    | nil => rw [List.mergeSort_nil]
    | cons a queue =>
      rw [List.length_cons] at hshort
      have hnil : queue = [] := List.length_eq_zero_iff.mp (by omega)
      rw [hnil,List.mergeSort_singleton]
  · have hkeyed : (queue.mapM fun id => do
        Except.ok (← ThreadDAGManager.tieBreakerValue loc d id,id)) =
          .ok (queue.map fun id => (sortText d id,id)) := by
      refine mapM_eq_map fun id hid => ?_
      obtain ⟨n,hget,hn,-⟩ := h.node loc (hq id hid)
      rw [((h.regular n hn).tieBreakerValue hloc hget).1]
      simp [sortText,hget,bind,Except.bind]
    have hsort := List.map_mergeSort (r := fun a b => decide (sortKey d a ≤ sortKey d b))
      (s := fun a b : String × Val => decide (loc.compare a.1 b.1 ≠ .gt))
      (f := fun id => (sortText d id,id)) (l := queue) (fun a ha b hb => by
        rw [decide_eq_decide]
        exact (h.compare hloc (hq a ha) (hq b hb)).symm)
    rw [hkeyed]
    simp only [bind,Except.bind]
    rw [← hsort,List.map_map]
    congr 1
    exact List.map_id _

/-- The queue is in the order of its keys. -/
def InOrder (d : DAG ω) (queue : List Val) : Prop :=
  queue.Pairwise fun a b => sortKey d a ≤ sortKey d b

theorem AllRegular.sorted (h : AllRegular threadId d) (hloc : HexLocale loc)
    {queue sorted : List Val} (hq : ∀ id ∈ queue, id ∈ ids d)
    (hs : ThreadDAGManager.sortQueue loc d queue = .ok sorted) : InOrder d sorted := by
  rw [h.sortQueue hloc hq] at hs
  cases hs
  have hpairs : (queue.mergeSort fun a b => decide (sortKey d a ≤ sortKey d b)).Pairwise
      fun a b => decide (sortKey d a ≤ sortKey d b) = true :=
    List.pairwise_mergeSort
      (fun a b c hab hbc => by
        rw [decide_eq_true_eq] at hab hbc ⊢
        exact hab.trans hbc)
      (fun a b => by simpa using le_total (sortKey d a) (sortKey d b)) queue
  exact hpairs.imp fun hle => of_decide_eq_true hle

/-- The loop over the children leaves the queue in order. -/
theorem AllRegular.releaseChildren (h : AllRegular threadId d) (hloc : HexLocale loc)
    {children queue queue' : List Val} {inDegree inDegree' : JsMap Val Int}
    (hchildren : ∀ c ∈ children, c ∈ ids d) (hq : ∀ id ∈ queue, id ∈ ids d)
    (horder : InOrder d queue)
    (hr : releaseChildren loc d children inDegree queue = .ok (inDegree',queue')) :
    InOrder d queue' := by
  induction children generalizing inDegree queue with
  | nil =>
    cases hr
    exact horder
  | cons childId children ih =>
    obtain ⟨hchild,hrest⟩ := List.forall_mem_cons.mp hchildren
    unfold ThreadDAGManager.releaseChildren at hr
    dsimp only at hr
    split at hr
    · have happend : ∀ c ∈ queue ++ [childId], c ∈ ids d := by
        intro c hc
        obtain hc | hc := List.mem_append.mp hc
        · exact hq c hc
        · exact List.mem_singleton.mp hc ▸ hchild
      obtain ⟨sorted,hs,hr⟩ := bind_ok hr
      exact ih hrest (fun c hc => happend c ((sortQueue_perm hs).subset hc))
        (h.sorted hloc happend hs) hr
    · exact ih hrest hq horder hr

/-- The posts of the DAG that a post names as parents. -/
def parentPosts (d : DAG ω) (n : DAGPost ω) : List (DAGPost ω) :=
  (parentsOf d n.packetId).filterMap (JsMap.get d.nodes)

theorem Orderable.eq_of_packetId (h : Orderable loc d) {m n : DAGPost ω}
    (hm : m ∈ JsMap.values d.nodes) (hn : n ∈ JsMap.values d.nodes)
    (hid : m.packetId = n.packetId) : m = n := by
  have hget := h.get hm
  rw [hid,h.get hn] at hget
  exact (Option.some.inj hget).symm

theorem Orderable.mem_parentPosts (h : Orderable loc d) {n p : DAGPost ω} :
    p ∈ parentPosts d n ↔ p ∈ JsMap.values d.nodes ∧ p.packetId ∈ parentsOf d n.packetId := by
  simp only [parentPosts,List.mem_filterMap]
  constructor
  · intro ⟨id,hid,hget⟩
    obtain ⟨hpid,-⟩ := packetId_of_get h.toKeyed hget
    exact ⟨JsMap.get_mem_values hget,hpid ▸ hid⟩
  · intro ⟨hp,hid⟩
    exact ⟨p.packetId,hid,h.get hp⟩

section
open scoped Classical

/-- The posts that are ready are those in the queue. -/
theorem Loop.ready_iff (h : Orderable loc d) {queue : List Val} {inDegree : JsMap Val Int}
    {result : List (DAGPost ω)} (hloop : Loop d queue inDegree result) (n : DAGPost ω) :
    TopologicalSort.Ready (JsMap.values d.nodes) (parentPosts d) result n ↔
      n ∈ JsMap.values d.nodes ∧ n.packetId ∈ queue := by
  have hdegree (hn : n ∈ JsMap.values d.nodes) := hloop.progress.degree_eq n.packetId
    (List.mem_map_of_mem hn)
  constructor
  · intro hr
    have hid : n.packetId ∈ ids d := List.mem_map_of_mem hr.node
    have hmissing : TopologicalSort.missing (result.map DAGPost.packetId)
        (parentsOf d n.packetId) = 0 := by
      refine TopologicalSort.missing_eq_zero.mpr fun p hp => ?_
      obtain ⟨m,hm,rfl,-⟩ := h.node (h.parentsOf_mem hid hp)
      exact List.mem_map_of_mem (hr.parents m (h.mem_parentPosts.mpr ⟨hm,hp⟩))
    have hzero : degreeOf inDegree n.packetId = 0 := by rw [hdegree hr.node,hmissing]; rfl
    obtain hshown | hqueued := hloop.progress.queued n.packetId hid hzero
    · obtain ⟨m,hm,hmid⟩ := List.mem_map.mp hshown
      have hsame := h.eq_of_packetId (hloop.known m hm) hr.node hmid
      exact absurd (hsame ▸ hm) hr.fresh
    · exact ⟨hr.node,hqueued⟩
  · intro ⟨hn,hqueued⟩
    refine ⟨hn,fun hresult => ?_,fun p hp => ?_⟩
    · have hne := (List.pairwise_append.mp hloop.enqueued.distinct).2.2 _
        (List.mem_map_of_mem hresult) _ hqueued
      rw [h.self hn] at hne
      cases hne
    · have hle : degreeOf inDegree n.packetId ≤ 0 :=
        hloop.enqueued.degree n.packetId (List.mem_append_right _ hqueued)
      have hd := hdegree hn
      have hmissing : TopologicalSort.missing (result.map DAGPost.packetId)
          (parentsOf d n.packetId) = 0 := by omega
      obtain ⟨hpd,hpid⟩ := h.mem_parentPosts.mp hp
      obtain ⟨m,hm,hmid⟩ := List.mem_map.mp (TopologicalSort.missing_eq_zero.mp hmissing _ hpid)
      exact h.eq_of_packetId (hloop.known m hm) hpd hmid ▸ hm

theorem sortKey_of_get {id : Val} {n : DAGPost ω} (h : JsMap.get d.nodes id = some n) :
    sortKey d id = toLex (timeOf n,idText n.packetId) := by
  simp [sortKey,h]

/-- The first of the queue is earlier than all others that are ready. -/
theorem AllRegular.earlier (h : AllRegular threadId d) {m n : DAGPost ω}
    (hm : m ∈ JsMap.values d.nodes) (hn : n ∈ JsMap.values d.nodes) (hne : n ≠ m)
    (hle : sortKey d m.packetId ≤ sortKey d n.packetId) (loc : JsLocale) : Earlier m n := by
  have ho : Orderable loc d := h.orderable
  rw [sortKey_of_get (ho.get hm),sortKey_of_get (ho.get hn)] at hle
  rw [earlier_iff]
  refine lt_of_le_of_ne hle fun heq => hne ?_
  have hid : idText m.packetId = idText n.packetId := (Prod.mk.inj (toLex.injective heq)).2
  obtain ⟨s,hs,-⟩ := (h.regular m hm).id
  obtain ⟨u,hu,-⟩ := (h.regular n hn).id
  rw [hs,hu] at hid
  refine (ho.eq_of_packetId hm hn ?_).symm
  rw [hs,hu]
  exact congrArg Val.str hid

/-- The loop shows the posts in their order. -/
theorem AllRegular.drain (h : AllRegular threadId d) (hloc : HexLocale loc) {l : Links}
    (hlinked : Linked d l) {fuel : Nat} {queue : List Val} {inDegree : JsMap Val Int}
    {result : List (DAGPost ω)} (hloop : Loop d queue inDegree result) (horder : InOrder d queue)
    (hfuel : fuel+result.length = (JsMap.values d.nodes).length) :
    ∃ rest, drain loc d l fuel queue inDegree result = .ok (result ++ rest) ∧
      TopologicalSort.Canonical Earlier (JsMap.values d.nodes) (parentPosts d) result rest := by
  have ho : Orderable loc d := h.orderable
  induction fuel generalizing queue inDegree result with
  | zero =>
    have hnodup := nodup_of_distinct hloop.enqueued fun n hn => ho.self (hloop.known n hn)
    have hall := mem_of_length hloop.known hnodup (by omega)
    exact ⟨[],by rw [List.append_nil]; rfl,.done fun n hn => hn.fresh (hall n hn.node)⟩
  | succ fuel ih =>
    cases queue with
    | nil =>
      refine ⟨[],by rw [List.append_nil]; rfl,.done fun n hn => ?_⟩
      exact List.not_mem_nil ((hloop.ready_iff ho n).mp hn).2
    | cons currentId queue =>
      obtain ⟨n,inDegree',queue',hget,hid,hr,hnext⟩ := ho.turn hlinked hloop
      have hn : n ∈ JsMap.values d.nodes := JsMap.get_mem_values hget
      obtain ⟨hhead,htail⟩ := List.pairwise_cons.mp horder
      have horder' : InOrder d queue' := h.releaseChildren hloc
        (fun c hc => hlinked.children currentId c hc)
        (fun c hc => hloop.progress.known c (List.mem_cons_of_mem _ hc)) htail hr
      obtain ⟨rest,hrest,hcanonical⟩ := ih hnext horder' (by
        simp only [List.length_append,List.length_singleton]
        omega)
      refine ⟨n :: rest,?_,.next ?_ (fun m hm hne => ?_) hcanonical⟩
      · rw [List.append_assoc] at hrest
        simp only [ThreadDAGManager.drain,hget,hr,bind,Except.bind]
        exact hrest
      · exact (hloop.ready_iff ho n).mpr ⟨hn,hid ▸ List.mem_cons_self⟩
      · obtain ⟨hmd,hmq⟩ := (hloop.ready_iff ho m).mp hm
        have hother : m.packetId ∈ queue := by
          obtain heq | hmq := List.mem_cons.mp hmq
          · exact absurd (ho.eq_of_packetId hmd hn (heq.trans hid.symm)) hne
          · exact hmq
        exact h.earlier hn hmd hne (hid ▸ hhead _ hother) loc

/-- The order of a DAG of regular posts. -/
theorem AllRegular.getSortedPosts (h : AllRegular threadId d) (hloc : HexLocale loc) :
    ∃ sorted, getSortedPosts loc d = .ok sorted ∧
      TopologicalSort.Canonical Earlier (JsMap.values d.nodes) (parentPosts d) [] sorted := by
  have ho : Orderable loc d := h.orderable
  obtain ⟨l,queue,hl,hlinked,hq,hloop⟩ := ho.start
  have horder : InOrder d queue := h.sorted hloc (fun id hid => ((ho.mem_roots l id).mp hid).1) hq
  obtain ⟨sorted,hs,hcanonical⟩ := h.drain hloc hlinked hloop horder rfl
  exact ⟨sorted,getSortedPosts_eq hl hq hs,hcanonical⟩

end

/-- A DAG after posts were added to it in turn. -/
def addPosts (d : DAG ω) (posts : List (DAGPost ω)) : DAG ω :=
  posts.foldl (fun d n => (addPost d n).getD d) d

/-- Posts with one id are one post. -/
def DistinctIds (posts : List (DAGPost ω)) : Prop :=
  ∀ m ∈ posts, ∀ n ∈ posts, m.packetId = n.packetId → m = n

/-- A post that is not added is there. -/
theorem AllRegular.addPost (h : AllRegular threadId d) (ht : d.threadId = threadId)
    {n : DAGPost ω} (hn : Regular threadId n)
    (hids : ∀ m ∈ JsMap.values d.nodes, m.packetId = n.packetId → m = n) :
    AllRegular threadId ((addPost d n).getD d) ∧ ((addPost d n).getD d).threadId = threadId ∧
      ∀ m, m ∈ JsMap.values ((addPost d n).getD d).nodes ↔ m ∈ JsMap.values d.nodes ∨ m = n := by
  cases ha : ThreadDAGManager.addPost d n with
  | none =>
    have hhas : JsMap.has d.nodes n.packetId = true := by
      unfold ThreadDAGManager.addPost at ha
      split at ha
      · next hhas => exact hhas
      · have hthread : n.post.threadId.strictEq (.str d.threadId) = true := by
          rw [hn.threadId,ht]
          simp [strictEq]
        simp [hthread] at ha
    obtain ⟨m,hget⟩ := Option.isSome_iff_exists.mp hhas
    have hsame := hids m (JsMap.get_mem_values hget) (packetId_of_get h.toKeyed hget).1
    refine ⟨h,ht,fun k => ⟨.inl,fun hk => hk.elim id fun hkn => ?_⟩⟩
    exact hkn ▸ hsame ▸ JsMap.get_mem_values hget
  | some d' =>
    have hvalues := values_of_addPost ha
    refine ⟨⟨h.toKeyed.addPost ha,fun m hm => ?_⟩,(addPost_threadId ha).1.trans ht,fun m => ?_⟩
    · simp only [Option.getD_some,hvalues,List.mem_append,List.mem_singleton] at hm
      obtain hm | rfl := hm
      · exact h.regular m hm
      · exact hn
    · simp [hvalues]

theorem AllRegular.addPosts (h : AllRegular threadId d) (ht : d.threadId = threadId)
    {posts : List (DAGPost ω)} (hreg : ∀ n ∈ posts, Regular threadId n)
    (hids : DistinctIds (JsMap.values d.nodes ++ posts)) :
    AllRegular threadId (addPosts d posts) ∧
      ∀ n, n ∈ JsMap.values (addPosts d posts).nodes ↔ n ∈ JsMap.values d.nodes ∨ n ∈ posts := by
  induction posts generalizing d with
  | nil => exact ⟨h,by simp [ThreadDAGManager.addPosts]⟩
  | cons n posts ih =>
    obtain ⟨hn,hrest⟩ := List.forall_mem_cons.mp hreg
    obtain ⟨hd,htd,hmem⟩ := h.addPost ht hn fun m hm =>
      hids m (List.mem_append_left _ hm) n (by simp)
    have hids' : DistinctIds (JsMap.values ((ThreadDAGManager.addPost d n).getD d).nodes ++ posts) := by
      have hsub : ∀ k ∈ JsMap.values ((ThreadDAGManager.addPost d n).getD d).nodes ++ posts,
          k ∈ JsMap.values d.nodes ++ n :: posts := by
        intro k hk
        simp only [List.mem_append,hmem,List.mem_cons] at hk ⊢
        tauto
      exact fun k hk m hm => hids k (hsub k hk) m (hsub m hm)
    obtain ⟨hall,hmem'⟩ := ih hd htd hrest hids'
    refine ⟨hall,fun m => (hmem' m).trans ?_⟩
    rw [hmem,List.mem_cons,or_assoc]

/-- A post of the list that another names as a parent. -/
def ParentOf (posts : List (DAGPost ω)) (p c : DAGPost ω) : Prop :=
  p ∈ posts ∧ c ∈ posts ∧ ∃ ps, c.post.parents = .arr ps ∧ p.packetId ∈ ps

/-- The post is on a cycle of parents, or a descendant of one that is. -/
def AfterCycle (posts : List (DAGPost ω)) (n : DAGPost ω) : Prop :=
  ∃ m, Relation.TransGen (ParentOf posts) m m ∧ Relation.ReflTransGen (ParentOf posts) m n

/-- The post can be shown next. -/
structure ReadyPost (posts shown : List (DAGPost ω)) (n : DAGPost ω) : Prop where
  mem : n ∈ posts
  fresh : n ∉ shown
  parents : ∀ p, ParentOf posts p n → p ∈ shown

/-- The DAG holds the posts. -/
structure Holds (threadId : String) (posts : List (DAGPost ω)) (d : DAG ω) : Prop
    extends AllRegular threadId d where
  mem : ∀ n, n ∈ JsMap.values d.nodes ↔ n ∈ posts

theorem holds_addPosts {posts arrivals : List (DAGPost ω)} (hreg : ∀ n ∈ posts, Regular threadId n)
    (hids : DistinctIds posts) (hsame : ∀ n, n ∈ arrivals ↔ n ∈ posts) :
    Holds threadId posts (addPosts { threadId := threadId } arrivals) := by
  have hempty : AllRegular threadId ({ threadId := threadId } : DAG ω) :=
    ⟨⟨by simp,by simp [JsMap.keys]⟩,by simp [JsMap.values]⟩
  have hids' : DistinctIds arrivals := fun m hm n hn =>
    hids m ((hsame m).mp hm) n ((hsame n).mp hn)
  obtain ⟨hall,hmem⟩ := hempty.addPosts rfl (fun n hn => hreg n ((hsame n).mp hn))
    (by simpa [JsMap.values] using hids')
  refine ⟨hall,fun n => (hmem n).trans ?_⟩
  rw [hsame]
  simp [JsMap.values]

theorem Holds.parent_iff {posts : List (DAGPost ω)} (h : Holds threadId posts d) {n : DAGPost ω}
    (hn : n ∈ JsMap.values d.nodes) (loc : JsLocale) (p : DAGPost ω) :
    p ∈ parentPosts d n ↔ ParentOf posts p n := by
  have ho : Orderable loc d := h.orderable
  obtain ⟨ps,hps⟩ := (h.regular n hn).parents
  have hparents : parentsOf d n.packetId = ps.filter fun q => JsMap.has d.nodes q := by
    have hv := ho.validParents hn
    simp only [ThreadDAGManager.validParents,hps,elementsOf,bind,Except.bind] at hv
    exact (Except.ok.inj hv).symm
  rw [ho.mem_parentPosts,hparents,h.mem,List.mem_filter]
  constructor
  · intro hparent
    obtain ⟨hp,hnamed,-⟩ := hparent
    exact ⟨hp,(h.mem n).mp hn,ps,hps,hnamed⟩
  · intro hparent
    obtain ⟨hp,-,qs,hqs,hnamed⟩ := hparent
    rw [hps] at hqs
    cases hqs
    refine ⟨hp,hnamed,?_⟩
    simp [JsMap.has,ho.get ((h.mem p).mpr hp)]

theorem Holds.edge_iff {posts : List (DAGPost ω)} (h : Holds threadId posts d) (loc : JsLocale) :
    TopologicalSort.Edge (JsMap.values d.nodes) (parentPosts d) = ParentOf posts := by
  funext p c
  refine propext ⟨fun ⟨hc,hp⟩ => (h.parent_iff hc loc p).mp hp,fun hp => ?_⟩
  have hc := (h.mem c).mpr hp.2.1
  exact ⟨hc,(h.parent_iff hc loc p).mpr hp⟩

theorem Holds.ready_iff {posts shown : List (DAGPost ω)} (h : Holds threadId posts d)
    (loc : JsLocale) (n : DAGPost ω) :
    TopologicalSort.Ready (JsMap.values d.nodes) (parentPosts d) shown n ↔
      ReadyPost posts shown n := by
  constructor
  · intro hr
    exact ⟨(h.mem n).mp hr.node,hr.fresh,fun p hp =>
      hr.parents p ((h.parent_iff hr.node loc p).mpr hp)⟩
  · intro hr
    have hn := (h.mem n).mpr hr.mem
    exact ⟨hn,hr.fresh,fun p hp => hr.parents p ((h.parent_iff hn loc p).mp hp)⟩

/-- The order does not depend on how the posts came; at each place stands the earliest post
all of whose parents are shown, and those that no cycle comes before are all there. -/
theorem getSortedPosts_canonical (hloc : HexLocale loc) (threadId : String)
    {posts : List (DAGPost ω)} (hreg : ∀ n ∈ posts, Regular threadId n)
    (hids : DistinctIds posts) :
    ∃ sorted : List (DAGPost ω),
      (∀ arrivals : List (DAGPost ω), (∀ n, n ∈ arrivals ↔ n ∈ posts) →
        getSortedPosts loc (addPosts { threadId := threadId } arrivals) = .ok sorted) ∧
      sorted.Nodup ∧ (∀ n, n ∈ sorted ↔ n ∈ posts ∧ ¬AfterCycle posts n) ∧
      ∀ shown n rest, sorted = shown ++ n :: rest →
        ReadyPost posts shown n ∧ ∀ m, ReadyPost posts shown m → m ≠ n → Earlier n m := by
  have hd := holds_addPosts hreg hids fun n => Iff.rfl
  obtain ⟨sorted,hs,hcanonical⟩ := hd.getSortedPosts hloc
  refine ⟨sorted,fun arrivals hsame => ?_,?_,fun n => ?_,fun shown n rest hsplit => ?_⟩
  · have hd' := holds_addPosts hreg hids hsame
    obtain ⟨sorted',hs',hcanonical'⟩ := hd'.getSortedPosts hloc
    have hcongr := hcanonical'.congr (fun n => (hd'.mem n).trans (hd.mem n).symm)
      fun n hn p => (hd'.parent_iff hn loc p).trans
        (hd.parent_iff ((hd.mem n).mpr ((hd'.mem n).mp hn)) loc p).symm
    rw [hs',hcongr.unique (fun _ _ => Earlier.asymm) hcanonical]
  · simpa using hcanonical.nodup List.nodup_nil
  · have hclosed : ∀ c ∈ JsMap.values (addPosts { threadId := threadId } posts).nodes,
        ∀ p ∈ parentPosts (addPosts { threadId := threadId } posts) c,
          p ∈ JsMap.values (addPosts { threadId := threadId } posts).nodes :=
      fun c hc p hp => (hd.mem p).mpr ((hd.parent_iff hc loc p).mp hp).1
    rw [hcanonical.mem_iff hclosed,hd.mem]
    unfold TopologicalSort.Stuck AfterCycle
    rw [hd.edge_iff loc]
  · obtain ⟨hready,hleast⟩ := hcanonical.split hsplit
    rw [List.nil_append] at hready hleast
    exact ⟨(hd.ready_iff loc n).mp hready,fun m hm => hleast m ((hd.ready_iff loc m).mpr hm)⟩

end

def hexPost (id : String) (createdAt : Nat) (parents : List Val) : DAGPost Unit where
  packetId := .str id
  post := {
    boardId := .str "b"
    postType := .str "post"
    content := .str "text"
    createdAt := .num (.ofNat createdAt)
    threadId := .str "t1"
    parents := .arr parents }
  origin := ()

theorem regular_hexPost {id : String} (hid : id.toList.all isHexDigit = true) {createdAt : Nat}
    (htime : createdAt < 10^15) (parents : List Val) :
    Regular "t1" (hexPost id createdAt parents) where
  threadId := rfl
  id := ⟨id,rfl,hid⟩
  createdAt := ⟨createdAt,htime,rfl⟩
  parents := ⟨parents,rfl⟩

/-- A reply with an earlier time than the post it answers. -/
def hexReplies : List (DAGPost Unit) := [hexPost "a1" 20 [],hexPost "b2" 10 [.str "a1"]]

theorem getSortedPosts_canonical_hexReplies :
    ∃ sorted : List (DAGPost Unit),
      (∀ arrivals : List (DAGPost Unit), (∀ n, n ∈ arrivals ↔ n ∈ hexReplies) →
        getSortedPosts sampleLocale (addPosts { threadId := "t1" } arrivals) = .ok sorted) ∧
      sorted.Nodup ∧ (∀ n, n ∈ sorted ↔ n ∈ hexReplies ∧ ¬AfterCycle hexReplies n) ∧
      ∀ shown n rest, sorted = shown ++ n :: rest →
        ReadyPost hexReplies shown n ∧ ∀ m, ReadyPost hexReplies shown m → m ≠ n → Earlier n m := by
  refine getSortedPosts_canonical hexLocale_sample "t1" (fun n hn => ?_) fun m hm n hn hid => ?_
  · simp only [hexReplies,List.mem_cons,List.not_mem_nil,or_false] at hn
    obtain rfl | rfl := hn
    · exact regular_hexPost (by decide) (by decide) []
    · exact regular_hexPost (by decide) (by decide) _
  · simp only [hexReplies,List.mem_cons,List.not_mem_nil,or_false] at hm hn
    obtain rfl | rfl := hm <;> obtain rfl | rfl := hn
    · rfl
    · simp [hexPost] at hid
    · simp [hexPost] at hid
    · rfl

end ThreadDAGManager
