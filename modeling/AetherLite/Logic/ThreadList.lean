import AetherLite.Lib.NumberOrder
import AetherLite.Logic.BoardDelivery

/-! The thread list of a board over the store its statistics are read from, when the same
packets come in any order. -/
set_option autoImplicit false

namespace ThreadList

open Js PacketBuilder Logic BoardOrchestrator BoardDelivery

/-- The board, the statistics of the store under their thread ids, and the packets that were
handed to `handlePacketObject`, which the code does not keep. -/
structure State where
  board : BoardOrchestrator.State
  stats : JsMap Val ThreadRow
  handed : List Val := []

inductive Action where
  | gossip (packet : Val)
  | hintBody (body : Bytes) (keyId : String)
  | resume (i : Nat) (env : Env)
  | statsTimer
  | peerConnect
  | debounceFired (env : Env)
  -- a save is written, at any time after its call
  | write (i : Nat) (now : Number)

/-- What `save` does to the statistics. The key does not say of which board the row is. -/
def writeStats (now : Number) (stats : JsMap Val ThreadRow) (save : PostSave) :
    Option (JsMap Val ThreadRow) :=
  let target := orElse save.threadRoot (.str save.threadId)
  let existing := JsMap.get stats target
  match (orElse save.cumulativePow (.num (.fin 0))).toNumber with
  | .error _ => none
  | .ok weight =>
    let currentMaxPow := match existing with
      | some r => r.maxPow.orZero
      | none => .fin 0
    let incoming := match save.createdAt with
      | .num n => if n.finitePositive then n else now
      | _ => now
    some (JsMap.set stats target {
      boardId := save.boardId
      threadId := target
      maxPow := Number.max currentMaxPow weight
      createdAt := match existing with
        | some r => if r.createdAt.finitePositive then r.createdAt else incoming
        | none => incoming })

/-- The store works: reads return its rows. -/
def answer (stats : JsMap Val ThreadRow) : Cont → Awaited
  | .statsRead _ _ _ _ | .statsTick _ => .threadRows (JsMap.values stats)
  | _ => .done

def boardAction (s : State) : Action → Option BoardOrchestrator.Action
  | .gossip packet => some (.gossip packet)
  | .hintBody body keyId => some (.hintBody body keyId)
  | .resume i env => (s.board.pending[i]?).map fun c => .resume i (answer s.stats c) env
  | .statsTimer => some .statsTimer
  | .peerConnect => some .peerConnect
  | .debounceFired env => some (.debounceFired env)
  | .write _ _ => none

def step (p : Primitives) (s : State) (a : Action) : Option State :=
  match a with
  | .write i now => (s.board.saves[i]?).bind fun save =>
    (writeStats now s.stats save).map fun stats => { s with stats := stats }
  | a => (boardAction s a).bind fun act =>
    (BoardOrchestrator.step p s.board act).map fun board => {
      s with
      board := board
      handed := (delivered s.board act).toList ++ s.handed }

/-- The board has been opened, and its cache was empty. -/
def start (b : String) (k : Bytes) (stats : JsMap Val ThreadRow) : State :=
  { board := BoardOrchestrator.listen (switchBoard {} b k) b k, stats := stats }

theorem start_board (b : String) (k : Bytes) (stats : JsMap Val ThreadRow) :
    (start b k stats).board = {
      currentBoardId := some b
      currentBoardKey := some k
      unwatchZone := some k
      isListening := true
      hintKeys := [(hintKeyId b,k)]
      bodyListeners := 1 } := rfl

/-- What a packet says of its thread. -/
structure Facts where
  threadId : String := ""
  content : Val := .undefined
  sessionPubkey : Val := .undefined
  tripPubkey : Val := .undefined
  createdAt : Number := .nan
  weight : Number := .nan

def factsOf (post : Post) : Facts where
  threadId := match post.threadId with
    | .str s => s
    | _ => ""
  content := post.content
  sessionPubkey := post.sessionPubkey
  tripPubkey := post.tripPubkey
  createdAt := match post.createdAt.number with
    | .ok n => n
    | .error _ => .nan
  weight := match (orElse post.cumulativePow (.num (.fin 0))).toNumber with
    | .ok n => n
    | .error _ => .nan

def facts (p : Primitives) (k : Bytes) (x : Val) : Facts :=
  match verifyAndDecrypt p x k with
  | .ok (some post) => factsOf post
  | _ => {}

/-- A valid packet that creates a thread: its post names the thread, and has a time that is
positive and finite and a weight that converts to a Number. -/
structure IsCreation (post : Post) : Prop where
  postType : post.postType.strictEq (.num (.fin 1)) = true
  threadId : ∃ s, post.threadId = .str s ∧ s ≠ ""
  createdAt : ∃ n, post.createdAt.number = .ok n ∧ n.finitePositive = true
  weight : ∃ w, (orElse post.cumulativePow (.num (.fin 0))).toNumber = .ok w

def Valid (p : Primitives) (contents : String → Val × Val) (k : Bytes) (x : Val) : Prop :=
  Genuine contents x ∧ ∃ post, verifyAndDecrypt p x k = .ok (some post) ∧ IsCreation post

/-- An entry of the list as it is shown. -/
structure Shown where
  threadId : Val
  content : Val
  sessionPubkey : Val
  tripPubkey : Val
  weight : Number
  createdAt : Number

def shown (e : Val × ThreadMeta) : Shown where
  threadId := e.1
  content := e.2.post.content
  sessionPubkey := e.2.post.sessionPubkey
  tripPubkey := e.2.post.tripPubkey
  weight := e.2.maxPow
  createdAt := e.2.createdAt

/-- The lists are equal as sets. -/
def SameList (s t : State) : Prop :=
  ∀ v, v ∈ s.board.threads.map shown ↔ v ∈ t.board.threads.map shown

/-- A run over just these packets, at whose end nothing is under way. -/
structure Complete (p : Primitives) (b : String) (k : Bytes) (stats : JsMap Val ThreadRow)
    (packets : List Val) (as : List Action) (s : State) : Prop where
  run : Machine.run (step p) (start b k stats) as = some s
  handed : ∀ x, x ∈ s.handed ↔ x ∈ packets
  pending : s.board.pending = []

/-- The rows of the store lie under their thread ids. -/
structure KeyedStats (stats : JsMap Val ThreadRow) : Prop where
  key : ∀ e ∈ stats, e.2.threadId = e.1
  distinct : (JsMap.keys stats).Nodup

/-- The store has a row of the thread, and it is of the board. -/
def OwnRow (b : String) (stats : JsMap Val ThreadRow) (threadId : String) : Prop :=
  ∃ r, JsMap.get stats (.str threadId) = some r ∧ r.boardId = b

/-- The weight a row of the thread has at least once it is written. -/
def floorOf (stats : JsMap Val ThreadRow) (threadId : String) : Number :=
  match JsMap.get stats (.str threadId) with
  | some r => r.maxPow.orZero
  | none => .fin 0

/-- The packets agree on the threads they name. -/
structure Agrees (p : Primitives) (b : String) (k : Bytes) (stats : JsMap Val ThreadRow)
    (packets : List Val) : Prop where
  alike : ∀ x ∈ packets, ∀ y ∈ packets, (facts p k x).threadId = (facts p k y).threadId →
    (facts p k x).content = (facts p k y).content ∧
      (facts p k x).sessionPubkey = (facts p k y).sessionPubkey ∧
      (facts p k x).tripPubkey = (facts p k y).tripPubkey ∧
      (facts p k x).createdAt = (facts p k y).createdAt
  weighed : ∀ x ∈ packets, (facts p k x).weight ≠ .nan
  counted : ∀ x ∈ packets, OwnRow b stats (facts p k x).threadId ∨
    ∃ y ∈ packets, (facts p k y).threadId = (facts p k x).threadId ∧
      (floorOf stats (facts p k x).threadId).rank ≤ (facts p k y).weight.rank

/-! Maps whose keys are found under themselves. -/

section
variable {ν : Type} {m : JsMap Val ν}

theorem get_str_mem {T : String} {v : ν} (h : JsMap.get m (.str T) = some v) : (.str T,v) ∈ m := by
  obtain ⟨k,hk,hbeq⟩ := JsMap.get_mem h
  exact Val.eq_of_beq hbeq ▸ hk

theorem get_str_of_mem (hn : (JsMap.keys m).Nodup) {T : String} {v : ν} (h : (.str T,v) ∈ m) :
    JsMap.get m (.str T) = some v := by
  induction m with
  | nil => cases h
  | cons e m ih =>
    obtain ⟨hnew,hn⟩ := List.nodup_cons.mp hn
    unfold JsMap.get
    obtain rfl | h := List.mem_cons.mp h
    · rw [if_pos (str_beq T)]
    · have hne : ¬(e.1 == .str T) = true := fun hbeq =>
        hnew (Val.eq_of_beq hbeq ▸ List.mem_map_of_mem h)
      rw [if_neg hne]
      exact ih hn h

theorem get_set_str (T U : String) (v : ν) :
    JsMap.get (JsMap.set m (.str T) v) (.str U) =
      if T = U then some v else JsMap.get m (.str U) := by
  rw [JsMap.get_set]
  by_cases h : T = U
  · rw [if_pos h,h,if_pos (str_beq U)]
  · have hne : ¬(Val.str T == .str U) = true := fun hbeq => by
      cases Val.eq_of_beq hbeq
      exact h rfl
    rw [if_neg h,if_neg hne]

theorem keys_set_str (T : String) (v : ν) :
    JsMap.keys (JsMap.set m (.str T) v) = JsMap.keys m ∨
      JsMap.keys (JsMap.set m (.str T) v) = JsMap.keys m ++ [.str T] ∧
        .str T ∉ JsMap.keys m := by
  induction m with
  | nil => exact .inr ⟨rfl,by simp [JsMap.keys]⟩
  | cons e m ih =>
    unfold JsMap.set
    by_cases he : (e.1 == .str T) = true
    · rw [if_pos he]
      exact .inl rfl
    · have hne : ¬Val.str T = e.1 := fun heq => he (heq ▸ str_beq T)
      rw [if_neg he]
      simp only [JsMap.keys,List.map_cons,List.mem_cons,hne,false_or,List.cons_append,
        List.cons.injEq,true_and] at ih ⊢
      exact ih

theorem nodup_set_str (hn : (JsMap.keys m).Nodup) (T : String) (v : ν) :
    (JsMap.keys (JsMap.set m (.str T) v)).Nodup := by
  obtain h | ⟨h,hnew⟩ := keys_set_str (m := m) T v
  · rw [h]
    exact hn
  · rw [h]
    refine List.nodup_append.mpr ⟨hn,by simp,fun a ha c hc heq => ?_⟩
    rw [List.mem_singleton.mp hc] at heq
    exact hnew (heq ▸ ha)

theorem mem_set_str {T : String} {v : ν} {e : Val × ν} (h : e ∈ JsMap.set m (.str T) v) :
    e ∈ m ∨ e = (.str T,v) := by
  obtain h | ⟨hv,hk | hk⟩ := JsMap.mem_set_or h
  · exact .inl h
  · exact .inr (Prod.ext hk hv)
  · exact .inr (Prod.ext (Val.eq_of_beq hk) hv)

end

section
variable {p : Primitives} {contents : String → Val × Val} {b : String} {k : Bytes}
  {stats : JsMap Val ThreadRow} {packets : List Val}

theorem facts_of_opens {x : Val} {post : Post} (h : verifyAndDecrypt p x k = .ok (some post)) :
    facts p k x = factsOf post := by
  unfold facts
  rw [h]

theorem IsCreation.factsOf {post : Post} (h : IsCreation post) :
    post.threadId = .str (factsOf post).threadId ∧ (ThreadList.factsOf post).threadId ≠ "" ∧
      post.createdAt.number = .ok (ThreadList.factsOf post).createdAt ∧
      (ThreadList.factsOf post).createdAt.finitePositive = true ∧
      (orElse post.cumulativePow (.num (.fin 0))).toNumber = .ok (ThreadList.factsOf post).weight := by
  obtain ⟨T,hT,hne⟩ := h.threadId
  obtain ⟨n,hn,hpos⟩ := h.createdAt
  obtain ⟨w,hw⟩ := h.weight
  simp [ThreadList.factsOf,hT,hn,hw,hne,hpos]

theorem number_of_toNumber {v : Val} {n : Number} (h : v.toNumber = .ok n) : v.number = .ok n := by
  cases v with
  | bigint i => simp [Val.toNumber] at h
  | _ => exact h

theorem IsCreation.basePow {post : Post} (h : IsCreation post) :
    basePow post = .ok (ThreadList.factsOf post).weight :=
  number_of_toNumber h.factsOf.2.2.2.2

theorem IsCreation.normalizeTimestamp {post : Post} (h : IsCreation post) (now : Number) :
    normalizeTimestamp post.createdAt now = .ok (ThreadList.factsOf post).createdAt := by
  obtain ⟨-,-,hn,hpos,-⟩ := h.factsOf
  simp [BoardOrchestrator.normalizeTimestamp,hn,hpos,bind,Except.bind]

theorem Valid.creates {x : Val} (h : Valid p contents k x) :
    ∃ post, Creates p k x post ∧ IsCreation post ∧ facts p k x = factsOf post := by
  obtain ⟨-,post,hopens,hc⟩ := h
  obtain ⟨n,hn,-⟩ := hc.createdAt
  exact ⟨post,⟨hopens,hc.postType,⟨n,hn⟩,⟨_,hc.basePow⟩⟩,hc,facts_of_opens hopens⟩

/-- The weights a list shows are between that of the packet and the largest there is. -/
def top (p : Primitives) (k : Bytes) (stats : JsMap Val ThreadRow) (packets : List Val)
    (T : String) : WithBot (WithTop Rat) :=
  ((packets.filter fun x => (facts p k x).threadId = T).map fun x =>
    (facts p k x).weight.rank).foldr Max.max (floorOf stats T).rank

theorem foldr_max_le {α : Type} [LinearOrder α] (xs : List α) (a c : α) :
    xs.foldr Max.max a ≤ c ↔ a ≤ c ∧ ∀ x ∈ xs, x ≤ c := by
  induction xs with
  | nil => simp
  | cons x xs ih =>
    simp only [List.foldr_cons,max_le_iff,ih,List.forall_mem_cons]
    tauto

theorem top_le_iff {T : String} {r : WithBot (WithTop Rat)} :
    top p k stats packets T ≤ r ↔ (floorOf stats T).rank ≤ r ∧
      ∀ x ∈ packets, (facts p k x).threadId = T → (facts p k x).weight.rank ≤ r := by
  unfold top
  rw [foldr_max_le]
  simp only [List.mem_map,List.mem_filter,decide_eq_true_eq,forall_exists_index,and_imp]
  constructor
  · intro ⟨hfloor,h⟩
    exact ⟨hfloor,fun x hx hT => h _ x hx hT rfl⟩
  · intro ⟨hfloor,h⟩
    refine ⟨hfloor,fun r x hx hT hr => ?_⟩
    rw [← hr]
    exact h x hx hT

theorem floor_le_top (T : String) : (floorOf stats T).rank ≤ top p k stats packets T :=
  (top_le_iff.mp le_rfl).1

theorem weight_le_top {x : Val} (hx : x ∈ packets) :
    (facts p k x).weight.rank ≤ top p k stats packets (facts p k x).threadId :=
  (top_le_iff.mp le_rfl).2 x hx rfl

variable (p b k stats packets) in
/-- A weight the list may show for a thread. -/
structure WeightOk (T : String) (w : Number) : Prop where
  notNan : w ≠ .nan
  le : w.rank ≤ top p k stats packets T
  own : OwnRow b stats T → (floorOf stats T).rank ≤ w.rank

variable (p b k stats packets) in
/-- An entry owes its data to a packet. -/
structure EntryOk (e : Val × ThreadMeta) (x : Val) : Prop where
  mem : x ∈ packets
  threadId : e.1 = .str (facts p k x).threadId
  content : e.2.post.content = (facts p k x).content
  sessionPubkey : e.2.post.sessionPubkey = (facts p k x).sessionPubkey
  tripPubkey : e.2.post.tripPubkey = (facts p k x).tripPubkey
  createdAt : e.2.createdAt = (facts p k x).createdAt
  weight : WeightOk p b k stats packets (facts p k x).threadId e.2.maxPow

variable (p b k stats packets) in
structure ListOk (threads : JsMap Val ThreadMeta) : Prop where
  distinct : (JsMap.keys threads).Nodup
  entry : ∀ e ∈ threads, ∃ x, EntryOk p b k stats packets e x

variable (p b k stats packets) in
structure RowsOk (rows : JsMap Val ThreadRow) : Prop extends KeyedStats rows where
  le : ∀ x ∈ packets, ∀ r, JsMap.get rows (.str (facts p k x).threadId) = some r →
    r.maxPow.orZero.rank ≤ top p k stats packets (facts p k x).threadId
  own : ∀ T, OwnRow b stats T → ∃ r, JsMap.get rows (.str T) = some r ∧ r.boardId = b ∧
    (floorOf stats T).rank ≤ r.maxPow.orZero.rank
  absent : ∀ T, JsMap.get rows (.str T) = none → floorOf stats T = .fin 0

/-- The thread of a packet is listed with at least its weight. -/
def Weighed (threads : JsMap Val ThreadMeta) (post : Post) : Prop :=
  ∃ t, JsMap.get threads post.threadId = some t ∧ (factsOf post).weight.rank ≤ t.maxPow.rank

/-- An entry takes the place of one with a smaller weight, or of none. -/
theorem ListOk.set {threads : JsMap Val ThreadMeta} (h : ListOk p b k stats packets threads)
    {T : String} {t : ThreadMeta} {x : Val} (hx : EntryOk p b k stats packets (.str T,t) x)
    (hle : ∀ u, JsMap.get threads (.str T) = some u → u.maxPow.rank ≤ t.maxPow.rank) :
    ListOk p b k stats packets (JsMap.set threads (.str T) t) ∧
      ∀ q, Weighed threads q → Weighed (JsMap.set threads (.str T) t) q := by
  refine ⟨⟨nodup_set_str h.distinct T t,fun e he => ?_⟩,fun q hq => ?_⟩
  · obtain he | rfl := mem_set_str he
    · exact h.entry e he
    · exact ⟨x,hx⟩
  · obtain ⟨u,hu,hw⟩ := hq
    obtain ⟨key,hkey,hbeq⟩ := JsMap.get_mem hu
    obtain ⟨y,hy⟩ := h.entry _ hkey
    have hid : q.threadId = .str (facts p k y).threadId := (Val.eq_of_beq hbeq).symm.trans hy.threadId
    unfold Weighed
    rw [hid] at hu ⊢
    rw [get_set_str]
    by_cases hT : T = (facts p k y).threadId
    · rw [if_pos hT]
      exact ⟨t,rfl,hw.trans (hle u (hT ▸ hu))⟩
    · rw [if_neg hT]
      exact ⟨u,hu,hw⟩

theorem statsOf_eq_some {rows : JsMap Val ThreadRow} (h : KeyedStats rows) {T : String}
    {r : ThreadRow} : statsOf (JsMap.values rows) b (.str T) = some r ↔
      JsMap.get rows (.str T) = some r ∧ r.boardId = b := by
  have hfound : ∀ q, statsOf (JsMap.values rows) b (.str T) = some q →
      JsMap.get rows (.str T) = some q ∧ q.boardId = b := by
    intro q hq
    have hfind : (getThreads (JsMap.values rows) b).find?
        (fun r => r.threadId.strictEq (.str T)) = some q := hq
    have hid : q.threadId = .str T :=
      Val.eq_of_strictEq (by simpa using List.find?_some hfind)
    have hmem := List.mem_of_find?_eq_some hfind
    have hboard := getThreads_board hmem
    obtain ⟨e,he,rfl⟩ := List.mem_map.mp (List.mem_filter.mp hmem).1
    have hkey : e.1 = .str T := (h.key e he).symm.trans hid
    exact ⟨get_str_of_mem h.distinct (hkey ▸ he),hboard⟩
  refine ⟨hfound r,fun ⟨hget,hboard⟩ => ?_⟩
  have hmem := get_str_mem hget
  have hrow : r ∈ getThreads (JsMap.values rows) b := by
    refine List.mem_filter.mpr ⟨List.mem_map_of_mem hmem,?_⟩
    simpa using hboard
  have hid : r.threadId = .str T := h.key _ hmem
  cases hs : statsOf (JsMap.values rows) b (.str T) with
  | none =>
    have hnone := List.find?_eq_none.mp hs r hrow
    simp [hid,Val.strictEq] at hnone
  | some q =>
    rw [← (hfound q hs).1,hget]

/-- The weight a merge comes with. -/
theorem weightOk_resolved {rows : JsMap Val ThreadRow} (h : RowsOk p b k stats packets rows)
    {x : Val} (hx : x ∈ packets) (hw : (facts p k x).weight ≠ .nan) :
    WeightOk p b k stats packets (facts p k x).threadId (resolvedPow (facts p k x).weight
        (statsOf (JsMap.values rows) b (.str (facts p k x).threadId))) ∧
      (facts p k x).weight.rank ≤ (resolvedPow (facts p k x).weight
        (statsOf (JsMap.values rows) b (.str (facts p k x).threadId))).rank := by
  cases hs : statsOf (JsMap.values rows) b (.str (facts p k x).threadId) with
  | none =>
    refine ⟨⟨hw,weight_le_top hx,fun hown => ?_⟩,le_rfl⟩
    obtain ⟨r,hget,hboard,-⟩ := h.own _ hown
    rw [(statsOf_eq_some h.toKeyedStats).mpr ⟨hget,hboard⟩] at hs
    cases hs
  | some r =>
    obtain ⟨hget,hboard⟩ := (statsOf_eq_some h.toKeyedStats).mp hs
    have hr := Number.orZero_ne_nan r.maxPow
    have hrank := Number.rank_max hw hr
    refine ⟨⟨Number.max_ne_nan hw hr,?_,fun hown => ?_⟩,?_⟩
    · simp only [resolvedPow,hrank]
      exact max_le (weight_le_top hx) (h.le x hx r hget)
    · obtain ⟨q,hq,-,hfloor⟩ := h.own _ hown
      rw [hget] at hq
      cases hq
      simp only [resolvedPow,hrank]
      exact hfloor.trans (le_max_right _ _)
    · simp only [resolvedPow,hrank]
      exact le_max_left _ _

theorem WeightOk.max {T : String} {m n : Number} (hm : WeightOk p b k stats packets T m)
    (hn : n ≠ .nan) (hle : n.rank ≤ top p k stats packets T) :
    WeightOk p b k stats packets T (Number.max m n) ∧ m.rank ≤ (Number.max m n).rank ∧
      n.rank ≤ (Number.max m n).rank := by
  have hrank := Number.rank_max hm.notNan hn
  have hmle : m.rank ≤ (Number.max m n).rank := hrank ▸ le_max_left _ _
  refine ⟨⟨Number.max_ne_nan hm.notNan hn,?_,fun hown => (hm.own hown).trans hmle⟩,hmle,
    hrank ▸ le_max_right _ _⟩
  rw [hrank]
  exact max_le hm.le hle

/-- A merge of a packet. -/
theorem ListOk.mergeInto {threads : JsMap Val ThreadMeta} (h : ListOk p b k stats packets threads)
    (hpositive : ∀ x ∈ packets, (facts p k x).createdAt.finitePositive = true) {x : Val}
    (hx : x ∈ packets) {post : Post} (hpost : facts p k x = factsOf post)
    (hid : post.threadId = .str (facts p k x).threadId) {w : Number}
    (hw : WeightOk p b k stats packets (facts p k x).threadId w)
    (hbase : (facts p k x).weight.rank ≤ w.rank) (packetId : Val) (origins : List Origin) :
    ListOk p b k stats packets
        (mergeInto threads post packetId w (facts p k x).createdAt origins) ∧
      (∀ q, Weighed threads q →
        Weighed (BoardDelivery.mergeInto threads post packetId w (facts p k x).createdAt origins)
          q) ∧
      Weighed (BoardDelivery.mergeInto threads post packetId w (facts p k x).createdAt origins)
        post := by
  unfold BoardDelivery.mergeInto Weighed
  rw [hid,← hpost]
  cases hg : JsMap.get threads (.str (facts p k x).threadId) with
  | none =>
    have hentry : EntryOk p b k stats packets (.str (facts p k x).threadId,
        ⟨post,packetId,w,(facts p k x).createdAt,origins⟩) x := by
      refine ⟨hx,rfl,?_,?_,?_,rfl,hw⟩
      · rw [hpost]
        rfl
      · rw [hpost]
        rfl
      · rw [hpost]
        rfl
    obtain ⟨hlist,hmono⟩ := h.set hentry fun u hu => by rw [hg] at hu; cases hu
    refine ⟨hlist,hmono,⟨post,packetId,w,(facts p k x).createdAt,origins⟩,?_,hbase⟩
    simp only [merged]
    rw [get_set_str,if_pos rfl]
  | some t =>
    obtain ⟨y,hy⟩ := h.entry _ (get_str_mem hg)
    have hT : (facts p k x).threadId = (facts p k y).threadId := Val.str.inj hy.threadId
    have hpos : t.createdAt.finitePositive = true := hy.createdAt ▸ hpositive y hy.mem
    have hw' : WeightOk p b k stats packets (facts p k y).threadId w := hT ▸ hw
    obtain ⟨hmax,htle,hwle⟩ := hy.weight.max hw'.notNan hw'.le
    have hat : t.createdAt.strictEq t.createdAt = true :=
      Val.Number.strictEq_iff.mpr ⟨rfl,fun hnan => by rw [hnan] at hpos; cases hpos⟩
    simp only [merged,Number.orZero_eq hy.weight.notNan,hpos,if_true,hat,Bool.and_true]
    by_cases hsame : (Number.max t.maxPow w).strictEq t.maxPow = true
    · rw [if_pos hsame]
      refine ⟨h,fun _ hq => hq,t,hg,hbase.trans (hwle.trans (le_of_eq ?_))⟩
      rw [(Val.Number.strictEq_iff.mp hsame).1]
    · rw [if_neg hsame]
      have hentry : EntryOk p b k stats packets (.str (facts p k x).threadId,
          { t with maxPow := Number.max t.maxPow w, origins := t.origins ++ origins }) y :=
        ⟨hy.mem,hy.threadId,hy.content,hy.sessionPubkey,hy.tripPubkey,hy.createdAt,hmax⟩
      obtain ⟨hlist,hmono⟩ := h.set hentry fun u hu => by
        rw [hg] at hu
        cases hu
        exact htle
      refine ⟨hlist,hmono,
        { t with maxPow := Number.max t.maxPow w, origins := t.origins ++ origins },?_,
        hbase.trans hwle⟩
      rw [get_set_str,if_pos rfl]

/-- A row of the statistics raises the weight of its thread. -/
theorem ListOk.tickRow {threads threads' : JsMap Val ThreadMeta}
    (h : ListOk p b k stats packets threads)
    (hpositive : ∀ x ∈ packets, (facts p k x).createdAt.finitePositive = true) {now : Number}
    {r : ThreadRow} (hle : ∀ x ∈ packets, r.threadId = .str (facts p k x).threadId →
      r.maxPow.orZero.rank ≤ top p k stats packets (facts p k x).threadId)
    (ht : BoardOrchestrator.tickRow threads now r = some threads') :
    ListOk p b k stats packets threads' ∧ ∀ q, Weighed threads q → Weighed threads' q := by
  unfold BoardOrchestrator.tickRow at ht
  cases hg : JsMap.get threads r.threadId with
  | none => simp [hg] at ht
  | some t =>
    obtain ⟨key,hkey,hbeq⟩ := JsMap.get_mem hg
    obtain ⟨y,hy⟩ := h.entry _ hkey
    have hid : r.threadId = .str (facts p k y).threadId :=
      (Val.eq_of_beq hbeq).symm.trans hy.threadId
    have hpos : t.createdAt.finitePositive = true := hy.createdAt ▸ hpositive y hy.mem
    have hr := Number.orZero_ne_nan r.maxPow
    obtain ⟨hmax,htle,-⟩ := hy.weight.max hr (hle y hy.mem hid)
    simp only [hg,hpos,Number.orZero_eq hy.weight.notNan,if_true] at ht
    obtain ⟨-,ht⟩ := Option.ite_none_left_eq_some.mp ht
    cases ht
    rw [hid] at hg ⊢
    have hentry : EntryOk p b k stats packets (.str (facts p k y).threadId,
        { t with
          maxPow := Number.max r.maxPow.orZero t.maxPow
          origins := t.origins ++ [.row r] }) y := by
      refine ⟨hy.mem,rfl,hy.content,hy.sessionPubkey,hy.tripPubkey,hy.createdAt,?_⟩
      rw [Number.max_comm]
      exact hmax
    refine h.set hentry fun u hu => ?_
    rw [hg] at hu
    cases hu
    rw [Number.max_comm]
    exact htle

theorem ListOk.tickRows {threads : JsMap Val ThreadMeta} (h : ListOk p b k stats packets threads)
    (hpositive : ∀ x ∈ packets, (facts p k x).createdAt.finitePositive = true) (now : Number)
    {rows : List ThreadRow} (hle : ∀ r ∈ rows, ∀ x ∈ packets,
      r.threadId = .str (facts p k x).threadId →
        r.maxPow.orZero.rank ≤ top p k stats packets (facts p k x).threadId) :
    ListOk p b k stats packets (tickRows now threads rows).1 ∧
      ∀ q, Weighed threads q → Weighed (BoardOrchestrator.tickRows now threads rows).1 q := by
  induction rows generalizing threads with
  | nil => exact ⟨h,fun _ hq => hq⟩
  | cons r rows ih =>
    obtain ⟨hr,hrows⟩ := List.forall_mem_cons.mp hle
    unfold BoardOrchestrator.tickRows
    cases ht : BoardOrchestrator.tickRow threads now r with
    | none => exact ih h hrows
    | some next =>
      obtain ⟨hnext,hmono⟩ := h.tickRow hpositive hr ht
      obtain ⟨hlist,hmono'⟩ := ih hnext hrows
      exact ⟨hlist,fun q hq => hmono' q (hmono q hq)⟩

/-- The rows the store returns. -/
theorem RowsOk.values {rows : JsMap Val ThreadRow} (h : RowsOk p b k stats packets rows)
    {r : ThreadRow} (hr : r ∈ JsMap.values rows) {x : Val} (hx : x ∈ packets)
    (hid : r.threadId = .str (facts p k x).threadId) :
    r.maxPow.orZero.rank ≤ top p k stats packets (facts p k x).threadId := by
  obtain ⟨e,he,rfl⟩ := List.mem_map.mp hr
  have hkey : e.1 = .str (facts p k x).threadId := (h.key e he).symm.trans hid
  exact h.le x hx e.2 (get_str_of_mem h.distinct (hkey ▸ he))

theorem writeStats_eq {now : Number} {rows rows' : JsMap Val ThreadRow} {save : PostSave}
    {T : String} {w : Number} (htarget : save.threadRoot = .str T) (hne : T ≠ "")
    (hw : (orElse save.cumulativePow (.num (.fin 0))).toNumber = .ok w)
    (h : writeStats now rows save = some rows') : ∃ createdAt,
      rows' = JsMap.set rows (.str T) {
        boardId := save.boardId
        threadId := .str T
        maxPow := Number.max (floorOf rows T) w
        createdAt := createdAt } := by
  have horElse : orElse save.threadRoot (.str save.threadId) = .str T := by
    rw [htarget]
    simp [orElse,Val.truthy,hne]
  simp only [writeStats,horElse,hw] at h
  cases h
  exact ⟨_,rfl⟩

theorem floorOf_ne_nan (rows : JsMap Val ThreadRow) (T : String) : floorOf rows T ≠ .nan := by
  unfold floorOf
  split
  · exact Number.orZero_ne_nan _
  · exact fun hnan => nomatch hnan

/-- A save of a packet is written. -/
theorem RowsOk.write {rows rows' : JsMap Val ThreadRow} (h : RowsOk p b k stats packets rows)
    {x : Val} (hx : x ∈ packets) (hw : (facts p k x).weight ≠ .nan) {createdAt : Number}
    (hrows : rows' = JsMap.set rows (.str (facts p k x).threadId) {
      boardId := b
      threadId := .str (facts p k x).threadId
      maxPow := Number.max (floorOf rows (facts p k x).threadId) (facts p k x).weight
      createdAt := createdAt }) : RowsOk p b k stats packets rows' := by
  subst hrows
  have hfloor := floorOf_ne_nan rows (facts p k x).threadId
  have hfloorLe : (floorOf rows (facts p k x).threadId).rank ≤
      top p k stats packets (facts p k x).threadId := by
    cases hg : JsMap.get rows (.str (facts p k x).threadId) with
    | none =>
      have hzero : floorOf rows (facts p k x).threadId = .fin 0 := by simp [floorOf,hg]
      rw [hzero,← h.absent _ hg]
      exact floor_le_top _
    | some r =>
      have hrow : floorOf rows (facts p k x).threadId = r.maxPow.orZero := by simp [floorOf,hg]
      rw [hrow]
      exact h.le x hx r hg
  have hnan := Number.max_ne_nan hfloor hw
  have hrank := Number.rank_max hfloor hw
  refine ⟨⟨fun e he => ?_,nodup_set_str h.distinct _ _⟩,fun y hy r hr => ?_,fun T hown => ?_,
    fun T hnone => ?_⟩
  · obtain he | rfl := mem_set_str he
    · exact h.key e he
    · rfl
  · rw [get_set_str] at hr
    split at hr
    · next heq =>
      cases hr
      rw [Number.orZero_eq hnan,hrank,← heq]
      exact max_le hfloorLe (weight_le_top hx)
    · exact h.le y hy r hr
  · obtain ⟨r,hr,hboard,hle⟩ := h.own T hown
    rw [get_set_str]
    by_cases heq : (facts p k x).threadId = T
    · rw [if_pos heq]
      refine ⟨_,rfl,rfl,?_⟩
      have hrow : floorOf rows (facts p k x).threadId = r.maxPow.orZero := by
        simp [floorOf,heq,hr]
      rw [Number.orZero_eq hnan,hrank,hrow]
      exact hle.trans (le_max_left _ _)
    · rw [if_neg heq]
      exact ⟨r,hr,hboard,hle⟩
  · rw [get_set_str] at hnone
    split at hnone
    · cases hnone
    · exact h.absent T hnone

variable (p contents b k packets) in
/-- What is known of the packets. -/
structure Known : Prop where
  valid : ∀ x ∈ packets, Valid p contents k x
  weighed : ∀ x ∈ packets, (facts p k x).weight ≠ .nan

theorem named_of_valid (h : ∀ x ∈ packets, Valid p contents k x) : Named p (· ∈ packets) k where
  id x hx := named_genuine (p := p) (k := k) |>.id x (h x hx).1
  alike x y hx hy := named_genuine.alike x y (h x hx).1 (h y hy).1

theorem Valid.post {x : Val} (h : Valid p contents k x) {post : Post}
    (hopens : verifyAndDecrypt p x k = .ok (some post)) :
    IsCreation post ∧ facts p k x = factsOf post := by
  obtain ⟨-,post',hopens',hc⟩ := h
  rw [hopens] at hopens'
  cases hopens'
  exact ⟨hc,facts_of_opens hopens⟩

theorem Known.positive (h : Known p contents k packets) :
    ∀ x ∈ packets, (facts p k x).createdAt.finitePositive = true := by
  intro x hx
  obtain ⟨post,-,hc,hfacts⟩ := (h.valid x hx).creates
  rw [hfacts]
  exact hc.factsOf.2.2.2.1

variable (p b k stats packets) in
structure Inv (s : State) : Prop where
  good : Good p (· ∈ packets) Weighed b k s.board none
  marked : ∀ x ∈ s.handed, isMarked s.board x = true
  list : ListOk p b k stats packets s.board.threads
  rows : RowsOk p b k stats packets s.stats
  saves : ∀ e ∈ s.board.saves, Saved p (· ∈ packets) b k e

theorem boardAction_spec {s : State} {a : Action} {act : BoardOrchestrator.Action}
    (h : boardAction s a = some act) :
    StaysActive b k act ∧ readFailed s.board act = none ∧
      ∀ i stored env, act = .resume i (.threadRows stored) env → stored = JsMap.values s.stats := by
  cases a with
  | resume i env =>
    obtain ⟨c,-,rfl⟩ := Option.map_eq_some_iff.mp h
    cases c with
    | statsRead c post createdAt base =>
      exact ⟨trivial,rfl,fun _ _ _ hact => by cases hact; rfl⟩
    | statsTick boardId => exact ⟨trivial,rfl,fun _ _ _ hact => by cases hact; rfl⟩
    | _ => exact ⟨trivial,rfl,fun _ _ _ hact => nomatch hact⟩
  | write i now => cases h
  | _ =>
    cases h
    exact ⟨trivial,rfl,fun _ _ _ hact => nomatch hact⟩

/-- What a step of the board does to the list. -/
theorem Inv.boardStep (hk : Known p contents k packets) {s : State}
    (h : Inv p b k stats packets s) {a : Action} {act : BoardOrchestrator.Action}
    {board : BoardOrchestrator.State} (ha : boardAction s a = some act)
    (hs : BoardOrchestrator.step p s.board act = some board) :
    ListOk p b k stats packets board.threads ∧
      (∀ q, Weighed s.board.threads q → Weighed board.threads q) ∧
      ∀ i c post createdAt base stored env, act = .resume i (.threadRows stored) env →
        s.board.pending[i]? = some (.statsRead c post createdAt base) →
          Weighed board.threads post := by
  obtain ⟨hstays,-,hreads⟩ := boardAction_spec (b := b) (k := k) ha
  have hmerge {i : Nat} {c : PacketCall} {post : Post} {createdAt base : Number}
      (ht : s.board.pending[i]? = some (.statsRead c post createdAt base)) (origins : List Origin) :
      ListOk p b k stats packets (mergeInto s.board.threads post (c.packet.field "packet_id")
          (resolvedPow base (statsOf (JsMap.values s.stats) c.boardId post.threadId)) createdAt
          origins) ∧
        (∀ q, Weighed s.board.threads q →
          Weighed (mergeInto s.board.threads post (c.packet.field "packet_id")
            (resolvedPow base (statsOf (JsMap.values s.stats) c.boardId post.threadId)) createdAt
            origins) q) ∧
        Weighed (mergeInto s.board.threads post (c.packet.field "packet_id")
          (resolvedPow base (statsOf (JsMap.values s.stats) c.boardId post.threadId)) createdAt
          origins) post := by
    obtain ⟨hboard,-,hpacket,hopens,⟨now,hat⟩,hbase⟩ := h.good.own _ (List.mem_of_getElem? ht)
    obtain ⟨hc,hfacts⟩ := (hk.valid _ hpacket).post hopens
    rw [hc.normalizeTimestamp] at hat
    rw [hc.basePow] at hbase
    cases hat
    cases hbase
    have hid : post.threadId = .str (facts p k c.packet).threadId := hfacts ▸ hc.factsOf.1
    obtain ⟨hw,hle⟩ := weightOk_resolved h.rows hpacket (hk.weighed _ hpacket)
    rw [hboard,hid,← hfacts]
    exact h.list.mergeInto hk.positive hpacket hfacts hid hw hle _ origins
  refine ⟨?_,?_,fun i c post createdAt base stored env hact ht => ?_⟩
  · have hchange := h.good.listChange hs hstays
    generalize board.threads = threads at hchange ⊢
    cases hchange with
    | same => exact h.list
    | merged origins ht =>
      rw [hreads _ _ _ rfl]
      exact (hmerge ht origins).1
    | ticked ht =>
      rw [hreads _ _ _ rfl]
      refine (h.list.tickRows hk.positive _ fun r hr x hx hid => ?_).1
      exact h.rows.values (List.mem_filter.mp hr).1 hx hid
  · have hchange := h.good.listChange hs hstays
    generalize board.threads = threads at hchange ⊢
    cases hchange with
    | same => exact fun _ hq => hq
    | merged origins ht =>
      rw [hreads _ _ _ rfl]
      exact (hmerge ht origins).2.1
    | ticked ht =>
      rw [hreads _ _ _ rfl]
      refine (h.list.tickRows hk.positive _ fun r hr x hx hid => ?_).2
      exact h.rows.values (List.mem_filter.mp hr).1 hx hid
  · subst hact
    obtain ⟨origins,hthreads⟩ := step_statsRead hs ht
    rw [hthreads,hreads _ _ _ rfl]
    exact (hmerge ht origins).2.2

theorem Inv.write (hk : Known p contents k packets) {s : State} (h : Inv p b k stats packets s)
    {i : Nat} {now : Number} {save : PostSave} {rows : JsMap Val ThreadRow}
    (hi : s.board.saves[i]? = some save) (hrows : writeStats now s.stats save = some rows) :
    RowsOk p b k stats packets rows := by
  obtain ⟨x,post,hx,hopens,hboard,hroot,hpow⟩ := h.saves save (List.mem_of_getElem? hi)
  obtain ⟨hc,hfacts⟩ := (hk.valid x hx).post hopens
  obtain ⟨hid,hne,-,-,hw⟩ := hc.factsOf
  rw [← hfacts] at hid hne hw
  have hweight : (orElse save.cumulativePow (.num (.fin 0))).toNumber =
      .ok (facts p k x).weight := by
    rw [hpow,orElse_idem]
    exact hw
  obtain ⟨createdAt,hwrite⟩ := writeStats_eq (hroot.trans hid) hne hweight hrows
  rw [hboard] at hwrite
  exact h.rows.write hx (hk.weighed x hx) hwrite

theorem step_cases {s s' : State} {a : Action} (hs : step p s a = some s') :
    (∃ i now save rows, a = .write i now ∧ s.board.saves[i]? = some save ∧
      writeStats now s.stats save = some rows ∧ s' = { s with stats := rows }) ∨
    ∃ act board, boardAction s a = some act ∧ BoardOrchestrator.step p s.board act = some board ∧
      s' = { s with
        board := board
        handed := (delivered s.board act).toList ++ s.handed } := by
  cases a with
  | write i now =>
    simp only [step,Option.bind_eq_some_iff,Option.map_eq_some_iff] at hs
    obtain ⟨save,hsave,rows,hrows,rfl⟩ := hs
    exact .inl ⟨i,now,save,rows,rfl,hsave,hrows,rfl⟩
  | _ =>
    simp only [step,Option.bind_eq_some_iff,Option.map_eq_some_iff] at hs
    obtain ⟨act,hact,board,hboard,rfl⟩ := hs
    exact .inr ⟨act,board,hact,hboard,rfl⟩

theorem inv_step (hk : Known p contents k packets) {s s' : State} {a : Action}
    (h : Inv p b k stats packets s) (hhanded : ∀ x ∈ s'.handed, x ∈ packets)
    (hs : step p s a = some s') : Inv p b k stats packets s' := by
  obtain ⟨i,now,save,rows,-,hsave,hrows,rfl⟩ | ⟨act,board,hact,hboard,rfl⟩ := step_cases hs
  · exact ⟨h.good,h.marked,h.list,h.write hk hsave hrows,h.saves⟩
  · obtain ⟨hstays,hread,-⟩ := boardAction_spec (b := b) (k := k) hact
    obtain ⟨hlist,hmono,hmerged⟩ := h.boardStep hk hact hboard
    have htook := h.good.boardStep (named_of_valid hk.valid) hboard hstays hread (fun x hx => hhanded x (by simp [hx]))
      hmono hmerged
    refine ⟨htook.good,fun x hx => ?_,hlist,h.rows,fun e he => ?_⟩
    · obtain hx | hx := List.mem_append.mp hx
      · exact htook.marked x (Option.mem_toList.mp hx)
      · exact isMarked_mono htook.seen (h.marked x hx)
    · obtain he | he := htook.saves e he
      · exact h.saves e he
      · exact he

theorem inv_start (hb : b ≠ "") (hstats : KeyedStats stats) :
    Inv p b k stats packets (start b k stats) := by
  have hgood : Good p (· ∈ packets) Weighed b k (start b k stats).board none :=
    ⟨by simp [start_board,openBoard,hb],by simp [start_board],by simp [start_board],
      by simp [start_board]⟩
  have hrows : RowsOk p b k stats packets stats := by
    refine ⟨hstats,fun x hx r hr => ?_,fun T hown => ?_,fun T hnone => ?_⟩
    · have hrow : floorOf stats (facts p k x).threadId = r.maxPow.orZero := by simp [floorOf,hr]
      exact hrow ▸ floor_le_top _
    · obtain ⟨r,hr,hboard⟩ := hown
      refine ⟨r,hr,hboard,le_of_eq ?_⟩
      simp [floorOf,hr]
    · simp [floorOf,hnone]
  refine ⟨hgood,by simp [start],⟨List.nodup_nil,fun e he => by cases he⟩,hrows,?_⟩
  simp [start_board]

theorem handed_step {s s' : State} {a : Action} (hs : step p s a = some s') :
    ∀ x ∈ s.handed, x ∈ s'.handed := by
  obtain ⟨i,now,save,rows,-,-,-,rfl⟩ | ⟨act,board,-,-,rfl⟩ := step_cases hs
  · exact fun _ hx => hx
  · exact fun _ hx => List.mem_append_right _ hx

theorem inv_run (hk : Known p contents k packets) (hb : b ≠ "") (hstats : KeyedStats stats)
    {as : List Action} {s : State} (hr : Machine.run (step p) (start b k stats) as = some s)
    (hhanded : ∀ x ∈ s.handed, x ∈ packets) : Inv p b k stats packets s := by
  have hinv : (∀ x ∈ s.handed, x ∈ packets) → Inv p b k stats packets s := by
    refine Machine.invariant_run' (I := fun s => (∀ x ∈ s.handed, x ∈ packets) →
      Inv p b k stats packets s) (fun s a s' hs ht hhanded => ?_) (fun _ => inv_start hb hstats) hr
    exact inv_step hk (hs fun x hx => hhanded x (handed_step ht x hx)) hhanded ht
  exact hinv hhanded

/-- The end of a run over just the packets: every packet's thread is listed with the largest
weight there is. -/
theorem mem_shown_iff (hk : Known p contents k packets) (hb : b ≠ "")
    (hstats : KeyedStats stats) (ha : Agrees p b k stats packets) {as : List Action} {s : State}
    (hc : Complete p b k stats packets as s) (v : Shown) :
    v ∈ s.board.threads.map shown ↔ ∃ x ∈ packets, v.threadId = .str (facts p k x).threadId ∧
      v.content = (facts p k x).content ∧ v.sessionPubkey = (facts p k x).sessionPubkey ∧
      v.tripPubkey = (facts p k x).tripPubkey ∧ v.createdAt = (facts p k x).createdAt ∧
      v.weight ≠ .nan ∧ v.weight.rank = top p k stats packets (facts p k x).threadId := by
  have hinv := inv_run hk hb hstats hc.run fun x hx => (hc.handed x).mp hx
  have hlisted : ∀ x ∈ packets, ∃ t, (.str (facts p k x).threadId,t) ∈ s.board.threads ∧
      (facts p k x).weight.rank ≤ t.maxPow.rank := by
    intro x hx
    obtain ⟨post,hcreates,hcreation,hfacts⟩ := (hk.valid x hx).creates
    obtain ⟨id,hid⟩ := (named_of_valid hk.valid).id x hx
    have hmarked := (isMarked_iff hid).mp (hinv.marked x ((hc.handed x).mpr hx))
    obtain hhandled | ⟨t,ht,hle⟩ := hinv.good.cared id hmarked (by simp) x hx hid post hcreates
    · rw [hc.pending] at hhandled
      cases hhandled
    · rw [hcreation.factsOf.1,← hfacts] at ht
      exact ⟨t,get_str_mem ht,hfacts ▸ hle⟩
  have hweight : ∀ t x, EntryOk p b k stats packets (.str (facts p k x).threadId,t) x →
      (.str (facts p k x).threadId,t) ∈ s.board.threads →
        t.maxPow.rank = top p k stats packets (facts p k x).threadId := by
    intro t x hx ht
    have hall : ∀ y ∈ packets, (facts p k y).threadId = (facts p k x).threadId →
        (facts p k y).weight.rank ≤ t.maxPow.rank := by
      intro y hy hid
      obtain ⟨u,hu,hle⟩ := hlisted y hy
      have hget := get_str_of_mem hinv.list.distinct ht
      rw [← hid,get_str_of_mem hinv.list.distinct hu] at hget
      cases hget
      exact hle
    refine le_antisymm hx.weight.le (top_le_iff.mpr ⟨?_,hall⟩)
    obtain hown | ⟨y,hy,hid,hle⟩ := ha.counted x hx.mem
    · exact hx.weight.own hown
    · exact hle.trans (hall y hy hid)
  constructor
  · intro hv
    obtain ⟨⟨key,t⟩,he,rfl⟩ := List.mem_map.mp hv
    obtain ⟨x,hx⟩ := hinv.list.entry _ he
    have hkey : key = .str (facts p k x).threadId := hx.threadId
    subst hkey
    exact ⟨x,hx.mem,rfl,hx.content,hx.sessionPubkey,hx.tripPubkey,hx.createdAt,hx.weight.notNan,
      hweight t x hx he⟩
  · intro ⟨x,hx,hid,hcontent,hsession,htrip,hat,hnan,hrank⟩
    obtain ⟨t,ht,-⟩ := hlisted x hx
    obtain ⟨y,hy⟩ := hinv.list.entry _ ht
    have hT : (facts p k x).threadId = (facts p k y).threadId := Val.str.inj hy.threadId
    obtain ⟨hcontent',hsession',htrip',hat'⟩ := ha.alike x hx y hy.mem hT
    have hweq : v.weight = t.maxPow := by
      refine Number.rank_inj hnan hy.weight.notNan ?_
      rw [hrank,hT]
      rw [hT] at hy ht
      exact (hweight t y hy ht).symm
    refine List.mem_map.mpr ⟨_,ht,?_⟩
    obtain ⟨vid,vcontent,vsession,vtrip,vweight,vat⟩ := v
    simp only at hid hcontent hsession htrip hat hweq
    simp only [shown,hid,hcontent,hsession,htrip,hat,hweq,hcontent',hsession',htrip',hat',
      Shown.mk.injEq,true_and]
    exact ⟨hy.content,hy.sessionPubkey,hy.tripPubkey,hy.createdAt⟩

/-- Lists that agree converge. -/
theorem sameList_of_agrees (hk : Known p contents k packets) (hb : b ≠ "")
    (hstats : KeyedStats stats) (ha : Agrees p b k stats packets) {as bs : List Action}
    {s t : State} (hs : Complete p b k stats packets as s) (ht : Complete p b k stats packets bs t) :
    SameList s t := by
  intro v
  rw [mem_shown_iff hk hb hstats ha hs,mem_shown_iff hk hb hstats ha ht]

/-! Runs in which packets are handled one after the other. -/

variable (b k) in
/-- Nothing is under way. -/
structure Idle (s : State) : Prop where
  board : openBoard s.board = some (b,k)
  pending : s.board.pending = []
  sync : s.board.syncInFlight = false
  debounce : s.board.syncDebounce = false

variable (p b k) in
/-- What is left of a packet that was handled. -/
inductive Handles (s : State) (x : Val) (s' : State) : Prop where
  | again : isMarked s.board x = true → s'.board.threads = s.board.threads →
    s'.board.seenPacketIds = s.board.seenPacketIds → s'.board.saves = s.board.saves →
    Handles s x s'
  | new (post : Post) (origins : List Origin) (save : PostSave) :
    isMarked s.board x = false → verifyAndDecrypt p x k = .ok (some post) →
    s'.board.threads = mergeInto s.board.threads post (x.field "packet_id")
      (resolvedPow (factsOf post).weight (statsOf (JsMap.values s.stats) b post.threadId))
      (factsOf post).createdAt origins →
    s'.board.seenPacketIds = x.field "packet_id" :: s.board.seenPacketIds →
    s'.board.saves = save :: s.board.saves → save.boardId = b → save.threadRoot = post.threadId →
    save.cumulativePow = orElse post.cumulativePow (.num (.fin 0)) → Handles s x s'

theorem mergeAndNotify_eq (s : BoardOrchestrator.State) (post : Post) (packetId : Val)
    (maxPow createdAt : Number) (origins : List Origin) : ∃ snapshot,
      mergeAndNotify s post packetId maxPow createdAt origins = { s with
        threads := mergeInto s.threads post packetId maxPow createdAt origins
        snapshot := snapshot } := by
  unfold mergeAndNotify mergeThread mergeInto
  cases merged (JsMap.get s.threads post.threadId) post packetId maxPow createdAt origins with
  | some t => exact ⟨_,rfl⟩
  | none => exact ⟨_,rfl⟩

theorem IsCreation.resumeDecrypted {post : Post} (h : IsCreation post) {c : PacketCall}
    (hopens : verifyAndDecrypt p c.packet c.key = .ok (some post)) (s : BoardOrchestrator.State)
    (env : Env) : resumeDecrypted p s c env =
      suspend s (.statsRead c post (ThreadList.factsOf post).createdAt
        (ThreadList.factsOf post).weight) := by
  simp [BoardOrchestrator.resumeDecrypted,hopens,h.postType,h.normalizeTimestamp,h.basePow]

/-- The save of a packet that was merged. -/
def saveOf (b : String) (x : Val) (post : Post) : PostSave where
  boardId := b
  threadId := boardMetaThreadId
  payload := .inr x
  parents := orElse post.parents (.arr [])
  cumulativePow := orElse post.cumulativePow (.num (.fin 0))
  threadRoot := post.threadId
  createdAt := post.createdAt

theorem Idle.handles {s : State} (hi : Idle b k s) {x : Val} (hx : Valid p contents k x) :
    ∃ as s', Machine.run (step p) s as = some s' ∧ Idle b k s' ∧ s'.stats = s.stats ∧
      s'.handed = x :: s.handed ∧ Handles p b k s x s' := by
  obtain ⟨hgenuine,post,hopens,hc⟩ := hx
  obtain ⟨id,hid,-⟩ := hgenuine
  have hnull : x.isNullish = false := by
    cases x with
    | _ => first | rfl | cases hid
  have hgossip : BoardOrchestrator.step p s.board (.gossip x) =
      some (enterPacket s.board ⟨b,k,x,none,none⟩) := by
    simp [BoardOrchestrator.step,onGossipPacket,hi.board]
  have hdelivered : delivered s.board (.gossip x) = some x := by
    simp [delivered,hi.board]
  by_cases hmarked : isMarked s.board x = true
  · have hseen : s.board.seenPacketIds.any (· == x.field "packet_id") = true := hmarked
    have henter : enterPacket s.board ⟨b,k,x,none,none⟩ = s.board := by
      simp [enterPacket,hnull,hseen,settle]
    refine ⟨[.gossip x],{ s with handed := x :: s.handed },?_,
      ⟨hi.board,hi.pending,hi.sync,hi.debounce⟩,rfl,rfl,.again hmarked rfl rfl rfl⟩
    simp [Machine.run,step,boardAction,hgossip,hdelivered,henter]
  · have hseen : s.board.seenPacketIds.any (· == x.field "packet_id") = false := by
      simpa [isMarked] using hmarked
    have hnew : isMarked s.board x = false := hseen
    -- the board while the packet is handled, but for what is suspended
    let entered : BoardOrchestrator.State :=
      { s.board with seenPacketIds := x.field "packet_id" :: s.board.seenPacketIds }
    have henter : enterPacket s.board ⟨b,k,x,none,none⟩ =
        { entered with pending := [.decrypted ⟨b,k,x,none,none⟩] } := by
      simp [enterPacket,hnull,hseen,suspend,hi.pending,entered]
    obtain ⟨snapshot,hmerge⟩ := mergeAndNotify_eq { entered with pending := [] } post
      (x.field "packet_id") (resolvedPow (factsOf post).weight
        (statsOf (JsMap.values s.stats) b post.threadId)) (factsOf post).createdAt
      (.packet x post :: (statsOf (JsMap.values s.stats) b post.threadId).toList.map .row)
    have hread : resumeStatsRead { entered with pending := [] } ⟨b,k,x,none,none⟩ post
        (factsOf post).createdAt (factsOf post).weight (JsMap.values s.stats) =
        persistThread (mergeAndNotify { entered with pending := [] } post
          (x.field "packet_id") (resolvedPow (factsOf post).weight
            (statsOf (JsMap.values s.stats) b post.threadId)) (factsOf post).createdAt
          (.packet x post :: (statsOf (JsMap.values s.stats) b post.threadId).toList.map .row))
          ⟨b,k,x,none,none⟩ post := rfl
    rw [hmerge] at hread
    let mergedBoard : BoardOrchestrator.State := { entered with
      pending := []
      threads := mergeInto s.board.threads post (x.field "packet_id") (resolvedPow
        (factsOf post).weight (statsOf (JsMap.values s.stats) b post.threadId))
        (factsOf post).createdAt
        (.packet x post :: (statsOf (JsMap.values s.stats) b post.threadId).toList.map .row)
      snapshot := snapshot
      saves := saveOf b x post :: s.board.saves }
    have h₁ : step p s (.gossip x) = some { s with
        board := { entered with pending := [.decrypted ⟨b,k,x,none,none⟩] }
        handed := x :: s.handed } := by
      simp [step,boardAction,hgossip,hdelivered,henter]
    have h₂ : step p { s with
        board := { entered with pending := [.decrypted ⟨b,k,x,none,none⟩] }
        handed := x :: s.handed } (.resume 0 {}) = some { s with
        board := { entered with pending := [.statsRead ⟨b,k,x,none,none⟩ post
          (factsOf post).createdAt (factsOf post).weight] }
        handed := x :: s.handed } := by
      have hdecrypted := hc.resumeDecrypted (c := ⟨b,k,x,none,none⟩) hopens
        { entered with pending := [] } {}
      simp [step,boardAction,answer,BoardOrchestrator.step,Machine.takeTask,
        BoardOrchestrator.resume,hdecrypted,suspend,delivered]
    have h₃ : step p { s with
        board := { entered with pending := [.statsRead ⟨b,k,x,none,none⟩ post
          (factsOf post).createdAt (factsOf post).weight] }
        handed := x :: s.handed } (.resume 0 {}) = some { s with
        board := { mergedBoard with pending := [.persisted ⟨b,k,x,none,none⟩] }
        handed := x :: s.handed } := by
      simp only [step,boardAction,answer,BoardOrchestrator.step,Machine.takeTask,
        BoardOrchestrator.resume,delivered]
      simp [hread,persistThread,suspend,saveOf,mergedBoard,entered]
    have h₄ : step p { s with
        board := { mergedBoard with pending := [.persisted ⟨b,k,x,none,none⟩] }
        handed := x :: s.handed } (.resume 0 {}) = some { s with
        board := mergedBoard
        handed := x :: s.handed } := by
      simp [step,boardAction,answer,BoardOrchestrator.step,Machine.takeTask,
        BoardOrchestrator.resume,settle,delivered,mergedBoard]
    refine ⟨[.gossip x,.resume 0 {},.resume 0 {},.resume 0 {}],_,
      Machine.run_cons h₁ (Machine.run_cons h₂ (Machine.run_cons h₃ (Machine.run_cons h₄ rfl))),
      ⟨hi.board,rfl,hi.sync,hi.debounce⟩,rfl,rfl,
      .new post _ (saveOf b x post) hnew hopens rfl rfl rfl rfl rfl rfl⟩

theorem Handles.marked {s s' : State} {x : Val} (h : Handles p b k s x s') {id : String}
    (hid : x.field "packet_id" = .str id) : isMarked s'.board x = true ∧
      ∀ y, isMarked s.board y = true → isMarked s'.board y = true := by
  cases h with
  | again hmarked _ hseen _ =>
    unfold isMarked at hmarked ⊢
    rw [hseen]
    exact ⟨hmarked,fun _ hy => hy⟩
  | new post origins save _ _ _ hseen _ _ _ _ =>
    refine ⟨(isMarked_iff hid).mpr ?_,fun y hy => isMarked_mono (fun i hi => ?_) hy⟩
    · rw [hseen,hid]
      exact List.mem_cons_self
    · rw [hseen]
      exact List.mem_cons_of_mem _ hi

/-- Packets that are handled one after the other, and what each keeps. -/
theorem Idle.handleAll {I : State → Prop} {s : State} (hi : Idle b k s) (xs : List Val) (hI : I s)
    (hxs : ∀ x ∈ xs, Valid p contents k x)
    (hkeep : ∀ s s' x, x ∈ xs → I s → s'.stats = s.stats → Handles p b k s x s' → I s') :
    ∃ as s', Machine.run (step p) s as = some s' ∧ Idle b k s' ∧ s'.stats = s.stats ∧
      (∀ y, y ∈ s'.handed ↔ y ∈ xs ∨ y ∈ s.handed) ∧ I s' ∧
      (∀ y ∈ xs, isMarked s'.board y = true) ∧
      ∀ y, isMarked s.board y = true → isMarked s'.board y = true := by
  induction xs generalizing s with
  | nil => exact ⟨[],s,rfl,hi,rfl,by simp,hI,by simp,fun _ hy => hy⟩
  | cons x xs ih =>
    obtain ⟨hx,hrest⟩ := List.forall_mem_cons.mp hxs
    obtain ⟨as,t,hr,ht,hstats,hhanded,hh⟩ := hi.handles hx
    obtain ⟨id,hid,-⟩ := hx.1
    obtain ⟨hmarked,hmono⟩ := hh.marked hid
    obtain ⟨bs,u,hr',hu,hstats',hhanded',hIu,hall,hmono'⟩ := ih ht
      (hkeep s t x List.mem_cons_self hI hstats hh) hrest
      fun s s' y hy => hkeep s s' y (List.mem_cons_of_mem x hy)
    refine ⟨as ++ bs,u,?_,hu,hstats'.trans hstats,fun y => ?_,hIu,
      List.forall_mem_cons.mpr ⟨hmono' x hmarked,hall⟩,fun y hy => hmono' y (hmono y hy)⟩
    · rw [Machine.run_append,hr]
      exact hr'
    · rw [hhanded',hhanded,List.mem_cons,List.mem_cons]
      tauto

/-- What a merge leaves of the entries there are, and what it makes of the one it is about. -/
theorem mergeInto_spec {threads : JsMap Val ThreadMeta} (hn : (JsMap.keys threads).Nodup)
    {post : Post} {U : String} (hU : post.threadId = .str U) (packetId : Val)
    (maxPow createdAt : Number) (origins : List Origin) :
    (JsMap.keys (mergeInto threads post packetId maxPow createdAt origins)).Nodup ∧
      (∀ T, T ≠ U → JsMap.get (mergeInto threads post packetId maxPow createdAt origins) (.str T) =
        JsMap.get threads (.str T)) ∧
      (JsMap.get threads (.str U) = none →
        JsMap.get (mergeInto threads post packetId maxPow createdAt origins) (.str U) =
          some ⟨post,packetId,maxPow,createdAt,origins⟩) ∧
      ∀ t, JsMap.get threads (.str U) = some t → ∃ u,
        JsMap.get (mergeInto threads post packetId maxPow createdAt origins) (.str U) = some u ∧
          u.post = t.post ∧ (t.createdAt.finitePositive = true → u.createdAt = t.createdAt) ∧
          u.maxPow = Number.max t.maxPow.orZero maxPow := by
  unfold mergeInto
  rw [hU]
  cases hg : JsMap.get threads (.str U) with
  | none =>
    simp only [merged]
    refine ⟨nodup_set_str hn U _,fun T hT => ?_,fun _ => ?_,fun t ht => by cases ht⟩
    · rw [get_set_str,if_neg (Ne.symm hT)]
    · rw [get_set_str,if_pos rfl]
  | some t =>
    simp only [merged]
    by_cases hsame : ((t.maxPow.orZero.max maxPow).strictEq t.maxPow &&
        (if t.createdAt.finitePositive then t.createdAt else createdAt).strictEq t.createdAt) = true
    · rw [if_pos hsame]
      refine ⟨hn,fun _ _ => rfl,(fun h => by cases h),fun u hu => ?_⟩
      cases hu
      refine ⟨t,hg,rfl,fun _ => rfl,?_⟩
      exact (Val.Number.strictEq_iff.mp (Bool.and_eq_true _ _ ▸ hsame).1).1.symm
    · rw [if_neg hsame]
      refine ⟨nodup_set_str hn U _,fun T hT => ?_,(fun h => by cases h),fun u hu => ?_⟩
      · rw [get_set_str,if_neg (Ne.symm hT)]
      · cases hu
        rw [get_set_str,if_pos rfl]
        refine ⟨_,rfl,rfl,fun hpos => ?_,rfl⟩
        simp [hpos]

/-- A packet that is merged, in terms of what it says. -/
theorem Handles.cases {s s' : State} {x : Val} (h : Handles p b k s x s')
    (hx : Valid p contents k x) (hn : (JsMap.keys s.board.threads).Nodup) :
    (isMarked s.board x = true ∧ s'.board.threads = s.board.threads ∧
      s'.board.seenPacketIds = s.board.seenPacketIds ∧ s'.board.saves = s.board.saves) ∨
    ∃ w save, w = resolvedPow (facts p k x).weight
        (statsOf (JsMap.values s.stats) b (.str (facts p k x).threadId)) ∧
      isMarked s.board x = false ∧ (JsMap.keys s'.board.threads).Nodup ∧
      (∀ T, T ≠ (facts p k x).threadId →
        JsMap.get s'.board.threads (.str T) = JsMap.get s.board.threads (.str T)) ∧
      (JsMap.get s.board.threads (.str (facts p k x).threadId) = none →
        ∃ u, JsMap.get s'.board.threads (.str (facts p k x).threadId) = some u ∧
          u.post.content = (facts p k x).content ∧
          u.post.sessionPubkey = (facts p k x).sessionPubkey ∧
          u.post.tripPubkey = (facts p k x).tripPubkey ∧
          u.createdAt = (facts p k x).createdAt ∧ u.maxPow = w) ∧
      (∀ t, JsMap.get s.board.threads (.str (facts p k x).threadId) = some t → ∃ u,
        JsMap.get s'.board.threads (.str (facts p k x).threadId) = some u ∧ u.post = t.post ∧
          (t.createdAt.finitePositive = true → u.createdAt = t.createdAt) ∧
          u.maxPow = Number.max t.maxPow.orZero w) ∧
      s'.board.seenPacketIds = x.field "packet_id" :: s.board.seenPacketIds ∧
      s'.board.saves = save :: s.board.saves ∧ save.boardId = b ∧
      save.threadRoot = .str (facts p k x).threadId ∧
      (orElse save.cumulativePow (.num (.fin 0))).toNumber = .ok (facts p k x).weight := by
  cases h with
  | again hmarked hthreads hseen hsaves => exact .inl ⟨hmarked,hthreads,hseen,hsaves⟩
  | new post origins save hnew hopens hthreads hseen hsaves hboard hroot hpow =>
    obtain ⟨hc,hfacts⟩ := hx.post hopens
    obtain ⟨hid,-,-,-,hweight⟩ := hc.factsOf
    rw [← hfacts] at hid hweight hthreads
    rw [hid] at hthreads hroot
    obtain ⟨hdistinct,hother,hfirst,hagain⟩ := mergeInto_spec hn hid (x.field "packet_id")
      (resolvedPow (facts p k x).weight
        (statsOf (JsMap.values s.stats) b (.str (facts p k x).threadId)))
      (facts p k x).createdAt origins
    rw [← hthreads] at hdistinct hother hfirst hagain
    refine .inr ⟨_,save,rfl,hnew,hdistinct,hother,fun hnone => ?_,hagain,hseen,hsaves,hboard,
      hroot,?_⟩
    · refine ⟨_,hfirst hnone,?_,?_,?_,rfl,rfl⟩
      · rw [hfacts]
        rfl
      · rw [hfacts]
        rfl
      · rw [hfacts]
        rfl
    · rw [hpow,orElse_idem]
      exact hweight

variable (p k) in
/-- The thread of a packet shows what the packet says of it. -/
def Shows (x : Val) (s : State) : Prop :=
  (JsMap.keys s.board.threads).Nodup ∧
    ∃ t, JsMap.get s.board.threads (.str (facts p k x).threadId) = some t ∧
      t.post.content = (facts p k x).content ∧ t.post.sessionPubkey = (facts p k x).sessionPubkey ∧
      t.post.tripPubkey = (facts p k x).tripPubkey ∧ t.createdAt = (facts p k x).createdAt

theorem Valid.positive {x : Val} (h : Valid p contents k x) :
    (facts p k x).createdAt.finitePositive = true := by
  obtain ⟨post,-,hc,hfacts⟩ := h.creates
  rw [hfacts]
  exact hc.factsOf.2.2.2.1

theorem Shows.handles {s s' : State} {x y : Val} (h : Shows p k x s) (hx : Valid p contents k x)
    (hy : Valid p contents k y) (hh : Handles p b k s y s') : Shows p k x s' := by
  obtain ⟨hn,t,ht,hcontent,hsession,htrip,hat⟩ := h
  obtain ⟨-,hthreads,-,-⟩ | ⟨w,save,-,-,hn',hother,-,hagain,-⟩ := hh.cases hy hn
  · rw [Shows,hthreads]
    exact ⟨hn,t,ht,hcontent,hsession,htrip,hat⟩
  · by_cases hT : (facts p k x).threadId = (facts p k y).threadId
    · rw [hT] at ht
      obtain ⟨u,hu,hpost,hcreated,-⟩ := hagain t ht
      refine ⟨hn',u,hT ▸ hu,hpost ▸ hcontent,hpost ▸ hsession,hpost ▸ htrip,?_⟩
      rw [hcreated (hat ▸ hx.positive),hat]
    · exact ⟨hn',t,(hother _ hT).trans ht,hcontent,hsession,htrip,hat⟩

variable (stats) in
theorem idle_start (hb : b ≠ "") : Idle b k (start b k stats) :=
  ⟨by simp [start_board,openBoard,hb],rfl,rfl,rfl⟩

variable (stats) in
/-- The packet that comes first is the one whose thread is shown. -/
theorem first_shown (hv : ∀ x ∈ packets, Valid p contents k x) (hb : b ≠ "") {x : Val}
    (hx : x ∈ packets) : ∃ as s, Complete p b k stats packets as s ∧ Shows p k x s := by
  obtain ⟨as,s,hr,hi,hstats,hhanded,hh⟩ := (idle_start stats hb).handles (hv x hx)
  have hshows : Shows p k x s := by
    obtain ⟨hmarked,-⟩ | ⟨w,save,-,-,hn,-,hfirst,-⟩ := hh.cases (hv x hx) List.nodup_nil
    · cases hmarked
    · obtain ⟨u,hu,hcontent,hsession,htrip,hat,-⟩ := hfirst rfl
      exact ⟨hn,u,hu,hcontent,hsession,htrip,hat⟩
  obtain ⟨bs,t,hr',hi',-,hhanded',hshows',-⟩ := hi.handleAll packets hshows hv
    fun s s' y hy h _ hh => h.handles (hv x hx) (hv y hy) hh
  refine ⟨as ++ bs,t,⟨?_,fun y => ?_,hi'.pending⟩,hshows'⟩
  · rw [Machine.run_append,hr]
    exact hr'
  · rw [hhanded',hhanded]
    refine ⟨fun hy => hy.elim id fun hy => ?_,.inl⟩
    simp only [start,List.mem_singleton] at hy
    exact hy ▸ hx

/-- The thread is listed with a weight that is a Number, and at least the given one. -/
def AtLeast (threads : JsMap Val ThreadMeta) (T : String) (r : WithBot (WithTop Rat)) : Prop :=
  ∃ t, JsMap.get threads (.str T) = some t ∧ t.maxPow ≠ .nan ∧ r ≤ t.maxPow.rank

theorem tickRow_spec {threads threads' : JsMap Val ThreadMeta} {now : Number} {r : ThreadRow}
    (h : tickRow threads now r = some threads') : ∃ t u,
      JsMap.get threads r.threadId = some t ∧ threads' = JsMap.set threads r.threadId u ∧
        u.maxPow = Number.max r.maxPow.orZero t.maxPow.orZero := by
  unfold tickRow at h
  cases hg : JsMap.get threads r.threadId with
  | none => simp [hg] at h
  | some t =>
    simp only [hg] at h
    obtain ⟨-,h⟩ := Option.ite_none_left_eq_some.mp h
    cases h
    exact ⟨t,_,rfl,rfl,rfl⟩

/-- The weight of a thread after a row of it was read. -/
theorem atLeast_tickRow {threads : JsMap Val ThreadMeta} {now : Number} {r : ThreadRow}
    {T : String} (hid : r.threadId = .str T) {t : ThreadMeta}
    (ht : JsMap.get threads (.str T) = some t) :
    AtLeast ((tickRow threads now r).getD threads) T r.maxPow.orZero.rank := by
  have hmax := Number.max_ne_nan (Number.orZero_ne_nan r.maxPow) (Number.orZero_ne_nan t.maxPow)
  have hrank := Number.rank_max (Number.orZero_ne_nan r.maxPow) (Number.orZero_ne_nan t.maxPow)
  cases hr : tickRow threads now r with
  | some threads' =>
    obtain ⟨t',u,ht',rfl,hu⟩ := tickRow_spec hr
    rw [hid,ht] at ht'
    cases ht'
    refine ⟨u,?_,hu ▸ hmax,hu ▸ hrank ▸ le_max_left _ _⟩
    rw [Option.getD_some,hid,get_set_str,if_pos rfl]
  | none =>
    unfold tickRow at hr
    rw [hid,ht] at hr
    dsimp only at hr
    obtain ⟨hsame,-⟩ | ⟨-,hr⟩ := ite_eq_iff.mp hr
    · rw [Bool.and_eq_true] at hsame
      have heq := (Val.Number.strictEq_iff.mp hsame.1).1
      exact ⟨t,ht,heq ▸ hmax,heq ▸ hrank ▸ le_max_left _ _⟩
    · cases hr

theorem atLeast_tickRow_other {threads : JsMap Val ThreadMeta} {now : Number} {r : ThreadRow}
    {T : String} {c : WithBot (WithTop Rat)} (h : AtLeast threads T c) :
    AtLeast ((tickRow threads now r).getD threads) T c := by
  cases hr : tickRow threads now r with
  | none => exact h
  | some threads' =>
    obtain ⟨t,ht,hnan,hle⟩ := h
    obtain ⟨t',u,ht',rfl,hu⟩ := tickRow_spec hr
    rw [Option.getD_some]
    obtain ⟨key,hkey,hbeq⟩ := JsMap.get_mem ht'
    have hset := JsMap.get_set threads r.threadId (.str T) u
    by_cases hT : (r.threadId == .str T) = true
    · have hid := Val.eq_of_beq hT
      rw [hid,ht] at ht'
      cases ht'
      rw [if_pos hT] at hset
      refine ⟨u,hset,?_,?_⟩
      · rw [hu]
        exact Number.max_ne_nan (Number.orZero_ne_nan _) (Number.orZero_ne_nan _)
      · rw [hu,Number.rank_max (Number.orZero_ne_nan _) (Number.orZero_ne_nan _),
          Number.orZero_eq hnan]
        exact hle.trans (le_max_right _ _)
    · rw [if_neg hT] at hset
      exact ⟨t,hset.trans ht,hnan,hle⟩

theorem tickRows_cons (now : Number) (threads : JsMap Val ThreadMeta) (r : ThreadRow)
    (rows : List ThreadRow) : (tickRows now threads (r :: rows)).1 =
      (tickRows now ((tickRow threads now r).getD threads) rows).1 := by
  unfold tickRows
  cases tickRow threads now r with
  | none =>
    cases rows with
    | _ => rfl
  | some threads' =>
    cases rows with
    | _ => rfl

theorem atLeast_tickRows_other {threads : JsMap Val ThreadMeta} (now : Number) {T : String}
    {c : WithBot (WithTop Rat)} (rows : List ThreadRow) (h : AtLeast threads T c) :
    AtLeast (tickRows now threads rows).1 T c := by
  induction rows generalizing threads with
  | nil => exact h
  | cons r rows ih =>
    rw [tickRows_cons]
    exact ih (atLeast_tickRow_other h)

/-- The timer brings the weight of a thread up to that of its row. -/
theorem atLeast_tickRows {threads : JsMap Val ThreadMeta} (now : Number) {rows : List ThreadRow}
    {r : ThreadRow} (hr : r ∈ rows) {T : String} (hid : r.threadId = .str T) {t : ThreadMeta}
    (ht : JsMap.get threads (.str T) = some t) :
    AtLeast (tickRows now threads rows).1 T r.maxPow.orZero.rank := by
  induction rows generalizing threads t with
  | nil => cases hr
  | cons q rows ih =>
    rw [tickRows_cons]
    obtain rfl | hr := List.mem_cons.mp hr
    · exact atLeast_tickRows_other now rows (atLeast_tickRow hid ht)
    · have hkept : ∃ u, JsMap.get ((tickRow threads now q).getD threads) (.str T) = some u := by
        cases hq : tickRow threads now q with
        | none => exact ⟨t,ht⟩
        | some threads' =>
          obtain ⟨t',u,ht',rfl,hu⟩ := tickRow_spec hq
          rw [Option.getD_some,JsMap.get_set]
          split
          · exact ⟨u,rfl⟩
          · exact ⟨t,ht⟩
      obtain ⟨u,hu⟩ := hkept
      exact ih hr hu

/-- A save is written, and the statistics timer reads its row. -/
theorem Idle.tick {s : State} (hi : Idle b k s) (hstats : KeyedStats s.stats) {T : String}
    (hne : T ≠ "") {t : ThreadMeta} (ht : JsMap.get s.board.threads (.str T) = some t)
    {save : PostSave} (hsave : save ∈ s.board.saves) (hboard : save.boardId = b)
    (hroot : save.threadRoot = .str T) {w : Number}
    (hw : (orElse save.cumulativePow (.num (.fin 0))).toNumber = .ok w) :
    ∃ as s', Machine.run (step p) s as = some s' ∧ s'.board.pending = [] ∧
      s'.handed = s.handed ∧
      AtLeast s'.board.threads T (Number.max (floorOf s.stats T) w).orZero.rank := by
  obtain ⟨i,hsavei⟩ := List.mem_iff_getElem?.mp hsave
  have hwrite : ∃ rows, writeStats (.fin 0) s.stats save = some rows := by
    simp [writeStats,hw]
  obtain ⟨rows,hrows⟩ := hwrite
  obtain ⟨createdAt,hset⟩ := writeStats_eq hroot hne hw hrows
  have hkeyed : KeyedStats rows := by
    subst hset
    refine ⟨fun e he => ?_,nodup_set_str hstats.distinct T _⟩
    obtain he | rfl := mem_set_str he
    · exact hstats.key e he
    · rfl
  have hrow : JsMap.get rows (.str T) =
      some ⟨save.boardId,.str T,Number.max (floorOf s.stats T) w,createdAt⟩ := by
    rw [hset,get_set_str,if_pos rfl]
  let synced : BoardOrchestrator.State := { s.board with statsTimer := some b }
  have h₁ : step p s (.write i (.fin 0)) = some { s with stats := rows } := by
    simp [step,hsavei,hrows]
  have h₂ : step p { s with stats := rows } .peerConnect =
      some { s with board := { s.board with syncDebounce := true }, stats := rows } := by
    simp [step,boardAction,BoardOrchestrator.step,delivered,hi.board]
  have h₃ : step p { s with board := { s.board with syncDebounce := true }, stats := rows }
      (.debounceFired { degree := 1 }) = some { s with
        board := { synced with syncInFlight := true, pending := [.syncFinally] }
        stats := rows } := by
    obtain ⟨hbid,hbkey,hbne⟩ := openBoard_some hi.board
    simp [step,boardAction,BoardOrchestrator.step,delivered,openBoard,hbid,hbkey,hbne,fullSync,
      hi.sync,suspend,startStatsSync,hi.pending,hi.debounce,synced]
  have h₄ : step p { s with
      board := { synced with syncInFlight := true, pending := [.syncFinally] }
      stats := rows } (.resume 0 {}) = some { s with board := synced, stats := rows } := by
    simp [step,boardAction,answer,BoardOrchestrator.step,Machine.takeTask,
      BoardOrchestrator.resume,delivered,synced,hi.pending,hi.sync]
  have h₅ : step p { s with board := synced, stats := rows } .statsTimer = some { s with
      board := { synced with pending := [.statsTick b] }
      stats := rows } := by
    simp [step,boardAction,BoardOrchestrator.step,delivered,suspend,synced,hi.pending]
  have h₆ : step p { s with
      board := { synced with pending := [.statsTick b] }
      stats := rows } (.resume 0 {}) = some { s with
      board := resumeStatsTick { synced with pending := [] } b (JsMap.values rows) {}
      stats := rows } := by
    simp [step,boardAction,answer,BoardOrchestrator.step,Machine.takeTask,
      BoardOrchestrator.resume,delivered,synced]
  have hthreads : (resumeStatsTick { synced with pending := [] } b (JsMap.values rows) {}).threads =
      (tickRows (.fin 0) s.board.threads (getThreads (JsMap.values rows) b)).1 := by
    unfold resumeStatsTick
    dsimp only
    split
    · rfl
    · rfl
  refine ⟨[.write i (.fin 0),.peerConnect,.debounceFired { degree := 1 },.resume 0 {},.statsTimer,
    .resume 0 {}],_,Machine.run_cons h₁ (Machine.run_cons h₂ (Machine.run_cons h₃
      (Machine.run_cons h₄ (Machine.run_cons h₅ (Machine.run_cons h₆ rfl))))),?_,rfl,?_⟩
  · unfold resumeStatsTick
    dsimp only
    split
    · rfl
    · rfl
  · have hmem : (⟨save.boardId,.str T,Number.max (floorOf s.stats T) w,createdAt⟩ : ThreadRow) ∈
        getThreads (JsMap.values rows) b := by
      refine List.mem_filter.mpr ⟨JsMap.get_mem_values hrow,?_⟩
      simpa using hboard
    have hraised := atLeast_tickRows (.fin 0) hmem rfl ht
    rw [← hthreads] at hraised
    exact hraised

variable (p b k) in
/-- Once a packet is marked its thread is listed, and its save can be written. -/
def Savable (x : Val) (s : State) : Prop :=
  (JsMap.keys s.board.threads).Nodup ∧ (isMarked s.board x = true →
    (∃ t, JsMap.get s.board.threads (.str (facts p k x).threadId) = some t) ∧
    ∃ save ∈ s.board.saves, save.boardId = b ∧
      save.threadRoot = .str (facts p k x).threadId ∧
      (orElse save.cumulativePow (.num (.fin 0))).toNumber = .ok (facts p k x).weight)

/-- A packet is marked by one with its id, which says the same. -/
theorem marked_cases (hv : ∀ x ∈ packets, Valid p contents k x) {s s' : State} {x y : Val}
    (hx : x ∈ packets) (hy : y ∈ packets)
    (hseen : s'.board.seenPacketIds = y.field "packet_id" :: s.board.seenPacketIds)
    (hm : isMarked s'.board x = true) :
    isMarked s.board x = true ∨ facts p k y = facts p k x := by
  unfold isMarked at hm ⊢
  rw [hseen,List.any_cons,Bool.or_eq_true] at hm
  obtain hm | hm := hm
  · right
    have halike := (named_of_valid hv).alike y x hy hx (Val.eq_of_beq hm)
    unfold facts
    rw [halike]
  · exact .inl hm

theorem Savable.handles (hv : ∀ x ∈ packets, Valid p contents k x) {s s' : State} {x y : Val}
    (hx : x ∈ packets) (hy : y ∈ packets) (h : Savable p b k x s)
    (hh : Handles p b k s y s') : Savable p b k x s' := by
  obtain ⟨hn,hsav⟩ := h
  obtain ⟨-,hthreads,hseen,hsaves⟩ |
    ⟨w,save,-,-,hn',hother,hfirst,hagain,hseen,hsaves,hboard,hroot,hweight⟩ := hh.cases (hv y hy) hn
  · unfold Savable isMarked at *
    rw [hthreads,hseen,hsaves]
    exact ⟨hn,hsav⟩
  · refine ⟨hn',fun hm => ?_⟩
    obtain hm | hsame := marked_cases hv hx hy hseen hm
    · obtain ⟨⟨t,ht⟩,e,he,hsave⟩ := hsav hm
      refine ⟨?_,e,hsaves ▸ List.mem_cons_of_mem _ he,hsave⟩
      by_cases hT : (facts p k x).threadId = (facts p k y).threadId
      · obtain ⟨u,hu,-⟩ := hagain t (hT ▸ ht)
        exact ⟨u,hT ▸ hu⟩
      · exact ⟨t,(hother _ hT).trans ht⟩
    · rw [← hsame]
      refine ⟨?_,save,hsaves ▸ List.mem_cons_self,hboard,hroot,hweight⟩
      cases hg : JsMap.get s.board.threads (.str (facts p k y).threadId) with
      | none =>
        obtain ⟨u,hu,-⟩ := hfirst hg
        exact ⟨u,hu⟩
      | some t =>
        obtain ⟨u,hu,-⟩ := hagain t hg
        exact ⟨u,hu⟩

/-- A run that ends with a packet listed goes on to one that shows at least the weight of its
row. -/
theorem raised (hv : ∀ x ∈ packets, Valid p contents k x) (hstats : KeyedStats stats)
    {as : List Action} {s : State} {x : Val} (hx : x ∈ packets)
    (hc : Complete p b k stats packets as s) (hi : Idle b k s) (hsame : s.stats = stats)
    (hsav : Savable p b k x s) (hm : isMarked s.board x = true) :
    ∃ bs s', Complete p b k stats packets bs s' ∧
      AtLeast s'.board.threads (facts p k x).threadId
        (Number.max (floorOf stats (facts p k x).threadId) (facts p k x).weight).orZero.rank := by
  obtain ⟨⟨t,ht⟩,save,hsave,hboard,hroot,hw⟩ := hsav.2 hm
  obtain ⟨post,-,hcreation,hfacts⟩ := (hv x hx).creates
  have hne : (facts p k x).threadId ≠ "" := hfacts ▸ hcreation.factsOf.2.1
  obtain ⟨bs,s',hr,hp,hhanded,hraised⟩ :=
    hi.tick (hsame ▸ hstats) hne ht hsave hboard hroot hw
  refine ⟨as ++ bs,s',⟨?_,fun y => by rw [hhanded]; exact hc.handed y,hp⟩,hsame ▸ hraised⟩
  rw [Machine.run_append,hc.run]
  exact hr

theorem savable_start (x : Val) : Savable p b k x (start b k stats) :=
  ⟨List.nodup_nil,fun hm => by cases hm⟩

variable (stats) in
/-- A packet whose weight is NaN comes last. -/
theorem nan_shown (hv : ∀ x ∈ packets, Valid p contents k x) (hb : b ≠ "") {x : Val}
    (hx : x ∈ packets) (hw : (facts p k x).weight = .nan) :
    ∃ as s t, Complete p b k stats packets as s ∧ Idle b k s ∧ s.stats = stats ∧
      Savable p b k x s ∧ isMarked s.board x = true ∧
      JsMap.get s.board.threads (.str (facts p k x).threadId) = some t ∧ t.maxPow = .nan := by
  let others := packets.filter fun y => !(y.field "packet_id" == x.field "packet_id")
  have hothers : ∀ y ∈ others, y ∈ packets ∧ (y.field "packet_id" == x.field "packet_id") = false :=
    fun y hy => ⟨List.mem_of_mem_filter hy,by simpa using (List.mem_filter.mp hy).2⟩
  obtain ⟨as,s,hr,hi,hstats,hhanded,⟨hsav,hunmarked⟩,hall,-⟩ :=
    (idle_start stats hb).handleAll others
      (I := fun s => Savable p b k x s ∧ isMarked s.board x = false) ⟨savable_start x,rfl⟩
      (fun y hy => hv y (hothers y hy).1) fun s s' y hy h _ hh => by
    refine ⟨h.1.handles hv hx (hothers y hy).1 hh,?_⟩
    obtain ⟨-,-,hseen,-⟩ | ⟨w,save,-,-,-,-,-,-,hseen,-⟩ :=
      hh.cases (hv y (hothers y hy).1) h.1.1
    · unfold isMarked at *
      rw [hseen]
      exact h.2
    · unfold isMarked at *
      rw [hseen,List.any_cons,(hothers y hy).2,h.2]
      rfl
  obtain ⟨bs,t,hr',hi',hstats',hhanded',⟨hsav',-,hnan⟩,hall',-⟩ := hi.handleAll packets
      (I := fun s => Savable p b k x s ∧ (∀ y ∈ others, isMarked s.board y = true) ∧
        (isMarked s.board x = true → ∃ t,
          JsMap.get s.board.threads (.str (facts p k x).threadId) = some t ∧ t.maxPow = .nan))
      ⟨hsav,hall,fun hm => by rw [hunmarked] at hm; cases hm⟩ hv fun s s' y hy h _ hh => by
    obtain ⟨hsav,hmarked,hnan⟩ := h
    obtain ⟨id,hid⟩ := (named_of_valid hv).id y hy
    refine ⟨hsav.handles hv hx hy hh,fun z hz => (hh.marked hid).2 z (hmarked z hz),?_⟩
    obtain ⟨-,hthreads,hseen,-⟩ | ⟨w,save,hw',hnew,-,-,hfirst,hagain,hseen,-⟩ :=
      hh.cases (hv y hy) hsav.1
    · unfold isMarked at *
      rw [hseen,hthreads]
      exact hnan
    · have hbeq : (y.field "packet_id" == x.field "packet_id") = true := by
        by_contra hne
        have hother : y ∈ others := List.mem_filter.mpr ⟨hy,by simpa using hne⟩
        rw [hmarked y hother] at hnew
        cases hnew
      have hsame : facts p k y = facts p k x := by
        have halike := (named_of_valid hv).alike y x hy hx (Val.eq_of_beq hbeq)
        unfold facts
        rw [halike]
      rw [hsame] at hw' hfirst hagain
      have hwnan : w = .nan := by
        rw [hw',hw]
        cases statsOf (JsMap.values s.stats) b (.str (facts p k x).threadId) with
        | none => rfl
        | some r => rfl
      intro _
      cases hg : JsMap.get s.board.threads (.str (facts p k x).threadId) with
      | none =>
        obtain ⟨u,hu,-,-,-,-,hpow⟩ := hfirst hg
        exact ⟨u,hu,hpow.trans hwnan⟩
      | some t =>
        obtain ⟨u,hu,-,-,hpow⟩ := hagain t hg
        exact ⟨u,hu,by rw [hpow,hwnan,Number.max_nan]⟩
  have hm := hall' x hx
  obtain ⟨u,hu,hpow⟩ := hnan hm
  refine ⟨as ++ bs,t,u,⟨?_,fun y => ?_,hi'.pending⟩,hi',hstats'.trans hstats,hsav',hm,hu,hpow⟩
  · rw [Machine.run_append,hr]
    exact hr'
  · rw [hhanded',hhanded]
    refine ⟨fun hy => hy.elim id fun hy => hy.elim (fun hy => (hothers y hy).1) fun hy => ?_,.inl⟩
    cases hy

/-- No weight reaches that of the row. -/
theorem low_shown (hv : ∀ x ∈ packets, Valid p contents k x) (hb : b ≠ "")
    (hstats : KeyedStats stats) {x : Val} (hx : x ∈ packets)
    (hw : ∀ y ∈ packets, (facts p k y).weight ≠ .nan)
    (hown : ¬OwnRow b stats (facts p k x).threadId)
    (hlow : ∀ y ∈ packets, (facts p k y).threadId = (facts p k x).threadId →
      (facts p k y).weight.rank < (floorOf stats (facts p k x).threadId).rank) :
    ∃ as s t, Complete p b k stats packets as s ∧ Idle b k s ∧ s.stats = stats ∧
      Savable p b k x s ∧ isMarked s.board x = true ∧
      JsMap.get s.board.threads (.str (facts p k x).threadId) = some t ∧
      t.maxPow.rank < (floorOf stats (facts p k x).threadId).rank := by
  obtain ⟨as,s,hr,hi,hsame,hhanded,⟨hsav,hweights,-⟩,hall,-⟩ :=
    (idle_start stats hb).handleAll packets
      (I := fun s => Savable p b k x s ∧ (∀ t,
        JsMap.get s.board.threads (.str (facts p k x).threadId) = some t → t.maxPow ≠ .nan ∧
          t.maxPow.rank < (floorOf stats (facts p k x).threadId).rank) ∧ s.stats = stats)
      ⟨savable_start x,(fun t ht => nomatch ht),rfl⟩ hv fun s s' y hy h hsame hh => by
    obtain ⟨hsav,hweights,hst⟩ := h
    refine ⟨hsav.handles hv hx hy hh,?_,hsame.trans hst⟩
    obtain ⟨-,hthreads,-,-⟩ | ⟨w,save,hw',-,-,hother,hfirst,hagain,-⟩ := hh.cases (hv y hy) hsav.1
    · rw [hthreads]
      exact hweights
    · intro u hu
      by_cases hT : (facts p k y).threadId = (facts p k x).threadId
      · have hrow : statsOf (JsMap.values s.stats) b (.str (facts p k y).threadId) = none := by
          rw [hst,hT,Option.eq_none_iff_forall_not_mem]
          intro r hr
          exact hown ⟨r,(statsOf_eq_some hstats).mp hr⟩
        rw [hrow] at hw'
        have hwy : w = (facts p k y).weight := hw'
        cases hg : JsMap.get s.board.threads (.str (facts p k y).threadId) with
        | none =>
          obtain ⟨u',hu',-,-,-,-,hpow⟩ := hfirst hg
          rw [hT,hu] at hu'
          cases hu'
          rw [hpow,hwy]
          exact ⟨hw y hy,hlow y hy hT⟩
        | some t =>
          obtain ⟨u',hu',-,-,hpow⟩ := hagain t hg
          rw [hT,hu] at hu'
          cases hu'
          obtain ⟨hnan,hlt⟩ := hweights t (hT ▸ hg)
          rw [hpow,hwy,Number.orZero_eq hnan,Number.rank_max hnan (hw y hy)]
          exact ⟨Number.max_ne_nan hnan (hw y hy),max_lt hlt (hlow y hy hT)⟩
      · rw [hother _ (Ne.symm hT)] at hu
        exact hweights u hu
  have hm := hall x hx
  obtain ⟨⟨t,ht⟩,-⟩ := hsav.2 hm
  refine ⟨as,s,t,⟨hr,fun y => ?_,hi.pending⟩,hi,hsame,hsav,hm,ht,(hweights t ht).2⟩
  rw [hhanded]
  exact ⟨fun hy => hy.elim id fun hy => (by cases hy),.inl⟩

/-- Two equal lists show a thread alike. -/
theorem SameList.shown_eq {s s' : State} (h : SameList s s')
    (hn : (JsMap.keys s.board.threads).Nodup) {T : String} {t t' : ThreadMeta}
    (ht : JsMap.get s.board.threads (.str T) = some t)
    (ht' : JsMap.get s'.board.threads (.str T) = some t') :
    shown (.str T,t) = shown (.str T,t') := by
  obtain ⟨⟨key,u⟩,he,heq⟩ := List.mem_map.mp
    ((h _).mpr (List.mem_map_of_mem (f := shown) (get_str_mem ht')))
  have hkey : key = .str T := congrArg Shown.threadId heq
  subst hkey
  rw [get_str_of_mem hn he] at ht
  cases ht
  exact heq

variable (p b k stats packets) in
/-- Runs over the packets end in equal lists. -/
def Converges : Prop :=
  ∀ as bs s t, Complete p b k stats packets as s → Complete p b k stats packets bs t → SameList s t

/-- The packet that comes first gives a thread its title, its author and its time. -/
theorem Converges.alike (h : Converges p b k stats packets)
    (hv : ∀ x ∈ packets, Valid p contents k x) (hb : b ≠ "") {x y : Val} (hx : x ∈ packets)
    (hy : y ∈ packets) (hT : (facts p k x).threadId = (facts p k y).threadId) :
    (facts p k x).content = (facts p k y).content ∧
      (facts p k x).sessionPubkey = (facts p k y).sessionPubkey ∧
      (facts p k x).tripPubkey = (facts p k y).tripPubkey ∧
      (facts p k x).createdAt = (facts p k y).createdAt := by
  obtain ⟨as,s,hc,hn,t,ht,hcontent,hsession,htrip,hat⟩ := first_shown stats hv hb hx
  obtain ⟨bs,s',hc',-,t',ht',hcontent',hsession',htrip',hat'⟩ :=
    first_shown stats hv hb hy
  have heq := (h as bs s s' hc hc').shown_eq hn ht (hT ▸ ht')
  have hcontents := congrArg Shown.content heq
  have hsessions := congrArg Shown.sessionPubkey heq
  have htrips := congrArg Shown.tripPubkey heq
  have hats := congrArg Shown.createdAt heq
  exact ⟨hcontent.symm.trans (hcontents.trans hcontent'),
    hsession.symm.trans (hsessions.trans hsession'),htrip.symm.trans (htrips.trans htrip'),
    hat.symm.trans (hats.trans hat')⟩

/-- A weight that is NaN is shown if its packet comes last, and not after the next tick. -/
theorem Converges.weighed (h : Converges p b k stats packets)
    (hv : ∀ x ∈ packets, Valid p contents k x) (hb : b ≠ "") (hstats : KeyedStats stats) {x : Val}
    (hx : x ∈ packets) : (facts p k x).weight ≠ .nan := by
  intro hw
  obtain ⟨as,s,t,hc,hi,hsame,hsav,hm,ht,hnan⟩ := nan_shown stats hv hb hx hw
  obtain ⟨bs,s',hc',t',ht',hnan',-⟩ := raised hv hstats hx hc hi hsame hsav hm
  have heq := congrArg Shown.weight ((h as bs s s' hc hc').shown_eq hsav.1 ht ht')
  exact hnan' (heq.symm.trans hnan)

/-- A row that is not of the board counts from when a save is written. -/
theorem Converges.counted (h : Converges p b k stats packets)
    (hv : ∀ x ∈ packets, Valid p contents k x) (hb : b ≠ "") (hstats : KeyedStats stats) {x : Val}
    (hx : x ∈ packets) : OwnRow b stats (facts p k x).threadId ∨
      ∃ y ∈ packets, (facts p k y).threadId = (facts p k x).threadId ∧
        (floorOf stats (facts p k x).threadId).rank ≤ (facts p k y).weight.rank := by
  by_contra hno
  obtain ⟨hown,hlow⟩ := not_or.mp hno
  have hlow' : ∀ y ∈ packets, (facts p k y).threadId = (facts p k x).threadId →
      (facts p k y).weight.rank < (floorOf stats (facts p k x).threadId).rank :=
    fun y hy hT => not_le.mp fun hle => hlow ⟨y,hy,hT,hle⟩
  have hw : ∀ y ∈ packets, (facts p k y).weight ≠ .nan := fun y hy => h.weighed hv hb hstats hy
  obtain ⟨as,s,t,hc,hi,hsame,hsav,hm,ht,hlt⟩ := low_shown hv hb hstats hx hw hown hlow'
  obtain ⟨bs,s',hc',t',ht',-,hle⟩ := raised hv hstats hx hc hi hsame hsav hm
  have heq : t.maxPow = t'.maxPow :=
    congrArg Shown.weight ((h as bs s s' hc hc').shown_eq hsav.1 ht ht')
  have hfloor := floorOf_ne_nan stats (facts p k x).threadId
  rw [Number.orZero_eq (Number.max_ne_nan hfloor (hw x hx)),Number.rank_max hfloor (hw x hx),
    ← heq] at hle
  exact absurd hlt (not_lt.mpr ((le_max_left _ _).trans hle))

/-- Runs over the same packets end in equal lists, whatever order they came in, exactly if the
packets agree on the threads they name. -/
theorem lists_converge_iff (hv : ∀ x ∈ packets, Valid p contents k x) (hb : b ≠ "")
    (hstats : KeyedStats stats) :
    Converges p b k stats packets ↔ Agrees p b k stats packets := by
  constructor
  · intro h
    exact ⟨fun x hx y hy hT => h.alike hv hb hx hy hT,fun x hx => h.weighed hv hb hstats hx,
      fun x hx => h.counted hv hb hstats hx⟩
  · intro ha as bs s t hs ht
    exact sameList_of_agrees ⟨hv,ha.weighed⟩ hb hstats ha hs ht

end

theorem keyedStats_nil : KeyedStats [] := ⟨(fun _ he => nomatch he),List.nodup_nil⟩

theorem valid_samplePacket (packetId : String) :
    Valid sample sampleContents [10] (samplePacket [10] packetId 1) :=
  ⟨genuine_samplePacket packetId,_,rfl,rfl,⟨"thread",rfl,by decide⟩,⟨.fin 60000,rfl,rfl⟩,⟨.fin 12,rfl⟩⟩

theorem lists_converge_sample :
    Converges sample "A" [10] [] [samplePacket [10] "p" 1,samplePacket [10] "q" 1] := by
  have hvalid : ∀ x ∈ [samplePacket [10] "p" 1,samplePacket [10] "q" 1],
      Valid sample sampleContents [10] x := by
    simp only [List.mem_cons,List.not_mem_nil,or_false,forall_eq_or_imp,forall_eq]
    exact ⟨valid_samplePacket "p",valid_samplePacket "q"⟩
  have hfacts : ∀ x ∈ [samplePacket [10] "p" 1,samplePacket [10] "q" 1],
      facts sample [10] x = facts sample [10] (samplePacket [10] "p" 1) := by
    simp only [List.mem_cons,List.not_mem_nil,or_false,forall_eq_or_imp,forall_eq,true_and]
    rfl
  have hweight : (facts sample [10] (samplePacket [10] "p" 1)).weight = .fin 12 := rfl
  apply (lists_converge_iff hvalid (by decide) keyedStats_nil).mpr
  constructor
  · intro x hx y hy _
    rw [hfacts x hx,hfacts y hy]
    exact ⟨rfl,rfl,rfl,rfl⟩
  · intro x hx
    rw [hfacts x hx,hweight]
    simp
  · intro x hx
    refine .inr ⟨x,hx,rfl,?_⟩
    rw [hfacts x hx,hweight]
    exact WithBot.coe_le_coe.mpr (WithTop.coe_le_coe.mpr (by norm_num))

/-- `sample`, and another packet that creates the same thread under another title. -/
def sampleTitles : Primitives := {
  sample with
  decode
    | .bytes [5] => some (.obj [("post_type",.num (.fin 1)),("inner_payload",.bytes [6])])
    | .bytes [6] => some (.obj [
        ("content",.str "other"),("thread_id",.str "thread"),("created_at",.num (.fin 60000)),
        ("parents",.arr []),("cumulative_pow",.num (.fin 12))])
    | v => sample.decode v }

def titleContents (packetId : String) : Val × Val :=
  if packetId = "q" then (.bytes ([10] ++ magic ++ [5]),.bytes []) else sampleContents packetId

/-- Two titles of one thread: the list shows the one that came first. -/
theorem lists_diverge_titles :
    (∀ x ∈ [samplePacket [10] "p" 1,samplePacket [10] "q" 5],
      Valid sampleTitles titleContents [10] x) ∧
    ¬Converges sampleTitles "A" [10] []
      [samplePacket [10] "p" 1,samplePacket [10] "q" 5] := by
  have hvalid : ∀ x ∈ [samplePacket [10] "p" 1,samplePacket [10] "q" 5],
      Valid sampleTitles titleContents [10] x := by
    simp only [List.mem_cons,List.not_mem_nil,or_false,forall_eq_or_imp,forall_eq]
    exact ⟨
      ⟨⟨"p",rfl,rfl⟩,_,rfl,rfl,⟨"thread",rfl,by decide⟩,⟨.fin 60000,rfl,rfl⟩,⟨.fin 12,rfl⟩⟩,
      ⟨⟨"q",rfl,rfl⟩,_,rfl,rfl,⟨"thread",rfl,by decide⟩,⟨.fin 60000,rfl,rfl⟩,⟨.fin 12,rfl⟩⟩⟩
  refine ⟨hvalid,fun h => ?_⟩
  have halike := h.alike hvalid (by decide) (x := samplePacket [10] "p" 1)
    (y := samplePacket [10] "q" 5) (by simp) (by simp) rfl
  have hcontent : Val.str "text" = .str "other" := halike.1
  simp at hcontent

end ThreadList
