import AetherLite.Hint.HintRouter
import AetherLite.Hint.HintCodec
import AetherLite.Lib.Sha256

/-! Runs of the hints of one node: hints arrive on three ways and keys are added, in any order. -/
set_option autoImplicit false

namespace HintArrivals

open Js Hint HintRouter ZoneGossipRouter

inductive Cache where
  | flooded
  | received
  | delivered
  deriving DecidableEq

inductive Action where
  /-- A HINT message of a neighbour. -/
  | network (sender : PeerId) (msg : Val) (peers : List Peer) (now : Nat)
  | exit (myPeerId : PeerId) (bytes : Bytes) (peers : List Peer) (now : Nat)
  /-- The hint of a slot stored here. -/
  | slot (hint : HintPacket) (now : Nat)
  | addKey (keyId : String) (k : Bytes) (now : Nat)
  | removeKey (keyId : String)
  | originate (id : String) (now : Nat)
  | reflood (hint : HintPacket) (myPeerId : PeerId) (peers : List Peer) (now : Nat)
  /-- The timer of one of the caches. -/
  | cleanup (cache : Cache) (now : Nat)
  | destroy

structure Node where
  router : HintRouter.State := {}
  /-- What the listeners were called with. -/
  opened : List OpenedHint := []

def Node.after (n : Node) (r : HintRouter.State × List OpenedHint) : Node where
  router := r.1
  opened := n.opened ++ r.2

def cleanup (s : HintRouter.State) (now : Nat) : Cache → HintRouter.State
  | .flooded => { s with flooded := s.flooded.cleanup now }
  | .received => { s with received := s.received.cleanup now }
  | .delivered => { s with delivered := s.delivered.cleanup now }

def destroy (s : HintRouter.State) : HintRouter.State :=
  { s with flooded := {}, received := {}, delivered := {}, keys := [], recentHints := [], recentIds := [] }

section
variable (sha256 : Bytes → Bytes) (c : Primitives)

def transition (s : HintRouter.State) : Action → HintRouter.State × List OpenedHint
  | .network sender msg peers now =>
    match parseHintPacket msg with
    | none => (s,[])
    | some hint => handleHint sha256 c s sender hint peers now
  | .exit myPeerId bytes peers now => handleExitHint sha256 c s myPeerId bytes peers now
  | .slot hint now => ingestLocal sha256 c s hint now
  | .addKey keyId k now => HintRouter.addKey sha256 c s keyId k now
  | .removeKey keyId => (HintRouter.removeKey s keyId,[])
  | .originate id now => (HintRouter.originate s id now,[])
  | .reflood hint myPeerId peers now => (flood sha256 s hint myPeerId peers now,[])
  | .cleanup cache now => (cleanup s now cache,[])
  | .destroy => (destroy s,[])

def step (n : Node) (a : Action) : Node := n.after (transition sha256 c n.router a)

def run (as : List Action) : Node := as.foldl (step sha256 c) {}

/-- The hint that arrives, if it has the form and the proof of work of one. -/
def arrival : Action → Option HintPacket
  | .network _ msg _ _ => (parseHintPacket msg).filter (verifyHintPow sha256)
  | .exit _ bytes _ _ => (decodeHint bytes).filter (verifyHintPow sha256)
  | .slot hint _ => (some hint).filter (verifyHintPow sha256)
  | _ => none

def arrivals (as : List Action) : List HintPacket := as.filterMap (arrival sha256)

def arrivedIds (as : List Action) : List String := (arrivals sha256 as).map (hintId sha256)

def addedKey : Action → Option (String × Bytes)
  | .addKey keyId k _ => some (keyId,k)
  | _ => none

def addedKeys (as : List Action) : JsMap String Bytes := as.filterMap addedKey

def originatedId : Action → Option String
  | .originate id _ => some id
  | _ => none

def originatedIds (as : List Action) : List String := as.filterMap originatedId

def time : Action → Option Nat
  | .network _ _ _ now | .exit _ _ _ now | .slot _ now | .addKey _ _ now | .originate _ now
  | .reflood _ _ _ now | .cleanup _ now => some now
  | .removeKey _ | .destroy => none

/-- The run stays within the lifetime and the capacity of the caches, and within the
buffer of hints; keys are added under distinct ids and none is removed. -/
structure Within (start : Nat) (as : List Action) : Prop where
  lifetime : ∀ a ∈ as, ∃ now, time a = some now ∧ start ≤ now ∧ now ≤ start+SeenCache.ttlMs
  capacity : (originatedIds as ++ arrivedIds sha256 as).toFinset.card ≤ SeenCache.maxSize
  buffer : (arrivedIds sha256 as).toFinset.card ≤ recentHintBuffer
  keys : (JsMap.keys (addedKeys as)).Nodup
  foreign : ∀ id ∈ originatedIds as, id ∉ arrivedIds sha256 as

/-- No two of the hints collide under the hash. -/
def NoCollision (hints : List HintPacket) : Prop :=
  ∀ h ∈ hints, ∀ h' ∈ hints, hintId sha256 h = hintId sha256 h' → hintPreimage h = hintPreimage h'

/-- The calls of the listeners for a hint. -/
def calls (opened : List OpenedHint) (h : HintPacket) : List OpenedHint :=
  opened.filter fun o => hintId sha256 o.packet = hintId sha256 h

def isOpened (keys : JsMap String Bytes) (h : HintPacket) : Bool :=
  keys.any fun e => (openHint c e.2 h).isSome

end

section
variable {sha256 : Bytes → Bytes} {c : Primitives} {s : HintRouter.State}

theorem flood_same (hint : HintPacket) (excluded : PeerId) (peers : List Peer) (now : Nat) :
    SameHints s (flood sha256 s hint excluded peers now) ∧
      (flood sha256 s hint excluded peers now).delivered = s.delivered ∧
      (flood sha256 s hint excluded peers now).received = s.received := by
  unfold HintRouter.flood
  dsimp only
  split
  · exact ⟨⟨rfl,rfl,rfl⟩,rfl,rfl⟩
  · exact ⟨⟨rfl,rfl,rfl⟩,rfl,rfl⟩

theorem cleanup_same (now : Nat) (cache : Cache) : SameHints s (cleanup s now cache) := by
  cases cache <;> exact ⟨rfl,rfl,rfl⟩

/-- Of the buffer the id set is what it should be, and it is within its limit. -/
structure Buffered (sha256 : Bytes → Bytes) (s : HintRouter.State) : Prop extends Kept sha256 s where
  limit : s.recentHints.length ≤ recentHintBuffer

theorem Buffered.same {s' : HintRouter.State} (h : Buffered sha256 s) (hs : SameHints s s') :
    Buffered sha256 s' where
  toKept := h.toKept.same hs
  limit := by
    rw [hs.2.1]
    exact h.limit

theorem Buffered.remember (h : Buffered sha256 s) (hint : HintPacket) :
    Buffered sha256 (remember sha256 s hint) where
  toKept := h.toKept.remember hint
  limit := by
    have hl := h.limit
    unfold HintRouter.remember
    dsimp only
    split
    · exact hl
    · simp only [List.length_drop]
      omega

theorem Buffered.take (h : Buffered sha256 s) (hint : HintPacket) (now : Nat) :
    Buffered sha256 (HintRouter.take sha256 c s hint now).1 :=
  (h.remember hint).same (tryOpen_same hint now)

/-- What each way of arrival does: nothing at all to a hint without its proof of work. -/
theorem Buffered.transition (h : Buffered sha256 s) (a : Action) :
    Buffered sha256 (transition sha256 c s a).1 := by
  cases a with
  | network sender msg peers now =>
    simp only [HintArrivals.transition]
    split
    · exact h
    · next hint _ =>
      unfold handleHint
      dsimp only
      split
      · exact h
      split
      · exact h
      · have hr : Buffered sha256 { s with
            received := s.received.add (hintId sha256 hint) now, anyHints := s.anyHints+1 } :=
          h.same ⟨rfl,rfl,rfl⟩
        exact (hr.take hint now).same (flood_same hint sender peers now).1
  | exit myPeerId bytes peers now =>
    simp only [HintArrivals.transition,handleExitHint]
    split
    · exact h
    · next hint _ =>
      split
      · exact h
      · exact (h.take hint now).same (flood_same hint myPeerId peers now).1
  | slot hint now =>
    simp only [HintArrivals.transition,ingestLocal]
    split
    · exact h
    · exact h.take hint now
  | addKey keyId k now =>
    have hk : Buffered sha256 { s with keys := JsMap.set s.keys keyId k } :=
      ⟨⟨h.ids,h.ids_nodup,JsMap.nodup_keys_set h.keys_nodup keyId k⟩,h.limit⟩
    exact hk.same (reopen_same now s.recentHints)
  | removeKey keyId =>
    exact ⟨⟨h.ids,h.ids_nodup,JsMap.nodup_keys_delete h.keys_nodup keyId⟩,h.limit⟩
  | originate id now => exact h.same ⟨rfl,rfl,rfl⟩
  | reflood hint myPeerId peers now => exact h.same (flood_same hint myPeerId peers now).1
  | cleanup cache now => exact h.same (cleanup_same now cache)
  | destroy => exact ⟨⟨rfl,List.nodup_nil,List.nodup_nil⟩,Nat.zero_le _⟩

theorem run_snoc (as : List Action) (a : Action) :
    run sha256 c (as ++ [a]) = step sha256 c (run sha256 c as) a := by
  simp [run]

theorem buffered_run (as : List Action) : Buffered sha256 (run sha256 c as).router := by
  induction as using List.reverseRec with
  | nil => exact ⟨⟨rfl,List.nodup_nil,List.nodup_nil⟩,Nat.zero_le _⟩
  | append_singleton as a ih =>
    rw [run_snoc]
    exact ih.transition a

def openedId (sha256 : Bytes → Bytes) (o : OpenedHint) : String := hintId sha256 o.packet

/-- The hints and the ids of others that a run brings in have room in the caches. -/
structure Room (sha256 : Bytes → Bytes) (hints : List HintPacket) (others : List String) : Prop where
  capacity : (others ++ hints.map (hintId sha256)).toFinset.card ≤ SeenCache.maxSize
  buffer : (hints.map (hintId sha256)).toFinset.card ≤ recentHintBuffer

/-- What is marked as delivered was handed over, or is an id of others; what was handed
over was handed over once and is opened by a key that is held. -/
structure Sound (sha256 : Bytes → Bytes) (c : Primitives) (hints : List HintPacket)
    (others : List String) (start : Nat) (n : Node) : Prop where
  buffered : Buffered sha256 n.router
  recent : ∀ h ∈ n.router.recentHints, h ∈ hints
  received : ∀ id ∈ n.router.received.ids, id ∈ n.router.recentIds
  marked : ∀ id ∈ n.router.delivered.ids, id ∈ others ∨ id ∈ n.opened.map (openedId sha256)
  nodup : n.router.delivered.ids.Nodup
  fresh : ∀ e ∈ n.router.delivered.cache, start ≤ e.2
  delivered : ∀ o ∈ n.opened, openedId sha256 o ∈ n.router.delivered.ids
  once : (n.opened.map (openedId sha256)).Nodup
  opened : ∀ o ∈ n.opened, o.packet ∈ hints ∧ isOpened c n.router.keys o.packet = true

/-- Each hint of the buffer that a key opens is marked. -/
def Tried (sha256 : Bytes → Bytes) (c : Primitives) (s : HintRouter.State) : Prop :=
  ∀ h ∈ s.recentHints, isOpened c s.keys h = true → hintId sha256 h ∈ s.delivered.ids

variable {hints : List HintPacket} {others : List String} {start : Nat} {n : Node}

theorem isOpened_iff {keys : JsMap String Bytes} {h : HintPacket} :
    isOpened c keys h = true ↔ ∃ o, firstOpened c keys h = some o := by
  rw [← Option.isSome_iff_exists,firstOpened,List.findSome?_isSome_iff]
  simp [isOpened]

/-- What opens a hint is committed to. -/
theorem openHint_of_preimage {h h' : HintPacket} (k : Bytes) (he : hintPreimage h = hintPreimage h') :
    openHint c k h = openHint c k h' := by
  have htag := h.blindTag_length.trans h'.blindTag_length.symm
  have hnonce := h.nonce_length.trans h'.nonce_length.symm
  unfold hintPreimage Bytes.lengthPrefixed at he
  simp only [List.append_assoc,List.append_cancel_left_eq] at he
  obtain ⟨hb,he⟩ := List.append_inj he htag
  obtain ⟨hn,he⟩ := List.append_inj he hnonce
  obtain ⟨-,hc⟩ := List.append_inj he (by simp)
  simp only [openHint,hb,hn,hc]

theorem isOpened_of_preimage {h h' : HintPacket} (keys : JsMap String Bytes)
    (he : hintPreimage h = hintPreimage h') : isOpened c keys h = isOpened c keys h' := by
  simp only [isOpened,openHint_of_preimage _ he]

/-- A mark is added behind the others while there is room. -/
theorem Sound.add_new (h : Sound sha256 c hints others start n) (hroom : Room sha256 hints others)
    {id : String} (now : Nat) (hid : id ∉ n.router.delivered.ids)
    (hin : id ∈ others ++ hints.map (hintId sha256)) :
    (n.router.delivered.add id now).cache = n.router.delivered.cache ++ [(id,now)] := by
  apply SeenCache.add_new now hid
  have hknown : ∀ i ∈ id :: n.router.delivered.ids, i ∈ (others ++ hints.map (hintId sha256)).toFinset := by
    intro i hi
    rw [List.mem_toFinset,List.mem_append]
    rcases List.mem_cons.mp hi with rfl | hi
    · exact List.mem_append.mp hin
    · rcases h.marked i hi with ho | ho
      · exact .inl ho
      · obtain ⟨o,hm,rfl⟩ := List.mem_map.mp ho
        exact .inr (List.mem_map_of_mem (h.opened o hm).1)
  have hcard := Finset.card_le_card fun i hi => hknown i (List.mem_toFinset.mp hi)
  rw [List.toFinset_card_of_nodup (List.nodup_cons.mpr ⟨hid,h.nodup⟩),List.length_cons] at hcard
  have := hroom.capacity
  omega

/-- A try of a hint keeps the invariant and leaves all else; a hint that a key opens is
marked after it. -/
theorem Sound.tryOpen (h : Sound sha256 c hints others start n) (hroom : Room sha256 hints others)
    {hint : HintPacket} (hin : hint ∈ hints) {now : Nat} (hnow : start ≤ now) :
    Sound sha256 c hints others start (n.after (tryOpen sha256 c n.router hint now)) ∧
      (∀ id ∈ n.router.delivered.ids, id ∈ (tryOpen sha256 c n.router hint now).1.delivered.ids) ∧
      (isOpened c n.router.keys hint = true →
        hintId sha256 hint ∈ (tryOpen sha256 c n.router hint now).1.delivered.ids) := by
  have hstay : n.after (n.router,[]) = n := by
    simp [Node.after]
  unfold HintRouter.tryOpen
  by_cases hd : n.router.delivered.has (hintId sha256 hint) = true
  · rw [if_pos hd,hstay]
    exact ⟨h,fun _ hid => hid,fun _ => (SeenCache.has_iff _ _).mp hd⟩
  rw [if_neg hd]
  cases ho : firstOpened c n.router.keys hint with
  | none =>
    dsimp only
    rw [hstay]
    refine ⟨h,fun _ hid => hid,fun hopen => ?_⟩
    obtain ⟨o,hsome⟩ := isOpened_iff.mp hopen
    rw [ho] at hsome
    cases hsome
  | some o =>
    have hnew : hintId sha256 hint ∉ n.router.delivered.ids :=
      fun hm => hd ((SeenCache.has_iff _ _).mpr hm)
    have hcache := h.add_new hroom now hnew
      (List.mem_append_right _ (List.mem_map_of_mem hin))
    have hids : (n.router.delivered.add (hintId sha256 hint) now).ids =
        n.router.delivered.ids ++ [hintId sha256 hint] := by
      simp [SeenCache.ids,hcache,JsMap.keys]
    have hpacket : o.packet = hint := by
      obtain ⟨e,-,he⟩ := List.exists_of_findSome?_eq_some ho
      obtain ⟨payload,-,rfl⟩ := Option.map_eq_some_iff.mp he
      rfl
    have hid : openedId sha256 o = hintId sha256 hint := by rw [openedId,hpacket]
    have hother : ∀ p ∈ n.opened, openedId sha256 p ≠ hintId sha256 hint :=
      fun p hp he => hnew (he ▸ h.delivered p hp)
    dsimp only
    refine ⟨?_,fun id hm => ?_,fun _ => ?_⟩
    · refine ⟨h.buffered.same ⟨rfl,rfl,rfl⟩,h.recent,h.received,fun id hm => ?_,?_,fun e he => ?_,
        fun p hp => ?_,?_,fun p hp => ?_⟩
      · simp only [Node.after,hids,List.mem_append,List.mem_singleton,List.map_append,List.map_cons,
          List.map_nil,hid] at hm ⊢
        rcases hm with hm | hm
        · rcases h.marked id hm with ho | ho
          · exact .inl ho
          · exact .inr (.inl ho)
        · exact .inr (.inr hm)
      · simpa [Node.after,hids,List.nodup_append] using
          ⟨h.nodup,fun a ha he => hnew (he ▸ ha)⟩
      · simp only [Node.after,hcache,List.mem_append,List.mem_singleton] at he
        rcases he with he | rfl
        · exact h.fresh e he
        · exact hnow
      · simp only [Node.after,hids,List.mem_append,List.mem_singleton] at hp ⊢
        rcases hp with hp | rfl
        · exact .inl (h.delivered p hp)
        · exact .inr hid
      · simpa [Node.after,List.nodup_append,hid] using ⟨h.once,hother⟩
      · simp only [Node.after,List.mem_append,List.mem_singleton] at hp ⊢
        rcases hp with hp | rfl
        · exact h.opened p hp
        · rw [hpacket]
          exact ⟨hin,isOpened_iff.mpr ⟨p,ho⟩⟩
    · rw [hids]
      exact List.mem_append_left _ hm
    · rw [hids]
      simp

/-- With room in the buffer a hint that is not there is put behind the others. -/
theorem Sound.remember_new (h : Sound sha256 c hints others start n) (hroom : Room sha256 hints others)
    {hint : HintPacket} (hin : hint ∈ hints) (hnew : hintId sha256 hint ∉ n.router.recentIds) :
    remember sha256 n.router hint = { n.router with
      recentHints := n.router.recentHints ++ [hint]
      recentIds := n.router.recentIds ++ [hintId sha256 hint] } := by
  have hknown : ∀ i ∈ hintId sha256 hint :: n.router.recentIds,
      i ∈ (hints.map (hintId sha256)).toFinset := by
    intro i hi
    rw [List.mem_toFinset]
    rcases List.mem_cons.mp hi with rfl | hi
    · exact List.mem_map_of_mem hin
    · rw [h.buffered.ids] at hi
      obtain ⟨k,hk,rfl⟩ := List.mem_map.mp hi
      exact List.mem_map_of_mem (h.recent k hk)
  have hcard := Finset.card_le_card fun i hi => hknown i (List.mem_toFinset.mp hi)
  rw [List.toFinset_card_of_nodup (List.nodup_cons.mpr ⟨hnew,h.buffered.ids_nodup⟩),List.length_cons,
    h.buffered.ids,List.length_map] at hcard
  have hexcess : n.router.recentHints.length+1-recentHintBuffer = 0 := by
    have := hroom.buffer
    omega
  have hcontains : n.router.recentIds.contains (hintId sha256 hint) = false := by simpa using hnew
  simp [remember,hnew,hexcess]

theorem Sound.remember (h : Sound sha256 c hints others start n) (hroom : Room sha256 hints others)
    {hint : HintPacket} (hin : hint ∈ hints) :
    Sound sha256 c hints others start { n with router := remember sha256 n.router hint } ∧
      hintId sha256 hint ∈ (remember sha256 n.router hint).recentIds ∧
      ∀ id ∈ n.router.recentIds, id ∈ (remember sha256 n.router hint).recentIds := by
  by_cases hold : hintId sha256 hint ∈ n.router.recentIds
  · have hsame : HintRouter.remember sha256 n.router hint = n.router := by
      simp [HintRouter.remember,hold]
    rw [hsame]
    exact ⟨h,hold,fun _ hid => hid⟩
  · have hbuffered := h.buffered.remember hint
    rw [h.remember_new hroom hin hold] at hbuffered ⊢
    refine ⟨⟨hbuffered,fun k hk => ?_,fun id hid => ?_,h.marked,h.nodup,h.fresh,h.delivered,h.once,
      h.opened⟩,by simp,fun id hid => List.mem_append_left _ hid⟩
    · rcases List.mem_append.mp hk with hk | hk
      · exact h.recent k hk
      · rw [List.mem_singleton.mp hk]
        exact hin
    · exact List.mem_append_left _ (h.received id hid)

theorem tryOpen_received (hint : HintPacket) (now : Nat) :
    (tryOpen sha256 c s hint now).1.received = s.received := by
  unfold HintRouter.tryOpen
  split
  · rfl
  split
  · rfl
  · rfl

theorem remember_received (hint : HintPacket) : (remember sha256 s hint).received = s.received := by
  unfold HintRouter.remember
  dsimp only
  split
  · rfl
  · rfl

theorem take_received (hint : HintPacket) (now : Nat) :
    (take sha256 c s hint now).1.received = s.received :=
  (tryOpen_received hint now).trans (remember_received hint)

/-- A hint that is taken is in the buffer after it, and tried. -/
theorem Sound.take (h : Sound sha256 c hints others start n) (ht : Tried sha256 c n.router)
    (hroom : Room sha256 hints others) {hint : HintPacket} (hin : hint ∈ hints) {now : Nat}
    (hnow : start ≤ now) :
    Sound sha256 c hints others start (n.after (take sha256 c n.router hint now)) ∧
      Tried sha256 c (take sha256 c n.router hint now).1 ∧
      hintId sha256 hint ∈ (take sha256 c n.router hint now).1.recentIds ∧
      ∀ id ∈ n.router.recentIds, id ∈ (take sha256 c n.router hint now).1.recentIds := by
  obtain ⟨hr,hmem,hmono⟩ := h.remember hroom hin
  obtain ⟨hs,hkeep,hopen⟩ := hr.tryOpen hroom hin hnow
  obtain ⟨hkeys,hrecent,hids⟩ : SameHints (HintRouter.remember sha256 n.router hint)
      (HintRouter.take sha256 c n.router hint now).1 := tryOpen_same hint now
  refine ⟨hs,fun k hk ho => ?_,by rw [hids]; exact hmem,fun id hid => by rw [hids]; exact hmono id hid⟩
  rw [hrecent] at hk
  rw [hkeys] at ho
  rcases mem_remember hk with hk | ⟨rfl,-⟩
  · rw [remember_keys] at ho
    have hmark := ht k hk ho
    exact hkeep _ (by rw [remember_delivered]; exact hmark)
  · exact hopen ho

/-- The loop over the buffer marks what it can. -/
theorem Sound.reopen {todo : List HintPacket} (h : Sound sha256 c hints others start n)
    (hroom : Room sha256 hints others) (hin : ∀ hint ∈ todo, hint ∈ hints) {now : Nat}
    (hnow : start ≤ now) :
    Sound sha256 c hints others start (n.after (reopen sha256 c now n.router todo)) ∧
      (∀ id ∈ n.router.delivered.ids, id ∈ (reopen sha256 c now n.router todo).1.delivered.ids) ∧
      ∀ hint ∈ todo, isOpened c n.router.keys hint = true →
        hintId sha256 hint ∈ (reopen sha256 c now n.router todo).1.delivered.ids := by
  induction todo generalizing n with
  | nil =>
    have hstay : n.after (n.router,[]) = n := by simp [Node.after]
    rw [HintRouter.reopen,hstay]
    exact ⟨h,fun _ hid => hid,fun hint hm => by cases hm⟩
  | cons first todo ih =>
    obtain ⟨hs,hkeep,hopen⟩ := h.tryOpen hroom (hin first List.mem_cons_self) hnow
    obtain ⟨hs',hkeep',hopen'⟩ := ih hs fun hint hm => hin hint (List.mem_cons_of_mem first hm)
    have hkeys : (HintRouter.tryOpen sha256 c n.router first now).1.keys = n.router.keys :=
      (tryOpen_same first now).1
    have hafter : n.after (HintRouter.reopen sha256 c now n.router (first :: todo)) =
        (n.after (HintRouter.tryOpen sha256 c n.router first now)).after
          (HintRouter.reopen sha256 c now (HintRouter.tryOpen sha256 c n.router first now).1 todo) := by
      simp [Node.after,HintRouter.reopen]
    rw [hafter]
    refine ⟨hs',fun id hid => hkeep' id (hkeep id hid),fun hint hm ho => ?_⟩
    rcases List.mem_cons.mp hm with rfl | hm
    · exact hkeep' _ (hopen ho)
    · exact hopen' hint hm (by rw [← hkeys] at ho; exact ho)

/-- Neither relaying nor counting touches what the invariant is about. -/
theorem Sound.same (h : Sound sha256 c hints others start n) {s' : HintRouter.State}
    (hs : SameHints n.router s') (hd : s'.delivered = n.router.delivered)
    (hr : ∀ id ∈ s'.received.ids, id ∈ n.router.recentIds) :
    Sound sha256 c hints others start { n with router := s' } := by
  obtain ⟨hkeys,hrecent,hids⟩ := hs
  refine ⟨h.buffered.same ⟨hkeys,hrecent,hids⟩,?_,?_,?_,?_,?_,?_,h.once,?_⟩
  · rw [hrecent]
    exact h.recent
  · rw [hids]
    exact hr
  · rw [hd]
    exact h.marked
  · rw [hd]
    exact h.nodup
  · rw [hd]
    exact h.fresh
  · rw [hd]
    exact h.delivered
  · rw [hkeys]
    exact h.opened

theorem Tried.same {s' : HintRouter.State} (h : Tried sha256 c s) (hs : SameHints s s')
    (hd : ∀ id ∈ s.delivered.ids, id ∈ s'.delivered.ids) : Tried sha256 c s' := by
  intro k hk ho
  rw [hs.2.1] at hk
  rw [hs.1] at ho
  exact hd _ (h k hk ho)

/-- With the state of a node, what is known of the hints that have arrived. -/
structure Inv (sha256 : Bytes → Bytes) (c : Primitives) (hints : List HintPacket)
    (others : List String) (start : Nat) (arrived : List HintPacket) (n : Node) : Prop where
  sound : Sound sha256 c hints others start n
  tried : Tried sha256 c n.router
  kept : ∀ h ∈ arrived, hintId sha256 h ∈ n.router.recentIds

variable {arrived : List HintPacket}

theorem Inv.take (h : Inv sha256 c hints others start arrived n) (hroom : Room sha256 hints others)
    {hint : HintPacket} (hin : hint ∈ hints) {now : Nat} (hnow : start ≤ now) :
    Inv sha256 c hints others start (arrived ++ [hint])
      (n.after (HintRouter.take sha256 c n.router hint now)) := by
  obtain ⟨hs,ht,hmem,hmono⟩ := h.sound.take h.tried hroom hin hnow
  refine ⟨hs,ht,fun k hk => ?_⟩
  rcases List.mem_append.mp hk with hk | hk
  · exact hmono _ (h.kept k hk)
  · rw [List.mem_singleton.mp hk]
    exact hmem

theorem Inv.flood (h : Inv sha256 c hints others start arrived n) (hint : HintPacket)
    (excluded : PeerId) (peers : List Peer) (now : Nat) :
    Inv sha256 c hints others start arrived
      { n with router := HintRouter.flood sha256 n.router hint excluded peers now } := by
  obtain ⟨hs,hd,hr⟩ : SameHints n.router (HintRouter.flood sha256 n.router hint excluded peers now) ∧
    _ ∧ _ := flood_same hint excluded peers now
  refine ⟨h.sound.same hs hd (by rw [hr]; exact h.sound.received),
    h.tried.same hs (by rw [hd]; exact fun _ hid => hid),?_⟩
  rw [hs.2.2]
  exact h.kept

/-- What a step of the run brings in. -/
structure Fits (sha256 : Bytes → Bytes) (hints : List HintPacket) (others : List String) (start : Nat)
    (keys : JsMap String Bytes) (a : Action) : Prop where
  time : ∃ now, HintArrivals.time a = some now ∧ start ≤ now ∧ now ≤ start+SeenCache.ttlMs
  hint : ∀ h, arrival sha256 a = some h → h ∈ hints
  other : ∀ id, originatedId a = some id → id ∈ others
  key : ∀ e, addedKey a = some e → e.1 ∉ JsMap.keys keys

/-- Taking a hint and counting it as received do not meet. -/
theorem take_counted (hint : HintPacket) (now : Nat) (received : SeenCache) (anyHints : Nat) :
    take sha256 c { s with received := received, anyHints := anyHints } hint now =
      ({ (take sha256 c s hint now).1 with received := received, anyHints := anyHints },
        (take sha256 c s hint now).2) := by
  have hremember : remember sha256 { s with received := received, anyHints := anyHints } hint =
      { remember sha256 s hint with received := received, anyHints := anyHints } := by
    by_cases hid : hintId sha256 hint ∈ s.recentIds
    · simp [remember,hid]
    · simp [remember,hid]
  unfold HintRouter.take HintRouter.tryOpen
  rw [hremember]
  dsimp only
  split
  · rfl
  split
  · rfl
  · rfl

theorem after_nil (n : Node) : n.after (n.router,[]) = n := by simp [Node.after]

theorem Inv.handleHint (h : Inv sha256 c hints others start arrived n) (hroom : Room sha256 hints others)
    {sender : PeerId} {hint : HintPacket} {peers : List Peer} {now : Nat}
    (hin : verifyHintPow sha256 hint = true → hint ∈ hints) (hnow : start ≤ now) :
    Inv sha256 c hints others start
      (arrived ++ ((some hint).filter (verifyHintPow sha256)).toList)
      (n.after (HintRouter.handleHint sha256 c n.router sender hint peers now)) := by
  unfold HintRouter.handleHint
  dsimp only
  by_cases hpow : verifyHintPow sha256 hint = true
  · have hin := hin hpow
    simp only [hpow,Bool.not_true,Bool.false_eq_true,if_false,Option.filter_some,if_true,
      Option.toList_some]
    by_cases hrec : n.router.received.has (hintId sha256 hint) = true
    · rw [if_pos hrec,after_nil]
      refine ⟨h.sound,h.tried,fun k hk => ?_⟩
      rcases List.mem_append.mp hk with hk | hk
      · exact h.kept k hk
      · rw [List.mem_singleton.mp hk]
        exact h.sound.received _ ((SeenCache.has_iff _ _).mp hrec)
    · rw [if_neg hrec,take_counted]
      obtain ⟨hs,ht,hk⟩ := h.take hroom hin hnow
      have hid : hintId sha256 hint ∈ (HintRouter.take sha256 c n.router hint now).1.recentIds :=
        hk hint (by simp)
      have hreceived : ∀ id ∈ (n.router.received.add (hintId sha256 hint) now).ids,
          id ∈ (HintRouter.take sha256 c n.router hint now).1.recentIds := by
        intro id hm
        rcases SeenCache.mem_ids_add hm with hm | rfl
        · have hr := hs.received id
          rw [show (n.after (HintRouter.take sha256 c n.router hint now)).router.received =
            n.router.received from take_received hint now] at hr
          exact hr hm
        · exact hid
      have hcounted : Inv sha256 c hints others start (arrived ++ [hint])
          { n.after (HintRouter.take sha256 c n.router hint now) with router :=
            { (HintRouter.take sha256 c n.router hint now).1 with
              received := n.router.received.add (hintId sha256 hint) now
              anyHints := n.router.anyHints+1 } } :=
        ⟨hs.same ⟨rfl,rfl,rfl⟩ rfl hreceived,ht,hk⟩
      exact hcounted.flood hint sender peers now
  · simp only [hpow,Bool.not_false,if_true,after_nil]
    simpa [Option.filter,hpow] using h

theorem Inv.handleExitHint (h : Inv sha256 c hints others start arrived n)
    (hroom : Room sha256 hints others) {myPeerId : PeerId} {bytes : Bytes} {peers : List Peer}
    {now : Nat} (hin : ∀ k, (decodeHint bytes).filter (verifyHintPow sha256) = some k → k ∈ hints)
    (hnow : start ≤ now) :
    Inv sha256 c hints others start
      (arrived ++ ((decodeHint bytes).filter (verifyHintPow sha256)).toList)
      (n.after (HintRouter.handleExitHint sha256 c n.router myPeerId bytes peers now)) := by
  unfold HintRouter.handleExitHint
  cases hd : decodeHint bytes with
  | none => simpa [after_nil] using h
  | some hint =>
    rw [hd] at hin
    by_cases hpow : verifyHintPow sha256 hint = true
    · have hin := hin hint (by simp [hpow])
      simp only [hpow,Bool.not_true,Bool.false_eq_true,if_false,Option.filter_some,if_true,
        Option.toList_some]
      exact (h.take hroom hin hnow).flood hint myPeerId peers now
    · simp only [hpow,Bool.not_false,if_true,after_nil]
      simpa [Option.filter,hpow] using h

theorem Inv.ingestLocal (h : Inv sha256 c hints others start arrived n)
    (hroom : Room sha256 hints others) {hint : HintPacket} {now : Nat}
    (hin : verifyHintPow sha256 hint = true → hint ∈ hints) (hnow : start ≤ now) :
    Inv sha256 c hints others start
      (arrived ++ ((some hint).filter (verifyHintPow sha256)).toList)
      (n.after (HintRouter.ingestLocal sha256 c n.router hint now)) := by
  unfold HintRouter.ingestLocal
  by_cases hpow : verifyHintPow sha256 hint = true
  · simp only [hpow,Bool.not_true,Bool.false_eq_true,if_false,Option.filter_some,if_true,
      Option.toList_some]
    exact h.take hroom (hin hpow) hnow
  · simp only [hpow,Bool.not_false,if_true,after_nil]
    simpa [Option.filter,hpow] using h

theorem isOpened_append {keys more : JsMap String Bytes} {h : HintPacket}
    (ho : isOpened c keys h = true) : isOpened c (keys ++ more) h = true := by
  simp only [isOpened,List.any_append,Bool.or_eq_true] at ho ⊢
  exact .inl ho

/-- A key under a new id is tried on all that is in the buffer. -/
theorem Inv.addKey (h : Inv sha256 c hints others start arrived n) (hroom : Room sha256 hints others)
    {keyId : String} {k : Bytes} {now : Nat} (hkey : keyId ∉ JsMap.keys n.router.keys)
    (hnow : start ≤ now) :
    Inv sha256 c hints others start arrived
      (n.after (HintRouter.addKey sha256 c n.router keyId k now)) ∧
    (HintRouter.addKey sha256 c n.router keyId k now).1.keys = n.router.keys ++ [(keyId,k)] := by
  have hset : JsMap.set n.router.keys keyId k = n.router.keys ++ [(keyId,k)] :=
    JsMap.set_of_get_none k ((JsMap.get_eq_none_iff _ _).mpr hkey)
  have hs : Sound sha256 c hints others start
      { n with router := { n.router with keys := n.router.keys ++ [(keyId,k)] } } := by
    have hb := h.sound.buffered
    refine ⟨⟨⟨hb.ids,hb.ids_nodup,?_⟩,hb.limit⟩,h.sound.recent,h.sound.received,h.sound.marked,
      h.sound.nodup,h.sound.fresh,h.sound.delivered,h.sound.once,fun o ho => ?_⟩
    · rw [← hset]
      exact JsMap.nodup_keys_set hb.keys_nodup keyId k
    · obtain ⟨hm,hop⟩ := h.sound.opened o ho
      exact ⟨hm,isOpened_append hop⟩
  obtain ⟨hs',-,hopen⟩ := hs.reopen hroom h.sound.recent hnow
  unfold HintRouter.addKey
  rw [hset]
  obtain ⟨hkeys,hrecent,hids⟩ : SameHints { n.router with keys := n.router.keys ++ [(keyId,k)] }
      (reopen sha256 c now { n.router with keys := n.router.keys ++ [(keyId,k)] }
        n.router.recentHints).1 := reopen_same now n.router.recentHints
  refine ⟨⟨hs',fun hint hm ho => ?_,fun hint hm => ?_⟩,hkeys⟩
  · have hm' : hint ∈ n.router.recentHints := by
      rw [Node.after,hrecent] at hm
      exact hm
    rw [Node.after,hkeys] at ho
    exact hopen hint hm' ho
  · rw [Node.after,hids]
    exact h.kept hint hm

theorem Inv.originate (h : Inv sha256 c hints others start arrived n) (hroom : Room sha256 hints others)
    {id : String} {now : Nat} (hid : id ∈ others) (hnow : start ≤ now) :
    Inv sha256 c hints others start arrived
      { n with router := HintRouter.originate n.router id now } := by
  by_cases hold : id ∈ n.router.delivered.ids
  · have hsame : HintRouter.originate n.router id now = n.router := by
      simp [HintRouter.originate,SeenCache.add,(SeenCache.has_iff _ _).mpr hold]
    rw [hsame]
    exact h
  · have hcache := h.sound.add_new hroom now hold (List.mem_append_left _ hid)
    have hids : (n.router.delivered.add id now).ids = n.router.delivered.ids ++ [id] := by
      simp [SeenCache.ids,hcache,JsMap.keys]
    have hs := h.sound
    refine ⟨⟨hs.buffered.same ⟨rfl,rfl,rfl⟩,hs.recent,hs.received,fun i hi => ?_,?_,fun e he => ?_,
      fun o ho => ?_,hs.once,hs.opened⟩,fun k hk ho => ?_,h.kept⟩
    · rw [HintRouter.originate,hids,List.mem_append,List.mem_singleton] at hi
      rcases hi with hi | rfl
      · exact hs.marked i hi
      · exact .inl hid
    · simpa [HintRouter.originate,hids,List.nodup_append] using
        ⟨hs.nodup,fun a ha he => hold (he ▸ ha)⟩
    · simp only [HintRouter.originate,hcache,List.mem_append,List.mem_singleton] at he
      rcases he with he | rfl
      · exact hs.fresh e he
      · exact hnow
    · rw [HintRouter.originate,hids]
      exact List.mem_append_left _ (hs.delivered o ho)
    · rw [HintRouter.originate,hids]
      exact List.mem_append_left _ (h.tried k hk ho)

/-- No timer forgets a mark within the lifetime. -/
theorem Inv.cleanup (h : Inv sha256 c hints others start arrived n) {now : Nat}
    (hnow : now ≤ start+SeenCache.ttlMs) (cache : Cache) :
    Inv sha256 c hints others start arrived
      { n with router := HintArrivals.cleanup n.router now cache } := by
  have hs := h.sound
  cases cache with
  | flooded => exact ⟨hs.same ⟨rfl,rfl,rfl⟩ rfl hs.received,h.tried,h.kept⟩
  | received =>
    exact ⟨hs.same ⟨rfl,rfl,rfl⟩ rfl fun id hid =>
      hs.received id ((SeenCache.cleanup_sublist _ now).subset hid),h.tried,h.kept⟩
  | delivered =>
    have hkeep : n.router.delivered.cleanup now = n.router.delivered := by
      apply SeenCache.cleanup_fresh
      intro e he
      have := hs.fresh e he
      omega
    rw [HintArrivals.cleanup,hkeep]
    exact h

theorem take_keys (hint : HintPacket) (now : Nat) :
    (take sha256 c s hint now).1.keys = s.keys :=
  (tryOpen_same hint now).1.trans (remember_keys hint)

/-- Only `addKey`, `removeKey` and `destroy` change the keys. -/
theorem handleHint_keys (sender : PeerId) (hint : HintPacket) (peers : List Peer) (now : Nat) :
    (handleHint sha256 c s sender hint peers now).1.keys = s.keys := by
  unfold handleHint
  dsimp only
  split
  · rfl
  split
  · rfl
  · exact (flood_same hint sender peers now).1.1.trans (take_keys hint now)

theorem handleExitHint_keys (myPeerId : PeerId) (bytes : Bytes) (peers : List Peer) (now : Nat) :
    (handleExitHint sha256 c s myPeerId bytes peers now).1.keys = s.keys := by
  unfold handleExitHint
  split
  · rfl
  next hint _ =>
  split
  · rfl
  · exact (flood_same hint myPeerId peers now).1.1.trans (take_keys hint now)

theorem ingestLocal_keys (hint : HintPacket) (now : Nat) :
    (ingestLocal sha256 c s hint now).1.keys = s.keys := by
  unfold ingestLocal
  split
  · rfl
  · exact take_keys hint now

theorem Inv.step (h : Inv sha256 c hints others start arrived n) (hroom : Room sha256 hints others)
    {a : Action} (hfit : Fits sha256 hints others start n.router.keys a) :
    Inv sha256 c hints others start (arrived ++ (arrival sha256 a).toList)
        (HintArrivals.step sha256 c n a) ∧
      (HintArrivals.step sha256 c n a).router.keys = n.router.keys ++ (addedKey a).toList := by
  obtain ⟨now,htime,hstart,hend⟩ := hfit.time
  cases a with
  | network sender msg peers t =>
    cases htime
    unfold HintArrivals.step transition
    cases hp : parseHintPacket msg with
    | none => simpa [arrival,addedKey,hp,after_nil] using h
    | some hint =>
      have hin := hfit.hint hint
      simp only [arrival,hp] at hin ⊢
      exact ⟨h.handleHint hroom (fun hpow => hin (by simp [hpow])) hstart,
        (handleHint_keys sender hint peers now).trans (List.append_nil _).symm⟩
  | exit myPeerId bytes peers t =>
    cases htime
    exact ⟨h.handleExitHint hroom hfit.hint hstart,
      (handleExitHint_keys myPeerId bytes peers now).trans (List.append_nil _).symm⟩
  | slot hint t =>
    cases htime
    exact ⟨h.ingestLocal hroom (fun hpow => hfit.hint hint (by simp [arrival,hpow])) hstart,
      (ingestLocal_keys hint now).trans (List.append_nil _).symm⟩
  | addKey keyId k t =>
    cases htime
    obtain ⟨hi,hk⟩ := h.addKey hroom (hfit.key _ rfl) hstart
    exact ⟨(List.append_nil arrived).symm ▸ hi,hk⟩
  | removeKey keyId => cases htime
  | originate id t =>
    cases htime
    have hi := h.originate hroom (hfit.other id rfl) hstart
    simpa [HintArrivals.step,transition,Node.after,arrival,addedKey,HintRouter.originate] using hi
  | reflood hint myPeerId peers t =>
    have hi := h.flood hint myPeerId peers t
    have hk : (HintRouter.flood sha256 n.router hint myPeerId peers t).keys = n.router.keys :=
      (flood_same hint myPeerId peers t).1.1
    simpa [HintArrivals.step,transition,Node.after,arrival,addedKey,hk] using hi
  | cleanup cache t =>
    cases htime
    have hi := h.cleanup hend cache
    have hk : (HintArrivals.cleanup n.router now cache).keys = n.router.keys :=
      (cleanup_same now cache).1
    simpa [HintArrivals.step,transition,Node.after,arrival,addedKey,hk] using hi
  | destroy => cases htime

theorem filterMap_snoc {α β : Type*} (f : α → Option β) (as : List α) (a : α) :
    (as ++ [a]).filterMap f = as.filterMap f ++ (f a).toList := by
  cases h : f a with
  | none => simp [h]
  | some b => simp [h]

theorem inv_run (hroom : Room sha256 hints others) (as : List Action)
    (hlife : ∀ a ∈ as, ∃ now, time a = some now ∧ start ≤ now ∧ now ≤ start+SeenCache.ttlMs)
    (hhints : ∀ h ∈ arrivals sha256 as, h ∈ hints) (hothers : ∀ id ∈ originatedIds as, id ∈ others)
    (hkeys : (JsMap.keys (addedKeys as)).Nodup) :
    Inv sha256 c hints others start (arrivals sha256 as) (run sha256 c as) ∧
      (run sha256 c as).router.keys = addedKeys as := by
  induction as using List.reverseRec with
  | nil =>
    have hb : Buffered sha256 ({} : HintRouter.State) :=
      ⟨⟨rfl,List.nodup_nil,List.nodup_nil⟩,Nat.zero_le _⟩
    have hs : Sound sha256 c hints others start {} := by
      refine ⟨hb,?_,?_,?_,List.nodup_nil,?_,?_,List.nodup_nil,?_⟩ <;> simp [SeenCache.ids,JsMap.keys]
    exact ⟨⟨hs,by simp [Tried,run],by simp [arrivals]⟩,rfl⟩
  | append_singleton as a ih =>
    have harrivals : arrivals sha256 (as ++ [a]) = arrivals sha256 as ++ (arrival sha256 a).toList :=
      filterMap_snoc _ as a
    have hadded : addedKeys (as ++ [a]) = addedKeys as ++ (addedKey a).toList :=
      filterMap_snoc _ as a
    have horiginated : originatedIds (as ++ [a]) = originatedIds as ++ (originatedId a).toList :=
      filterMap_snoc _ as a
    rw [harrivals] at hhints
    rw [hadded,JsMap.keys,List.map_append,List.nodup_append] at hkeys
    rw [horiginated] at hothers
    obtain ⟨hi,hk⟩ := ih (fun b hb => hlife b (List.mem_append_left _ hb))
      (fun h hm => hhints h (List.mem_append_left _ hm))
      (fun id hm => hothers id (List.mem_append_left _ hm)) hkeys.1
    have hfit : Fits sha256 hints others start (run sha256 c as).router.keys a := by
      refine ⟨hlife a (by simp),fun h ha => hhints h (by simp [ha]),
        fun id hid => hothers id (by simp [hid]),fun e he hm => ?_⟩
      rw [hk] at hm
      exact hkeys.2.2 e.1 hm e.1 (by simp [he]) rfl
    obtain ⟨hi',hk'⟩ := hi.step hroom hfit
    rw [run_snoc,harrivals,hadded,hk',hk]
    exact ⟨hi',rfl⟩

/-- What is handed over of a hint, once a run is over. -/
theorem Inv.calls_length (h : Inv sha256 c hints others start hints n)
    (hothers : ∀ id ∈ others, id ∉ hints.map (hintId sha256)) (hc : NoCollision sha256 hints)
    {hint : HintPacket} (hm : hint ∈ hints) :
    (calls sha256 n.opened hint).length = if isOpened c n.router.keys hint then 1 else 0 := by
  have hcount : (calls sha256 n.opened hint).length =
      (n.opened.map (openedId sha256)).count (hintId sha256 hint) := by
    simp only [calls,List.count,List.countP_map,← List.countP_eq_length_filter]
    congr 1
  rw [hcount]
  by_cases ho : isOpened c n.router.keys hint = true
  · rw [if_pos ho]
    apply List.count_eq_one_of_mem h.sound.once
    have hid := h.kept hint hm
    rw [h.sound.buffered.ids] at hid
    obtain ⟨k,hk,hsame⟩ := List.mem_map.mp hid
    have hpre := hc k (h.sound.recent k hk) hint hm hsame
    have hmark := h.tried k hk (by rw [isOpened_of_preimage _ hpre]; exact ho)
    rw [hsame] at hmark
    exact (h.sound.marked _ hmark).resolve_left fun hother =>
      hothers _ hother (List.mem_map_of_mem hm)
  · rw [if_neg ho]
    apply List.count_eq_zero_of_not_mem
    intro hmem
    obtain ⟨o,hopened,hid⟩ := List.mem_map.mp hmem
    obtain ⟨hpacket,hop⟩ := h.sound.opened o hopened
    rw [isOpened_of_preimage _ (hc o.packet hpacket hint hm hid)] at hop
    exact ho hop

/-- At every state of every run the ids are those of the buffer, which holds each hint once
and no more than it may; and in a run within the limits each hint is handed over exactly
once if a key that was added opens it, in whatever order they came, and else never. -/
theorem delivered_once :
    (∀ as, (run sha256 c as).router.recentIds = (run sha256 c as).router.recentHints.map (hintId sha256) ∧
      (run sha256 c as).router.recentIds.Nodup ∧
      (run sha256 c as).router.recentHints.length ≤ recentHintBuffer) ∧
    ∀ start as, Within sha256 start as → NoCollision sha256 (arrivals sha256 as) →
      (∀ h ∈ arrivals sha256 as, (calls sha256 (run sha256 c as).opened h).length =
        if isOpened c (addedKeys as) h then 1 else 0) ∧
      ∀ o ∈ (run sha256 c as).opened, o.packet ∈ arrivals sha256 as := by
  refine ⟨fun as => ?_,fun start as hw hc => ?_⟩
  · have hb : Buffered sha256 (run sha256 c as).router := buffered_run as
    exact ⟨hb.ids,hb.ids_nodup,hb.limit⟩
  · obtain ⟨hi,hkeys⟩ := inv_run (c := c) ⟨hw.capacity,hw.buffer⟩ as hw.lifetime (fun h hm => hm)
      (fun id hm => hm) hw.keys
    refine ⟨fun h hm => ?_,fun o ho => (hi.sound.opened o ho).1⟩
    rw [← hkeys]
    exact hi.calls_length hw.foreign hc hm

end

def sampleHint : HintPacket where
  ttl := 8
  blindTag := [1,2,3,4]
  nonce := List.replicate 12 0
  powNonce := 1962
  ciphertext := List.replicate 48 0 ++ [1,2,3,4] ++ List.replicate 12 0
  ttl_le := hintInitialTtl_le
  blindTag_length := rfl
  nonce_length := zeroNonce_length
  powNonce_le := by decide
  ciphertext_length := rfl

/-- The hint comes before its key, and twice again after it. -/
def sampleRun : List Action :=
  [.network "a" sampleHint.toVal [] 0,.addKey "board" [1,2,3,4] 1,.exit "me" (encodeHint sampleHint) [] 2,
    .slot sampleHint 3]

theorem delivered_once_sample :
    (calls Sha256.sha256 (run Sha256.sha256 sample sampleRun).opened sampleHint).length = 1 := by
  have ha : arrivals Sha256.sha256 sampleRun = [sampleHint,sampleHint,sampleHint] := by decide +kernel
  have ho : originatedIds sampleRun = [] := rfl
  have hw : Within Sha256.sha256 0 sampleRun := by
    refine ⟨?_,?_,?_,by decide,by simp [ho]⟩
    · simp [sampleRun,time,SeenCache.ttlMs]
    · simp [ho,ha,arrivedIds,SeenCache.maxSize]
    · simp [ha,arrivedIds,recentHintBuffer]
  have hc : NoCollision Sha256.sha256 (arrivals Sha256.sha256 sampleRun) := by simp [ha,NoCollision]
  have hm : sampleHint ∈ arrivals Sha256.sha256 sampleRun := by simp [ha]
  have hopen : isOpened sample (addedKeys sampleRun) sampleHint = true := by decide
  rw [(delivered_once.2 0 sampleRun hw hc).1 sampleHint hm,hopen]
  rfl

end HintArrivals
