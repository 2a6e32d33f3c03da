import AetherLite.Hint.HintCrypto
import AetherLite.Gossip.SeenCache
import AetherLite.Gossip.ZoneGossipRouter

/-! The hints of one node: the keys it tries, the hints it keeps for keys to come, and
what the listeners are called with. -/
set_option autoImplicit false

namespace HintRouter

open Hint ZoneGossipRouter

def recentHintBuffer : Nat := 2000

structure OpenedHint where
  payload : HintPayload
  keyId : String
  packet : HintPacket
  deriving DecidableEq

structure State where
  flooded : SeenCache := {}
  received : SeenCache := {}
  delivered : SeenCache := {}
  keys : JsMap String Bytes := []
  recentHints : List HintPacket := []
  recentIds : List String := []
  /-- How often the listeners for any hint were called. -/
  anyHints : Nat := 0
  -- what was sent to whom, latest first
  relays : List (PeerId × HintPacket) := []

section
variable (sha256 : Bytes → Bytes) (c : Primitives)

/-- The keys are tried in the order they were added in. -/
def firstOpened (keys : JsMap String Bytes) (hint : HintPacket) : Option OpenedHint :=
  keys.findSome? fun e => (openHint c e.2 hint).map fun payload => ⟨payload,e.1,hint⟩

/-- The state, and what the listeners are called with: at most one opened hint. -/
def tryOpen (s : State) (hint : HintPacket) (now : Nat) : State × List OpenedHint :=
  if s.delivered.has (hintId sha256 hint) then (s,[])
  else match firstOpened c s.keys hint with
  | some o => ({ s with delivered := s.delivered.add (hintId sha256 hint) now },[o])
  | none => (s,[])

/-- A hint is kept once, and the oldest go when there are too many. -/
def remember (s : State) (hint : HintPacket) : State :=
  let id := hintId sha256 hint
  if s.recentIds.contains id then s
  else
    let hints := s.recentHints ++ [hint]
    let excess := hints.length-recentHintBuffer
    { s with
      recentHints := hints.drop excess
      recentIds := (s.recentIds ++ [id]).filter fun i =>
        !((hints.take excess).map (hintId sha256)).contains i }

/-- The loop of `addKey` over the hints that are kept. -/
def reopen (now : Nat) : State → List HintPacket → State × List OpenedHint
  | s, [] => (s,[])
  | s, hint :: hints =>
    let (s,opened) := tryOpen sha256 c s hint now
    let (s,rest) := reopen now s hints
    (s,opened ++ rest)

def addKey (s : State) (keyId : String) (k : Bytes) (now : Nat) : State × List OpenedHint :=
  reopen sha256 c now { s with keys := JsMap.set s.keys keyId k } s.recentHints

def removeKey (s : State) (keyId : String) : State :=
  { s with keys := JsMap.delete s.keys keyId }

def flood (s : State) (hint : HintPacket) (excludePeerId : PeerId) (peers : List Peer)
    (now : Nat) : State :=
  let id := hintId sha256 hint
  if s.flooded.has id then s
  else
    let targets := peers.filter fun peer =>
      peer.peerId ≠ excludePeerId && peer.isConnected && peer.isVerified
    let relayed := { hint with ttl := hintInitialTtl, ttl_le := hintInitialTtl_le }
    { s with
      flooded := s.flooded.add id now
      relays := targets.map (fun peer => (peer.peerId,relayed)) ++ s.relays }

/-- A hint that is kept and tried against the keys. -/
def take (s : State) (hint : HintPacket) (now : Nat) : State × List OpenedHint :=
  tryOpen sha256 c (remember sha256 s hint) hint now

/-- A hint that came from a neighbour and parsed. -/
def handleHint (s : State) (sender : PeerId) (hint : HintPacket) (peers : List Peer)
    (now : Nat) : State × List OpenedHint :=
  let id := hintId sha256 hint
  if !verifyHintPow sha256 hint then (s,[])
  else if s.received.has id then (s,[])
  else
    let s := { s with received := s.received.add id now, anyHints := s.anyHints+1 }
    let (s,opened) := take sha256 c s hint now
    (flood sha256 s hint sender peers now,opened)

/-- A hint this node is the exit for. -/
def handleExitHint (s : State) (myPeerId : PeerId) (bytes : Bytes) (peers : List Peer)
    (now : Nat) : State × List OpenedHint :=
  match decodeHint bytes with
  | none => (s,[])
  | some hint =>
    if !verifyHintPow sha256 hint then (s,[])
    else
      let (s,opened) := take sha256 c s hint now
      (flood sha256 s hint myPeerId peers now,opened)

/-- A hint that came with a slot stored here. -/
def ingestLocal (s : State) (hint : HintPacket) (now : Nat) : State × List OpenedHint :=
  if !verifyHintPow sha256 hint then (s,[]) else take sha256 c s hint now

/-- Before the circuit takes it: what this node made it does not announce to itself. -/
def originate (s : State) (id : String) (now : Nat) : State :=
  { s with delivered := s.delivered.add id now }

end

section
variable {sha256 : Bytes → Bytes} {c : Primitives} {s : State}

/-- What is kept is kept once, under its id, and each key id has one key. -/
structure Kept (sha256 : Bytes → Bytes) (s : State) : Prop where
  ids : s.recentIds = s.recentHints.map (hintId sha256)
  ids_nodup : s.recentIds.Nodup
  keys_nodup : (JsMap.keys s.keys).Nodup

theorem filter_not_taken {α : Type*} [DecidableEq α] {l : List α} (h : l.Nodup) (n : Nat) :
    l.filter (fun x => !(l.take n).contains x) = l.drop n := by
  have hl : (l.take n ++ l.drop n).Nodup := by rwa [List.take_append_drop]
  have hd := (List.nodup_append.mp hl).2.2
  have ht : (l.take n).filter (fun x => !(l.take n).contains x) = [] := by
    simp
  have hk : (l.drop n).filter (fun x => !(l.take n).contains x) = l.drop n := by
    rw [List.filter_eq_self]
    intro x hx
    have hx' : x ∉ l.take n := fun hx' => hd x hx' x hx rfl
    simpa using hx'
  have he := congrArg (List.filter fun x => !(l.take n).contains x) (List.take_append_drop n l)
  rw [List.filter_append,ht,hk] at he
  exact he.symm

theorem Kept.remember (h : Kept sha256 s) (hint : HintPacket) : Kept sha256 (remember sha256 s hint) := by
  unfold HintRouter.remember
  dsimp only
  split
  · exact h
  · next hnew =>
    have hid : hintId sha256 hint ∉ s.recentIds := by simpa using hnew
    have hn : (s.recentIds ++ [hintId sha256 hint]).Nodup := by
      simpa [List.nodup_append] using ⟨h.ids_nodup,fun a ha he => hid (he ▸ ha)⟩
    have hm : s.recentIds ++ [hintId sha256 hint] =
        (s.recentHints ++ [hint]).map (hintId sha256) := by simp [h.ids]
    have hf := filter_not_taken hn ((s.recentHints ++ [hint]).length-recentHintBuffer)
    refine ⟨?_,hn.filter _,h.keys_nodup⟩
    dsimp only
    rw [List.map_take,List.map_drop,← hm]
    exact hf

theorem mem_remember {hint k : HintPacket} (h : k ∈ (remember sha256 s hint).recentHints) :
    k ∈ s.recentHints ∨ k = hint ∧ hintId sha256 hint ∉ s.recentIds := by
  unfold HintRouter.remember at h
  dsimp only at h
  split at h
  · exact .inl h
  · next hnew =>
    dsimp only at h
    have hm : k ∈ s.recentHints ++ [hint] := List.mem_of_mem_drop h
    rcases List.mem_append.mp hm with hm | hm
    · exact .inl hm
    · exact .inr ⟨List.mem_singleton.mp hm,by simpa using hnew⟩

@[simp] theorem remember_keys (hint : HintPacket) : (remember sha256 s hint).keys = s.keys := by
  unfold HintRouter.remember
  dsimp only
  split
  · rfl
  · rfl

@[simp] theorem remember_delivered (hint : HintPacket) :
    (remember sha256 s hint).delivered = s.delivered := by
  unfold HintRouter.remember
  dsimp only
  split
  · rfl
  · rfl

/-- Apart from the marks of what was delivered the states are the same. -/
def SameHints (s s' : State) : Prop :=
  s'.keys = s.keys ∧ s'.recentHints = s.recentHints ∧ s'.recentIds = s.recentIds

theorem SameHints.trans {s₁ s₂ s₃ : State} (h : SameHints s₁ s₂) (h' : SameHints s₂ s₃) :
    SameHints s₁ s₃ :=
  ⟨h'.1.trans h.1,h'.2.1.trans h.2.1,h'.2.2.trans h.2.2⟩

theorem Kept.same {s' : State} (h : Kept sha256 s) (hs : SameHints s s') : Kept sha256 s' := by
  obtain ⟨hk,hr,hi⟩ := hs
  exact ⟨by rw [hi,hr]; exact h.ids,hi ▸ h.ids_nodup,hk ▸ h.keys_nodup⟩

theorem tryOpen_same (hint : HintPacket) (now : Nat) :
    SameHints s (tryOpen sha256 c s hint now).1 := by
  unfold tryOpen
  split
  · exact ⟨rfl,rfl,rfl⟩
  split
  · exact ⟨rfl,rfl,rfl⟩
  · exact ⟨rfl,rfl,rfl⟩

theorem tryOpen_opened (hint : HintPacket) (now : Nat)
    (h : s.delivered.has (hintId sha256 hint) = false) :
    (tryOpen sha256 c s hint now).2 = (firstOpened c s.keys hint).toList := by
  unfold tryOpen
  rw [h]
  cases firstOpened c s.keys hint with
  | none => rfl
  | some o => rfl

/-- Trying a hint marks no other. -/
theorem has_of_tryOpen {hint : HintPacket} {now : Nat} {id : String}
    (hne : id ≠ hintId sha256 hint) (h : s.delivered.has id = false) :
    (tryOpen sha256 c s hint now).1.delivered.has id = false := by
  unfold tryOpen
  split
  · exact h
  split
  · next o _ =>
    rw [← Bool.not_eq_true,SeenCache.has_iff] at h ⊢
    intro hm
    rcases SeenCache.mem_ids_add hm with hm | hm
    · exact h hm
    · exact hne hm
  · exact h

theorem reopen_same (now : Nat) (hints : List HintPacket) :
    SameHints s (reopen sha256 c now s hints).1 := by
  induction hints generalizing s with
  | nil => exact ⟨rfl,rfl,rfl⟩
  | cons hint hints ih => exact (tryOpen_same hint now).trans ih

/-- `addKey` opens each hint that is kept and not delivered, with the first key that does. -/
theorem reopen_opens {now : Nat} {hints : List HintPacket} {hint : HintPacket} {o : OpenedHint}
    (hn : (hints.map (hintId sha256)).Nodup) (hm : hint ∈ hints)
    (hd : s.delivered.has (hintId sha256 hint) = false)
    (ho : firstOpened c s.keys hint = some o) : o ∈ (reopen sha256 c now s hints).2 := by
  induction hints generalizing s with
  | nil => cases hm
  | cons first hints ih =>
    simp only [List.map_cons,List.nodup_cons] at hn
    rw [reopen,List.mem_append]
    rcases List.mem_cons.mp hm with rfl | hm
    · rw [tryOpen_opened hint now hd,ho]
      exact .inl (by simp)
    · have hne : hintId sha256 hint ≠ hintId sha256 first :=
        fun he => hn.1 (he ▸ List.mem_map_of_mem hm)
      refine .inr (ih hn.2 hm (has_of_tryOpen hne hd) ?_)
      rw [(tryOpen_same first now).1]
      exact ho

theorem firstOpened_some {keys : JsMap String Bytes} {hint : HintPacket} {o : OpenedHint}
    (h : firstOpened c keys hint = some o) :
    ∃ k, (o.keyId,k) ∈ keys ∧ openHint c k hint = some o.payload := by
  obtain ⟨e,he,ho⟩ := List.exists_of_findSome?_eq_some h
  obtain ⟨payload,hp,rfl⟩ := Option.map_eq_some_iff.mp ho
  exact ⟨e.2,he,hp⟩

theorem firstOpened_isSome {keys : JsMap String Bytes} {hint : HintPacket} {e : String × Bytes}
    (he : e ∈ keys) (ho : openHint c e.2 hint ≠ none) : ∃ o, firstOpened c keys hint = some o := by
  refine Option.isSome_iff_exists.mp (List.findSome?_isSome_iff.mpr ⟨e,he,?_⟩)
  rw [Option.isSome_map,Option.isSome_iff_ne_none]
  exact ho

/-- Opened by the key of an id, a hint has the payload of that key. -/
theorem payload_of_firstOpened {keys : JsMap String Bytes} {hint : HintPacket} {o : OpenedHint}
    {k : Bytes} (hn : (JsMap.keys keys).Nodup) (hk : JsMap.get keys o.keyId = some k)
    (h : firstOpened c keys hint = some o) : openHint c k hint = some o.payload := by
  obtain ⟨k',hm,ho⟩ := firstOpened_some h
  have hg := JsMap.get_of_mem hn hm
  rw [hk] at hg
  exact Option.some.inj hg ▸ ho

end

end HintRouter
