import AetherLite.Lib.Sha256
import AetherLite.Onion.OnionCircuit
import AetherLite.Onion.OnionLayers
import Mathlib.Data.List.Nodup

/-! The guard stays while it can, and its neighbours are those it named itself. -/
set_option autoImplicit false

namespace DandelionRouter

open Js

theorem indexAbove_lt {r : Number} {weights : List Number} {acc : Number} {i : Nat}
    (h : indexAbove r acc weights = some i) : i < weights.length := by
  induction weights generalizing acc i with
  | nil => cases h
  | cons w ws ih =>
    unfold indexAbove at h
    split at h
    · cases h
      simp
    · obtain ⟨j,hj,rfl⟩ := Option.map_eq_some_iff.mp h
      have hlt := ih hj
      simp only [List.length_cons]
      omega

/-- Something is chosen where there is a choice. -/
theorem secureWeightedIndex_lt (draw : UInt32) {weights : List Number} (h : weights ≠ []) :
    secureWeightedIndex draw weights < weights.length := by
  have hpos := List.length_pos_iff.mpr h
  unfold secureWeightedIndex
  dsimp only
  split
  · unfold secureRandomIndex
    split
    · exact hpos
    · exact Nat.mod_lt _ hpos
  · cases hi : indexAbove (((Number.ofNat draw.toNat).divBy (2^32)).mul
        (weights.foldl Number.add (.fin 0))) (.fin 0) weights with
    | none =>
      rw [Option.getD_none]
      omega
    | some i =>
      rw [Option.getD_some]
      exact indexAbove_lt hi

end DandelionRouter

namespace OnionCircuit

open Js OnionRouter DandelionRouter

section
variable {cfg : Config} {s s' t : State}

theorem mem_verifiedNeighbors {h : OnionHop} (hm : h ∈ verifiedNeighbors s) :
    JsMap.has s.peers h.peerId = true := by
  obtain ⟨e,he,hsome⟩ := List.mem_filterMap.mp hm
  rw [JsMap.has_iff]
  simp only [Option.ite_none_right_eq_some,Option.map_eq_some_iff] at hsome
  obtain ⟨-,pubkey,-,rfl⟩ := hsome
  exact List.mem_map_of_mem he

theorem liveGuard_some {candidates : List OnionHop} {guard : OnionHop}
    (h : liveGuard s candidates = some guard) :
    guard ∈ candidates ∧ s.pinnedGuardId = some guard.peerId := by
  obtain ⟨id,hid,hfind⟩ := Option.bind_eq_some_iff.mp h
  split at hfind
  · have hid' := List.find?_some hfind
    exact ⟨List.mem_of_find?_eq_some hfind,by rw [hid,beq_iff_eq.mp hid']⟩
  · cases hfind

/-- A pinned guard has no time at which it goes. -/
def Unexpiring (s : State) : Prop := s.pinnedGuardId ≠ none → s.pinnedGuardExpiry = .inf false

theorem liveGuard_of_mem {guard : OnionHop} (hs : Unexpiring s) (hm : guard ∈ verifiedNeighbors s)
    (hp : s.pinnedGuardId = some guard.peerId) :
    ∃ g, liveGuard s (verifiedNeighbors s) = some g := by
  have hexp : s.pinnedGuardExpiry = .inf false := hs (by rw [hp]; simp)
  have hfind : ((verifiedNeighbors s).find? (·.peerId == guard.peerId)).isSome := by
    rw [List.find?_isSome]
    exact ⟨guard,hm,by simp⟩
  obtain ⟨g,hg⟩ := Option.isSome_iff_exists.mp hfind
  refine ⟨g,?_⟩
  have hlt : (Number.ofNat s.now).lt (.inf false) = true := rfl
  rw [liveGuard,hp,Option.bind_some,hexp,hlt,mem_verifiedNeighbors hm]
  exact hg

/-- The guard named the neighbour in a response since it was pinned, and the claim held. -/
def Named (cfg : Config) (s : State) (peerId : String) (pubkey : Bytes) : Prop :=
  ∃ sender msg peers entry, (sender,msg) ∈ s.responses.drop s.pinnedSince ∧
    s.pinnedGuardId = some sender ∧ msg.field "peers" = .arr peers ∧ entry ∈ peers ∧
      entry.field "id" = .str peerId ∧ PowPolicy.toBytes (entry.field "pubkey") = .ok pubkey ∧
        NodeIdentity.verifyClaim cfg.sodium ⟨peerId,pubkey,powCounterOf entry⟩ cfg.powParams = true

structure Guarded (cfg : Config) (s : State) : Prop where
  unexpiring : Unexpiring s
  since : s.pinnedSince ≤ s.responses.length
  named : ∀ e ∈ s.guardNeighbors, Named cfg s e.1 e.2.pubkey

theorem Guarded.congr (h : Guarded cfg s) (hp : t.pinnedGuardId = s.pinnedGuardId)
    (he : t.pinnedGuardExpiry = s.pinnedGuardExpiry) (hr : t.responses = s.responses)
    (hi : t.pinnedSince = s.pinnedSince)
    (ht : ∀ e ∈ t.guardNeighbors, e ∈ s.guardNeighbors) : Guarded cfg t where
  unexpiring := by
    unfold Unexpiring
    rw [hp,he]
    exact h.unexpiring
  since := by
    rw [hi,hr]
    exact h.since
  named e hmem := by
    unfold Named
    rw [hp,hr,hi]
    exact h.named e (ht e hmem)

theorem Guarded.table_nil (h : Guarded cfg s) (hp : s.pinnedGuardId = none) :
    s.guardNeighbors = [] := by
  cases ht : s.guardNeighbors with
  | nil => rfl
  | cons e rest =>
    obtain ⟨sender,msg,peers,entry,-,hsome,-⟩ := h.named e (by rw [ht]; exact List.mem_cons_self)
    rw [hp] at hsome
    cases hsome

/-- What setting the guard leaves of the state. -/
theorem setGuard_fields (s : State) (id : Option String) (expiry : Number) :
    (setGuard s id expiry).pinnedGuardId = id ∧ (setGuard s id expiry).pinnedGuardExpiry = expiry ∧
      (setGuard s id expiry).responses = s.responses ∧
        (setGuard s id expiry).pinnedSince = s.responses.length ∧
          (setGuard s id expiry).sends = s.sends ∧
            (id ≠ s.pinnedGuardId → (setGuard s id expiry).guardNeighbors = []) ∧
              (id = s.pinnedGuardId →
                (setGuard s id expiry).guardNeighbors = s.guardNeighbors) := by
  unfold setGuard guardChanged State.post
  dsimp only
  split
  · next hne =>
    split
    · split <;> simp [hne]
    · simp [hne]
  · next heq =>
    have heq : id = s.pinnedGuardId := not_not.mp heq
    simp [heq]

theorem guarded_setGuard {id : Option String} {expiry : Number}
    (hid : id ≠ s.pinnedGuardId ∨ s.guardNeighbors = []) (he : id ≠ none → expiry = .inf false) :
    Guarded cfg (setGuard s id expiry) := by
  obtain ⟨hp,hexp,hr,hi,-,hclear,hkeep⟩ := setGuard_fields s id expiry
  have hnil : (OnionCircuit.setGuard s id expiry).guardNeighbors = [] := by
    by_cases hc : id = s.pinnedGuardId
    · rw [hkeep hc]
      exact hid.resolve_left (not_not.mpr hc)
    · exact hclear hc
  refine ⟨?_,?_,fun e hmem => ?_⟩
  · unfold Unexpiring
    rw [hp,hexp]
    exact he
  · rw [hi,hr]
  · rw [hnil] at hmem
    cases hmem

/-- Looking for the guard changes it only when it is not among the neighbours. -/
theorem Guarded.currentGuard (h : Guarded cfg s) (draw : UInt32) :
    Guarded cfg (currentGuard s draw).1 ∧
      (∀ guard, (OnionCircuit.currentGuard s draw).2 = some guard →
        (OnionCircuit.currentGuard s draw).1.pinnedGuardId = some guard.peerId) ∧
      ((OnionCircuit.currentGuard s draw).1 = s ∨ ∀ hop ∈ verifiedNeighbors s,
        s.pinnedGuardId ≠ some hop.peerId) ∧
      (OnionCircuit.currentGuard s draw).1.sends = s.sends := by
  unfold OnionCircuit.currentGuard getPinnedGuard
  cases hlive : liveGuard s (verifiedNeighbors s) with
  | some guard =>
    refine ⟨h,fun g hg => ?_,.inl rfl,rfl⟩
    cases hg
    exact (liveGuard_some hlive).2
  | none =>
    have hgone : ∀ hop ∈ verifiedNeighbors s, s.pinnedGuardId ≠ some hop.peerId := by
      intro hop hm hp
      obtain ⟨g,hg⟩ := liveGuard_of_mem h.unexpiring hm hp
      rw [hlive] at hg
      cases hg
    dsimp only
    split
    · cases hp : s.pinnedGuardId with
      | none => exact ⟨h,fun g hg => (by cases hg),.inl rfl,rfl⟩
      | some id =>
        dsimp only
        split
        · exact ⟨h,fun g hg => (by cases hg),.inl rfl,rfl⟩
        · refine ⟨guarded_setGuard (.inl (by rw [hp]; simp)) (fun hne => absurd rfl hne),
            fun g hg => (by cases hg),.inr (by simpa [hp] using hgone),(setGuard_fields _ _ _).2.2.2.2.1⟩
    · cases hsel : (verifiedNeighbors s)[secureWeightedIndex draw
          ((verifiedNeighbors s).map fun c => guardWeight s c.peerId)]? with
      | none => exact ⟨h,fun g hg => (by cases hg),.inl rfl,rfl⟩
      | some selected =>
        have hm := List.mem_of_getElem? hsel
        refine ⟨guarded_setGuard (.inl fun hp => hgone selected hm hp.symm) (fun _ => rfl),
          fun g hg => ?_,.inr hgone,(setGuard_fields _ _ _).2.2.2.2.1⟩
        cases hg
        exact (setGuard_fields _ _ _).1

/-- An exit is in the table, and is none of those that are out of the question. -/
theorem pickExit_some {guardId : String} {exclude : List String} {draw : UInt32} {exit : OnionHop}
    (h : pickExit cfg s guardId exclude draw = (s',some exit)) :
    (∃ info, (exit.peerId,info) ∈ s'.guardNeighbors ∧ exit.pubkey = info.pubkey) ∧
      exit.peerId ≠ cfg.myPeerId ∧ exit.peerId ≠ guardId ∧ exit.peerId ∉ exclude := by
  unfold pickExit at h
  dsimp only at h
  split at h
  · cases h
  obtain ⟨rfl,hget⟩ := Prod.mk.inj h
  have hmem : exit ∈ eligible cfg s guardId exclude := by
    have hpool := List.mem_of_getElem? hget
    split at hpool
    · exact hpool
    · exact (List.mem_filter.mp hpool).1
  obtain ⟨e,he,hsome⟩ := List.mem_filterMap.mp hmem
  simp only [Option.ite_none_left_eq_some,Bool.or_eq_true,decide_eq_true_eq,not_or,
    Option.some.injEq] at hsome
  obtain ⟨⟨⟨hme,hguard⟩,hex⟩,rfl⟩ := hsome
  exact ⟨⟨e.2,he,rfl⟩,hme,hguard,by simpa using hex⟩

theorem pickExit_state (cfg : Config) (s : State) (guardId : String) (exclude : List String)
    (draw : UInt32) : (pickExit cfg s guardId exclude draw).1 =
      { s with guardNeighbors := s.guardNeighbors.filter fun e => isFresh s.now e.2 } := by
  unfold pickExit
  dsimp only
  split <;> rfl

theorem Guarded.pickExit (h : Guarded cfg s) (guardId : String) (exclude : List String)
    (draw : UInt32) : Guarded cfg (pickExit cfg s guardId exclude draw).1 := by
  rw [pickExit_state]
  exact h.congr rfl rfl rfl rfl fun e he => (List.mem_filter.mp he).1

theorem sameKey_true {known : Option GuardNeighbor} {pubkey : Bytes}
    (h : sameKey known pubkey = .ok true) : ∃ info, known = some info ∧ info.pubkey = pubkey := by
  cases known with
  | none => cases h
  | some info =>
    simp only [sameKey,memcmp] at h
    split at h
    · cases h
    · exact ⟨info,rfl,by simpa using h⟩

/-- Every entry after a response was there before, or is what an entry of the response
claims. -/
theorem mergeEntry_ok {now : Nat} {table table' : Table} {entry : Val} {P : String → Bytes → Prop}
    (h : mergeEntry cfg now table entry = .ok table') (ht : ∀ e ∈ table, P e.1 e.2.pubkey)
    (hclaim : ∀ id pubkey, entry.field "id" = .str id →
      PowPolicy.toBytes (entry.field "pubkey") = .ok pubkey →
        NodeIdentity.verifyClaim cfg.sodium ⟨id,pubkey,powCounterOf entry⟩ cfg.powParams = true →
          P id pubkey) : ∀ e ∈ table', P e.1 e.2.pubkey := by
  unfold mergeEntry at h
  split at h
  · next peerId hid =>
    split at h
    · cases h
      exact ht
    split at h
    · cases h
      exact ht
    obtain ⟨pubkey,hpk,h⟩ := bind_ok h
    obtain ⟨same,hsame,h⟩ := bind_ok h
    split at h
    · next htrue =>
      cases h
      intro e he
      rcases JsMap.mem_set he with rfl | he
      · subst htrue
        obtain ⟨info,hknown,heq⟩ := sameKey_true hsame
        have hold := ht _ (JsMap.mem_of_get hknown)
        rw [heq] at hold
        exact hold
      · exact ht e he
    split at h
    · cases h
      exact ht
    · next hverify =>
      cases h
      intro e he
      rcases JsMap.mem_set he with rfl | he
      · exact hclaim peerId pubkey hid hpk (by simpa using hverify)
      · exact ht e he
  · cases h
    exact ht

theorem mem_mergeEntries {now : Nat} {entries : List Val} {table : Table}
    {P : String → Bytes → Prop} (ht : ∀ e ∈ table, P e.1 e.2.pubkey)
    (hclaim : ∀ entry ∈ entries, ∀ id pubkey, entry.field "id" = .str id →
      PowPolicy.toBytes (entry.field "pubkey") = .ok pubkey →
        NodeIdentity.verifyClaim cfg.sodium ⟨id,pubkey,powCounterOf entry⟩ cfg.powParams = true →
          P id pubkey) : ∀ e ∈ mergeEntries cfg now table entries, P e.1 e.2.pubkey := by
  induction entries generalizing table with
  | nil => exact ht
  | cons entry entries ih =>
    unfold mergeEntries
    split
    · next table' hmerge =>
      exact ih (mergeEntry_ok hmerge ht (hclaim entry List.mem_cons_self))
        fun x hx => hclaim x (List.mem_cons_of_mem entry hx)
    · exact ht

/-- A response more leaves what was named before as it was. -/
theorem Guarded.named_append (h : Guarded cfg s) (new : List (String × Val))
    (hp : t.pinnedGuardId = s.pinnedGuardId) (hi : t.pinnedSince = s.pinnedSince)
    (hr : t.responses = s.responses ++ new) {peerId : String} {pubkey : Bytes}
    (hn : Named cfg s peerId pubkey) : Named cfg t peerId pubkey := by
  obtain ⟨sender,msg,peers,entry,hmem,hrest⟩ := hn
  refine ⟨sender,msg,peers,entry,?_,by rw [hp]; exact hrest⟩
  rw [hr,hi,List.drop_append_of_le_length h.since]
  exact List.mem_append_left _ hmem

theorem Guarded.pex (h : Guarded cfg s) (senderId : String) (msg : Val) :
    Guarded cfg (handleGuardPex cfg s senderId msg) := by
  have hsince : s.pinnedSince ≤ (s.responses ++ [(senderId,msg)]).length := by
    have hle := h.since
    simp
    omega
  have hlog : Guarded cfg { s with responses := s.responses ++ [(senderId,msg)] } := by
    refine ⟨h.unexpiring,hsince,fun e he => ?_⟩
    apply h.named_append [(senderId,msg)] _ _ _ (h.named e he)
    all_goals rfl
  unfold handleGuardPex
  dsimp only
  split
  · exact hlog
  next hpinned =>
  split
  · next peers hpeers =>
    refine ⟨h.unexpiring,hsince,mem_mergeEntries hlog.named fun entry hentry id pubkey hid hpk hverify => ?_⟩
    refine ⟨senderId,msg,peers,entry,?_,not_not.mp hpinned,hpeers,List.mem_of_mem_take hentry,hid,
      hpk,hverify⟩
    dsimp only
    rw [List.drop_append_of_le_length h.since]
    simp
  · exact hlog

theorem Guarded.takeItem (h : Guarded cfg s) (guardId : String) (draw : UInt32)
    (items : List QueuedCell) : Guarded cfg (takeItem cfg guardId draw s items).1 ∧
      (OnionCircuit.takeItem cfg guardId draw s items).1.pinnedGuardId = s.pinnedGuardId ∧
        (OnionCircuit.takeItem cfg guardId draw s items).1.sends = s.sends := by
  induction items generalizing s with
  | nil => exact ⟨h.congr rfl rfl rfl rfl fun _ he => he,rfl,rfl⟩
  | cons item rest ih =>
    unfold OnionCircuit.takeItem
    split
    · exact ⟨h.congr rfl rfl rfl rfl fun _ he => he,rfl,rfl⟩
    · have hpick := h.pickExit guardId [] draw
      have hstate := pickExit_state cfg s guardId [] draw
      split
      · next s' exit hs' =>
        rw [hs'] at hpick hstate
        obtain rfl := hstate
        exact ⟨hpick.congr rfl rfl rfl rfl fun _ he => he,rfl,rfl⟩
      · next s' hs' =>
        rw [hs'] at hpick hstate
        obtain rfl := hstate
        exact ih hpick

theorem Guarded.emitWrapped (h : Guarded cfg s) (d : Draws) (guard exit : OnionHop)
    (payload : ExitPayload) (ticket : Option Nat) :
    Guarded cfg (emitWrapped cfg s d guard exit payload ticket) ∧
      (OnionCircuit.emitWrapped cfg s d guard exit payload ticket).pinnedGuardId =
        s.pinnedGuardId ∧
      (OnionCircuit.emitWrapped cfg s d guard exit payload ticket).sends = s.sends := by
  unfold OnionCircuit.emitWrapped
  split
  · exact ⟨h,rfl,rfl⟩
  · exact ⟨h.congr rfl rfl rfl rfl fun _ he => he,rfl,rfl⟩

/-- What a step that only looks for the guard leaves: the guard of before, where that one is
still a neighbour. -/
structure Advanced (cfg : Config) (s t : State) : Prop where
  guarded : Guarded cfg t
  kept : t.pinnedGuardId = s.pinnedGuardId ∨
    ∀ hop ∈ verifiedNeighbors s, s.pinnedGuardId ≠ some hop.peerId

theorem Guarded.found (h : Guarded cfg s) (draw : UInt32) :
    Advanced cfg s (OnionCircuit.currentGuard s draw).1 := by
  obtain ⟨hg,-,hkept,-⟩ := h.currentGuard draw
  refine ⟨hg,hkept.imp (fun heq => ?_) id⟩
  rw [heq]

theorem Advanced.congr {u : State} (h : Advanced cfg s t) (hu : Guarded cfg u)
    (hp : u.pinnedGuardId = t.pinnedGuardId) : Advanced cfg s u :=
  ⟨hu,by rw [hp]; exact h.kept⟩

theorem Guarded.requestGuardNeighbors (h : Guarded cfg s) (draw : UInt32) :
    Advanced cfg s (requestGuardNeighbors s draw) ∧
      (OnionCircuit.requestGuardNeighbors s draw).sends = s.sends := by
  have hfound := h.found draw
  have hsends := (h.currentGuard draw).2.2.2
  unfold OnionCircuit.requestGuardNeighbors
  split
  · next t guard ht =>
    rw [ht] at hfound hsends
    exact ⟨hfound.congr (hfound.guarded.congr rfl rfl rfl rfl fun _ he => he) rfl,hsends⟩
  · next t ht =>
    rw [ht] at hfound hsends
    exact ⟨hfound,hsends⟩

theorem Guarded.emitCell (h : Guarded cfg s) (d : Draws) :
    Advanced cfg s (emitCell cfg s d) ∧ (OnionCircuit.emitCell cfg s d).sends = s.sends := by
  have hfound := h.found d.guard
  have hsends := (h.currentGuard d.guard).2.2.2
  unfold OnionCircuit.emitCell
  split
  · next t ht =>
    rw [ht] at hfound hsends
    exact ⟨hfound,hsends⟩
  next t guard ht =>
  rw [ht] at hfound hsends
  have htaken := hfound.guarded.takeItem guard.peerId d.exit t.queue
  split
  · next u item hu =>
    rw [hu] at htaken
    obtain ⟨hg,hp,hs⟩ := htaken
    have hsent := hg.emitWrapped d guard item.exit item.payload (some item.ticket)
    exact ⟨hfound.congr hsent.1 (hsent.2.1.trans hp),hsent.2.2.trans (hs.trans hsends)⟩
  next u hu =>
  rw [hu] at htaken
  obtain ⟨hg,hp,hs⟩ := htaken
  have hpick := hg.pickExit guard.peerId [] d.exit
  have hstate := pickExit_state cfg u guard.peerId [] d.exit
  split
  · next v exit hv =>
    rw [hv] at hpick hstate
    obtain rfl := hstate
    have hsent := hpick.emitWrapped d guard exit .drop none
    exact ⟨hfound.congr hsent.1 (hsent.2.1.trans hp),hsent.2.2.trans (hs.trans hsends)⟩
  · next v hv =>
    rw [hv] at hpick hstate
    obtain rfl := hstate
    exact ⟨hfound.congr hpick hp,hs.trans hsends⟩

/-- An attempt tries an exit that the call did not try before. -/
theorem Guarded.sendAttempt (h : Guarded cfg s) (task : SendTask) (d : Draws)
    (hn : task.triedExits.Nodup) : Advanced cfg s (sendAttempt cfg s task d).1 ∧
      (OnionCircuit.sendAttempt cfg s task d).1.sends = s.sends ∧
        (OnionCircuit.sendAttempt cfg s task d).2.triedExits.Nodup := by
  have hfound := h.found d.guard
  have hsends := (h.currentGuard d.guard).2.2.2
  unfold OnionCircuit.sendAttempt
  split
  · next t ht =>
    rw [ht] at hfound hsends
    exact ⟨hfound,hsends,hn⟩
  next t guard ht =>
  rw [ht] at hfound hsends
  have hpick := hfound.guarded.pickExit guard.peerId task.triedExits d.exit
  have hstate := pickExit_state cfg t guard.peerId task.triedExits d.exit
  split
  · next u hu =>
    rw [hu] at hpick hstate
    obtain rfl := hstate
    exact ⟨hfound.congr hpick rfl,hsends,hn⟩
  next u exit hu =>
  have hnew := (pickExit_some hu).2.2.2
  have hn' : (task.triedExits ++ [exit.peerId]).Nodup := by
    rw [← List.concat_eq_append]
    exact List.Nodup.concat hnew hn
  rw [hu] at hpick hstate
  obtain rfl := hstate
  dsimp only
  split
  · exact ⟨hfound.congr hpick rfl,hsends,hn'⟩
  · exact ⟨hfound.congr (hpick.congr rfl rfl rfl rfl fun _ he => he) rfl,hsends,hn'⟩

/-- What holds in every state: the table is the guard's own, and no call of `send` tries an
exit twice. -/
structure Inv (cfg : Config) (s : State) : Prop extends Guarded cfg s where
  tried : ∀ task ∈ s.sends, task.triedExits.Nodup

theorem inv_initial : Inv cfg {} where
  unexpiring h := absurd rfl h
  since := Nat.le_refl 0
  named _ he := by cases he
  tried _ ht := by cases ht

/-- One event keeps the invariant, and keeps the guard unless it is reset. -/
theorem inv_step {a : Action} (h : Inv cfg s) (hs : step cfg s a = some t) :
    Inv cfg t ∧ (a ≠ .resetPinnedGuard → t.pinnedGuardId = s.pinnedGuardId ∨
      ∀ hop ∈ verifiedNeighbors s, s.pinnedGuardId ≠ some hop.peerId) := by
  have hsame : Guarded cfg { s with running := true } := h.congr rfl rfl rfl rfl fun _ he => he
  cases a with
  | clock ms =>
    cases hs
    exact ⟨⟨h.congr rfl rfl rfl rfl fun _ he => he,h.tried⟩,fun _ => .inl rfl⟩
  | peer id peer =>
    cases peer <;> cases hs <;>
      exact ⟨⟨h.congr rfl rfl rfl rfl fun _ he => he,h.tried⟩,fun _ => .inl rfl⟩
  | pexResponse senderId msg =>
    cases hs
    have hg := h.pex senderId msg
    obtain ⟨hp,hsends⟩ : (handleGuardPex cfg s senderId msg).pinnedGuardId = s.pinnedGuardId ∧
        (handleGuardPex cfg s senderId msg).sends = s.sends := by
      unfold handleGuardPex
      dsimp only
      repeat' split
      all_goals exact ⟨rfl,rfl⟩
    exact ⟨⟨hg,by rw [hsends]; exact h.tried⟩,fun _ => .inl hp⟩
  | pexTimer draw =>
    cases hs
    obtain ⟨hadv,hsends⟩ := h.requestGuardNeighbors draw
    exact ⟨⟨hadv.guarded,by rw [hsends]; exact h.tried⟩,fun _ => hadv.kept⟩
  | tick d =>
    cases hs
    obtain ⟨hadv,hsends⟩ := h.emitCell d
    exact ⟨⟨hadv.guarded,by rw [hsends]; exact h.tried⟩,fun _ => hadv.kept⟩
  | resetPinnedGuard =>
    cases hs
    refine ⟨⟨guarded_setGuard ?_ fun hne => absurd rfl hne,?_⟩,fun hne => absurd rfl hne⟩
    · cases hp : s.pinnedGuardId with
      | none => exact .inr (h.table_nil hp)
      | some id => exact .inl (by simp)
    · rw [(setGuard_fields _ _ _).2.2.2.2.1]
      exact h.tried
  | send payload d =>
    cases hs
    unfold OnionCircuit.send
    split
    · exact ⟨h,fun _ => .inl rfl⟩
    · obtain ⟨hadv,hsends,hn⟩ := h.sendAttempt { payload := payload } d List.nodup_nil
      refine ⟨⟨hadv.guarded.congr rfl rfl rfl rfl fun _ he => he,?_⟩,fun _ => hadv.kept⟩
      intro task ht
      rcases List.mem_append.mp ht with ht | ht
      · rw [hsends] at ht
        exact h.tried task ht
      · rw [List.mem_singleton.mp ht]
        exact hn
  | echo i seen d =>
    obtain ⟨task,htask,hs⟩ := Option.bind_eq_some_iff.mp hs
    have hold := h.tried task (List.mem_of_getElem? htask)
    simp only [Option.ite_none_right_eq_some,Option.some.injEq] at hs
    obtain ⟨-,rfl⟩ := hs
    unfold resumeSend
    split
    · refine ⟨⟨h.congr rfl rfl rfl rfl fun _ he => he,?_⟩,fun _ => .inl rfl⟩
      intro x hx
      rcases List.mem_or_eq_of_mem_set hx with hx | rfl
      · exact h.tried x hx
      · exact hold
    · obtain ⟨hadv,hsends,hn⟩ := h.sendAttempt task d hold
      refine ⟨⟨hadv.guarded.congr rfl rfl rfl rfl fun _ he => he,?_⟩,fun _ => hadv.kept⟩
      intro x hx
      rcases List.mem_or_eq_of_mem_set hx with hx | rfl
      · rw [hsends] at hx
        exact h.tried x hx
      · exact hn
  | start draw =>
    cases hs
    unfold OnionCircuit.start
    split
    · exact ⟨h,fun _ => .inl rfl⟩
    · obtain ⟨hadv,hsends⟩ := hsame.requestGuardNeighbors draw
      exact ⟨⟨hadv.guarded,by rw [hsends]; exact h.tried⟩,fun _ => hadv.kept⟩
  | stop =>
    cases hs
    exact ⟨⟨h.congr rfl rfl rfl rfl fun _ he => he,h.tried⟩,fun _ => .inl rfl⟩

end

def sampleConfig : Config where
  myPeerId := String.ofList (List.replicate 32 'a')
  sodium := ⟨Sha256.sha256,fun _ _ _ _ => [],fun _ _ => [],fun _ _ _ => true⟩
  powParams := ⟨0,0,0⟩
  router := samplePrimitives

def samplePeer (b : UInt8) : Peer := ⟨some (List.replicate 32 b),true,true,true,some 0⟩

def samplePeerId (b : UInt8) : String :=
  NodeIdentity.derivePeerId sampleConfig.sodium (List.replicate 32 b)

/-- What the guard tells of a neighbour. -/
def sampleResponse (b : UInt8) : Val :=
  .obj [("peers",.arr [.obj [("id",.str (samplePeerId b)),
    ("pubkey",.bytes (List.replicate 32 b)),("powCounter",.num (.fin 0))]])]

def sampleDraws : Draws := ⟨0,0,zeros⟩

/-- The guard names a neighbour, and a post goes out to it. -/
def pinnedRun : List Action :=
  [.peer "guard" (some (samplePeer 1)),.start 0,.pexResponse "guard" (sampleResponse 2),
    .send .drop sampleDraws]

end OnionCircuit
