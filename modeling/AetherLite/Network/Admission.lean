import AetherLite.Network.Connections

/-! What the table of peers and the buffer of signals can hold, in every state a manager
reaches. -/
set_option autoImplicit false

namespace PeerManager

open Js Network Wire NodeIdentity

/-- The bounds on what strangers can make the manager hold. -/
structure Bounded {ρ μ : Type} (cfg : Config ρ μ) (s : State ρ μ) : Prop where
  pending : s.pendingCount ≤ maxPendingPeers
  senders : s.pendingSignals.length ≤ maxSignalSenders
  perSender : ∀ sigs ∈ JsMap.values s.pendingSignals, sigs.length ≤ maxSignalsPerSender
  ids : ∀ id ∈ JsMap.keys s.peers, isPeerId id = true ∧ id ≠ cfg.identity.peerId
  idle : s.stopped = true → s.peers = [] ∧ s.pendingSignals = []

/-- Each entry names a connection of its own id, at the position of that id. -/
structure Inv {ρ μ : Type} (cfg : Config ρ μ) (s : State ρ μ) : Prop extends Bounded cfg s where
  keys : (JsMap.keys s.peers).Nodup
  entries : ∀ e ∈ s.peers, ∃ p, s.conns[e.2]? = some p ∧ p.peerId = e.1 ∧
    p.position = derivePosition cfg.sodium e.1

/-- A connection that is registered under the id, verified and connected. -/
def Live {ρ μ : Type} (s : State ρ μ) (id : PeerId) (c : Nat) : Prop :=
  JsMap.get s.peers id = some c ∧
    ∃ p, s.conns[c]? = some p ∧ p.verified = true ∧ p.connected = true

section
variable {ρ μ : Type} {cfg : Config ρ μ} {s t u : State ρ μ} {id sender : PeerId} {c : Nat}

theorem pendingCount_eq (s : State ρ μ) :
    s.pendingCount = (JsMap.values s.peers).countP fun c => (s.conns[c]?).any fun p => !p.verified := by
  unfold State.pendingCount State.registered
  rw [List.countP_filterMap]
  refine List.countP_congr fun c _ => ?_
  cases s.conns[c]? with
  | none => simp
  | some p => simp

theorem pendingCount_le (h : Inv cfg s) (hq : Quiet Later s t) : t.pendingCount ≤ s.pendingCount := by
  rw [pendingCount_eq,pendingCount_eq]
  refine Nat.le_trans (List.countP_mono_left (fun d hd => ?_)) (hq.peers.map Prod.snd).countP_le
  obtain ⟨e,he,rfl⟩ := List.mem_map.mp hd
  obtain ⟨p,hp,-⟩ := h.entries e (hq.peers.subset he)
  obtain ⟨q,hc,hl⟩ := hq.conns e.2 p hp
  simp only [hc,hp,Option.any_some,Bool.not_eq_true']
  intro hv
  by_contra hne
  rw [hl.verified (by simpa using hne)] at hv
  cases hv

theorem Inv.later (h : Inv cfg s) (hq : Quiet Later s t) : Inv cfg t where
  pending := Nat.le_trans (pendingCount_le h hq) h.pending
  senders := Nat.le_trans hq.pendingSignals.length_le h.senders
  perSender sigs hs := h.perSender sigs ((hq.pendingSignals.map Prod.snd).subset hs)
  ids id hi := h.ids id ((hq.peers.map Prod.fst).subset hi)
  idle hst := by
    obtain ⟨hp,hs⟩ := h.idle (hq.stopped ▸ hst)
    exact ⟨List.sublist_nil.mp (hp ▸ hq.peers),List.sublist_nil.mp (hs ▸ hq.pendingSignals)⟩
  keys := h.keys.sublist (hq.peers.map Prod.fst)
  entries e he := by
    obtain ⟨p,hp,hid,hpos⟩ := h.entries e (hq.peers.subset he)
    obtain ⟨q,hc,hl⟩ := hq.conns e.2 p hp
    exact ⟨q,hc,hl.peerId.trans hid,hl.position.trans hpos⟩

theorem Inv.quiet (h : Inv cfg s) (hq : Quiet Moved s t) : Inv cfg t := h.later hq.later

theorem Inv.get_of_peer? (h : Inv cfg s) (hp : s.peer? id = none) : JsMap.get s.peers id = none := by
  cases hg : JsMap.get s.peers id with
  | none => rfl
  | some c =>
    obtain ⟨p,hc,-⟩ := h.entries _ (JsMap.mem_of_get hg)
    simp [State.peer?,hg,show s.conns[c]? = some p from hc] at hp

theorem get_disconnect (s : State ρ μ) (id : PeerId) :
    JsMap.get (disconnect cfg s id).peers id = none := by
  unfold disconnect
  split
  · next hg => exact hg
  · exact JsMap.get_delete_self _ _

theorem Inv.register (h : Inv cfg s) {initiator : Bool} {via : Option PeerId}
    (hst : s.stopped = false) (hg : JsMap.get s.peers id = none) (hid : isPeerId id = true)
    (hown : id ≠ cfg.identity.peerId) (hp : s.pendingCount < maxPendingPeers) :
    Inv cfg (register cfg s id initiator via).1 := by
  have hold : ∀ e ∈ s.peers, (s.conns ++ [WebRTCPeer.create cfg.sodium id initiator])[e.2]? =
      s.conns[e.2]? := by
    intro e he
    obtain ⟨p,hc,-⟩ := h.entries e he
    exact List.getElem?_append_left (List.getElem?_eq_some_iff.mp hc).1
  have hset : JsMap.set s.peers id s.conns.length = s.peers ++ [(id,s.conns.length)] :=
    JsMap.set_of_get_none _ hg
  refine ⟨⟨?_,h.senders,h.perSender,?_,fun hst' => ?_⟩,JsMap.nodup_keys_set h.keys _ _,?_⟩
  · have hcount : (PeerManager.register cfg s id initiator via).1.pendingCount = s.pendingCount+1 := by
      rw [pendingCount_eq,pendingCount_eq]
      simp only [PeerManager.register,hset,JsMap.values,List.map_append,List.countP_append]
      have hsame : List.countP (fun c => ((s.conns ++ [WebRTCPeer.create cfg.sodium id initiator])[c]?).any
          fun p => !p.verified) (s.peers.map Prod.snd) =
          List.countP (fun c => (s.conns[c]?).any fun p => !p.verified) (s.peers.map Prod.snd) := by
        refine List.countP_congr fun c hc => ?_
        obtain ⟨e,he,rfl⟩ := List.mem_map.mp hc
        rw [hold e he]
      rw [hsame]
      simp [WebRTCPeer.create]
    rw [hcount]
    exact hp
  · intro id' hi
    simp only [PeerManager.register,hset,JsMap.keys,List.map_append,List.mem_append] at hi
    rcases hi with hi | hi
    · exact h.ids id' hi
    · rw [List.mem_singleton.mp hi]
      exact ⟨hid,hown⟩
  · rw [show (PeerManager.register cfg s id initiator via).1.stopped = s.stopped from rfl,hst] at hst'
    cases hst'
  · intro e he
    simp only [PeerManager.register,hset,List.mem_append,List.mem_singleton] at he ⊢
    rcases he with he | rfl
    · rw [hold e he]
      exact h.entries e he
    · exact ⟨_,List.getElem?_concat_length,rfl,rfl⟩

theorem Inv.admitNew (h : Inv cfg s) {initiator : Bool} {via : Option PeerId}
    (hst : s.stopped = false) (hg : JsMap.get s.peers id = none) (hid : isPeerId id = true)
    (hown : id ≠ cfg.identity.peerId) : Inv cfg (admitNew cfg s id initiator via).1 := by
  have hq := quiet_endCoolDown s id
  have hi := h.quiet hq
  have hg' : JsMap.get (endCoolDown s id).peers id = none := by
    unfold endCoolDown
    split
    · exact hg
    · exact hg
  unfold PeerManager.admitNew
  split
  · exact h
  split
  · exact hi
  next hp =>
  exact hi.register (hq.stopped.trans hst) hg' hid hown
    (Nat.lt_of_le_of_lt (pendingCount_le h hq.later) (Nat.lt_of_not_le hp))

theorem Inv.connect (h : Inv cfg s) (id : PeerId) (initiator : Bool) (via : Option PeerId) :
    Inv cfg (connect cfg s id initiator via).1 := by
  unfold PeerManager.connect
  split
  · exact h
  next hst =>
  have hst : s.stopped = false := by simpa using hst
  have hb : Inv cfg (checkBan cfg s id) := h.quiet (quiet_checkBan s id)
  dsimp only
  split
  · exact hb
  next hc =>
  simp only [Bool.or_eq_true,Bool.not_eq_true',decide_eq_true_eq,not_or,Bool.not_eq_false] at hc
  obtain ⟨⟨-,hid⟩,hown⟩ := hc
  split
  · split
    · exact hb
    · exact (hb.quiet (quiet_disconnect _ id)).admitNew
        ((quiet_disconnect _ id).stopped.trans hst) (get_disconnect _ _) hid hown
  · next hp => exact hb.admitNew hst (hb.get_of_peer? hp) hid hown

theorem Inv.bufferSignal (h : Inv cfg s) (hst : s.stopped = false) (sender : PeerId) (msg : Val) :
    Inv cfg (bufferSignal s sender msg) := by
  unfold PeerManager.bufferSignal
  split
  · exact h
  dsimp only
  split
  · exact h
  next hlen =>
  refine ⟨⟨h.pending,?_,fun sigs hs => ?_,h.ids,fun hst' => ?_⟩,h.keys,h.entries⟩
  · have hmax : 0 < maxSignalSenders := by decide
    rw [JsMap.length_set]
    have hs := h.senders
    by_cases hhas : JsMap.has s.pendingSignals sender = true
    · simp only [hhas,Bool.not_true,Bool.false_and,Bool.false_eq_true,if_false,if_true]
      exact hs
    · by_cases hfull : maxSignalSenders ≤ s.pendingSignals.length
      · simp only [hhas,hfull,Bool.not_false,decide_true,Bool.and_true,if_true]
        split
        · simp only [List.length_tail]
          omega
        · simp only [List.length_tail]
          omega
      · simp only [hhas,hfull,decide_false,Bool.and_false,Bool.false_eq_true,if_false]
        omega
  · rcases JsMap.mem_values_set hs with rfl | hs
    · rw [List.length_append,List.length_singleton]
      omega
    · refine h.perSender sigs ?_
      split at hs
      · exact ((List.tail_sublist _).map Prod.snd).subset hs
      · exact hs
  · rw [hst] at hst'
    cases hst'

theorem Inv.openSession (h : Inv cfg s) (sender : PeerId) (msg : Val) (via : Option PeerId) :
    Inv cfg (openSession cfg s sender msg via) := by
  have hc := h.connect sender false via
  unfold PeerManager.openSession
  split
  · next heq => rwa [heq] at hc
  · next t c heq =>
    rw [heq] at hc
    refine hc.quiet ((quiet_signals (msg :: (JsMap.get t.pendingSignals sender).getD []) t c).trans ?_)
    exact ⟨fun d p hp => ⟨p,hp,.refl p⟩,rfl,.refl _,JsMap.delete_sublist _ _,rfl⟩

theorem Inv.handleRelay (h : Inv cfg s) (sender : PeerId) (msg : Val) (via : Option PeerId) :
    Inv cfg (handleRelay cfg s sender msg via) := by
  have hb : Inv cfg (checkBan cfg s sender) := h.quiet (quiet_checkBan s sender)
  unfold PeerManager.handleRelay
  split
  · exact h
  next hst =>
  dsimp only
  split
  · exact hb
  split
  · split
    · exact hb.openSession _ _ _
    · exact hb.bufferSignal (by simpa [checkBan] using hst) _ _
  split
  · exact hb.quiet (quiet_update (moved_signal msg) _ _)
  split
  · exact hb
  · exact (hb.quiet (quiet_reoffered _ sender)).openSession _ _ _

theorem Inv.handleRelayMessage (h : Inv cfg s) (id : PeerId) (msg : Val) (type : WireType) :
    Inv cfg (handleRelayMessage cfg s id msg type) := by
  unfold PeerManager.handleRelayMessage
  split
  · split
    · split
      · split
        · exact h.handleRelay _ _ _
        · exact h
      · exact h
    · split
      · exact h.quiet (quiet_sendMessage _ _ _ _)
      · exact h
  · exact h

theorem Inv.handle (h : Inv cfg s) (id : PeerId) (m : DecodedWireMessage) :
    Inv cfg (handle cfg s id m) := by
  unfold PeerManager.handle
  split
  · cases hh : handleHello cfg s id m.payload with
    | error e => exact h
    | ok t => exact h.quiet (quiet_handleHello hh)
  · cases hj : handleJoin cfg s id m.payload with
    | error e => exact h
    | ok t => exact h.later (quiet_handleJoin hj)
  · exact h.handleRelayMessage _ _ _
  · exact h.handleRelayMessage _ _ _
  · exact h

theorem Inv.handleData (h : Inv cfg s) (c : Nat) (id : PeerId) (data : Data) :
    Inv cfg (handleData cfg s c id data) := by
  have hr : Inv cfg (receive cfg s id data).1 := h.quiet (quiet_receive s id data)
  unfold PeerManager.handleData
  split
  · next heq => rwa [heq] at hr
  · next heq =>
    rw [heq] at hr
    exact (hr.quiet (quiet_emit _ _)).handle _ _

theorem Inv.handleTrackerPeers (h : Inv cfg s) (peers : Val) :
    Inv cfg (handleTrackerPeers cfg s peers) := by
  unfold PeerManager.handleTrackerPeers
  split
  · exact h
  split
  · next entries =>
    clear * - h
    induction entries generalizing s with
    | nil => exact h
    | cons entry entries ih =>
      refine ih ?_
      unfold handleTrackerPeer
      split
      · split
        · exact h.connect _ _ _
        · exact h
      · exact h
  · exact h

/-- Disconnecting every entry leaves none. -/
theorem peers_of_disconnects (ids : List PeerId) (s : State ρ μ)
    (h : ∀ id ∈ JsMap.keys s.peers, id ∈ ids) : (ids.foldl (disconnect cfg) s).peers = [] := by
  induction ids generalizing s with
  | nil =>
    cases hp : s.peers with
    | nil => exact hp
    | cons e es => exact absurd (h e.1 (by simp [JsMap.keys,hp])) List.not_mem_nil
  | cons id ids ih =>
    refine ih _ fun other ho => ?_
    have hq : Quiet Moved s (disconnect cfg s id) := quiet_disconnect s id
    have hsub := hq.peers.map Prod.fst
    rcases List.mem_cons.mp (h other (hsub.subset ho)) with rfl | hm
    · exact absurd ho ((JsMap.get_eq_none_iff _ _).mp (get_disconnect s other))
    · exact hm

theorem inv_stop (s : State ρ μ) : Inv cfg (stop cfg s) := by
  have hq : Quiet Moved { s with stopped := true, pendingSignals := [] } (PeerManager.stop cfg s) :=
    quiet_disconnects (JsMap.keys s.peers) { s with stopped := true, pendingSignals := [] }
  have hsig : (PeerManager.stop cfg s).pendingSignals = [] := List.sublist_nil.mp hq.pendingSignals
  have hpeers : (PeerManager.stop cfg s).peers = [] := peers_of_disconnects _ _ fun _ hi => hi
  refine ⟨⟨?_,?_,?_,?_,fun _ => ⟨hpeers,hsig⟩⟩,?_,?_⟩
  · rw [pendingCount_eq,hpeers]
    exact Nat.zero_le _
  · rw [hsig]
    exact Nat.zero_le _
  · simp [hsig,JsMap.values]
  · simp [hpeers,JsMap.keys]
  · simp [hpeers,JsMap.keys]
  · simp [hpeers]

theorem inv_step (h : Inv cfg s) (a : Action μ) (hs : step cfg s a = some t) : Inv cfg t := by
  have onConn {c : Nat} {f : WebRTCPeer → State ρ μ} (hs : onConn s c f = some t)
      (hf : ∀ p, Inv cfg (f p)) : Inv cfg t := by
    obtain ⟨p,-,rfl⟩ := Option.map_eq_some_iff.mp hs
    exact hf p
  cases a with
  | relay sender msg =>
    cases hs
    exact h.handleRelay _ _ _
  | trackerPeers peers =>
    cases hs
    exact h.handleTrackerPeers _
  | connect id initiator via =>
    cases hs
    exact h.connect _ _ _
  | described c own remote =>
    exact onConn hs fun _ => h.quiet
      (quiet_update (f := WebRTCPeer.describe own remote) (fun _ => ⟨rfl,rfl,rfl,rfl,rfl,rfl⟩) s c)
  | signalled c payload => exact onConn hs fun _ => h.quiet (quiet_onSignal _ _ _)
  | opened c challenge =>
    exact onConn hs fun p => (h.quiet
      (quiet_update (f := WebRTCPeer.opened) (fun _ => ⟨rfl,rfl,rfl,rfl,rfl,rfl⟩) s c)).later
        (quiet_onConnect _ c p.peerId challenge.1)
  | closing c =>
    exact onConn hs fun _ => h.quiet
      (quiet_update (f := WebRTCPeer.closing) (fun _ => ⟨rfl,rfl,rfl,rfl,rfl,rfl⟩) s c)
  | lost c =>
    refine onConn hs fun p => h.quiet ?_
    exact (quiet_update (f := WebRTCPeer.lost) (fun _ => ⟨rfl,rfl,rfl,rfl,rfl,rfl⟩) s c).trans
      (quiet_dropIf _ _ _ _)
  | data c d => exact onConn hs fun p => h.handleData _ _ _
  | netGroup i group =>
    obtain ⟨r,-,rfl⟩ := Option.map_eq_some_iff.mp hs
    refine h.quiet (Quiet.trans ?_ (quiet_rebalance _ _))
    exact Quiet.trans (t := { s with resolving := r.2 }) (.same rfl rfl rfl rfl)
      (quiet_resolved _ r.1.1 group)
  | connectTimeout c => exact onConn hs fun p => h.quiet (quiet_dropIf _ _ _ _)
  | handshakeTimeout c => exact onConn hs fun p => h.quiet (quiet_dropIf _ _ _ _)
  | disconnect id =>
    cases hs
    exact h.quiet (quiet_disconnect _ _)
  | rebalance newcomerId =>
    cases hs
    exact h.quiet (quiet_rebalance _ _)
  | misbehavior m =>
    cases hs
    exact h.quiet (.same rfl rfl rfl rfl)
  | tick now =>
    cases hs
    exact h.quiet (.same rfl rfl rfl rfl)
  | start =>
    cases hs
    exact ⟨⟨h.pending,h.senders,h.perSender,h.ids,fun hst => by cases hst⟩,h.keys,h.entries⟩
  | stop =>
    cases hs
    exact inv_stop s

/-! A live connection stays when somebody asks for a connection. -/

theorem Live.same (h : Live s id c) (hc : t.conns = s.conns) (hp : t.peers = s.peers) :
    Live t id c := by
  rw [Live,hc,hp]
  exact h

theorem Live.update (h : Live s id c) {f : WebRTCPeer → WebRTCPeer} (d : Nat)
    (hf : ∀ p, (f p).verified = p.verified ∧ (f p).connected = p.connected) :
    Live (s.update d f) id c := by
  obtain ⟨hg,p,hp,hv,hcon⟩ := h
  refine ⟨hg,_,get_modify hp,?_,?_⟩
  · split
    · exact (hf p).1.trans hv
    · exact hv
  · split
    · exact (hf p).2.trans hcon
    · exact hcon

theorem Live.signals (sigs : List Val) (h : Live s id c) (d : Nat) :
    Live (sigs.foldl (fun s sig => s.update d (WebRTCPeer.signal sig)) s) id c := by
  induction sigs generalizing s with
  | nil => exact h
  | cons sig sigs ih => exact ih (h.update d fun _ => ⟨rfl,rfl⟩)

theorem Live.disconnect (h : Live s id c) (hi : Inv cfg s) (hne : id ≠ sender) :
    Live (disconnect cfg s sender) id c := by
  unfold PeerManager.disconnect
  split
  · exact h
  next d hd =>
  obtain ⟨hg,p,hp,hv,hcon⟩ := h
  obtain ⟨q,hq,hqid,-⟩ := hi.entries _ (JsMap.mem_of_get hd)
  obtain ⟨p',hp',hpid,-⟩ := hi.entries _ (JsMap.mem_of_get hg)
  have hdc : d ≠ c := by
    rintro rfl
    rw [hq] at hp'
    cases hp'
    exact hne (hpid.symm.trans hqid)
  refine ⟨by rw [← hg]; exact JsMap.get_delete_ne hne,p,?_,hv,hcon⟩
  show (s.conns.modify d WebRTCPeer.close)[c]? = some p
  rw [get_modify hp,if_neg hdc]

theorem Live.register (h : Live s id c) {initiator : Bool} {via : Option PeerId} (hne : id ≠ sender) :
    Live (register cfg s sender initiator via).1 id c := by
  obtain ⟨hg,p,hp,hv,hcon⟩ := h
  refine ⟨by rw [← hg]; exact JsMap.get_set_ne _ hne _,p,?_,hv,hcon⟩
  exact (List.getElem?_append_left (List.getElem?_eq_some_iff.mp hp).1).trans hp

theorem Live.admitNew (h : Live s id c) {initiator : Bool} {via : Option PeerId} (hne : id ≠ sender) :
    Live (admitNew cfg s sender initiator via).1 id c := by
  have he : Live (endCoolDown s sender) id c := by
    unfold endCoolDown
    split
    · exact h
    · exact h.same rfl rfl
  unfold PeerManager.admitNew
  split
  · exact h
  split
  · exact he
  · exact he.register hne

theorem Live.peer? (h : Live s id c) :
    ∃ p, s.peer? id = some (c,p) ∧ p.verified = true ∧ p.connected = true := by
  obtain ⟨hg,p,hp,hv,hcon⟩ := h
  exact ⟨p,by simp [State.peer?,hg,hp],hv,hcon⟩

theorem Live.connect (h : Live s id c) (hi : Inv cfg s) (sender : PeerId) (initiator : Bool)
    (via : Option PeerId) : Live (connect cfg s sender initiator via).1 id c := by
  have hb : Live (checkBan cfg s sender) id c := h.same rfl rfl
  have hib : Inv cfg (checkBan cfg s sender) := hi.quiet (quiet_checkBan s sender)
  obtain ⟨p,hp,-,hcon⟩ := hb.peer?
  unfold PeerManager.connect
  split
  · exact h
  dsimp only
  split
  · exact hb
  by_cases hne : id = sender
  · subst hne
    rw [hp]
    simpa [hcon] using hb
  split
  · split
    · exact hb
    · exact (hb.disconnect hib hne).admitNew hne
  · exact hb.admitNew hne

theorem Live.openSession (h : Live s id c) (hi : Inv cfg s) (sender : PeerId) (msg : Val)
    (via : Option PeerId) : Live (openSession cfg s sender msg via) id c := by
  have hc := h.connect hi sender false via
  unfold PeerManager.openSession
  split
  · next heq => rwa [heq] at hc
  · next t d heq =>
    rw [heq] at hc
    exact (hc.signals (msg :: (JsMap.get t.pendingSignals sender).getD []) d).same rfl rfl

theorem Live.bufferSignal (h : Live s id c) (sender : PeerId) (msg : Val) :
    Live (bufferSignal s sender msg) id c := by
  unfold PeerManager.bufferSignal
  split
  · exact h
  dsimp only
  split
  · exact h
  · exact h.same rfl rfl

theorem Live.handleRelay (h : Live s id c) (hi : Inv cfg s) (sender : PeerId) (msg : Val)
    (via : Option PeerId) : Live (handleRelay cfg s sender msg via) id c := by
  have hb : Live (checkBan cfg s sender) id c := h.same rfl rfl
  have hib : Inv cfg (checkBan cfg s sender) := hi.quiet (quiet_checkBan s sender)
  obtain ⟨p,hp,hv,hcon⟩ := hb.peer?
  unfold PeerManager.handleRelay
  split
  · exact h
  dsimp only
  split
  · exact hb
  split
  · split
    · exact hb.openSession hib _ _ _
    · exact hb.bufferSignal _ _
  next d q hq =>
  split
  · exact hb.update d fun _ => ⟨rfl,rfl⟩
  split
  · exact hb
  next hdead =>
  have hne : id ≠ sender := by
    rintro rfl
    rw [hp] at hq
    cases hq
    exact hdead (by simp [hv,hcon])
  have hr : Live (reoffered cfg (checkBan cfg s sender) sender) id c :=
    (hb.disconnect hib hne).same rfl rfl
  exact hr.openSession (hib.quiet (quiet_reoffered _ _)) _ _ _

theorem Live.sendMessage (h : Live s id c) (target : PeerId) (type : WireType) (payload : Val) :
    Live (sendMessage s target type payload) id c := by
  unfold PeerManager.sendMessage
  split
  · split
    · exact h.same rfl rfl
    · exact h
  · exact h

theorem Live.handleRelayMessage (h : Live s id c) (hi : Inv cfg s) (sender : PeerId) (msg : Val)
    (type : WireType) : Live (handleRelayMessage cfg s sender msg type) id c := by
  unfold PeerManager.handleRelayMessage
  split
  · split
    · split
      · split
        · exact h.handleRelay hi _ _ _
        · exact h
      · exact h
    · split
      · exact h.sendMessage _ _ _
      · exact h
  · exact h

theorem Live.handle (h : Live s id c) (hi : Inv cfg s) (sender : PeerId) {m : DecodedWireMessage}
    (hm : (m.type = .sdpRelay || m.type = .iceRelay) = true) : Live (handle cfg s sender m) id c := by
  obtain ⟨type,payload⟩ := m
  cases type with
  | sdpRelay => exact h.handleRelayMessage hi _ _ _
  | iceRelay => exact h.handleRelayMessage hi _ _ _
  | _ => cases hm

theorem Live.handleTrackerPeers (h : Live s id c) (hi : Inv cfg s) (peers : Val) :
    Live (handleTrackerPeers cfg s peers) id c := by
  unfold PeerManager.handleTrackerPeers
  split
  · exact h
  split
  · next entries =>
    clear * - h hi
    induction entries generalizing s with
    | nil => exact h
    | cons entry entries ih =>
      have hstep : Inv cfg (handleTrackerPeer cfg s entry) ∧
          Live (handleTrackerPeer cfg s entry) id c := by
        unfold handleTrackerPeer
        split
        · split
          · exact ⟨hi.connect _ _ _,h.connect hi _ _ _⟩
          · exact ⟨hi,h⟩
        · exact ⟨hi,h⟩
      exact ih hstep.2 hstep.1
  · exact h

end

/-- The step may make a connection: it handles a signal, from the tracker or through a
peer, a list of the tracker or a call of `connect`. -/
def asksForConnection {ρ μ : Type} (cfg : Config ρ μ) (s : State ρ μ) : Action μ → Bool
  | .relay _ _ | .trackerPeers _ | .connect _ _ _ => true
  | .data c d => (s.conns[c]?).any fun p =>
      (receive cfg s p.peerId d).2.any fun m => m.type = .sdpRelay || m.type = .iceRelay
  | _ => false

theorem Live.step {ρ μ : Type} {cfg : Config ρ μ} {s t : State ρ μ} {id : PeerId} {c : Nat}
    (h : Live s id c) (hi : Inv cfg s) {a : Action μ} (ha : asksForConnection cfg s a = true)
    (hs : step cfg s a = some t) : Live t id c := by
  cases a with
  | relay sender msg =>
    cases hs
    exact h.handleRelay hi _ _ _
  | trackerPeers peers =>
    cases hs
    exact h.handleTrackerPeers hi _
  | connect sender initiator via =>
    cases hs
    exact h.connect hi _ _ _
  | data d data =>
    obtain ⟨p,hp,rfl⟩ := Option.map_eq_some_iff.mp hs
    simp only [asksForConnection,hp,Option.any_some] at ha
    have hq : Quiet Moved s (receive cfg s p.peerId data).1 := quiet_receive s p.peerId data
    have hr := hi.quiet hq
    unfold handleData
    split
    · next heq => simp [heq] at ha
    · next u m heq =>
      rw [heq] at hr
      obtain ⟨hc,hpeers,-⟩ := receive_conns heq
      have hu : Live (u.emit (.dispatched d m.type m.payload)) id c := h.same hc hpeers
      have hui := hr.quiet (quiet_emit u (.dispatched d m.type m.payload))
      simp only [heq,Option.any_some] at ha
      exact hu.handle hui _ ha
  | _ => cases ha

theorem inv_initial {ρ μ : Type} {cfg : Config ρ μ} (l : ρ) (m : μ) : Inv cfg (initial l m) :=
  ⟨⟨Nat.zero_le _,Nat.zero_le _,by simp [initial,JsMap.values],by simp [initial,JsMap.keys],
    fun h => by cases h⟩,by simp [initial,JsMap.keys],by simp [initial]⟩

/-- Whatever strangers do: the pending connections and the waiting signals keep to their
bounds, the entries are of well-formed ids of others, a stopped manager holds nothing, and
no request for a connection replaces one that is live. -/
theorem admission_bounded {ρ μ : Type} {cfg : Config ρ μ} {l : ρ} {m : μ} {as : List (Action μ)}
    {s : State ρ μ} (hr : Machine.run (step cfg) (initial l m) as = some s) :
    Bounded cfg s ∧ ∀ id c a t, Live s id c → asksForConnection cfg s a = true →
      step cfg s a = some t → Live t id c := by
  have hi : Inv cfg s := Machine.invariant_run' (fun _ a _ h hs => inv_step h a hs) (inv_initial l m) hr
  exact ⟨hi.toBounded,fun id c a t h ha hs => h.step hi ha hs⟩

/-- An offer, and a candidate that comes before its offer. -/
def offeredRun : List (Action Unit) :=
  [.relay "0123456789abcdef0123456789abcdef" offer,
    .relay "0123456789abcdef0123456789abcde0" (.obj [])]

theorem admission_bounded_offeredRun : ∃ s,
    Machine.run (step (sampleConfig 1)) (initial () ()) offeredRun = some s ∧
      s.pendingCount = 1 ∧ s.pendingSignals.length = 1 ∧ Bounded (sampleConfig 1) s := by
  have hrun : (Machine.run (step (sampleConfig 1)) (initial () ()) offeredRun).map
      (fun s => (s.pendingCount,s.pendingSignals.length)) = some (1,1) := by decide +kernel
  obtain ⟨s,hs,hc⟩ := Option.map_eq_some_iff.mp hrun
  simp only [Prod.mk.injEq] at hc
  exact ⟨s,hs,hc.1,hc.2,(admission_bounded hs).1⟩

end PeerManager
