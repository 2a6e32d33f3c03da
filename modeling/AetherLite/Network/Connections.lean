import AetherLite.Network.PeerManager

/-! What the steps of a manager leave alone: most of them move no connection on in the
handshake and make none. -/
set_option autoImplicit false

namespace PeerManager

open Js Network Wire NodeIdentity

/-- The same connection, with the same standing in the handshake. -/
structure Moved (p q : WebRTCPeer) : Prop where
  peerId : q.peerId = p.peerId
  position : q.position = p.position
  direction : q.direction = p.direction
  verified : q.verified = p.verified
  pubkey : q.pubkey = p.pubkey
  challenge : q.challenge = p.challenge

theorem Moved.refl (p : WebRTCPeer) : Moved p p := ⟨rfl,rfl,rfl,rfl,rfl,rfl⟩

theorem Moved.trans {p q r : WebRTCPeer} (h : Moved p q) (h' : Moved q r) : Moved p r :=
  ⟨h'.peerId.trans h.peerId,h'.position.trans h.position,h'.direction.trans h.direction,
    h'.verified.trans h.verified,h'.pubkey.trans h.pubkey,h'.challenge.trans h.challenge⟩

/-- The same connection, perhaps further on in the handshake. -/
structure Later (p q : WebRTCPeer) : Prop where
  peerId : q.peerId = p.peerId
  position : q.position = p.position
  direction : q.direction = p.direction
  verified : p.verified = true → q.verified = true

theorem Later.refl (p : WebRTCPeer) : Later p p := ⟨rfl,rfl,rfl,id⟩

theorem Later.trans {p q r : WebRTCPeer} (h : Later p q) (h' : Later q r) : Later p r :=
  ⟨h'.peerId.trans h.peerId,h'.position.trans h.position,h'.direction.trans h.direction,
    fun hv => h'.verified (h.verified hv)⟩

theorem Moved.later {p q : WebRTCPeer} (h : Moved p q) : Later p q :=
  ⟨h.peerId,h.position,h.direction,fun hv => h.verified.trans hv⟩

/-- The connections go on, and nothing is created, registered or buffered. -/
structure Quiet {ρ μ : Type} (R : WebRTCPeer → WebRTCPeer → Prop) (s t : State ρ μ) : Prop where
  conns : ∀ (c : Nat) (p : WebRTCPeer), s.conns[c]? = some p → ∃ q, t.conns[c]? = some q ∧ R p q
  size : t.conns.length = s.conns.length
  peers : t.peers.Sublist s.peers
  pendingSignals : t.pendingSignals.Sublist s.pendingSignals
  stopped : t.stopped = s.stopped

section
variable {ρ μ : Type} {cfg : Config ρ μ} {s t u : State ρ μ} {id sender : PeerId} {c : Nat}

theorem Quiet.refl (s : State ρ μ) : Quiet Moved s s :=
  ⟨fun _ p h => ⟨p,h,.refl p⟩,rfl,.refl _,.refl _,rfl⟩

theorem Quiet.later (h : Quiet Moved s t) : Quiet Later s t := by
  refine ⟨fun c p hp => ?_,h.size,h.peers,h.pendingSignals,h.stopped⟩
  obtain ⟨q,hq,hm⟩ := h.conns c p hp
  exact ⟨q,hq,hm.later⟩

theorem Quiet.comp {R : WebRTCPeer → WebRTCPeer → Prop}
    (hR : ∀ p q r, R p q → R q r → R p r) (h : Quiet R s t) (h' : Quiet R t u) : Quiet R s u := by
  refine ⟨fun c p hp => ?_,h'.size.trans h.size,h'.peers.trans h.peers,
    h'.pendingSignals.trans h.pendingSignals,h'.stopped.trans h.stopped⟩
  obtain ⟨q,hq,hl⟩ := h.conns c p hp
  obtain ⟨r,hr,hl'⟩ := h'.conns c q hq
  exact ⟨r,hr,hR p q r hl hl'⟩

theorem Quiet.trans (h : Quiet Moved s t) (h' : Quiet Moved t u) : Quiet Moved s u :=
  h.comp (fun _ _ _ => Moved.trans) h'

theorem Quiet.trans_later (h : Quiet Later s t) (h' : Quiet Later t u) : Quiet Later s u :=
  h.comp (fun _ _ _ => Later.trans) h'

/-- Only the bookkeeping beside the table changes. -/
theorem Quiet.same (hc : t.conns = s.conns) (hp : t.peers = s.peers)
    (hs : t.pendingSignals = s.pendingSignals) (hst : t.stopped = s.stopped) : Quiet Moved s t :=
  ⟨fun _ p h => ⟨p,by rw [hc]; exact h,.refl p⟩,by rw [hc],by rw [hp],by rw [hs],hst⟩

theorem get_modify {f : WebRTCPeer → WebRTCPeer} {conns : List WebRTCPeer} {c d : Nat}
    {p : WebRTCPeer} (h : conns[c]? = some p) :
    (conns.modify d f)[c]? = some (if d = c then f p else p) := by
  rw [List.getElem?_modify,h]
  split <;> rfl

theorem quiet_update_of {R : WebRTCPeer → WebRTCPeer → Prop} (hR : ∀ p, R p p)
    {f : WebRTCPeer → WebRTCPeer} (hf : ∀ p, R p (f p)) (s : State ρ μ) (c : Nat) :
    Quiet R s (s.update c f) := by
  refine ⟨fun d p h => ⟨_,get_modify h,?_⟩,List.length_modify _ _ _,.refl _,.refl _,rfl⟩
  split
  · exact hf p
  · exact hR p

theorem quiet_update {f : WebRTCPeer → WebRTCPeer} (hf : ∀ p, Moved p (f p)) (s : State ρ μ)
    (c : Nat) : Quiet Moved s (s.update c f) := quiet_update_of .refl hf s c

theorem quiet_disconnect (s : State ρ μ) (id : PeerId) : Quiet Moved s (disconnect cfg s id) := by
  unfold disconnect
  split
  · exact .refl s
  next d _ =>
  refine ⟨fun c p h => ⟨_,get_modify h,?_⟩,List.length_modify _ _ _,JsMap.delete_sublist _ _,
    JsMap.delete_sublist _ _,rfl⟩
  split
  · exact ⟨rfl,rfl,rfl,rfl,rfl,rfl⟩
  · exact .refl p

theorem quiet_emit (s : State ρ μ) (e : Event) : Quiet Moved s (s.emit e) := .same rfl rfl rfl rfl

theorem quiet_sendMessage (s : State ρ μ) (id : PeerId) (type : WireType) (payload : Val) :
    Quiet Moved s (sendMessage s id type payload) := by
  unfold sendMessage
  split
  · split
    · exact quiet_emit s _
    · exact .refl s
  · exact .refl s

theorem quiet_checkBan (s : State ρ μ) (id : PeerId) : Quiet Moved s (checkBan cfg s id) :=
  .same rfl rfl rfl rfl

theorem moved_signal (sig : Val) (p : WebRTCPeer) : Moved p (WebRTCPeer.signal sig p) :=
  ⟨rfl,rfl,rfl,rfl,rfl,rfl⟩

theorem quiet_signals (sigs : List Val) (s : State ρ μ) (c : Nat) :
    Quiet Moved s (sigs.foldl (fun s sig => s.update c (WebRTCPeer.signal sig)) s) := by
  induction sigs generalizing s with
  | nil => exact .refl s
  | cons sig sigs ih => exact (quiet_update (moved_signal sig) s c).trans (ih _)

theorem quiet_evict (s : State ρ μ) (newcomerId : Option PeerId) (victim : PeerId) :
    Quiet Moved s (evict cfg s newcomerId victim) := by
  refine Quiet.trans (t := if some victim = newcomerId then s
    else { s with coolDowns := JsMap.set s.coolDowns victim s.now }) ?_ (quiet_disconnect _ victim)
  split
  · exact .refl s
  · exact .same rfl rfl rfl rfl

theorem quiet_rebalanceLoop (newcomerId : Option PeerId) (n : Nat) (s : State ρ μ) :
    Quiet Moved s (rebalanceLoop cfg newcomerId n s) := by
  induction n generalizing s with
  | zero => exact .refl s
  | succ n ih =>
    unfold rebalanceLoop
    split
    · exact .refl s
    split
    · exact .refl s
    · exact (quiet_evict s newcomerId _).trans (ih _)

theorem quiet_rebalance (s : State ρ μ) (newcomerId : Option PeerId) :
    Quiet Moved s (rebalance cfg s newcomerId) := quiet_rebalanceLoop newcomerId _ s

theorem quiet_noteGroup (s : State ρ μ) (group : String) : Quiet Moved s (noteGroup s group) := by
  unfold noteGroup
  split
  · exact .refl s
  · exact .same rfl rfl rfl rfl

theorem quiet_answerHello {challenge : Challenge} (h : answerHello cfg s id challenge = .ok t) :
    Quiet Moved s t := by
  unfold answerHello at h
  split at h
  · cases h
    exact .refl s
  dsimp only at h
  split at h
  · cases h
    exact .refl s
  obtain ⟨claim,-,h⟩ := bind_ok h
  cases h
  exact (quiet_emit s _).trans (quiet_sendMessage _ _ _ _)

theorem quiet_handleHello {msg : Val} (h : handleHello cfg s id msg = .ok t) : Quiet Moved s t := by
  obtain ⟨challenge,-,h⟩ := bind_ok h
  split at h
  · exact quiet_answerHello h
  · cases h
    exact .refl s

theorem quiet_resolved (s : State ρ μ) (c : Nat) (group : String) : Quiet Moved s (resolved s c group) :=
  (quiet_update (f := WebRTCPeer.resolveNetGroup group) (fun _ => ⟨rfl,rfl,rfl,rfl,rfl,rfl⟩) s c).trans
    (quiet_noteGroup _ _)

theorem quiet_acceptJoin (s : State ρ μ) (c : Nat) (id : PeerId) (claim : SignedNodeClaim) :
    Quiet Later s (acceptJoin s c id claim) := by
  have hmark := quiet_update_of Later.refl
    (f := WebRTCPeer.markVerified claim.pubkey claim.powCounter s.now)
    (fun _ => ⟨rfl,rfl,rfl,fun _ => rfl⟩) s c
  have hrest : Quiet Moved (s.update c (WebRTCPeer.markVerified claim.pubkey claim.powCounter s.now))
      (acceptJoin s c id claim) := .same rfl rfl rfl rfl
  exact hmark.trans_later hrest.later

theorem quiet_recordMalformed (s : State ρ μ) (id : PeerId) : Quiet Moved s (recordMalformed cfg s id) := by
  unfold recordMalformed
  split
  · exact .same rfl rfl rfl rfl
  · exact .refl s

/-- A JOIN that the manager finds good for the connection `c`. -/
structure AcceptedJoin (cfg : Config ρ μ) (s : State ρ μ) (id : PeerId) (msg : Val) (c : Nat)
    (p : WebRTCPeer) (claim : SignedNodeClaim) : Prop where
  registered : s.peer? id = some (c,p)
  unverified : p.verified = false
  reads : joinClaim msg = .ok claim
  peerId : claim.peerId = id
  fingerprints : fingerprintsUsable cfg (p.dtlsFingerprints cfg.cases) = true
  answer : ∃ challenge, p.challenge = some challenge ∧
    verifySignedClaim cfg.sodium claim challenge (verifierBinding cfg p) cfg.powParams = true

theorem handleJoin_cases {msg : Val} (h : handleJoin cfg s id msg = .ok t) :
    Quiet Moved s t ∨ ∃ c p claim, AcceptedJoin cfg s id msg c p claim ∧ t = acceptJoin s c id claim := by
  unfold handleJoin at h
  split at h
  · cases h
    exact .inl (.refl s)
  next c p hreg =>
  split at h
  · cases h
    exact .inl (.refl s)
  next hv =>
  split at h
  · cases h
    exact .inl (.refl s)
  next challenge hch =>
  obtain ⟨claim,hclaim,h⟩ := bind_ok h
  split at h
  · cases h
    exact .inl (quiet_disconnect s id)
  next hid =>
  split at h
  · cases h
    exact .inl (quiet_disconnect s id)
  next hfp =>
  split at h
  · cases h
    exact .inl (quiet_disconnect s id)
  next hsig =>
  cases h
  exact .inr ⟨c,p,claim,⟨hreg,by simpa using hv,hclaim,by simpa using hid,by simpa using hfp,
    challenge,hch,by simpa using hsig⟩,rfl⟩

theorem quiet_handleJoin {msg : Val} (h : handleJoin cfg s id msg = .ok t) : Quiet Later s t := by
  obtain hq | ⟨c,p,claim,-,rfl⟩ := handleJoin_cases h
  · exact hq.later
  · exact quiet_acceptJoin s c id claim

theorem quiet_receive (s : State ρ μ) (id : PeerId) (data : Data) :
    Quiet Moved s (receive cfg s id data).1 := by
  unfold receive
  dsimp only
  split
  · exact (quiet_checkBan s id).trans (quiet_disconnect _ id)
  split
  · exact quiet_checkBan s id
  split
  · exact ((quiet_checkBan s id).trans (quiet_recordMalformed _ id)).trans (quiet_disconnect _ id)
  split
  · exact .same rfl rfl rfl rfl
  · exact .same rfl rfl rfl rfl

theorem quiet_onSignal (s : State ρ μ) (id : PeerId) (payload : Val) :
    Quiet Moved s (onSignal cfg s id payload) := by
  unfold onSignal
  split
  · exact .refl s
  split
  · exact quiet_sendMessage _ _ _ _
  · exact quiet_emit s _

theorem quiet_onConnect (s : State ρ μ) (c : Nat) (id : PeerId) (challenge : Bytes) :
    Quiet Later s (onConnect s c id challenge) := by
  have hset := quiet_update_of Later.refl (f := WebRTCPeer.setChallenge challenge)
    (fun _ => ⟨rfl,rfl,rfl,fun h => h⟩) (s.emit (.connected c)) c
  exact ((quiet_emit s (.connected c)).later.trans_later hset).trans_later
    (quiet_sendMessage _ id .hello _).later

theorem quiet_dropIf (s : State ρ μ) (c : Nat) (p : WebRTCPeer) (cond : Bool) :
    Quiet Moved s (dropIf cfg s c p cond) := by
  unfold dropIf
  split
  · exact quiet_disconnect s _
  · exact .refl s

theorem quiet_endCoolDown (s : State ρ μ) (id : PeerId) : Quiet Moved s (endCoolDown s id) := by
  unfold endCoolDown
  split
  · exact .refl s
  · exact .same rfl rfl rfl rfl

theorem quiet_reoffered (s : State ρ μ) (id : PeerId) : Quiet Moved s (reoffered cfg s id) :=
  (quiet_disconnect s id).trans (.same rfl rfl rfl rfl)

theorem quiet_disconnects (ids : List PeerId) (s : State ρ μ) :
    Quiet Moved s (ids.foldl (disconnect cfg) s) := by
  induction ids generalizing s with
  | nil => exact .refl s
  | cons id ids ih => exact (quiet_disconnect s id).trans (ih _)

/-- The connections go on, and a new one has no standing in the handshake. -/
structure Onward (s t : State ρ μ) : Prop where
  conns : ∀ (c : Nat) (p : WebRTCPeer), s.conns[c]? = some p → ∃ q, t.conns[c]? = some q ∧ Moved p q
  created : ∀ (c : Nat) (q : WebRTCPeer), s.conns[c]? = none → t.conns[c]? = some q →
    q.verified = false ∧ q.challenge = none

theorem Quiet.onward (h : Quiet Moved s t) : Onward s t := by
  refine ⟨h.conns,fun c q hn hq => ?_⟩
  rw [List.getElem?_eq_none_iff,← h.size,← List.getElem?_eq_none_iff,hq] at hn
  cases hn

theorem Onward.refl (s : State ρ μ) : Onward s s := (Quiet.refl s).onward

theorem Onward.trans (h : Onward s t) (h' : Onward t u) : Onward s u := by
  constructor
  · intro c p hp
    obtain ⟨q,hq,hm⟩ := h.conns c p hp
    obtain ⟨r,hr,hm'⟩ := h'.conns c q hq
    exact ⟨r,hr,hm.trans hm'⟩
  · intro c r hn hr
    cases hq : t.conns[c]? with
    | none => exact h'.created c r hq hr
    | some q =>
      obtain ⟨hv,hch⟩ := h.created c q hn hq
      obtain ⟨r',hr',hm⟩ := h'.conns c q hq
      rw [hr] at hr'
      cases hr'
      exact ⟨hm.verified.trans hv,hm.challenge.trans hch⟩

theorem Onward.same (hc : t.conns = s.conns) : Onward s t :=
  ⟨fun _ p h => ⟨p,by rw [hc]; exact h,.refl p⟩,fun c q hn hq => by rw [hc,hn] at hq; cases hq⟩

theorem onward_register (s : State ρ μ) (id : PeerId) (initiator : Bool) (via : Option PeerId) :
    Onward s (register cfg s id initiator via).1 := by
  constructor
  · intro c p hp
    have hlt := (List.getElem?_eq_some_iff.mp hp).1
    exact ⟨p,(List.getElem?_append_left hlt).trans hp,.refl p⟩
  · intro c q hn hq
    have hle : s.conns.length ≤ c := List.getElem?_eq_none_iff.mp hn
    simp only [register] at hq
    rw [List.getElem?_append_right hle,List.getElem?_singleton] at hq
    split at hq
    · cases hq
      exact ⟨rfl,rfl⟩
    · cases hq

theorem onward_admitNew (s : State ρ μ) (id : PeerId) (initiator : Bool) (via : Option PeerId) :
    Onward s (admitNew cfg s id initiator via).1 := by
  unfold admitNew
  split
  · exact .refl s
  split
  · exact (quiet_endCoolDown s id).onward
  · exact (quiet_endCoolDown s id).onward.trans (onward_register _ _ _ _)

theorem onward_connect (s : State ρ μ) (id : PeerId) (initiator : Bool) (via : Option PeerId) :
    Onward s (connect cfg s id initiator via).1 := by
  have hb : Onward s (checkBan cfg s id) := (quiet_checkBan s id).onward
  unfold connect
  split
  · exact .refl s
  dsimp only
  split
  · exact hb
  split
  · split
    · exact hb
    · exact (hb.trans (quiet_disconnect _ id).onward).trans (onward_admitNew _ _ _ _)
  · exact hb.trans (onward_admitNew _ _ _ _)

theorem onward_bufferSignal (s : State ρ μ) (sender : PeerId) (msg : Val) :
    Onward s (bufferSignal s sender msg) := by
  unfold bufferSignal
  split
  · exact .refl s
  dsimp only
  split
  · exact .refl s
  · exact .same rfl

theorem onward_openSession (s : State ρ μ) (sender : PeerId) (msg : Val) (via : Option PeerId) :
    Onward s (openSession cfg s sender msg via) := by
  have hc : Onward s (connect cfg s sender false via).1 := onward_connect s sender false via
  unfold openSession
  split
  · next heq => rwa [heq] at hc
  · next t c heq =>
    rw [heq] at hc
    exact (hc.trans (quiet_signals (msg :: (JsMap.get t.pendingSignals sender).getD []) t c).onward).trans
      (.same rfl)

theorem onward_handleRelay (s : State ρ μ) (sender : PeerId) (msg : Val) (via : Option PeerId) :
    Onward s (handleRelay cfg s sender msg via) := by
  have hb : Onward s (checkBan cfg s sender) := (quiet_checkBan s sender).onward
  unfold handleRelay
  split
  · exact .refl s
  dsimp only
  split
  · exact hb
  split
  · split
    · exact hb.trans (onward_openSession _ _ _ _)
    · exact hb.trans (onward_bufferSignal _ _ _)
  split
  · exact hb.trans (quiet_update (moved_signal msg) _ _).onward
  split
  · exact hb
  · exact (hb.trans (quiet_reoffered _ sender).onward).trans (onward_openSession _ _ _ _)

theorem onward_handleRelayMessage (s : State ρ μ) (id : PeerId) (msg : Val) (type : WireType) :
    Onward s (handleRelayMessage cfg s id msg type) := by
  unfold handleRelayMessage
  split
  · split
    · split
      · split
        · exact onward_handleRelay _ _ _ _
        · exact .refl s
      · exact .refl s
    · split
      · exact (quiet_sendMessage _ _ _ _).onward
      · exact .refl s
  · exact .refl s

theorem onward_handleTrackerPeers (s : State ρ μ) (peers : Val) :
    Onward s (handleTrackerPeers cfg s peers) := by
  unfold handleTrackerPeers
  split
  · exact .refl s
  split
  · next entries =>
    clear * -
    induction entries generalizing s with
    | nil => exact .refl s
    | cons entry entries ih =>
      refine Onward.trans (t := handleTrackerPeer cfg s entry) ?_ (ih _)
      unfold handleTrackerPeer
      split
      · split
        · exact onward_connect _ _ _ _
        · exact .refl s
      · exact .refl s
  · exact .refl s

theorem receive_conns {data : Data} {m : DecodedWireMessage}
    (hm : receive cfg s id data = (t,some m)) :
    t.conns = s.conns ∧ t.peers = s.peers ∧ m = WireCodec.decode cfg.unpack data.frame := by
  unfold receive at hm
  dsimp only at hm
  split at hm
  · cases hm
  split at hm
  · cases hm
  split at hm
  · cases hm
  split at hm
  · cases hm
    exact ⟨rfl,rfl,rfl⟩
  · cases hm

end

end PeerManager
