import AetherLite.Cache.JoinRelay
import AetherLite.Cache.PeerSessions

/-! What the router and the manager of the cache node hold of a peer is about the same session,
as long as the events come in an order that the queues between them can bear. -/
set_option autoImplicit false

namespace Cache.Node

open SessionQueue

def factsOf (next : Nat) (sessions : JsMap Nat WebRTCPeer) (joined : List Nat) : Facts where
  next := next
  announced n := ∃ a, JsMap.get sessions n = some a ∧ a.announced = true
  running n := ∃ a, JsMap.get sessions n = some a ∧ a.running = true
  joined n := n ∈ joined

def facts (s : Node) : Facts := factsOf s.manager.nextSession s.sessions s.joined

/-- No session is counted that has not begun. -/
def Begun (next : Nat) (sessions : JsMap Nat WebRTCPeer) : Prop :=
  ∀ n a, JsMap.get sessions n = some a → n < next

structure Inv (s : Node) : Prop where
  seated : ∀ p, Seated s.facts (s.view p)
  held : ∀ p, JsMap.has s.router.challenges p = (JsMap.get s.stamps p).isSome
  taken : ∀ p, JsMap.has s.router.verified p = (JsMap.get s.proofs p).isSome
  begun : Begun s.manager.nextSession s.sessions

section
variable {next : Nat} {sessions : JsMap Nat WebRTCPeer} {joined : List Nat} {n : Nat}
  {a b : WebRTCPeer}

theorem grows_refl (f : Facts) : Grows f f :=
  ⟨Nat.le_refl _,fun _ _ h => h,fun _ _ h => h,fun _ h => h⟩

/-- A session moves on. -/
theorem grows_set (next : Nat) (joined : List Nat) (ha : JsMap.get sessions n = some a)
    (hann : a.announced = true → b.announced = true) (hrun : b.running = true → a.running = true) :
    Grows (factsOf next sessions joined) (factsOf next (JsMap.set sessions n b) joined) := by
  refine ⟨Nat.le_refl _,fun k _ hk => ?_,fun k _ hk => ?_,fun _ h => h⟩
  · obtain ⟨c,hc,hann'⟩ := hk
    by_cases hkn : k = n
    · subst hkn
      cases ha.symm.trans hc
      exact ⟨b,JsMap.get_set_self _ _ _,hann hann'⟩
    · exact ⟨c,(JsMap.get_set_ne _ hkn _).trans hc,hann'⟩
  · obtain ⟨c,hc,hrun'⟩ := hk
    by_cases hkn : k = n
    · subst hkn
      rw [JsMap.get_set_self] at hc
      cases hc
      exact ⟨a,ha,hrun hrun'⟩
    · exact ⟨c,(JsMap.get_set_ne _ hkn _).symm.trans hc,hrun'⟩

/-- A new session begins. -/
theorem grows_begin (b : WebRTCPeer) :
    Grows (factsOf next sessions joined) (factsOf (next+1) (JsMap.set sessions next b) joined) := by
  refine ⟨Nat.le_succ _,fun k hk => ?_,fun k hk => ?_,fun _ h => h⟩
  · rintro ⟨c,hc,hann⟩
    exact ⟨c,(JsMap.get_set_ne _ (Nat.ne_of_lt hk) _).trans hc,hann⟩
  · rintro ⟨c,hc,hrun⟩
    exact ⟨c,(JsMap.get_set_ne _ (Nat.ne_of_lt hk) _).symm.trans hc,hrun⟩

theorem grows_next : Grows (factsOf next sessions joined) (factsOf (next+1) sessions joined) :=
  ⟨Nat.le_succ _,fun _ _ h => h,fun _ _ h => h,fun _ h => h⟩

theorem Begun.set (h : Begun next sessions) (hn : n < next) :
    Begun next (JsMap.set sessions n b) := by
  intro k c hc
  by_cases hk : k = n
  · rwa [hk]
  · exact h k c ((JsMap.get_set_ne _ hk _).symm.trans hc)

end

section
variable {s t : Node} {p : PeerId} {n : Nat} {e : NetworkEvent}

theorem reportOf_ne (h : e.peerId ≠ p) : reportOf p (n,e) = none := by
  cases e with
  | peerConnected q => exact if_neg h
  | peerDisconnected q session => exact if_neg h
  | peerReset q => exact if_neg h
  | messageReceived q msg =>
    cases msg with
    | join => exact if_neg h
    | _ => rfl

/-- An event comes to the end of the queue. -/
theorem Inv.report (h : Inv s) {sessions : JsMap Nat WebRTCPeer}
    (hb : Begun s.manager.nextSession sessions)
    (hg : Grows s.facts (factsOf s.manager.nextSession sessions s.joined))
    (hr : ∀ r, reportOf e.peerId (n,e) = some r →
      Seated (factsOf s.manager.nextSession sessions s.joined)
        { s.view e.peerId with reports := (s.view e.peerId).reports ++ [r] }) :
    Inv { s with sessions := sessions, events := s.events ++ [(n,e)] } := by
  refine ⟨fun p => ?_,h.held,h.taken,hb⟩
  have hreports : (s.events ++ [(n,e)]).filterMap (reportOf p) =
      (s.view p).reports ++ (reportOf p (n,e)).toList := by
    rw [List.filterMap_append]
    cases hr : reportOf p (n,e) <;> simp [hr,view]
  have hview : view { s with sessions := sessions, events := s.events ++ [(n,e)] } p =
      { s.view p with reports := (s.view p).reports ++ (reportOf p (n,e)).toList } := by
    rw [← hreports]
    rfl
  change Seated (factsOf s.manager.nextSession sessions s.joined) _
  rw [hview]
  cases hr' : reportOf p (n,e) with
  | none => simpa using (h.seated p).mono hg
  | some r =>
    have hp : e.peerId = p := by
      by_contra hne
      rw [reportOf_ne hne] at hr'
      cases hr'
    subst hp
    exact hr r hr'

/-- What the actor of a session does, it does while it runs. -/
theorem act_some {f : WebRTCPeer → Option Node} (h : s.act n f = some t) :
    ∃ a, JsMap.get s.sessions n = some a ∧ a.running = true ∧ f a = some t := by
  simp only [act] at h
  split at h
  · next a ha =>
    split at h
    · next hrun => exact ⟨a,ha,hrun,h⟩
    · cases h
  · cases h

theorem session_view (s : Node) (p : PeerId) : (s.view p).session = s.current p := by
  simp [View.session,view,current,Function.comp_def]

theorem Inv.opened {cfg : GossipActor.Config} (h : Inv s) (ho : InOrder s (.opened n))
    (hs : step cfg s (.opened n) = some t) : Inv t := by
  obtain ⟨a,ha,hrun,hs⟩ := act_some hs
  split at hs
  · cases hs
    exact h
  · next hann =>
    cases hs
    have hann : a.announced = false := by simpa using hann
    have hcur : (s.view a.peerId).session = some n := (session_view s _).trans (ho a ha hann)
    have hg := grows_set s.manager.nextSession s.joined (b := { a with announced := true }) ha
      (fun _ => rfl) id
    refine h.report (h.begun.set (h.begun n a ha)) hg ?_
    rintro r hr
    cases (if_pos rfl).symm.trans hr
    refine (h.seated a.peerId).connects hg hcur ?_ ⟨a,ha,hrun⟩ ⟨_,JsMap.get_set_self _ _ _,rfl⟩
    rintro ⟨b,hb,hann'⟩
    cases ha.symm.trans hb
    rw [hann] at hann'
    cases hann'

theorem Foremost.announced (h : s.Foremost n) {a : WebRTCPeer}
    (ha : JsMap.get s.sessions n = some a) {m : Nat} (hm : (s.view a.peerId).session = some m) : m = n ∨ ¬s.facts.announced m := by
  rw [session_view] at hm
  refine (h a ha m hm).imp_right fun hnot => ?_
  rintro ⟨b,hb,hann⟩
  rw [hnot b hb] at hann
  cases hann

theorem Inv.received {cfg : GossipActor.Config} (h : Inv s) {msg : GossipActor.P2PMessage}
    (ho : InOrder s (.received n msg)) (hs : step cfg s (.received n msg) = some t) : Inv t := by
  obtain ⟨a,ha,-,hs⟩ := act_some hs
  cases hs
  refine h.report h.begun (grows_refl _) fun r hr => ?_
  cases msg with
  | join claimedId pubkey powCounter challenge signature =>
    cases (if_pos rfl).symm.trans hr
    exact (h.seated a.peerId).joins fun m hm => Foremost.announced ho ha hm
  | _ => cases hr

theorem Inv.lost {cfg : GossipActor.Config} (h : Inv s) (ho : InOrder s (.lost n))
    (hs : step cfg s (.lost n) = some t) : Inv t := by
  obtain ⟨a,ha,hrun,hs⟩ := act_some hs
  cases hs
  have hg := grows_set s.manager.nextSession s.joined (b := { a with running := false }) ha id
    fun _ => hrun
  refine h.report (h.begun.set (h.begun n a ha)) hg ?_
  rintro r hr
  cases (if_pos rfl).symm.trans hr
  refine (h.seated a.peerId).loses hg (h.begun n a ha) ?_ fun m hm => Foremost.announced ho ha hm
  rintro ⟨b,hb,hrun'⟩
  rw [JsMap.get_set_self] at hb
  cases hb
  cases hrun'

/-- What changes no queue and no record. -/
theorem Inv.frame (h : Inv s) {sessions : JsMap Nat WebRTCPeer}
    (hb : Begun s.manager.nextSession sessions)
    (hg : Grows s.facts (factsOf s.manager.nextSession sessions s.joined)) :
    Inv { s with sessions := sessions } :=
  ⟨fun p => (h.seated p).mono hg,h.held,h.taken,hb⟩

theorem Inv.closed {cfg : GossipActor.Config} (h : Inv s)
    (hs : step cfg s (.closed n) = some t) : Inv t := by
  obtain ⟨a,ha,hrun,hs⟩ := act_some hs
  split at hs
  · cases hs
    exact h.frame (h.begun.set (h.begun n a ha)) (grows_set _ _ ha id fun _ => hrun)
  · cases hs

theorem Inv.signalled {cfg : GossipActor.Config} (h : Inv s) {c : PeerManagerControl}
    (hs : step cfg s (.signalled c) = some t) : Inv t := by
  have hadd {c : PeerManagerControl} (hc : ∀ p, requestOf p (0,c) = none) :
      Inv { s with controls := s.controls ++ [(0,c)] } := by
    refine ⟨fun p => ?_,h.held,h.taken,h.begun⟩
    have hview : view { s with controls := s.controls ++ [(0,c)] } p = s.view p := by
      simp [view,List.filterMap_append,hc p]
    rw [hview]
    exact h.seated p
  cases c with
  | initiateConnection peerId =>
    cases hs
    exact hadd fun _ => rfl
  | handleIncomingSignal senderId payload =>
    cases hs
    exact hadd fun _ => rfl
  | _ => cases hs

/-! The manager takes its next control. -/

theorem perform_close (s : Node) (session : Nat) : ∃ sessions, s.perform (.close session) =
    { s with sessions := sessions } ∧ (∀ next, Begun next s.sessions → Begun next sessions) ∧
      ∀ next joined, Grows (factsOf next s.sessions joined) (factsOf next sessions joined) := by
  simp only [perform]
  split
  · next a ha =>
    exact ⟨_,rfl,fun next hb => hb.set (hb session a ha),
      fun next joined => grows_set next joined ha id id⟩
  · exact ⟨_,rfl,fun _ h => h,fun _ _ => grows_refl _⟩

/-- The node after the manager has taken a control. -/
def moved (s : Node) (m : PeerManager) (rest : List (Nat × PeerManagerControl))
    (sessions : JsMap Nat WebRTCPeer) (events : List (Nat × NetworkEvent)) : Node :=
  { s with manager := m, controls := rest, sessions := sessions, events := events }

section
variable {m : PeerManager} {rest : List (Nat × PeerManagerControl)} {from_ : Nat}
  {c : PeerManagerControl} {sessions : JsMap Nat WebRTCPeer} {events : List (Nat × NetworkEvent)}
  {q : PeerId}

theorem view_moved (hc : s.controls = (from_,c) :: rest) (hreq : requestOf p (from_,c) = none)
    (hp : JsMap.get m.peers p = JsMap.get s.manager.peers p)
    (hev : events.filterMap (reportOf p) = s.events.filterMap (reportOf p)) :
    (s.moved m rest sessions events).view p = s.view p := by
  have hrest : rest.filterMap (requestOf p) = s.controls.filterMap (requestOf p) := by
    rw [hc,List.filterMap_cons,hreq]
  simp only [moved,view,hp,hev,hrest]

/-- Only one peer is concerned. -/
theorem Inv.moved (h : Inv s) (q : PeerId) (hb : Begun m.nextSession sessions)
    (hg : Grows s.facts (factsOf m.nextSession sessions s.joined))
    (hother : ∀ p, p ≠ q → (s.moved m rest sessions events).view p = s.view p)
    (hq : Seated (factsOf m.nextSession sessions s.joined)
      ((s.moved m rest sessions events).view q)) : Inv (s.moved m rest sessions events) := by
  refine ⟨fun p => ?_,h.held,h.taken,hb⟩
  by_cases hp : p = q
  · exact hp ▸ hq
  · rw [hother p hp]
    exact (h.seated p).mono hg

theorem Inv.passed (h : Inv s) (hc : s.controls = (from_,c) :: rest)
    (hreq : ∀ p, requestOf p (from_,c) = none) :
    Inv (s.moved s.manager rest s.sessions s.events) := by
  have hview (p : PeerId) : (s.moved s.manager rest s.sessions s.events).view p = s.view p :=
    view_moved hc (hreq p) rfl rfl
  refine ⟨fun p => ?_,h.held,h.taken,h.begun⟩
  rw [hview p]
  exact h.seated p

/-- A connection is made for a peer that has none. -/
theorem Inv.spawned (h : Inv s) (hc : s.controls = (from_,c) :: rest)
    (hreq : ∀ p, requestOf p (from_,c) = none) (hnone : JsMap.get s.manager.peers q = none)
    (ok : Bool) :
    Inv ((s.manager.spawn q ok).2.foldl perform
      { s with manager := (s.manager.spawn q ok).1, controls := rest }) := by
  cases ok with
  | false =>
    change Inv (s.moved ⟨s.manager.myPeerId,s.manager.peers,s.manager.nextSession+1⟩ rest
      s.sessions s.events)
    have hview (p : PeerId) : (s.moved ⟨s.manager.myPeerId,s.manager.peers,
        s.manager.nextSession+1⟩ rest s.sessions s.events).view p = s.view p :=
      view_moved hc (hreq p) rfl rfl
    refine h.moved q (fun n a ha => Nat.lt_succ_of_lt (h.begun n a ha)) grows_next
      (fun p _ => hview p) ?_
    rw [hview q]
    exact (h.seated q).mono grows_next
  | true =>
    change Inv (s.moved ⟨s.manager.myPeerId,
      JsMap.set s.manager.peers q { session := s.manager.nextSession },s.manager.nextSession+1⟩ rest
        (JsMap.set s.sessions s.manager.nextSession { peerId := q }) s.events)
    have hb : Begun (s.manager.nextSession+1)
        (JsMap.set s.sessions s.manager.nextSession { peerId := q }) :=
      Begun.set (fun n a ha => Nat.lt_succ_of_lt (h.begun n a ha)) (Nat.lt_succ_self _)
    refine h.moved q hb (grows_begin _)
      (fun p hp => view_moved hc (hreq p) (JsMap.get_set_ne _ hp _) rfl) ?_
    have hbegun := (h.seated q).begun (grows_begin (b := { peerId := q })) (Nat.lt_succ_self _)
      (by simp [view,hnone])
    have hview : (s.moved ⟨s.manager.myPeerId,
        JsMap.set s.manager.peers q { session := s.manager.nextSession },s.manager.nextSession+1⟩
          rest (JsMap.set s.sessions s.manager.nextSession { peerId := q }) s.events).view q =
        { s.view q with current := some (s.manager.nextSession,false) } := by
      have hrest : rest.filterMap (requestOf q) = s.controls.filterMap (requestOf q) := by
        rw [hc,List.filterMap_cons,hreq q]
      simp [Node.moved,view,hrest]
    rw [hview]
    exact hbegun

/-- The manager's record of one peer changes, and no more is said of another. -/
theorem Inv.entered (h : Inv s) (q : PeerId) (hc : s.controls = (from_,c) :: rest)
    (hreq : ∀ p, p ≠ q → requestOf p (from_,c) = none)
    (hm : m.nextSession = s.manager.nextSession)
    (hother : ∀ p, p ≠ q → JsMap.get m.peers p = JsMap.get s.manager.peers p)
    (hb : Begun s.manager.nextSession sessions)
    (hg : Grows s.facts (factsOf s.manager.nextSession sessions s.joined))
    (hq : Seated s.facts { s.view q with
      current := (JsMap.get m.peers q).map fun entry => (entry.session,entry.verified)
      requests := rest.filterMap (requestOf q) }) : Inv (s.moved m rest sessions s.events) := by
  rw [← hm] at hb hg
  exact h.moved q hb hg (fun p hp => view_moved hc (hreq p hp) (hother p hp) rfl) (hq.mono hg)

theorem Inv.dropped (h : Inv s) (hc : s.controls = (from_,.dropPeer q) :: rest) (ok : Bool) :
    Inv ((s.manager.control ok (.dropPeer q)).2.foldl perform
      { s with manager := (s.manager.control ok (.dropPeer q)).1, controls := rest }) := by
  have hreq (p : PeerId) (hp : p ≠ q) : requestOf p (from_,.dropPeer q) = none := if_neg hp.symm
  have hq : (s.view q).requests = .drop from_ :: rest.filterMap (requestOf q) := by
    simp [view,hc,requestOf]
  have hdropped := (h.seated q).dropped hq
  cases hentry : JsMap.get s.manager.peers q with
  | none =>
    have hctl : s.manager.control ok (.dropPeer q) = (s.manager,[]) := by
      simp [PeerManager.control,hentry]
    rw [hctl]
    refine h.entered q hc hreq rfl (fun _ _ => rfl) h.begun (grows_refl _) ?_
    rw [hentry]
    exact hdropped
  | some entry =>
    have hctl : s.manager.control ok (.dropPeer q) =
        ({ s.manager with peers := JsMap.delete s.manager.peers q },[.close entry.session]) := by
      simp [PeerManager.control,hentry]
    obtain ⟨sessions,hclose,hb,hg⟩ := perform_close { s with
      manager := { s.manager with peers := JsMap.delete s.manager.peers q }, controls := rest }
      entry.session
    rw [hctl,List.foldl_cons,List.foldl_nil,hclose]
    refine h.entered q hc hreq rfl (fun p hp => JsMap.get_delete_ne hp) (hb _ h.begun) (hg _ _) ?_
    rw [JsMap.get_delete_self]
    exact hdropped

theorem Inv.disconnected (h : Inv s) (hc : s.controls = (from_,.peerDisconnected q n) :: rest)
    (ok : Bool) :
    Inv ((s.manager.control ok (.peerDisconnected q n)).2.foldl perform
      { s with
        manager := (s.manager.control ok (.peerDisconnected q n)).1, controls := rest }) := by
  have hreq (p : PeerId) (hp : p ≠ q) : requestOf p (from_,.peerDisconnected q n) = none :=
    if_neg hp.symm
  have hq : (s.view q).requests = .gone n :: rest.filterMap (requestOf q) := by
    simp [view,hc,requestOf]
  have hgone := (h.seated q).gone hq
  rw [session_view] at hgone
  by_cases hcur : s.current q = some n
  · rw [if_pos hcur] at hgone
    obtain ⟨entry,hentry,rfl⟩ := Option.map_eq_some_iff.mp hcur
    have hctl : s.manager.control ok (.peerDisconnected q entry.session) =
        ({ s.manager with peers := JsMap.delete s.manager.peers q },[]) := by
      simp [PeerManager.control,hentry]
    rw [hctl]
    refine h.entered q hc hreq rfl (fun p hp => JsMap.get_delete_ne hp) h.begun (grows_refl _) ?_
    rw [JsMap.get_delete_self]
    exact hgone
  · rw [if_neg hcur] at hgone
    have hctl : s.manager.control ok (.peerDisconnected q n) = (s.manager,[]) := by
      cases hentry : JsMap.get s.manager.peers q with
      | none => simp [PeerManager.control,hentry]
      | some entry =>
        have hne : entry.session ≠ n := by
          rintro rfl
          exact hcur (by simp [current,hentry])
        simp [PeerManager.control,hentry,hne]
    rw [hctl]
    exact h.entered q hc hreq rfl (fun _ _ => rfl) h.begun (grows_refl _) hgone

theorem get_update (m : PeerManager) (q p : PeerId) (f : PeerMetadata → PeerMetadata) :
    JsMap.get (m.update q f).peers p =
      if p = q then (JsMap.get m.peers p).map f else JsMap.get m.peers p := by
  unfold PeerManager.update
  split
  · next entry hentry =>
    by_cases hp : p = q
    · subst hp
      simp [hentry]
    · rw [if_neg hp]
      exact JsMap.get_set_ne _ hp _
  · next hentry =>
    split
    · next hp => rw [hp,hentry,Option.map_none]
    · rfl

theorem nextSession_update (m : PeerManager) (q : PeerId) (f : PeerMetadata → PeerMetadata) :
    (m.update q f).nextSession = m.nextSession := by
  unfold PeerManager.update
  split <;> rfl

theorem Inv.challenged (h : Inv s) {challenge : Bytes}
    (hc : s.controls = (from_,.setChallenge q challenge) :: rest) :
    Inv (s.moved (s.manager.update q fun entry => { entry with challenge := some challenge }) rest
      s.sessions s.events) := by
  refine h.entered q hc (fun _ _ => rfl) (nextSession_update _ _ _) (fun p hp => ?_) h.begun
    (grows_refl _) ?_
  · rw [get_update,if_neg hp]
  · have hrest : rest.filterMap (requestOf q) = s.controls.filterMap (requestOf q) := by
      rw [hc,List.filterMap_cons]
      rfl
    rw [get_update,if_pos rfl,Option.map_map,hrest]
    exact h.seated q

theorem Inv.marked (h : Inv s) (hc : s.controls = (from_,.markVerified q) :: rest) :
    Inv (s.moved (s.manager.update q fun entry => { entry with verified := true }) rest
      s.sessions s.events) := by
  refine h.entered q hc (fun p hp => if_neg hp.symm) (nextSession_update _ _ _) (fun p hp => ?_)
    h.begun (grows_refl _) ?_
  · rw [get_update,if_neg hp]
  · have hq : (s.view q).requests = .mark from_ :: rest.filterMap (requestOf q) := by
      simp [view,hc,requestOf]
    have hmarked := (h.seated q).marked hq
    rw [get_update,if_pos rfl,Option.map_map]
    change Seated _ { s.view q with
      current := ((JsMap.get s.manager.peers q).map _).map _, requests := _ } at hmarked
    rw [Option.map_map] at hmarked
    exact hmarked

/-- The router is told that a peer starts anew, and the manager has a new connection or none. -/
theorem Inv.replaced (h : Inv s) {payload : Js.Val}
    (hc : s.controls = (from_,.handleIncomingSignal q payload) :: rest)
    (hj : ∀ n, .join n ∉ (s.view q).reports)
    (hq : ∀ n, .mark n ∉ (s.view q).requests ∧ .drop n ∉ (s.view q).requests)
    (hm : m.nextSession = s.manager.nextSession+1)
    (hother : ∀ p, p ≠ q → JsMap.get m.peers p = JsMap.get s.manager.peers p)
    (hb : Begun (s.manager.nextSession+1) sessions)
    (hg : Grows s.facts (factsOf (s.manager.nextSession+1) sessions s.joined))
    (hnew : JsMap.get m.peers q = none ∨
      JsMap.get m.peers q = some { session := s.manager.nextSession }) :
    Inv (s.moved m rest sessions (s.events ++ [(0,.peerReset q)])) := by
  rw [← hm] at hb hg
  refine h.moved q hb hg (fun p hp => ?_) ?_
  · refine view_moved hc rfl (hother p hp) ?_
    have hne : reportOf p (0,NetworkEvent.peerReset q) = none := reportOf_ne hp.symm
    rw [List.filterMap_append,List.filterMap_cons,hne]
    exact List.append_nil _
  · have hlt : s.facts.next < (factsOf m.nextSession sessions s.joined).next := by
      change s.manager.nextSession < m.nextSession
      omega
    have hview : (s.moved m rest sessions (s.events ++ [(0,.peerReset q)])).view q = { s.view q with
        current := (JsMap.get m.peers q).map fun entry => (entry.session,entry.verified)
        reports := (s.view q).reports ++ [.reset] } := by
      have hrest : rest.filterMap (requestOf q) = s.controls.filterMap (requestOf q) := by
        rw [hc,List.filterMap_cons]
        rfl
      simp [Node.moved,view,hrest,reportOf]
    rw [hview]
    refine (h.seated q).replaced hg hlt hj hq ?_
    rcases hnew with hnew | hnew
    · exact .inl (by rw [hnew]; rfl)
    · exact .inr (by rw [hnew]; rfl)

/-- An offer takes the place of the connection a peer has. -/
theorem Inv.reoffered (h : Inv s) {payload : Js.Val}
    (hc : s.controls = (from_,.handleIncomingSignal q payload) :: rest) (session : Nat)
    (hj : ∀ n, .join n ∉ (s.view q).reports)
    (hq : ∀ n, .mark n ∉ (s.view q).requests ∧ .drop n ∉ (s.view q).requests)
    (hm : m = { s.manager with peers := JsMap.delete s.manager.peers q }) (ok : Bool) :
    Inv (([PeerManager.Effect.close session,.reset q] ++ (m.spawn q ok).2).foldl perform
      { s with manager := (m.spawn q ok).1, controls := rest }) := by
  subst hm
  obtain ⟨sessions,hclose,hb,hg⟩ := perform_close { s with
    manager := (PeerManager.spawn { s.manager with peers := JsMap.delete s.manager.peers q } q ok).1
    controls := rest } session
  rw [List.cons_append,List.foldl_cons,hclose]
  have hbegun : Begun (s.manager.nextSession+1) sessions := fun n a ha =>
    Nat.lt_succ_of_lt (hb _ h.begun n a ha)
  have hgrown := hg s.manager.nextSession s.joined
  cases ok with
  | false =>
    exact h.replaced hc hj hq rfl (fun p hp => JsMap.get_delete_ne hp) hbegun
      (hgrown.trans grows_next) (.inl (JsMap.get_delete_self _ _))
  | true =>
    exact h.replaced hc hj hq rfl
      (fun p hp => (JsMap.get_set_ne _ hp _).trans (JsMap.get_delete_ne hp))
      (hbegun.set (Nat.lt_succ_self _)) (hgrown.trans (grows_begin { peerId := q }))
      (.inr (JsMap.get_set_self _ _ _))

theorem control_initiate (m : PeerManager) (q : PeerId) (ok : Bool) :
    m.control ok (.initiateConnection q) = (m,[]) ∨
      JsMap.get m.peers q = none ∧ m.control ok (.initiateConnection q) = m.spawn q ok := by
  simp only [PeerManager.control]
  split
  · exact .inl rfl
  · split
    · next h => exact .inr ⟨by simpa [JsMap.has] using h.2,rfl⟩
    · exact .inl rfl

theorem control_signal (m : PeerManager) (q : PeerId) (payload : Js.Val) (ok : Bool) :
    m.control ok (.handleIncomingSignal q payload) = (m,[]) ∨
      JsMap.get m.peers q = none ∧ m.control ok (.handleIncomingSignal q payload) = m.spawn q ok ∨
      ∃ entry, JsMap.get m.peers q = some entry ∧ PeerManager.isOffer payload = true ∧
        m.control ok (.handleIncomingSignal q payload) =
          (let new := { m with peers := JsMap.delete m.peers q }.spawn q ok
          (new.1,[.close entry.session,.reset q] ++ new.2)) := by
  cases hvalid : isValidPeerId q with
  | false => exact .inl (by simp [PeerManager.control,hvalid])
  | true =>
  cases hentry : JsMap.get m.peers q with
  | none =>
    have hreplace : m.replace q payload = (m,[]) := by simp [PeerManager.replace,hentry]
    exact .inr (.inl ⟨rfl,by simp [PeerManager.control,hvalid,hreplace,JsMap.has,hentry]⟩)
  | some entry =>
  cases hoffer : PeerManager.isOffer payload with
  | false =>
    have hreplace : m.replace q payload = (m,[]) := by simp [PeerManager.replace,hentry,hoffer]
    exact .inl (by simp [PeerManager.control,hvalid,hreplace,JsMap.has,hentry])
  | true =>
    have hreplace : m.replace q payload = ({ m with peers := JsMap.delete m.peers q },
        [.close entry.session,.reset q]) := by simp [PeerManager.replace,hentry,hoffer]
    exact .inr (.inr ⟨entry,rfl,rfl,by simp [PeerManager.control,hvalid,hreplace,JsMap.has,
      JsMap.get_delete_self]⟩)

theorem Inv.managed {cfg : GossipActor.Config} (h : Inv s) {ok : Bool}
    (ho : InOrder s (.managed ok)) (hs : step cfg s (.managed ok) = some t) : Inv t := by
  simp only [step] at hs
  split at hs
  · cases hs
  next from_ c rest hc =>
  cases hs
  cases c with
  | initiateConnection peerId =>
    rcases control_initiate s.manager peerId ok with hctl | ⟨hnone,hctl⟩
    · rw [hctl]
      exact h.passed hc fun _ => rfl
    · rw [hctl]
      exact h.spawned hc (fun _ => rfl) hnone ok
  | handleIncomingSignal senderId payload =>
    rcases control_signal s.manager senderId payload ok with
      hctl | ⟨hnone,hctl⟩ | ⟨entry,hentry,hoffer,hctl⟩
    · rw [hctl]
      exact h.passed hc fun _ => rfl
    · rw [hctl]
      exact h.spawned hc (fun _ => rfl) hnone ok
    · obtain ⟨hj,hq⟩ := ho from_ senderId payload rest hc hoffer (by simp [JsMap.has,hentry])
      rw [hctl]
      exact h.reoffered hc entry.session hj hq rfl ok
  | dropPeer peerId => exact h.dropped hc ok
  | peerDisconnected peerId session => exact h.disconnected hc ok
  | setChallenge peerId challenge => exact h.challenged hc
  | markVerified peerId => exact h.marked hc

end

/-! The router takes its next event. -/

section
variable {cfg : GossipActor.Config} {b : GossipActor} {out : List Sent} {now : Rat}
  {draw : Challenge} {rest : List (Nat × NetworkEvent)}

/-- An event is about one peer. -/
theorem handle_other (hb : GossipActor.handle cfg s.router e now draw = (b,out))
    (hp : p ≠ e.peerId) :
    JsMap.get b.challenges p = JsMap.get s.router.challenges p ∧
      JsMap.get b.verified p = JsMap.get s.router.verified p ∧
        (out.filterMap (controlOf n)).filterMap (requestOf p) = [] := by
  cases e with
  | peerConnected q =>
    cases hb
    exact ⟨JsMap.get_set_ne _ hp _,rfl,rfl⟩
  | peerDisconnected q session =>
    cases hb
    have hne : requestOf p (n,.peerDisconnected q session) = none := if_neg (Ne.symm hp)
    exact ⟨JsMap.get_delete_ne hp,JsMap.get_delete_ne hp,by simp [controlOf,hne]⟩
  | peerReset q =>
    cases hb
    exact ⟨JsMap.get_delete_ne hp,JsMap.get_delete_ne hp,rfl⟩
  | messageReceived q msg =>
    cases GossipActor.handled_handleMessage hb with
    | ignored hc hv ho =>
      subst ho
      exact ⟨by rw [hc],by rw [hv],rfl⟩
    | answered challenge hm hc hv ho =>
      subst ho
      exact ⟨by rw [hc],by rw [hv],rfl⟩
    | refused hv expected held hj hgone ho =>
      subst ho
      have hne : requestOf p (n,.dropPeer q) = none := if_neg (Ne.symm hp)
      refine ⟨?_,?_,by simp [controlOf,hne]⟩
      · rw [hgone.1]
        exact JsMap.get_delete_ne hp
      · rw [hgone.2]
        exact JsMap.get_delete_ne hp
    | accepted expected h hc hv ho =>
      subst ho
      have hne : requestOf p (n,.markVerified q) = none := if_neg (Ne.symm hp)
      refine ⟨by rw [hc],?_,by simp [controlOf,hne]⟩
      rw [hv]
      exact JsMap.get_set_ne _ hp _

/-- Only a connection brings a challenge. -/
theorem challenged_of_handle (hb : GossipActor.handle cfg s.router e now draw = (b,out))
    (he : e.isConnected = false) (hc : JsMap.has b.challenges e.peerId = true) :
    JsMap.has s.router.challenges e.peerId = true := by
  have hdel (m : JsMap PeerId Bytes) : JsMap.has (JsMap.delete m e.peerId) e.peerId = false := by
    simp [JsMap.has,JsMap.get_delete_self]
  cases e with
  | peerConnected q => cases he
  | peerDisconnected q session =>
    cases hb
    cases (hdel _).symm.trans hc
  | peerReset q =>
    cases hb
    cases (hdel _).symm.trans hc
  | messageReceived q msg =>
    cases GossipActor.handled_handleMessage hb with
    | ignored hc' hv ho => rwa [hc'] at hc
    | answered challenge hm hc' hv ho => rwa [hc'] at hc
    | refused hv expected held hj hgone ho =>
      rw [hgone.1] at hc
      cases (hdel _).symm.trans hc
    | accepted expected h hc' hv ho => rwa [hc'] at hc

theorem view_deliver (n : Nat) (rest : List (Nat × NetworkEvent))
    (hb : GossipActor.handle cfg s.router e now draw = (b,out)) :
    (s.deliver cfg n e rest now draw).view e.peerId = { s.view e.peerId with
      requests := (s.view e.peerId).requests ++
        (out.filterMap (controlOf n)).filterMap (requestOf e.peerId)
      stamp :=
        if JsMap.has b.challenges e.peerId then
          if e.isConnected then some n else (s.view e.peerId).stamp
        else none
      proved :=
        if JsMap.has b.verified e.peerId then
          if JsMap.has s.router.verified e.peerId then (s.view e.peerId).proved else some n
        else none
      reports := rest.filterMap (reportOf e.peerId) } := by
  simp only [deliver,view,hb,List.filterMap_append]
  congr 1
  · split
    · split
      · exact JsMap.get_set_self _ _ _
      · rfl
    · exact JsMap.get_delete_self _ _
  · cases hv : JsMap.has b.verified e.peerId with
    | false => exact JsMap.get_delete_self _ _
    | true =>
      cases hv' : JsMap.has s.router.verified e.peerId with
      | false => exact JsMap.get_set_self _ _ _
      | true => rfl

theorem facts_deliver (hb : GossipActor.handle cfg s.router e now draw = (b,out)) :
    (s.deliver cfg n e rest now draw).facts = factsOf s.manager.nextSession s.sessions
      (if JsMap.has b.verified e.peerId && !JsMap.has s.router.verified e.peerId then
        n :: s.joined else s.joined) := by
  simp only [deliver,facts,hb]

theorem view_deliver_ne (he : s.events = (n,e) :: rest)
    (hb : GossipActor.handle cfg s.router e now draw = (b,out)) (hp : p ≠ e.peerId) :
    (s.deliver cfg n e rest now draw).view p = s.view p := by
  obtain ⟨-,-,hout⟩ := handle_other (n := n) hb hp
  have hrest : s.events.filterMap (reportOf p) = rest.filterMap (reportOf p) := by
    rw [he,List.filterMap_cons,reportOf_ne hp.symm]
  simp only [deliver,view,hb,List.filterMap_append,hout,List.append_nil,hrest]
  congr 1
  · split
    · split
      · exact JsMap.get_set_ne _ hp _
      · rfl
    · exact JsMap.get_delete_ne hp
  · split
    · split
      · exact JsMap.get_set_ne _ hp _
      · rfl
    · exact JsMap.get_delete_ne hp

theorem grows_deliver (n : Nat) (rest : List (Nat × NetworkEvent))
    (hb : GossipActor.handle cfg s.router e now draw = (b,out)) :
    Grows s.facts (s.deliver cfg n e rest now draw).facts := by
  rw [facts_deliver hb]
  refine ⟨Nat.le_refl _,fun _ _ h => h,fun _ _ h => h,fun k hk => ?_⟩
  change k ∈ ite _ _ _
  split
  · exact List.mem_cons_of_mem _ hk
  · exact hk

theorem router_deliver (hb : GossipActor.handle cfg s.router e now draw = (b,out)) :
    (s.deliver cfg n e rest now draw).router = b := by
  simp only [deliver,hb]

/-- It is enough to look at the peer of the event. -/
theorem Inv.delivered (h : Inv s) (he : s.events = (n,e) :: rest)
    (hb : GossipActor.handle cfg s.router e now draw = (b,out))
    (hq : Seated (s.deliver cfg n e rest now draw).facts
      ((s.deliver cfg n e rest now draw).view e.peerId)) :
    Inv (s.deliver cfg n e rest now draw) := by
  have hview := view_deliver n rest hb
  refine ⟨fun p => ?_,fun p => ?_,fun p => ?_,h.begun⟩
  · by_cases hp : p = e.peerId
    · exact hp ▸ hq
    · rw [view_deliver_ne he hb hp]
      exact (h.seated p).mono (grows_deliver _ _ hb)
  · change _ = (view _ p).stamp.isSome
    rw [router_deliver hb]
    by_cases hp : p = e.peerId
    · rw [hp,hview]
      cases hc : JsMap.has b.challenges e.peerId with
      | false => rfl
      | true =>
      cases hconn : e.isConnected with
      | false => exact (challenged_of_handle hb hconn hc).symm.trans (h.held e.peerId)
      | true => rfl
    · rw [view_deliver_ne he hb hp,JsMap.has,(handle_other (n := n) hb hp).1]
      exact h.held p
  · change _ = (view _ p).proved.isSome
    rw [router_deliver hb]
    by_cases hp : p = e.peerId
    · rw [hp,hview]
      cases hv : JsMap.has b.verified e.peerId with
      | false => rfl
      | true =>
      cases hv' : JsMap.has s.router.verified e.peerId with
      | false => rfl
      | true => exact hv'.symm.trans (h.taken e.peerId)
    · rw [view_deliver_ne he hb hp,JsMap.has,(handle_other (n := n) hb hp).2.1]
      exact h.taken p

theorem reports_cons (he : s.events = (n,e) :: rest) {r : Report}
    (hr : reportOf e.peerId (n,e) = some r) :
    (s.view e.peerId).reports = r :: rest.filterMap (reportOf e.peerId) := by
  rw [view,he,List.filterMap_cons,hr]

theorem reports_passed (he : s.events = (n,e) :: rest) (hr : reportOf e.peerId (n,e) = none) :
    (s.view e.peerId).reports = rest.filterMap (reportOf e.peerId) := by
  rw [view,he,List.filterMap_cons,hr]

theorem requests_deliver (n : Nat) (rest : List (Nat × NetworkEvent))
    (hb : GossipActor.handle cfg s.router e now draw = (b,out)) :
    ((s.deliver cfg n e rest now draw).view e.peerId).requests = (s.view e.peerId).requests ++
      (out.filterMap (controlOf n)).filterMap (requestOf e.peerId) := by
  rw [view_deliver _ _ hb]

theorem stamp_begun (hb : GossipActor.handle cfg s.router e now draw = (b,out))
    (hc : JsMap.has b.challenges e.peerId = true) (hn : e.isConnected = true) :
    ((s.deliver cfg n e rest now draw).view e.peerId).stamp = some n := by
  rw [view_deliver _ _ hb,hc,hn]
  rfl

theorem stamp_kept (h : Inv s) (hb : GossipActor.handle cfg s.router e now draw = (b,out))
    (hc : b.challenges = s.router.challenges) (hn : e.isConnected = false) :
    ((s.deliver cfg n e rest now draw).view e.peerId).stamp = (s.view e.peerId).stamp := by
  have hheld : JsMap.has s.router.challenges e.peerId = (s.view e.peerId).stamp.isSome :=
    h.held e.peerId
  rw [view_deliver _ _ hb,hc,hheld,hn]
  cases (s.view e.peerId).stamp <;> rfl

theorem proved_kept (h : Inv s) (hb : GossipActor.handle cfg s.router e now draw = (b,out))
    (hv : b.verified = s.router.verified) :
    ((s.deliver cfg n e rest now draw).view e.peerId).proved = (s.view e.peerId).proved := by
  have htaken : JsMap.has s.router.verified e.peerId = (s.view e.peerId).proved.isSome :=
    h.taken e.peerId
  rw [view_deliver _ _ hb,hv,htaken]
  cases (s.view e.peerId).proved <;> rfl

theorem has_delete_self {ν : Type} (m : JsMap PeerId ν) (q : PeerId) :
    JsMap.has (JsMap.delete m q) q = false := by
  rw [JsMap.has,JsMap.get_delete_self]
  rfl

theorem stamp_gone (hb : GossipActor.handle cfg s.router e now draw = (b,out))
    (hc : b.challenges = JsMap.delete s.router.challenges e.peerId) :
    ((s.deliver cfg n e rest now draw).view e.peerId).stamp = none := by
  rw [view_deliver _ _ hb,hc,has_delete_self]
  rfl

theorem proved_gone (hb : GossipActor.handle cfg s.router e now draw = (b,out))
    (hv : b.verified = JsMap.delete s.router.verified e.peerId) :
    ((s.deliver cfg n e rest now draw).view e.peerId).proved = none := by
  rw [view_deliver _ _ hb,hv,has_delete_self]
  rfl

theorem seated_deliver {requests : List Request} {stamp proved : Option Nat}
    (hreq : ((s.deliver cfg n e rest now draw).view e.peerId).requests = requests)
    (hstamp : ((s.deliver cfg n e rest now draw).view e.peerId).stamp = stamp)
    (hproved : ((s.deliver cfg n e rest now draw).view e.peerId).proved = proved)
    (hq : Seated (s.deliver cfg n e rest now draw).facts { s.view e.peerId with
      requests := requests, stamp := stamp, proved := proved
      reports := rest.filterMap (reportOf e.peerId) }) :
    Seated (s.deliver cfg n e rest now draw).facts
      ((s.deliver cfg n e rest now draw).view e.peerId) := by
  subst hreq hstamp hproved
  exact hq

/-- A message is no more than a JOIN that is not looked at. -/
theorem seated_passed {q : PeerId} {msg : GossipActor.P2PMessage} {f : Facts}
    (h : Seated f (s.view q)) (he : s.events = (n,.messageReceived q msg) :: rest) :
    Seated f { s.view q with reports := rest.filterMap (reportOf q) } := by
  cases hr : reportOf q (n,.messageReceived q msg) with
  | none =>
    have hreports : _ = rest.filterMap (reportOf q) := reports_passed he hr
    rw [← hreports]
    exact h
  | some r =>
    cases msg with
    | join claimedId pubkey powCounter challenge signature =>
      cases (if_pos rfl).symm.trans hr
      exact h.ignored (reports_cons he hr)
    | _ => cases hr

theorem Inv.stamped (h : Inv s) {q : PeerId} {expected : Bytes}
    (held : JsMap.get s.router.challenges q = some expected) : ∃ m, (s.view q).stamp = some m := by
  refine Option.isSome_iff_exists.mp ((h.held q).symm.trans ?_)
  rw [JsMap.has,held]
  rfl

theorem Inv.unproved (h : Inv s) {q : PeerId} (hv : JsMap.get s.router.verified q = none) :
    (s.view q).proved = none := by
  have htaken : JsMap.has s.router.verified q = (s.view q).proved.isSome := h.taken q
  rw [JsMap.has,hv] at htaken
  exact Option.not_isSome_iff_eq_none.mp (by rw [← htaken]; exact Bool.false_ne_true)

/-- A JOIN is taken for the session it comes on. -/
theorem proved_taken (n : Nat) (rest : List (Nat × NetworkEvent)) {q : PeerId}
    (hb : GossipActor.handle cfg s.router e now draw = (b,out))
    (hq : e.peerId = q) (hnone : JsMap.get s.router.verified q = none)
    (hv : b.verified = JsMap.set s.router.verified q ()) :
    ((s.deliver cfg n e rest now draw).view q).proved = some n ∧
      (s.deliver cfg n e rest now draw).facts.joined n := by
  subst hq
  have hold : JsMap.has s.router.verified e.peerId = false := by rw [JsMap.has,hnone]; rfl
  have hnew : JsMap.has b.verified e.peerId = true := by rw [hv,JsMap.has,JsMap.get_set_self]; rfl
  rw [view_deliver _ _ hb,facts_deliver hb,hold,hnew]
  exact ⟨rfl,List.mem_cons_self⟩

/-- The router handles a message. -/
theorem Inv.spoken (h : Inv s) {q : PeerId} {msg : GossipActor.P2PMessage}
    (he : s.events = (n,.messageReceived q msg) :: rest)
    (hb : GossipActor.handle cfg s.router (.messageReceived q msg) now draw = (b,out)) :
    Seated (s.deliver cfg n (.messageReceived q msg) rest now draw).facts
      ((s.deliver cfg n (.messageReceived q msg) rest now draw).view q) := by
  have hseated := (h.seated q).mono (grows_deliver n rest hb)
  have hreq := requests_deliver n rest hb
  cases GossipActor.handled_handleMessage hb with
  | ignored hc hv ho =>
    subst ho
    exact seated_deliver (hreq.trans (List.append_nil _)) (stamp_kept h hb hc rfl)
      (proved_kept h hb hv) (seated_passed hseated he)
  | answered challenge hm hc hv ho =>
    subst ho
    exact seated_deliver (hreq.trans (List.append_nil _)) (stamp_kept h hb hc rfl)
      (proved_kept h hb hv) (seated_passed hseated he)
  | refused hv expected held hj hgone ho =>
    subst ho
    obtain ⟨claimedId,pubkey,powCounter,challenge,signature,rfl⟩ := hj
    obtain ⟨m,hm⟩ := h.stamped held
    have hnone := h.unproved hv
    refine seated_deliver (hreq.trans ?_) (stamp_gone hb hgone.1)
      ((proved_gone hb hgone.2).trans hnone.symm)
      (hseated.refused (reports_cons he (if_pos rfl)) hm hnone)
    simp [controlOf,requestOf,NetworkEvent.peerId]
  | accepted expected ha hc hv ho =>
    subst ho
    obtain ⟨pubkey,powCounter,signature,rfl,-,-⟩ := ha.join
    obtain ⟨m,hm⟩ := h.stamped ha.held
    obtain ⟨hproved,hjoined⟩ := proved_taken n rest hb rfl ha.unverified hv
    refine seated_deliver (hreq.trans ?_) (stamp_kept h hb hc rfl) hproved
      (hseated.accepted (reports_cons he (if_pos rfl)) hm hjoined)
    simp [controlOf,requestOf,NetworkEvent.peerId]

theorem Inv.handled (h : Inv s) (hs : step cfg s (.handled now draw) = some t) : Inv t := by
  simp only [step] at hs
  split at hs
  · cases hs
  next n e rest he =>
  cases hs
  obtain ⟨b,out,hb⟩ : ∃ b out, GossipActor.handle cfg s.router e now draw = (b,out) := ⟨_,_,rfl⟩
  refine h.delivered he hb ?_
  have hseated := (h.seated e.peerId).mono (grows_deliver n rest hb)
  have hreq := requests_deliver n rest hb
  cases e with
  | peerConnected q =>
    cases hb
    refine seated_deliver (hreq.trans (List.append_nil _)) (stamp_begun rfl ?_ rfl)
      (proved_kept h rfl rfl) (hseated.connected (reports_cons he (if_pos rfl)))
    change (JsMap.get (JsMap.set _ q _) q).isSome = true
    rw [JsMap.get_set_self]
    rfl
  | peerDisconnected q session =>
    cases hb
    refine seated_deliver (hreq.trans ?_) (stamp_gone rfl rfl) (proved_gone rfl rfl)
      (hseated.lost (reports_cons he (if_pos rfl)))
    simp [controlOf,requestOf,NetworkEvent.peerId]
  | peerReset q =>
    cases hb
    exact seated_deliver (hreq.trans (List.append_nil _)) (stamp_gone rfl rfl) (proved_gone rfl rfl)
      (hseated.reset (reports_cons he (if_pos rfl)))
  | messageReceived q msg => exact h.spoken he hb

end

theorem Inv.step {cfg : GossipActor.Config} {a : Action} (h : Inv s) (ho : InOrder s a)
    (hs : step cfg s a = some t) : Inv t := by
  cases a with
  | signalled c => exact h.signalled hs
  | managed ok => exact h.managed ho hs
  | handled now draw => exact h.handled hs
  | opened session => exact h.opened ho hs
  | received session message => exact h.received ho hs
  | lost session => exact h.lost ho hs
  | closed session => exact h.closed hs

theorem inv_initial (myPeerId : PeerId) : Inv (initial myPeerId) :=
  ⟨fun _ => Seated.empty _,fun _ => rfl,fun _ => rfl,nofun⟩

/-- The notice that a session is over finds no other session in the handshake. -/
theorem Inv.late (h : Inv s) {from_ session newer : Nat} {rest : List (Nat × NetworkEvent)}
    (he : s.events = (from_,.peerDisconnected p session) :: rest)
    (hs : JsMap.get s.stamps p = some newer) : newer = session := by
  have hr : (s.view p).reports = .lost session :: rest.filterMap (reportOf p) :=
    reports_cons he (if_pos rfl)
  have horderly : Orderly (s.view p).stays (s.view p).stamp
      (.lost session :: rest.filterMap (reportOf p)) := hr ▸ (h.seated p).orderly
  exact horderly.2.1.1 newer hs

theorem agrees_of_inv {cfg : GossipActor.Config} (h : Inv s) : Agrees cfg s := by
  refine ⟨fun p entry hentry hv => ?_,fun from_ p session rest now draw newer he hlt hs => ?_,
    fun from_ p session rest now draw newer he hlt hp => ?_,fun p session entry ok hentry hlt => ?_,
    fun he hc p => ?_⟩
  · refine (h.seated p).joined entry.session (.inl ?_)
    change (JsMap.get s.manager.peers p).map _ = _
    rw [hentry,← hv]
    rfl
  · exact absurd (h.late he hs) (Nat.ne_of_gt hlt)
  · exact absurd (h.late he ((h.seated p).proved newer hp)) (Nat.ne_of_gt hlt)
  · have hne : entry.session ≠ session := Nat.ne_of_gt hlt
    simp [PeerManager.control,hentry,hne]
  · have hreports : (s.view p).reports = [] := by rw [view,he]; rfl
    have hrequests : (s.view p).requests = [] := by rw [view,hc]; rfl
    have hagree (n : Nat) := (h.seated p).agree (n := n) hreports hrequests
    rw [h.taken p]
    constructor
    · intro hp
      obtain ⟨n,hn⟩ := Option.isSome_iff_exists.mp hp
      obtain ⟨entry,hentry,he⟩ := Option.map_eq_some_iff.mp ((hagree n).mp hn)
      exact ⟨entry,hentry,congrArg Prod.snd he⟩
    · rintro ⟨entry,hentry,hv⟩
      refine Option.isSome_iff_exists.mpr ⟨entry.session,(hagree entry.session).mpr ?_⟩
      change (JsMap.get s.manager.peers p).map _ = _
      rw [hentry,← hv]
      rfl

end

/-- Through any run in order, the router and the manager agree in every state. -/
theorem agrees_of_inOrder {cfg : GossipActor.Config} {myPeerId : PeerId} {actions : List Action}
    {s : Node} (ho : Machine.Along (step cfg) InOrder (initial myPeerId) actions)
    (hr : Machine.run (step cfg) (initial myPeerId) actions = some s) : Agrees cfg s :=
  agrees_of_inv (Machine.invariant_run (fun _ _ _ h ho hs => h.step ho hs) (inv_initial myPeerId)
    ho hr)

/-! A peer that offers a connection twice. -/

def isForemost (s : Node) (session : Nat) : Bool :=
  (JsMap.get s.sessions session).all fun a => (s.current a.peerId).all fun other =>
    other == session || (JsMap.get s.sessions other).all fun b => !b.announced

/-- `InOrder` for a run that is given -/
def isInOrder (s : Node) : Action → Bool
  | .opened session => (JsMap.get s.sessions session).all fun a =>
    a.announced || s.current a.peerId == some session
  | .received session _ => s.isForemost session
  | .lost session => s.isForemost session
  | .managed _ =>
    match s.controls with
    | (_,.handleIncomingSignal senderId _) :: _ => !JsMap.has s.manager.peers senderId ||
      (s.view senderId).reports.isEmpty && (s.view senderId).requests.isEmpty
    | _ => true
  | _ => true

theorem foremost_of_isForemost {s : Node} {session : Nat} (h : s.isForemost session = true) :
    s.Foremost session := by
  intro a ha other hother
  simp only [isForemost,ha,hother,Option.all_some,Bool.or_eq_true,beq_iff_eq] at h
  refine h.imp_right fun h b hb => ?_
  simpa [hb] using h

theorem inOrder_of_isInOrder (s : Node) (a : Action) (h : isInOrder s a = true) : InOrder s a := by
  cases a with
  | opened session =>
    intro a ha hann
    simpa [isInOrder,ha,hann] using h
  | received session message =>
    cases message with
    | join => exact foremost_of_isForemost h
    | _ => trivial
  | lost session => exact foremost_of_isForemost h
  | managed ok =>
    intro from_ senderId payload rest hc _ hp
    simp only [isInOrder,hc,hp,Bool.not_true,Bool.false_or,Bool.and_eq_true,
      List.isEmpty_iff] at h
    rw [h.1,h.2]
    exact ⟨fun _ => List.not_mem_nil,fun _ => ⟨List.not_mem_nil,List.not_mem_nil⟩⟩
  | _ => trivial

def sampleConfig : GossipActor.Config := meetingNodes.config false

def samplePeer : PeerId := (sampleIdentity 2).peerId

def sampleOffer : Action :=
  .signalled (.handleIncomingSignal samplePeer (.obj [("sdp",.obj [("type",.str "offer")])]))

/-- A session is opened, and its HELLO answered. -/
def sampleHandshake (session : Nat) (b : UInt8) : List Action :=
  [.opened session,.handled 0 (sampleChallenge b),.managed true,
    .received session (GossipActor.answer (meetingNodes.config true) (sampleChallenge b).1),
    .handled 0 (sampleChallenge 0),.managed true]

/-- The second offer comes in the place of the first. -/
def reofferedRun : List Action :=
  [sampleOffer,.managed true] ++ sampleHandshake 1 7 ++
    [sampleOffer,.managed true,.handled 0 (sampleChallenge 0),.closed 1] ++ sampleHandshake 2 8

/-- The first session is lost before its actor has taken the `Close`, but after the second has
been verified. -/
def lateLossRun : List Action :=
  [sampleOffer,.managed true] ++ sampleHandshake 1 7 ++
    [sampleOffer,.managed true,.handled 0 (sampleChallenge 0)] ++ sampleHandshake 2 8 ++
      [.lost 1,.handled 0 (sampleChallenge 0),.managed true]

/-- The second session is verified by the router and by the manager. -/
theorem agrees_reofferedRun : ∃ s, Machine.run (step sampleConfig)
    (initial (sampleIdentity 1).peerId) reofferedRun = some s ∧ 2 ∈ s.joined ∧
      JsMap.has s.router.verified samplePeer = true := by
  have ho : Machine.Along (step sampleConfig) InOrder (initial (sampleIdentity 1).peerId)
      reofferedRun := Machine.along_of_check inOrder_of_isInOrder (by decide +kernel)
  have hrun : (Machine.run (step sampleConfig) (initial (sampleIdentity 1).peerId)
      reofferedRun).any (fun s => s.events.isEmpty && s.controls.isEmpty &&
        (JsMap.get s.manager.peers samplePeer).any fun entry =>
          entry.verified && entry.session == 2) = true := by
    decide +kernel
  obtain ⟨s,hr,hs⟩ := (Option.any_eq_true _ _).mp hrun
  simp only [Bool.and_eq_true,List.isEmpty_iff] at hs
  obtain ⟨⟨he,hc⟩,hentry⟩ := hs
  obtain ⟨entry,hentry,hv⟩ := (Option.any_eq_true _ _).mp hentry
  simp only [Bool.and_eq_true,beq_iff_eq] at hv
  have h := agrees_of_inOrder ho hr
  refine ⟨s,hr,?_,(h.settled he hc samplePeer).mpr ⟨entry,hentry,hv.1⟩⟩
  rw [← hv.2]
  exact h.marked samplePeer entry hentry hv.1

theorem not_agrees_lateLossRun : ∃ s, Machine.run (step sampleConfig)
    (initial (sampleIdentity 1).peerId) lateLossRun = some s ∧ ¬Agrees sampleConfig s := by
  have hrun : (Machine.run (step sampleConfig) (initial (sampleIdentity 1).peerId)
      lateLossRun).any (fun s => s.events.isEmpty && s.controls.isEmpty &&
        !JsMap.has s.router.verified samplePeer &&
          (JsMap.get s.manager.peers samplePeer).any fun entry => entry.verified) = true := by
    decide +kernel
  obtain ⟨s,hr,hs⟩ := (Option.any_eq_true _ _).mp hrun
  simp only [Bool.and_eq_true,List.isEmpty_iff,Bool.not_eq_true'] at hs
  obtain ⟨⟨⟨he,hc⟩,hv⟩,hentry⟩ := hs
  obtain ⟨entry,hentry,hverified⟩ := (Option.any_eq_true _ _).mp hentry
  refine ⟨s,hr,fun h => ?_⟩
  have hsettled := (h.settled he hc samplePeer).mpr ⟨entry,hentry,hverified⟩
  rw [hv] at hsettled
  cases hsettled

end Cache.Node
