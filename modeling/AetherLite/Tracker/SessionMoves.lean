import AetherLite.Tracker.TrackerServer

/-! What a step of a tracker can do to its connections and sessions. -/
set_option autoImplicit false

namespace TrackerServer

open Js NodeIdentity TrackerProtocol

/-- A connection as far as the sessions depend on it. -/
structure Core where
  closed : Bool
  nonce : Bytes
  host : Option String
  address : String
  peerId : Option PeerId

def Connection.core (c : Connection) : Core :=
  ⟨decide (c.readyState = .closed),c.nonce,c.host,c.address,c.peerId⟩

/-- A state as far as the sessions depend on it. -/
structure Image where
  conns : List Core
  connections : List Nat
  perAddress : JsMap String Nat
  sessions : SessionManager
  greeting : List Nat
  trace : List Event

section Images
variable {ρ : Type}

def State.image (s : State ρ) : Image :=
  ⟨s.conns.map Connection.core,s.connections,s.perAddress,s.sessions,s.greeting,s.trace⟩

def Image.log (m : Image) (e : Event) : Image := { m with trace := m.trace ++ [e] }

@[simp] theorem image_log (s : State ρ) (e : Event) : (s.log e).image = s.image.log e := rfl

@[simp] theorem connections_log (s : State ρ) (e : Event) : (s.log e).connections = s.connections :=
  rfl

@[simp] theorem connections_update (s : State ρ) (ws : Nat) (f : Connection → Connection) :
    (s.update ws f).connections = s.connections := rfl

def Image.update (m : Image) (ws : Nat) (f : Core → Core) : Image :=
  { m with conns := m.conns.modify ws f }

theorem image_update {f : Connection → Connection} {g : Core → Core}
    (h : ∀ c, (f c).core = g c.core) (s : State ρ) (ws : Nat) :
    (s.update ws f).image = s.image.update ws g := by
  simp only [State.update,State.image,Image.update,Image.mk.injEq,and_true]
  apply List.ext_getElem?
  intro i
  simp only [List.getElem?_map,List.getElem?_modify]
  by_cases hi : ws = i
  · cases hc : s.conns[i]? <;> simp [hi,h]
  · simp [hi]

theorem image_update_same {f : Connection → Connection} (h : ∀ c, (f c).core = c.core)
    (s : State ρ) (ws : Nat) : (s.update ws f).image = s.image := by
  rw [image_update (g := id) h]
  simp [Image.update]

@[simp] theorem core_shut (c : Connection) : c.shut.core = c.core := by
  cases hc : c.readyState <;> simp [Connection.shut,Connection.core,hc]

@[simp] theorem image_shut (s : State ρ) (ws : Nat) :
    (s.update ws Connection.shut).image = s.image := image_update_same core_shut s ws

theorem image_shutAll (terminated : List Nat) (s : State ρ) :
    (terminated.foldl (fun s ws => s.update ws Connection.shut) s).image = s.image := by
  induction terminated generalizing s with
  | nil => rfl
  | cons ws terminated ih => rw [List.foldl_cons,ih,image_shut]

@[simp] theorem image_answer (s : State ρ) (ws : Nat) (a : Answer) :
    (s.answer ws a).image = s.image := by
  unfold State.answer
  split <;> rfl

@[simp] theorem image_sendError (s : State ρ) (ws : Nat) (code : TrackerErrorCode) :
    (s.sendError ws code).image = s.image := image_answer s ws _

@[simp] theorem image_reject (s : State ρ) (ws : Nat) (code : TrackerErrorCode) :
    (s.reject ws code).image = s.image := by
  rw [State.reject,image_shut,image_sendError]

end Images

section Moves
variable {ρ : Type} (cfg : Config ρ) (Signs : Bytes → Bytes → Prop)

/-- A key of which the id is the hash has signed a nonce for a host that is accepted. -/
def Good (asked : Option String) (nonce : Bytes) (id : PeerId) (pubkey : Bytes) (host : String) :
    Prop :=
  derivePeerId cfg.sodium pubkey = id ∧ hostAccepted cfg asked host = true ∧
    ∃ message, trackerJoinMessage cfg.lower nonce id host = .ok message ∧ Signs pubkey message

def spent (c : Core) : Core := { c with nonce := [] }

def renamed (c : Core) : Core := { c with peerId := none }

def named (id : PeerId) (c : Core) : Core := { c with peerId := some id }

def Image.replace (m : Image) (ws old : Nat) : Image :=
  if old = ws then m
  else
    let n := m.log (.replaced old)
    if old ∈ m.connections then n.update old renamed else n

def Image.register (m : Image) (ws : Nat) (id : PeerId) (replaced : Option Nat) : Image :=
  let n := (m.log (.registered ws id)).update ws (named id)
  match replaced with
  | none => n
  | some old => n.replace ws old

def Image.prove (m : Image) (ws : Nat) (nonce : Bytes) (id : PeerId) (pubkey : Bytes)
    (host : String) : Image := (m.update ws spent).log (.proved ws nonce id pubkey host)

def Image.close (m : Image) (ws : Nat) (c : Core) : Image :=
  let n := m.update ws fun c => { c with closed := true }
  let left := (JsMap.get m.perAddress c.address).getD 1-1
  let n : Image :=
    if ws ∈ m.connections then
      { n with
        connections := n.connections.erase ws
        perAddress :=
          if left = 0 then JsMap.delete m.perAddress c.address
          else JsMap.set m.perAddress c.address left }
    else n
  { n with sessions := n.sessions.onClose ws }

/-- What a step can do to the sessions. -/
inductive Move : Image → Image → Prop
  | idle (m : Image) : Move m m
  | accept {m : Image} (address : String) (host : Option String)
      (h : (JsMap.get m.perAddress address).getD 0 < cfg.maxConnectionsPerAddress) :
      Move m { m with
        perAddress := JsMap.set m.perAddress address ((JsMap.get m.perAddress address).getD 0+1)
        conns := m.conns ++ [⟨false,[],host,address,none⟩]
        connections := m.connections ++ [m.conns.length]
        greeting := m.greeting ++ [m.conns.length] }
  | unsaid {m : Image} {i ws : Nat} {rest : List Nat}
      (h : Machine.takeTask m.greeting i = some (ws,rest)) : Move m { m with greeting := rest }
  | hello {m : Image} {i ws : Nat} {rest : List Nat} {nonce : Bytes}
      (h : Machine.takeTask m.greeting i = some (ws,rest)) (hn : nonce ≠ []) :
      Move m ((Image.update { m with greeting := rest } ws fun c => { c with nonce := nonce }).log
        (.hello ws nonce))
  | spend {m : Image} (ws : Nat) : Move m (m.update ws spent)
  | prove {m : Image} {ws : Nat} {c : Core} {id : PeerId} {pubkey : Bytes} {host : String}
      (hc : m.conns[ws]? = some c) (hn : c.nonce ≠ [])
      (hg : Good cfg Signs c.host c.nonce id pubkey host) :
      Move m (m.prove ws c.nonce id pubkey host)
  | join {m : Image} {ws now : Nat} {c : Core} {id : PeerId} {pubkey : Bytes} {host : String}
      {replaced : Option Nat} {sessions : SessionManager}
      (hc : m.conns[ws]? = some c) (hopen : c.closed = false) (hid : c.peerId = none)
      (hn : c.nonce ≠ []) (hg : Good cfg Signs c.host c.nonce id pubkey host)
      (hr : m.sessions.registerSession cfg.maxSessions now ws id = (.ok replaced,sessions)) :
      Move m (Image.register { m.prove ws c.nonce id pubkey host with sessions := sessions } ws id
        replaced)
  | relay {m : Image} {ws target : Nat} {c : Core} {id : PeerId} (payload : List (String × Val))
      (hc : m.conns[ws]? = some c) (hid : c.peerId = some id) :
      Move m (m.log (.relayed ws target id payload))
  | touch {m : Image} (now ws : Nat) : Move m { m with sessions := m.sessions.onPong now ws }
  | expire {m : Image} (now : Nat) :
      Move m { m with sessions := (m.sessions.cleanupPings cfg.idleTimeoutMs now).2 }
  | close {m : Image} {ws : Nat} {c : Core} (hc : m.conns[ws]? = some c) : Move m (m.close ws c)

variable {cfg Signs}

theorem image_conns {s : State ρ} {ws : Nat} {c : Connection} (h : s.conns[ws]? = some c) :
    s.image.conns[ws]? = some c.core := by simp [State.image,h]

theorem move_accept (s : State ρ) (address : String) (host : Option String) :
    Move cfg Signs s.image (accept cfg s address host).image := by
  unfold accept
  dsimp only
  split
  · exact .idle _
  · next h =>
    have hroom : (JsMap.get s.image.perAddress address).getD 0 < cfg.maxConnectionsPerAddress :=
      Nat.not_le.mp h
    simpa [State.image,Connection.core] using
      Move.accept (m := s.image) address (normalizeHostHeader cfg.lower host) hroom

theorem isOpen_update {f : Connection → Connection} (h : ∀ c, (f c).readyState = c.readyState)
    (s : State ρ) (ws : Nat) : (s.update ws f).isOpen ws = s.isOpen ws := by
  simp only [State.isOpen,State.update,List.getElem?_modify]
  cases s.conns[ws]? <;> simp [h]

theorem move_hello {s : State ρ} {i ws : Nat} {rest : List Nat} {nonce : Bytes}
    (h : Machine.takeTask s.greeting i = some (ws,rest)) (hn : nonce ≠ []) :
    Move cfg Signs s.image (hello { s with greeting := rest } ws nonce).image := by
  unfold hello
  split
  · next hopen =>
    rw [State.send,isOpen_update (by simp),if_pos hopen,image_log,
      image_update (g := fun c => { c with nonce := nonce }) (by simp [Connection.core])]
    exact .hello h hn
  · exact .unsaid h

theorem move_relay {s : State ρ} {ws : Nat} {c : Connection} (hc : s.conns[ws]? = some c)
    (target : PeerId) (payload : List (String × Val)) :
    Move cfg Signs s.image (handleRelay cfg s ws c target payload).image := by
  unfold handleRelay
  split
  · rw [image_reject]
    exact .idle _
  · next senderId hid =>
    dsimp only
    split
    · exact .idle _
    · split
      · exact .idle _
      · next session _ =>
        unfold State.send
        split
        · exact .relay payload (image_conns hc) hid
        · exact .idle _

theorem image_close (s : State ρ) (ws : Nat) (c : Connection) :
    (close cfg s ws c).image = s.image.close ws c.core := by
  have hclosed := image_update (f := fun c => { c with readyState := .closed })
    (g := fun c => { c with closed := true }) (by simp [Connection.core]) s ws
  have htimer : ∀ t : State ρ, (t.update ws fun c => { c with handshakeTimer := false }).image =
      t.image := fun t => image_update_same (by simp [Connection.core]) t ws
  by_cases hmem : ws ∈ s.connections
  · have hin : ws ∈ (s.update ws fun c => { c with readyState := .closed }).connections := hmem
    simp only [close,release,if_pos hin]
    change ({ (State.update _ ws _).image with sessions := _ } : Image) = _
    rw [htimer,Image.close,← hclosed]
    simp only [show ws ∈ s.image.connections from hmem,if_true]
    rfl
  · have hout : ws ∉ (s.update ws fun c => { c with readyState := .closed }).connections := hmem
    simp only [close,release,if_neg hout]
    change ({ (State.update _ ws _).image with sessions := _ } : Image) = _
    rw [Image.close,hclosed]
    simp only [show ws ∉ s.image.connections from hmem,if_false]
    rfl

theorem image_replace (s : State ρ) (ws old : Nat) :
    (replace s ws old).image = s.image.replace ws old := by
  unfold replace Image.replace
  split
  · rfl
  · dsimp only
    rw [image_shut,connections_log]
    by_cases hmem : old ∈ s.connections
    · rw [if_pos hmem,if_pos (show old ∈ s.image.connections from hmem)]
      exact image_update (by simp [Connection.core,renamed]) (s.log (.replaced old)) old
    · rw [if_neg hmem,if_neg (show old ∉ s.image.connections from hmem)]
      rfl

theorem image_register (s : State ρ) (ws : Nat) (id : PeerId) (replaced : Option Nat) :
    (register s ws id replaced).image = s.image.register ws id replaced := by
  have hnamed : ((s.log (.registered ws id)).update ws fun c =>
      { c with peerId := some id, handshakeTimer := false }).image =
        (s.image.log (.registered ws id)).update ws (named id) :=
    image_update (by simp [Connection.core,named]) _ ws
  unfold register Image.register
  dsimp only
  cases replaced with
  | none => exact hnamed
  | some old => rw [image_replace,hnamed]

/-- The state in which the nonce is spent on a good signature. -/
theorem image_proved (s : State ρ) (ws : Nat) (nonce : Bytes) (id : PeerId) (pubkey : Bytes)
    (host : String) : ((s.update ws fun c => { c with nonce := [] }).log
      (.proved ws nonce id pubkey host)).image = s.image.prove ws nonce id pubkey host := by
  rw [image_log,image_update (g := spent) (by simp [Connection.core,spent]),Image.prove]

theorem move_join {s : State ρ} {ws : Nat} {c : Connection} (hc : s.conns[ws]? = some c)
    (hopen : c.readyState = .opened) (hid : c.peerId = none) (hn : c.nonce ≠ []) {id : PeerId}
    {pubkey : Bytes} {host : String} (hg : Good cfg Signs c.host c.nonce id pubkey host)
    (randomInt : Nat → Nat) :
    Move cfg Signs s.image (join cfg ((s.update ws fun c => { c with nonce := [] }).log
      (.proved ws c.nonce id pubkey host)) ws id randomInt).image := by
  have hcore := image_conns hc
  have hclosed : c.core.closed = false := by simp [Connection.core,hopen]
  have himage := image_proved s ws c.nonce id pubkey host
  unfold join
  split
  · rw [image_reject,himage]
    exact .prove hcore hn hg
  · next replaced sessions hr =>
    dsimp only
    rw [image_answer,image_register]
    have hwith : ∀ t : State ρ, State.image { t with sessions := sessions } =
        { t.image with sessions := sessions } := fun t => rfl
    rw [hwith,himage]
    exact .join hcore hclosed hid hn hg hr

theorem move_handleJoin (hsigns : ∀ sig message key,
      cfg.sodium.verifyDetached sig message key = true → Signs key message)
    {s : State ρ} {ws : Nat} {c : Connection} (hc : s.conns[ws]? = some c) (msg : TrackerJoin)
    (randomInt : Nat → Nat) :
    Move cfg Signs s.image (handleJoin cfg s ws c msg randomInt).image := by
  unfold handleJoin
  split
  · rw [image_sendError]
    exact .idle _
  next hid =>
  split
  · rw [image_reject]
    exact .idle _
  next hn =>
  split
  · rw [image_reject]
    exact .idle _
  split
  · rw [image_reject]
    exact .idle _
  next hhost =>
  split
  · rw [image_reject]
    exact .idle _
  next hclaim =>
  have hverified : verifyClaim cfg.sodium ⟨msg.peerId,fromHex msg.pubkey.toList,msg.powCounter⟩
      cfg.powParams = true := by
    rwa [Bool.not_eq_true',Bool.not_eq_false] at hclaim
  have hspent := image_update (f := fun c => { c with nonce := [] }) (g := spent)
    (by simp [Connection.core,spent]) s ws
  dsimp only
  split
  · rw [image_reject,hspent]
    exact .spend ws
  next hproves =>
  have hbound := derivePeerId_of_verifyClaim hverified
  have hg : Good cfg Signs c.host c.nonce msg.peerId (fromHex msg.pubkey.toList) msg.host := by
    refine ⟨hbound,by simpa using hhost,?_⟩
    unfold proves at hproves
    split at hproves
    · simp at hproves
    · next message hmessage => exact ⟨message,hmessage,hsigns _ _ _ (by simpa using hproves)⟩
  split
  · rw [image_proved]
    exact .prove (image_conns hc) hn hg
  · next hopen =>
    exact move_join hc (by simpa using hopen) (by simpa using hid) hn hg randomInt

theorem step_move (hsigns : ∀ sig message key,
      cfg.sodium.verifyDetached sig message key = true → Signs key message)
    {s t : State ρ} {a : Action} (h : step cfg s a = some t) :
    Move cfg Signs s.image t.image := by
  have hconn : ∀ {u : State ρ} {ws : Nat} {f : Connection → State ρ},
      onConnection u ws f = some t → ∃ c, u.conns[ws]? = some c ∧ f c = t := by
    intro u ws f hu
    exact Option.map_eq_some_iff.mp hu
  cases a with
  | accept address host =>
    cases h
    exact move_accept s address host
  | hello i nonce =>
    obtain ⟨⟨ws,rest⟩,htask,rfl⟩ := Option.map_eq_some_iff.mp h
    refine move_hello htask ?_
    intro hnil
    have hlen := nonce.2
    rw [hnil] at hlen
    simp [challengeBytes] at hlen
  | message ws raw =>
    obtain ⟨c,hc,rfl⟩ := hconn h
    unfold handleMessage
    split
    · rw [image_reject]
      exact .idle _
    · exact move_relay hc _ _
    · dsimp only
      split
      · exact .idle _
      · rw [image_sendError]
        exact .idle _
  | resume i randomInt =>
    obtain ⟨r,htask,h⟩ := Option.bind_eq_some_iff.mp h
    obtain ⟨c,hc,rfl⟩ := hconn h
    exact move_handleJoin hsigns (s := { s with joining := r.2 }) hc r.1.2 randomInt
  | handshakeTimeout ws =>
    obtain ⟨c,hc,rfl⟩ := hconn h
    have htimer : (s.update ws fun c => { c with handshakeTimer := false }).image = s.image :=
      image_update_same (by simp [Connection.core]) s ws
    unfold handshakeTimeout
    split
    · dsimp only
      split
      · rw [image_reject,htimer]
        exact .idle _
      · rw [htimer]
        exact .idle _
    · exact .idle _
  | pong ws =>
    cases h
    exact .touch s.now ws
  | cleanupPings =>
    cases h
    rw [cleanupPings,image_shutAll]
    exact .expire s.now
  | closing ws =>
    cases h
    rw [image_shut]
    exact .idle _
  | close ws =>
    obtain ⟨c,hc,rfl⟩ := hconn h
    rw [image_close]
    exact .close (image_conns hc)
  | tick now =>
    cases h
    exact .idle _

end Moves

end TrackerServer
