import AetherLite.Lib.Machine
import AetherLite.Tracker.TrackerProtocol

/-! A node and its connections to trackers, of which it holds one at a time. Which callback of
which socket runs next is in the action; a socket that is shut may still call back. -/
set_option autoImplicit false

namespace SignalingClient

open Js NodeIdentity TrackerProtocol

inductive ReadyState where
  | connecting
  | opened
  | closing
  | closed
  deriving DecidableEq

inductive Phase where
  | hello
  | joining
  | joined
  deriving DecidableEq

/-- The codes that a node knows: two more than a tracker uses. -/
inductive ErrorCode where
  | tracker (code : TrackerErrorCode)
  | invalidTarget
  | tooLarge
  deriving DecidableEq

inductive Failure where
  | notConfigured
  | noIdentity
  /-- `TrackerJoinError` -/
  | join (code : ErrorCode)
  | timeout
  | connectionError
  | connectionClosed
  deriving DecidableEq

/-- What a tracker sends, after `parseTrackerServerMessage`. -/
inductive ServerMessage where
  | hello (v : Int) (nonce : String)
  | peers (peers : List PeerId)
  | relay (senderId : PeerId) (payload : List (String × Val))
  | error (code : ErrorCode)

/-- Who joins: `sign` is `signTrackerJoin`, given the nonce and the host. -/
structure Signer where
  peerId : PeerId
  pubkey : Bytes
  powCounter : Number
  sign : Bytes → String → Bytes

/-- A tracker's address, and the host that is signed for. -/
structure Url where
  href : String
  host : String
  deriving DecidableEq

/-- One attempt: its socket, and the variables its callbacks share. -/
structure Attempt where
  url : Url
  identity : Signer
  generation : Nat
  readyState : ReadyState := .connecting
  phase : Phase := .hello
  /-- How the promise was settled. -/
  settled : Option (Except Failure Unit) := none
  timer : Bool := true
  sent : List TrackerClientMessage := []

/-- What the listeners are called with. -/
inductive Call where
  | peers (attempt : Nat) (peers : List PeerId)
  | relay (attempt : Nat) (senderId : PeerId) (payload : List (String × Val))

/-- How a call of `connect` ends that does not start an attempt. -/
inductive Shortcut where
  | failed (err : Failure)
  | connected
  | awaits (attempt : Nat)

structure State where
  url : Option Url := none
  ws : Option Nat := none
  pending : Option Nat := none
  generation : Nat := 0
  attempts : List Attempt := []
  calls : List Call := []

inductive Action where
  /-- With an address that `parseTrackerUrl` took, or with none. -/
  | setUrl (url : Option Url)
  | connect (identity : Option Signer)
  | disconnect
  | sendRelay (target : PeerId) (payload : List (String × Val))
  | onopen (i : Nat)
  /-- A frame, or none for one that is malformed. -/
  | onmessage (i : Nat) (msg : Option ServerMessage)
  | onerror (i : Nat)
  | onclose (i : Nat)
  | timeout (i : Nat)
  /-- The first caller of an attempt goes on, once it is settled. -/
  | resume (i : Nat)

section
variable (textLength : TrackerClientMessage → Nat)

def State.update (s : State) (i : Nat) (f : Attempt → Attempt) : State :=
  { s with attempts := s.attempts.modify i f }

def Attempt.close (a : Attempt) : Attempt :=
  { a with readyState := match a.readyState with
      | .connecting | .opened => .closing
      | r => r }

def closeSocket (s : State) : State :=
  match s.ws with
  | none => s
  | some i => { s.update i Attempt.close with ws := none }

def disconnect (s : State) : State :=
  closeSocket { s with generation := s.generation+1, pending := none }

def setUrl (s : State) (url : Option Url) : State := { disconnect s with url := url }

def isConnected (s : State) : Bool :=
  (s.ws.bind fun i => s.attempts[i]?).any fun a => a.readyState == .opened

/-- `sendRaw` -/
def Attempt.send (a : Attempt) (msg : TrackerClientMessage) : Attempt :=
  if a.readyState = .opened ∧ textLength msg ≤ trackerMaxFrameBytes then
    { a with sent := a.sent ++ [msg] }
  else a

def start (s : State) (url : Url) (identity : Signer) : State :=
  let s := closeSocket s
  let generation := s.generation+1
  { s with
    generation := generation
    attempts := s.attempts ++ [{ url, identity, generation }]
    ws := some s.attempts.length
    pending := some s.attempts.length }

def connect (s : State) (identity : Option Signer) : State × Option Shortcut :=
  match s.url with
  | none => (s,some (.failed .notConfigured))
  | some url =>
    if isConnected s then (s,some .connected)
    else match s.pending with
    | some i => (s,some (.awaits i))
    | none =>
      match identity with
      | none => (s,some (.failed .noIdentity))
      | some identity => (start s url identity,none)

def Attempt.reject (err : Failure) (a : Attempt) : Attempt :=
  { a with settled := some (.error err), timer := false }

def Attempt.register (a : Attempt) : Attempt :=
  { a with phase := .joined, settled := some (.ok ()), timer := false }

def fail (s : State) (i : Nat) (err : Failure) : State :=
  match s.attempts[i]? with
  | none => s
  | some a =>
    if a.settled.isSome then s
    else
      let s := s.update i (Attempt.reject err)
      if s.ws = some i then closeSocket s else s

/-- The JOIN that answers the tracker's nonce. -/
def Attempt.joinMessage (a : Attempt) (nonce : String) : TrackerJoin where
  v := trackerProtocolVersion
  peerId := a.identity.peerId
  pubkey := Bytes.toHex a.identity.pubkey
  powCounter := a.identity.powCounter
  host := a.url.host
  sig := Bytes.toHex (a.identity.sign (fromHex nonce.toList) a.url.host)

def onHello (s : State) (i : Nat) (a : Attempt) : ServerMessage → State
  | .hello v nonce =>
    if v ≠ trackerProtocolVersion then fail s i (.join (.tracker .unsupportedVersion))
    else s.update i fun b =>
      ({ b with phase := .joining } : Attempt).send textLength (.join (a.joinMessage nonce))
  | _ => fail s i (.join (.tracker .badMessage))

def onmessage (s : State) (i : Nat) (a : Attempt) (msg : ServerMessage) : State :=
  if a.phase = .hello then onHello textLength s i a msg
  else match msg with
    | .error code => if a.phase = .joining then fail s i (.join code) else s
    | .peers peers =>
      let s := if a.phase = .joining then s.update i Attempt.register else s
      { s with calls := s.calls ++ [.peers i peers] }
    | .relay senderId payload =>
      if a.phase = .joined then { s with calls := s.calls ++ [.relay i senderId payload] } else s
    | .hello _ _ => s

def onclose (s : State) (i : Nat) : State :=
  let s := fail (s.update i fun a => { a with readyState := .closed }) i .connectionClosed
  if s.ws = some i then { s with ws := none } else s

def sendRelay (s : State) (target : PeerId) (payload : List (String × Val)) : State :=
  match s.ws with
  | none => s
  | some i =>
    if isPeerId target then s.update i fun a => a.send textLength (.relay target payload) else s

/-- A message event is only for a socket that is open, and a callback for an attempt there is. -/
def step (s : State) (x : Action) : Option State :=
  match x with
  | .setUrl url => some (setUrl s url)
  | .connect identity => some (connect s identity).1
  | .disconnect => some (disconnect s)
  | .sendRelay target payload => some (SignalingClient.sendRelay textLength s target payload)
  | .onopen i => (s.attempts[i]?).bind fun a =>
      if a.readyState = .connecting then
        some (s.update i fun a => { a with readyState := .opened })
      else none
  | .onmessage i msg => (s.attempts[i]?).bind fun a =>
      if a.readyState = .opened then
        some (if a.generation ≠ s.generation then s
          else match msg with
            | none => s
            | some msg => onmessage textLength s i a msg)
      else none
  | .onerror i => (s.attempts[i]?).map fun _ => fail s i .connectionError
  | .onclose i => (s.attempts[i]?).bind fun a =>
      if a.readyState = .closed then none else some (onclose s i)
  | .timeout i => (s.attempts[i]?).bind fun a =>
      if a.timer then some (fail s i .timeout) else none
  | .resume i => (s.attempts[i]?).bind fun a =>
      if a.settled.isSome then
        some (if s.pending = some i then { s with pending := none } else s)
      else none

end

def Attempt.live (a : Attempt) : Bool :=
  a.readyState == .connecting || a.readyState == .opened

def Attempt.joins (a : Attempt) : List TrackerJoin :=
  a.sent.filterMap fun msg => match msg with
    | .join m => some m
    | .relay _ _ => none

/-- An attempt succeeds with the answer to its one JOIN, and holds its timer until it is
settled. One that failed leaves no socket open. -/
structure Attempt.Sound (a : Attempt) : Prop where
  joined : a.settled = some (.ok ()) ↔ a.phase = .joined
  timer : a.timer = a.settled.isNone
  failed : ∀ err, a.settled = some (.error err) → a.live = false
  unsent : a.phase = .hello → a.joins = []
  once : a.joins.length ≤ 1
  own : ∀ m ∈ a.joins, ∃ nonce, m = a.joinMessage nonce

def Call.attempt : Call → Nat
  | .peers i _ | .relay i _ _ => i

/-- One socket is open at most, the one that is held, and it leads to the tracker that is set. -/
structure Inv (s : State) : Prop where
  held : ∀ i, s.ws = some i → ∃ a : Attempt, s.attempts[i]? = some a ∧ a.generation = s.generation ∧
    s.url = some a.url
  live : ∀ (i : Nat) (a : Attempt), s.attempts[i]? = some a → a.live = true → s.ws = some i
  sound : ∀ (i : Nat) (a : Attempt), s.attempts[i]? = some a → a.Sound
  calls : ∀ c ∈ s.calls, ∃ a : Attempt, s.attempts[c.attempt]? = some a ∧ a.phase = .joined

section
variable {textLength : TrackerClientMessage → Nat} {s s' : State} {i : Nat} {a : Attempt}

theorem getElem?_update (s : State) (i j : Nat) (f : Attempt → Attempt) :
    (s.update i f).attempts[j]? = (s.attempts[j]?).map fun a => if i = j then f a else a := by
  show (s.attempts.modify i f)[j]? = _
  rw [List.getElem?_modify]
  cases s.attempts[j]? <;> rfl

theorem getElem?_update_self {f : Attempt → Attempt} (h : s.attempts[i]? = some a) :
    (s.update i f).attempts[i]? = some (f a) := by
  rw [getElem?_update,h]
  simp

/-- An update of one attempt that keeps what is known of it, and does not open its socket. -/
theorem Inv.update (h : Inv s) {f : Attempt → Attempt}
    (hf : ∀ a, s.attempts[i]? = some a → (f a).generation = a.generation ∧ (f a).url = a.url ∧
      ((f a).live = true → a.live = true) ∧ (f a).Sound ∧
      (a.phase = .joined → (f a).phase = .joined)) : Inv (s.update i f) := by
  have hback : ∀ (j : Nat) (b : Attempt), (s.update i f).attempts[j]? = some b → ∃ a : Attempt,
      s.attempts[j]? = some a ∧
      (b = a ∨ i = j ∧ b = f a) := by
    intro j b hb
    rw [getElem?_update] at hb
    obtain ⟨a,ha,rfl⟩ := Option.map_eq_some_iff.mp hb
    refine ⟨a,ha,?_⟩
    split
    · next hij => exact .inr ⟨hij,rfl⟩
    · exact .inl rfl
  have hforth : ∀ (j : Nat) (a : Attempt), s.attempts[j]? = some a → ∃ b : Attempt,
      (s.update i f).attempts[j]? = some b ∧
      b.generation = a.generation ∧ b.url = a.url ∧ (a.phase = .joined → b.phase = .joined) := by
    intro j a ha
    by_cases hij : i = j
    · subst hij
      obtain ⟨hg,hu,-,-,hp⟩ := hf a ha
      exact ⟨f a,getElem?_update_self ha,hg,hu,hp⟩
    · refine ⟨a,?_,rfl,rfl,id⟩
      rw [getElem?_update,ha,Option.map_some,if_neg hij]
  constructor
  · intro j hj
    obtain ⟨a,ha,hg,hu⟩ := h.held j hj
    obtain ⟨b,hb,hbg,hbu,-⟩ := hforth j a ha
    exact ⟨b,hb,hbg.trans hg,by rw [hbu]; exact hu⟩
  · intro j b hb hlive
    obtain ⟨a,ha,rfl | ⟨rfl,rfl⟩⟩ := hback j b hb
    · exact h.live j b ha hlive
    · exact h.live i a ha ((hf a ha).2.2.1 hlive)
  · intro j b hb
    obtain ⟨a,ha,rfl | ⟨rfl,rfl⟩⟩ := hback j b hb
    · exact h.sound j b ha
    · exact (hf a ha).2.2.2.1
  · intro c hc
    obtain ⟨a,ha,hp⟩ := h.calls c hc
    obtain ⟨b,hb,-,-,hbp⟩ := hforth _ a ha
    exact ⟨b,hb,hbp hp⟩

theorem Attempt.close_live (a : Attempt) : a.close.live = false := by
  obtain ⟨-,-,-,r,-,-,-,-⟩ := a
  cases r <;> rfl

theorem Attempt.Sound.close (h : a.Sound) : a.close.Sound :=
  ⟨h.joined,h.timer,fun _ _ => a.close_live,h.unsent,h.once,h.own⟩

/-- No socket is open once the one that is held is shut. -/
theorem Inv.closeSocket (h : Inv s) : Inv (closeSocket s) ∧ (closeSocket s).ws = none := by
  unfold SignalingClient.closeSocket
  cases hw : s.ws with
  | none => exact ⟨h,hw⟩
  | some i =>
    have hdead : ∀ a : Attempt, a.close.live = true → a.live = true := by
      intro a hl
      rw [a.close_live] at hl
      cases hl
    have hu := h.update (i := i) (f := Attempt.close) fun a ha =>
      ⟨rfl,rfl,hdead a,(h.sound i a ha).close,id⟩
    refine ⟨⟨fun j hj => (by cases hj),fun j b hb hlive => ?_,hu.sound,hu.calls⟩,rfl⟩
    exfalso
    have hj : (some i : Option Nat) = some j := hw.symm.trans (hu.live j b hb hlive)
    cases hj
    rw [getElem?_update] at hb
    obtain ⟨a,-,rfl⟩ := Option.map_eq_some_iff.mp hb
    rw [if_pos rfl,a.close_live] at hlive
    cases hlive

theorem closeSocket_some (hw : s.ws = some i) :
    closeSocket s = { s.update i Attempt.close with ws := none } := by
  rw [closeSocket,hw]

theorem closeSocket_frame (s : State) : (closeSocket s).url = s.url ∧
    (closeSocket s).generation = s.generation ∧ (closeSocket s).calls = s.calls ∧
    (closeSocket s).attempts.length = s.attempts.length := by
  unfold closeSocket
  split
  · exact ⟨rfl,rfl,rfl,rfl⟩
  · exact ⟨rfl,rfl,rfl,by simp [State.update]⟩

theorem Attempt.Sound.reject (h : a.Sound) (err : Failure) (hp : a.phase ≠ .joined)
    (hl : a.live = false) : (a.reject err).Sound :=
  ⟨⟨fun he => (by cases he),fun he => absurd he hp⟩,rfl,fun _ _ => hl,h.unsent,h.once,h.own⟩

theorem Inv.reject (h : Inv s) (ha : s.attempts[i]? = some a) (err : Failure)
    (hp : a.phase ≠ .joined) (hl : a.live = false) : Inv (s.update i (Attempt.reject err)) := by
  refine h.update fun b hb => ?_
  obtain rfl : a = b := Option.some.inj (ha.symm.trans hb)
  exact ⟨rfl,rfl,id,(h.sound i a ha).reject err hp hl,fun hj => absurd hj hp⟩

theorem closeSocket_reject (hw : s.ws = some i) (err : Failure) :
    closeSocket (s.update i (Attempt.reject err)) =
      (closeSocket s).update i (Attempt.reject err) := by
  have hw' : (s.update i (Attempt.reject err)).ws = some i := hw
  have hcomm : Attempt.close ∘ Attempt.reject err = Attempt.reject err ∘ Attempt.close := rfl
  rw [closeSocket_some hw,closeSocket_some hw']
  simp only [State.update,List.modify_modify_eq,hcomm]

/-- An attempt that fails takes its socket with it. -/
theorem Inv.fail (h : Inv s) (i : Nat) (err : Failure) : Inv (fail s i err) := by
  unfold SignalingClient.fail
  cases ha : s.attempts[i]? with
  | none => exact h
  | some a =>
    dsimp only
    cases hs : a.settled with
    | some r => exact h
    | none =>
      have hp : a.phase ≠ .joined := by
        intro hp
        have hj := (h.sound i a ha).joined.mpr hp
        rw [hs] at hj
        cases hj
      show Inv (if s.ws = some i then SignalingClient.closeSocket (s.update i (Attempt.reject err))
        else s.update i (Attempt.reject err))
      split
      · next hw =>
        rw [closeSocket_reject hw]
        have hclosed : (SignalingClient.closeSocket s).attempts[i]? = some a.close := by
          rw [closeSocket_some hw]
          exact getElem?_update_self ha
        exact h.closeSocket.1.reject hclosed err hp a.close_live
      · next hw =>
        have hl : a.live = false := Bool.eq_false_iff.mpr fun hl => hw (h.live i a ha hl)
        exact h.reject ha err hp hl

/-- What is kept when no socket is held and only the address or the counters change. -/
theorem Inv.unheld (h : Inv s) (hw : s.ws = none) {url : Option Url} {generation : Nat}
    {pending : Option Nat} :
    Inv { s with url := url, generation := generation, pending := pending } := by
  refine ⟨fun i hi => ?_,h.live,h.sound,h.calls⟩
  rw [hw] at hi
  cases hi

theorem disconnect_closed (s : State) :
    disconnect s = { closeSocket s with generation := s.generation+1, pending := none } := by
  obtain ⟨-,ws,-,-,-,-⟩ := s
  cases ws with
  | none => rfl
  | some i => rfl

theorem Inv.disconnect (h : Inv s) : Inv (disconnect s) ∧ (disconnect s).ws = none := by
  obtain ⟨hc,hw⟩ := h.closeSocket
  rw [disconnect_closed]
  exact ⟨hc.unheld hw,hw⟩

theorem Inv.setUrl (h : Inv s) (url : Option Url) : Inv (setUrl s url) :=
  h.disconnect.1.unheld h.disconnect.2

theorem Attempt.fresh_sound (url : Url) (identity : Signer) (generation : Nat) :
    ({ url, identity, generation } : Attempt).Sound :=
  ⟨⟨fun h => (by cases h),fun h => (by cases h)⟩,rfl,fun _ h => (by cases h),fun _ => rfl,
    Nat.zero_le 1,fun _ h => (by cases h)⟩

theorem Inv.start (h : Inv s) {url : Url} (hurl : s.url = some url) (identity : Signer) :
    Inv (start s url identity) := by
  obtain ⟨hc,hw⟩ := h.closeSocket
  obtain ⟨hu,-,-,-⟩ := closeSocket_frame s
  have hnew : ∀ (l : List Attempt) (a : Attempt) (j : Nat) (b : Attempt),
      (l ++ [a])[j]? = some b → l[j]? = some b ∨ j = l.length ∧ b = a := by
    intro l a j b hb
    rcases Nat.lt_trichotomy j l.length with hlt | heq | hgt
    · rw [List.getElem?_append_left hlt] at hb
      exact .inl hb
    · rw [heq,List.getElem?_concat_length] at hb
      exact .inr ⟨heq,(Option.some.inj hb).symm⟩
    · rw [List.getElem?_eq_none (by simp; omega)] at hb
      cases hb
  constructor
  · intro j hj
    cases hj
    exact ⟨_,List.getElem?_concat_length,rfl,hu.trans hurl⟩
  · intro j b hb hlive
    rcases hnew _ _ j b hb with hb | ⟨rfl,-⟩
    · have hj := hc.live j b hb hlive
      rw [hw] at hj
      cases hj
    · rfl
  · intro j b hb
    rcases hnew _ _ j b hb with hb | ⟨-,rfl⟩
    · exact hc.sound j b hb
    · exact Attempt.fresh_sound url identity _
  · intro c hcall
    obtain ⟨a,ha,hp⟩ := hc.calls c hcall
    refine ⟨a,?_,hp⟩
    obtain ⟨hlt,-⟩ := List.getElem?_eq_some_iff.mp ha
    exact (List.getElem?_append_left hlt).trans ha

theorem send_sent (textLength : TrackerClientMessage → Nat) (a : Attempt)
    (msg : TrackerClientMessage) :
    a.send textLength msg = a ∨ a.send textLength msg = { a with sent := a.sent ++ [msg] } := by
  unfold Attempt.send
  split
  · exact .inr rfl
  · exact .inl rfl

/-- A relay does not count as a JOIN. -/
theorem Attempt.Sound.sendRelay (h : a.Sound) (textLength : TrackerClientMessage → Nat)
    (target : PeerId) (payload : List (String × Val)) :
    (a.send textLength (.relay target payload)).Sound := by
  rcases send_sent textLength a (.relay target payload) with he | he
  · rw [he]
    exact h
  · rw [he]
    have hj : ({ a with sent := a.sent ++ [.relay target payload] } : Attempt).joins = a.joins := by
      simp [Attempt.joins]
    exact ⟨h.joined,h.timer,h.failed,hj ▸ h.unsent,hj ▸ h.once,hj ▸ h.own⟩

/-- The one JOIN goes out when the tracker has said its nonce. -/
theorem Attempt.Sound.sendJoin (h : a.Sound) (textLength : TrackerClientMessage → Nat)
    (hp : a.phase = .hello) (nonce : String) :
    (({ a with phase := .joining } : Attempt).send textLength (.join (a.joinMessage nonce))).Sound := by
  have hnone := h.unsent hp
  have hjoined : a.settled ≠ some (.ok ()) := fun he => by
    have hj := h.joined.mp he
    rw [hp] at hj
    cases hj
  rcases send_sent textLength { a with phase := .joining }
    (.join (a.joinMessage nonce)) with he | he
  · rw [he]
    refine ⟨⟨fun hs => absurd hs hjoined,fun hj => (by cases hj)⟩,h.timer,h.failed,
      fun hj => (by cases hj),?_,?_⟩
    · show a.joins.length ≤ 1
      rw [hnone]
      exact Nat.zero_le 1
    · intro m hm
      have hm : m ∈ a.joins := hm
      rw [hnone] at hm
      cases hm
  · rw [he]
    have hj : ({ a with phase := .joining, sent := a.sent ++ [.join (a.joinMessage nonce)] } :
        Attempt).joins = [a.joinMessage nonce] := by
      have happ : ({ a with phase := .joining, sent := a.sent ++ [.join (a.joinMessage nonce)] } :
          Attempt).joins = a.joins ++ [a.joinMessage nonce] := by simp [Attempt.joins]
      rw [happ,hnone,List.nil_append]
    refine ⟨⟨fun hs => absurd hs hjoined,fun hj => (by cases hj)⟩,h.timer,h.failed,
      fun hj => (by cases hj),?_,?_⟩
    · rw [hj]
      exact le_refl 1
    · intro m hm
      rw [hj] at hm
      exact ⟨nonce,List.mem_singleton.mp hm⟩

theorem Inv.sendRelay (h : Inv s) (target : PeerId) (payload : List (String × Val)) :
    Inv (sendRelay textLength s target payload) := by
  unfold SignalingClient.sendRelay
  cases hw : s.ws with
  | none => exact h
  | some i =>
    dsimp only
    split
    · refine h.update fun a ha => ?_
      have hs := (h.sound i a ha).sendRelay textLength target payload
      rcases send_sent textLength a (.relay target payload) with he | he
      · rw [he]
        exact ⟨rfl,rfl,id,h.sound i a ha,id⟩
      · rw [he] at hs ⊢
        exact ⟨rfl,rfl,id,hs,id⟩
    · exact h

theorem Inv.call (h : Inv s) (c : Call) (ha : s.attempts[c.attempt]? = some a)
    (hp : a.phase = .joined) : Inv { s with calls := s.calls ++ [c] } := by
  refine ⟨h.held,h.live,h.sound,fun d hd => ?_⟩
  rcases List.mem_append.mp hd with hd | hd
  · exact h.calls d hd
  · rw [List.mem_singleton.mp hd]
    exact ⟨a,ha,hp⟩

theorem Attempt.Sound.register (h : a.Sound) : a.register.Sound :=
  ⟨⟨fun _ => rfl,fun _ => rfl⟩,rfl,fun _ he => (by cases he),fun he => (by cases he),h.once,h.own⟩

theorem Inv.onmessage (h : Inv s) (ha : s.attempts[i]? = some a) (msg : ServerMessage) :
    Inv (onmessage textLength s i a msg) := by
  unfold SignalingClient.onmessage
  split
  · next hp =>
    cases msg with
    | hello v nonce =>
      simp only [onHello]
      split
      · exact h.fail i _
      · refine h.update fun b hb => ?_
        obtain rfl : a = b := Option.some.inj (ha.symm.trans hb)
        have hs := (h.sound i a ha).sendJoin textLength hp nonce
        rcases send_sent textLength { a with phase := .joining }
          (.join (a.joinMessage nonce)) with he | he
        · rw [he] at hs ⊢
          exact ⟨rfl,rfl,id,hs,fun hj => (by rw [hp] at hj; cases hj)⟩
        · rw [he] at hs ⊢
          exact ⟨rfl,rfl,id,hs,fun hj => (by rw [hp] at hj; cases hj)⟩
    | peers peers => exact h.fail i _
    | relay senderId payload => exact h.fail i _
    | error code => exact h.fail i _
  · next hp =>
    cases msg with
    | hello v nonce => exact h
    | error code =>
      dsimp only
      split
      · exact h.fail i _
      · exact h
    | peers peers =>
      dsimp only
      split
      · next hj =>
        have hu : Inv (s.update i Attempt.register) := by
          refine h.update fun b hb => ?_
          obtain rfl : a = b := Option.some.inj (ha.symm.trans hb)
          exact ⟨rfl,rfl,id,(h.sound i a ha).register,fun _ => rfl⟩
        exact hu.call (.peers i peers) (getElem?_update_self ha) rfl
      · next hj =>
        have hjoined : a.phase = .joined := by
          cases hphase : a.phase with
          | hello => exact absurd hphase hp
          | joining => exact absurd hphase hj
          | joined => rfl
        exact h.call (.peers i peers) ha hjoined
    | relay senderId payload =>
      dsimp only
      split
      · next hj => exact h.call (.relay i senderId payload) ha hj
      · exact h

theorem Attempt.Sound.ended (h : a.Sound) : ({ a with readyState := .closed } : Attempt).Sound :=
  ⟨h.joined,h.timer,fun _ _ => rfl,h.unsent,h.once,h.own⟩

/-- A socket that is not open does not open when an attempt fails. -/
theorem fail_live (s : State) (i : Nat) (err : Failure) {j : Nat} {b : Attempt}
    (hb : (fail s i err).attempts[j]? = some b) (hlive : b.live = true) :
    ∃ a : Attempt, s.attempts[j]? = some a ∧ a.live = true := by
  have hupdate : ∀ (s : State) (k : Nat) (f : Attempt → Attempt),
      (∀ a, (f a).live = true → a.live = true) → ∀ {b : Attempt},
      (s.update k f).attempts[j]? = some b → b.live = true →
      ∃ a : Attempt, s.attempts[j]? = some a ∧ a.live = true := by
    intro s k f hf b hb hlive
    rw [getElem?_update] at hb
    obtain ⟨a,ha,rfl⟩ := Option.map_eq_some_iff.mp hb
    refine ⟨a,ha,?_⟩
    split at hlive
    · exact hf a hlive
    · exact hlive
  have hdead : ∀ a : Attempt, a.close.live = true → a.live = true := by
    intro a hl
    rw [a.close_live] at hl
    cases hl
  unfold fail at hb
  split at hb
  · exact ⟨b,hb,hlive⟩
  split at hb
  · exact ⟨b,hb,hlive⟩
  dsimp only at hb
  split at hb
  · next hw =>
    rw [closeSocket_some hw] at hb
    obtain ⟨a,ha,hl⟩ := hupdate _ _ _ hdead hb hlive
    exact hupdate _ _ (Attempt.reject err) (fun _ h => h) ha hl
  · exact hupdate _ _ (Attempt.reject err) (fun _ h => h) hb hlive

theorem Inv.onclose (h : Inv s) (i : Nat) : Inv (onclose s i) := by
  have hu : Inv (s.update i fun a => { a with readyState := .closed }) :=
    h.update fun a ha => ⟨rfl,rfl,fun hl => (by cases hl),(h.sound i a ha).ended,id⟩
  have hf := hu.fail i .connectionClosed
  unfold SignalingClient.onclose
  dsimp only
  split
  · next hw =>
    refine ⟨fun j hj => (by cases hj),fun j b hb hlive => ?_,hf.sound,hf.calls⟩
    exfalso
    have hj : some i = some j := hw.symm.trans (hf.live j b hb hlive)
    cases hj
    obtain ⟨a,ha,hl⟩ := fail_live _ _ _ hb hlive
    rw [getElem?_update] at ha
    obtain ⟨a',-,rfl⟩ := Option.map_eq_some_iff.mp ha
    rw [if_pos rfl] at hl
    cases hl
  · exact hf

theorem inv_step {x : Action} (h : Inv s) (hs : step textLength s x = some s') : Inv s' := by
  cases x with
  | setUrl url =>
    cases hs
    exact h.setUrl url
  | connect identity =>
    cases hs
    unfold connect
    cases hu : s.url with
    | none => exact h
    | some url =>
      dsimp only
      split
      · exact h
      split
      · exact h
      · cases identity with
        | none => exact h
        | some identity => exact h.start hu identity
  | disconnect =>
    cases hs
    exact h.disconnect.1
  | sendRelay target payload =>
    cases hs
    exact h.sendRelay target payload
  | onopen i =>
    obtain ⟨a,ha,hs⟩ := Option.bind_eq_some_iff.mp hs
    split at hs
    · next hr =>
      cases hs
      refine h.update fun b hb => ?_
      obtain rfl : a = b := Option.some.inj (ha.symm.trans hb)
      have hlive : a.live = true := by simp [Attempt.live,hr]
      have hb := h.sound i a ha
      refine ⟨rfl,rfl,fun _ => hlive,⟨hb.joined,hb.timer,fun err he => ?_,hb.unsent,hb.once,hb.own⟩,
        id⟩
      have hdead := hb.failed err he
      rw [hlive] at hdead
      cases hdead
    · cases hs
  | onmessage i msg =>
    obtain ⟨a,ha,hs⟩ := Option.bind_eq_some_iff.mp hs
    split at hs
    · cases hs
      split
      · exact h
      · cases msg with
        | none => exact h
        | some msg => exact h.onmessage ha msg
    · cases hs
  | onerror i =>
    obtain ⟨a,ha,rfl⟩ := Option.map_eq_some_iff.mp hs
    exact h.fail i _
  | onclose i =>
    obtain ⟨a,ha,hs⟩ := Option.bind_eq_some_iff.mp hs
    split at hs
    · cases hs
    · cases hs
      exact h.onclose i
  | timeout i =>
    obtain ⟨a,ha,hs⟩ := Option.bind_eq_some_iff.mp hs
    split at hs
    · cases hs
      exact h.fail i _
    · cases hs
  | resume i =>
    obtain ⟨a,ha,hs⟩ := Option.bind_eq_some_iff.mp hs
    split at hs
    · cases hs
      split
      · exact ⟨h.held,h.live,h.sound,h.calls⟩
      · exact h
    · cases hs

theorem fail_calls (s : State) (i : Nat) (err : Failure) : (fail s i err).calls = s.calls := by
  unfold fail
  split
  · rfl
  split
  · rfl
  dsimp only
  split
  · exact (closeSocket_frame _).2.2.1
  · rfl

theorem disconnect_calls (s : State) : (disconnect s).calls = s.calls := by
  rw [disconnect_closed]
  exact (closeSocket_frame s).2.2.1

/-- A message calls a listener at most once, and only for an attempt that has joined. -/
theorem onmessage_calls (ha : s.attempts[i]? = some a) (msg : ServerMessage) :
    (onmessage textLength s i a msg).calls = s.calls ∨
      ∃ c b, (onmessage textLength s i a msg).calls = s.calls ++ [c] ∧ c.attempt = i ∧
        (onmessage textLength s i a msg).attempts[i]? = some b ∧ b.phase = .joined := by
  unfold onmessage
  split
  · cases msg with
    | hello v nonce =>
      simp only [onHello]
      split
      · exact .inl (fail_calls _ _ _)
      · exact .inl rfl
    | peers peers => exact .inl (fail_calls _ _ _)
    | relay senderId payload => exact .inl (fail_calls _ _ _)
    | error code => exact .inl (fail_calls _ _ _)
  · next hp =>
    cases msg with
    | hello v nonce => exact .inl rfl
    | error code =>
      dsimp only
      split
      · exact .inl (fail_calls _ _ _)
      · exact .inl rfl
    | peers peers =>
      refine .inr ⟨.peers i peers,?_⟩
      dsimp only
      split
      · exact ⟨a.register,rfl,rfl,getElem?_update_self ha,rfl⟩
      · next hj =>
        refine ⟨a,rfl,rfl,ha,?_⟩
        cases hphase : a.phase with
        | hello => exact absurd hphase hp
        | joining => exact absurd hphase hj
        | joined => rfl
    | relay senderId payload =>
      dsimp only
      split
      · next hj => exact .inr ⟨.relay i senderId payload,a,rfl,rfl,ha,hj⟩
      · exact .inl rfl

/-- Listeners are called for messages only, on a socket that is open. -/
theorem step_calls {x : Action} (hs : step textLength s x = some s') : s'.calls = s.calls ∨
    ∃ c a b, s'.calls = s.calls ++ [c] ∧ s.attempts[c.attempt]? = some a ∧ a.live = true ∧
      s'.attempts[c.attempt]? = some b ∧ b.phase = .joined := by
  cases x with
  | setUrl url =>
    cases hs
    exact .inl (disconnect_calls s)
  | connect identity =>
    cases hs
    left
    unfold connect
    cases s.url with
    | none => rfl
    | some url =>
      dsimp only
      split
      · rfl
      split
      · rfl
      · cases identity with
        | none => rfl
        | some identity => exact (closeSocket_frame s).2.2.1
  | disconnect =>
    cases hs
    exact .inl (disconnect_calls s)
  | sendRelay target payload =>
    cases hs
    left
    unfold sendRelay
    split
    · rfl
    split
    · rfl
    · rfl
  | onopen i =>
    obtain ⟨a,ha,hs⟩ := Option.bind_eq_some_iff.mp hs
    split at hs
    · cases hs
      exact .inl rfl
    · cases hs
  | onmessage i msg =>
    obtain ⟨a,ha,hs⟩ := Option.bind_eq_some_iff.mp hs
    split at hs
    · next hr =>
      cases hs
      split
      · exact .inl rfl
      · cases msg with
        | none => exact .inl rfl
        | some msg =>
          refine (onmessage_calls ha msg).imp id fun ⟨c,b,hc,hi,hb,hp⟩ => ?_
          exact ⟨c,a,b,hc,hi ▸ ha,by simp [Attempt.live,hr],hi ▸ hb,hp⟩
    · cases hs
  | onerror i =>
    obtain ⟨a,ha,rfl⟩ := Option.map_eq_some_iff.mp hs
    exact .inl (fail_calls _ _ _)
  | onclose i =>
    obtain ⟨a,ha,hs⟩ := Option.bind_eq_some_iff.mp hs
    split at hs
    · cases hs
    · cases hs
      have hf := fail_calls (s.update i fun a => { a with readyState := .closed }) i
        .connectionClosed
      left
      unfold onclose
      dsimp only
      split
      · exact hf
      · exact hf
  | timeout i =>
    obtain ⟨a,ha,hs⟩ := Option.bind_eq_some_iff.mp hs
    split at hs
    · cases hs
      exact .inl (fail_calls _ _ _)
    · cases hs
  | resume i =>
    obtain ⟨a,ha,hs⟩ := Option.bind_eq_some_iff.mp hs
    split at hs
    · cases hs
      split
      · exact .inl rfl
      · exact .inl rfl
    · cases hs

/-- What a node can rely on, in every state it reaches. -/
structure Safe (textLength : TrackerClientMessage → Nat) (s : State) : Prop where
  /-- One socket at most is open, and only to the tracker that is set. -/
  open_ : ∀ (i : Nat) (a : Attempt), s.attempts[i]? = some a → a.live = true →
    s.ws = some i ∧ s.url = some a.url ∧ a.generation = s.generation
  attempts : ∀ (i : Nat) (a : Attempt), s.attempts[i]? = some a → a.Sound
  /-- Listeners hear from the open socket, once its tracker has registered the node. -/
  heard : ∀ x s', step textLength s x = some s' → s'.calls = s.calls ∨
    ∃ c a b, s'.calls = s.calls ++ [c] ∧ s.attempts[c.attempt]? = some a ∧
      s.ws = some c.attempt ∧ s.url = some a.url ∧
      s'.attempts[c.attempt]? = some b ∧ b.settled = some (.ok ())

theorem socket_safe {xs : List Action} (hr : Machine.run (step textLength) {} xs = some s) :
    Safe textLength s := by
  have hinit : Inv {} :=
    ⟨fun _ h => (by cases h),fun _ _ h => (by cases h),fun _ _ h => (by cases h),
      fun _ h => (by cases h)⟩
  have h := Machine.invariant_run' (fun _ _ _ h hs => inv_step h hs) hinit hr
  have hopen : ∀ (i : Nat) (a : Attempt), s.attempts[i]? = some a → a.live = true →
      s.ws = some i ∧ s.url = some a.url ∧ a.generation = s.generation := by
    intro i a ha hl
    have hw := h.live i a ha hl
    obtain ⟨b,hb,hg,hu⟩ := h.held i hw
    obtain rfl : a = b := Option.some.inj (ha.symm.trans hb)
    exact ⟨hw,hu,hg⟩
  refine ⟨hopen,h.sound,fun x s' hs => ?_⟩
  refine (step_calls hs).imp id fun ⟨c,a,b,hc,ha,hl,hb,hp⟩ => ?_
  obtain ⟨hw,hu,-⟩ := hopen _ a ha hl
  exact ⟨c,a,b,hc,ha,hw,hu,hb,((inv_step h hs).sound _ b hb).joined.mpr hp⟩

/-- A node joins a tracker, hears of its peers, and then turns to another tracker. -/
def joinAndLeave : List Action :=
  let a : Url := ⟨"wss://a/","a"⟩
  let signer : Signer := ⟨"p",[],.fin 0,fun nonce _ => nonce⟩
  [.setUrl (some a),.connect (some signer),.onopen 0,.onmessage 0 (some (.hello 2 "00")),
    .onmessage 0 (some (.peers ["q"])),.resume 0,.setUrl (some ⟨"wss://b/","b"⟩),
    .connect (some signer),.onclose 0]

theorem socket_safe_joinAndLeave :
    ∃ s, Machine.run (step fun _ => 0) {} joinAndLeave = some s ∧ Safe (fun _ => 0) s := by
  have hsome : (Machine.run (step fun _ => 0) {} joinAndLeave).isSome = true := rfl
  obtain ⟨s,hs⟩ := Option.isSome_iff_exists.mp hsome
  exact ⟨s,hs,socket_safe hs⟩

end

end SignalingClient
