import Mathlib.Data.List.Nodup
import Mathlib.Logic.Function.Basic
import AetherLite.Cache.GossipActor
import AetherLite.Lib.Machine
import AetherLite.Trust.Transcripts

/-! Many cache nodes on a network that relays what it likes. A JOIN is signed for a challenge
and for nothing else, so it is good for whoever drew the challenge. -/
set_option autoImplicit false

namespace Cache

open Js GossipActor

/-- What the key of a node signs. -/
inductive Signed where
  /-- The answer to a HELLO of `peerId` on a session -/
  | join (session : Nat) (peerId : PeerId) (challenge : Bytes)
  /-- A message of another kind -/
  | transcript (t : TrustedGuards.Transcript)

/-- Honest cache nodes. `otherEnd` is the session at the other end of a session, where that is
one of theirs. -/
structure Nodes (ι : Type) where
  crypto : Crypto
  identity : ι → NodeIdentity crypto
  powParams : NodeIdPowParams
  otherEnd : ι → Nat → Option (ι × Nat)
  trusted : TrustedGuards.Config
  lower : String → String

/-- A challenge that a node has drawn for a session, and how much was signed by then. -/
structure Drawing (ι : Type) where
  node : ι
  session : Nat
  peerId : PeerId
  challenge : Challenge
  before : Nat

namespace Nodes

variable {ι : Type} (net : Nodes ι)

def config (i : ι) : GossipActor.Config := ⟨net.crypto,net.identity i,net.powParams⟩

def message : Signed → Except Thrown Bytes
  | .join _ _ challenge => .ok (joinMessage challenge)
  | .transcript t => t.message net.trusted net.lower

end Nodes

/-- No message of another kind begins as a JOIN of the cache node does. -/
theorem transcript_ne_joinMessage {cfg : TrustedGuards.Config} {lower : String → String}
    {t : TrustedGuards.Transcript} {challenge : Bytes} :
    t.message cfg lower ≠ .ok (joinMessage challenge) := by
  intro h
  obtain ⟨body,hm⟩ := TrustedGuards.Transcript.message_domain h
  have hhead := congrArg (List.take 9) hm
  revert hhead
  cases t with
  | join c id binding => simp [joinMessage,joinDomain,TrustedGuards.Transcript.domain,
      NodeIdentity.joinDomain]
  | trackerJoin nonce id host => simp [joinMessage,joinDomain,TrustedGuards.Transcript.domain,
      NodeIdentity.trackerJoinDomain]
  | guardDecl id pubkey counter issued => simp [joinMessage,joinDomain,
      TrustedGuards.Transcript.domain,NodeIdentity.guardDeclDomain]
  | guardList content => simp [joinMessage,joinDomain,TrustedGuards.Transcript.domain,
      TrustedGuards.guardListDomain]

namespace World

structure State (ι : Type) where
  actors : ι → GossipActor
  ledger : List (ι × Signed) := []
  drawn : List (Drawing ι) := []

def initial (ι : Type) : State ι := ⟨fun _ => {},[],[]⟩

inductive Action (ι : Type) where
  /-- The actor of a node handles an event of one of its sessions, which may be any. -/
  | event (i : ι) (session : Nat) (e : NetworkEvent) (now : Rat) (draw : Challenge)
  | sign (i : ι) (t : TrustedGuards.Transcript)

/-- The signatures among what is sent. -/
def newlySigned (session : Nat) (out : List Sent) : List Signed :=
  out.filterMap fun
    | .sendMessage peerId (.join _ _ _ challenge _) => some (.join session peerId challenge)
    | _ => none

def newlyDrawn {ι : Type} (i : ι) (session : Nat) (draw : Challenge) (before : Nat) :
    NetworkEvent → List (Drawing ι)
  | .peerConnected peerId => [⟨i,session,peerId,draw,before⟩]
  | _ => []

section
variable {ι : Type} (net : Nodes ι)

/-- A signature that is good under the key of a node is on a message that the node has
signed. -/
def Unforged (w : State ι) (a : Action ι) : Prop :=
  ∀ i session peerId claimedId pubkey powCounter challenge signature now draw,
    a = .event i session (.messageReceived peerId
      (.join claimedId pubkey powCounter challenge signature)) now draw →
    net.crypto.verify pubkey (joinMessage challenge) signature = true →
      (∃ v, (net.identity v).pubkey = pubkey) →
        ∃ x ∈ w.ledger, (net.identity x.1).pubkey = pubkey ∧
          net.message x.2 = .ok (joinMessage challenge)

/-- A challenge that is drawn is a new one. -/
def FreshDraw (w : State ι) (a : Action ι) : Prop :=
  ∀ i session peerId now draw, a = .event i session (.peerConnected peerId) now draw →
    (∀ d ∈ w.drawn, d.challenge ≠ draw) ∧
      ∀ x ∈ w.ledger, ∀ session peerId, x.2 ≠ .join session peerId draw.1

def Symbolic (w : State ι) (a : Action ι) : Prop := Unforged net w a ∧ FreshDraw w a

/-- A challenge that a node drew comes in a HELLO only over the session it was drawn for, at
whose other end the node goes by its own id; and a JOIN comes over the session for which the
challenge that is held for its peer was drawn. -/
structure Undiverted (w : State ι) (a : Action ι) : Prop where
  hello : ∀ v session peerId challenge now draw,
    a = .event v session (.messageReceived peerId (.hello challenge)) now draw →
      ∀ d ∈ w.drawn, d.challenge.1 = challenge →
        net.otherEnd v session = some (d.node,d.session) ∧ peerId = (net.identity d.node).peerId
  join : ∀ i session peerId claimedId pubkey powCounter challenge signature now draw,
    a = .event i session (.messageReceived peerId
      (.join claimedId pubkey powCounter challenge signature)) now draw →
    ∀ held, JsMap.get (w.actors i).challenges peerId = some held →
      ∃ d ∈ w.drawn, d.node = i ∧ d.session = session ∧ d.peerId = peerId ∧ d.challenge.1 = held

/-- The node `v` has signed the challenge for this session of `i`, and nobody has signed it for
another. -/
structure Meant (w : State ι) (i : ι) (session : Nat) (peerId : PeerId) (challenge : Bytes)
    (v : ι) : Prop where
  signer : (net.identity v).peerId = peerId
  /-- It was signed after the challenge was drawn for the session. -/
  signed : ∃ t, net.otherEnd v t = some (i,session) ∧ ∃ d ∈ w.drawn, d.node = i ∧
    d.session = session ∧ d.peerId = peerId ∧ d.challenge.1 = challenge ∧
      (v,.join t (net.identity i).peerId challenge) ∈ w.ledger.drop d.before
  only : ∀ x ∈ w.ledger, net.message x.2 = .ok (joinMessage challenge) →
    ∃ t, x.2 = .join t (net.identity i).peerId challenge ∧ net.otherEnd x.1 t = some (i,session)

/-- A peer that a step marks as verified is proved by a JOIN on a session, and where the key is
that of a node, a node with the key signed the JOIN for that session. -/
def Bound (w : State ι) (a : Action ι) (w' : State ι) : Prop :=
  ∀ i peerId, JsMap.get (w.actors i).verified peerId = none →
    JsMap.get (w'.actors i).verified peerId = some () →
      ∃ session pubkey powCounter challenge signature now draw,
        a = .event i session (.messageReceived peerId
          (.join peerId pubkey powCounter challenge signature)) now draw ∧
        ∀ j, (net.identity j).pubkey = pubkey →
          ∃ v, (net.identity v).pubkey = pubkey ∧ Meant net w i session peerId challenge v

/-- The challenges that are held were drawn, each once and before anybody signed it, and who
signed one signed it for its session. -/
structure Sound (w : State ι) : Prop where
  held : ∀ i peerId challenge, JsMap.get (w.actors i).challenges peerId = some challenge →
    ∃ d ∈ w.drawn, d.node = i ∧ d.peerId = peerId ∧ d.challenge.1 = challenge
  before : ∀ d ∈ w.drawn, d.before ≤ w.ledger.length ∧
    ∀ x ∈ w.ledger.take d.before, ∀ session peerId, x.2 ≠ .join session peerId d.challenge.1
  distinct : (w.drawn.map Drawing.challenge).Nodup
  meant : ∀ d ∈ w.drawn, ∀ x ∈ w.ledger, ∀ session peerId, x.2 = .join session peerId d.challenge.1 →
    net.otherEnd x.1 session = some (d.node,d.session) ∧ peerId = (net.identity d.node).peerId

variable {net} {w w' : State ι}

/-- What an event leaves held was held, or is what was drawn. -/
theorem challenges_handle {cfg : GossipActor.Config} {a b : GossipActor} {e : NetworkEvent}
    {now : Rat} {draw : Challenge} {out : List Sent} (h : handle cfg a e now draw = (b,out))
    {peerId : PeerId} {challenge : Bytes} (hb : JsMap.get b.challenges peerId = some challenge) :
    JsMap.get a.challenges peerId = some challenge ∨
      e = .peerConnected peerId ∧ draw.1 = challenge := by
  cases e with
  | peerConnected k =>
    cases h
    by_cases hk : peerId = k
    · subst hk
      exact .inr ⟨rfl,by simpa using hb⟩
    · rw [JsMap.get_set_ne _ hk] at hb
      exact .inl hb
  | peerDisconnected k session =>
    cases h
    exact .inl (JsMap.get_of_get_delete hb)
  | peerReset k =>
    cases h
    exact .inl (JsMap.get_of_get_delete hb)
  | messageReceived k msg =>
    cases handled_handleMessage h with
    | ignored hc hv ho => exact .inl (hc ▸ hb)
    | answered c hm hc hv ho => exact .inl (hc ▸ hb)
    | refused hv expected held hj hd ho => exact .inl (JsMap.get_of_get_delete (hd.1 ▸ hb))
    | accepted expected h hc hv ho => exact .inl (hc ▸ hb)

/-- A signature of an event answers the HELLO that the event brings. -/
theorem signed_handle {cfg : GossipActor.Config} {a b : GossipActor} {e : NetworkEvent} {now : Rat}
    {draw : Challenge} {out : List Sent} (h : handle cfg a e now draw = (b,out)) {session : Nat}
    {x : Signed} (hx : x ∈ newlySigned session out) : ∃ peerId challenge,
      e = .messageReceived peerId (.hello challenge) ∧ x = .join session peerId challenge := by
  cases e with
  | peerConnected k =>
    cases h
    simp [newlySigned] at hx
  | peerDisconnected k session =>
    cases h
    simp [newlySigned] at hx
  | peerReset k =>
    cases h
    simp [newlySigned] at hx
  | messageReceived k msg =>
    cases handled_handleMessage h with
    | ignored hc hv ho => simp [newlySigned,ho] at hx
    | answered c hm hc hv ho =>
      simp only [newlySigned,ho,answer,List.filterMap_cons,List.filterMap_nil,List.mem_singleton] at hx
      exact ⟨k,c,by rw [hm],hx⟩
    | refused hv expected held hj hd ho => simp [newlySigned,ho] at hx
    | accepted expected h hc hv ho => simp [newlySigned,ho] at hx

/-- A peer that an event marks as verified is one whose JOIN it brings. -/
theorem verified_handle {cfg : GossipActor.Config} {a b : GossipActor} {e : NetworkEvent} {now : Rat}
    {draw : Challenge} {out : List Sent} (h : handle cfg a e now draw = (b,out)) {peerId : PeerId}
    (ha : JsMap.get a.verified peerId = none) (hb : JsMap.get b.verified peerId = some ()) :
    ∃ msg expected, e = .messageReceived peerId msg ∧ Accepted cfg a peerId msg expected := by
  have hdelete {k : PeerId} (hb : JsMap.get (JsMap.delete a.verified k) peerId = some ()) : False := by
    have hb := JsMap.get_of_get_delete hb
    rw [ha] at hb
    cases hb
  have hsame (hv : b.verified = a.verified) : False := by
    rw [hv,ha] at hb
    cases hb
  cases e with
  | peerConnected k =>
    cases h
    exact (hsame rfl).elim
  | peerDisconnected k session =>
    cases h
    exact (hdelete hb).elim
  | peerReset k =>
    cases h
    exact (hdelete hb).elim
  | messageReceived k msg =>
    cases handled_handleMessage h with
    | ignored hc hv ho => exact (hsame hv).elim
    | answered c hm hc hv ho => exact (hsame hv).elim
    | refused hv expected held hj hd ho => exact (hdelete (hd.2 ▸ hb)).elim
    | accepted expected h hc hv ho =>
      by_cases hk : peerId = k
      · subst hk
        exact ⟨msg,expected,rfl,h⟩
      · rw [hv,JsMap.get_set_ne _ hk,ha] at hb
        cases hb

theorem sound_initial : Sound net (initial ι) := by
  refine ⟨fun i peerId challenge h => ?_,fun d hd => ?_,.nil,fun d hd => ?_⟩
  · cases h
  · cases hd
  · cases hd

/-- More is signed, and each challenge for its session. -/
theorem Sound.ledger (h : Sound net w) {xs : List (ι × Signed)}
    (hx : ∀ d ∈ w.drawn, ∀ x ∈ xs, ∀ session peerId, x.2 = .join session peerId d.challenge.1 →
      net.otherEnd x.1 session = some (d.node,d.session) ∧
        peerId = (net.identity d.node).peerId) : Sound net { w with ledger := w.ledger ++ xs } := by
  refine ⟨h.held,fun d hd => ?_,h.distinct,fun d hd x hmem => ?_⟩
  · obtain ⟨hle,hnot⟩ := h.before d hd
    refine ⟨by rw [List.length_append]; omega,fun x hx => hnot x ?_⟩
    rwa [List.take_append_of_le_length hle] at hx
  · rcases List.mem_append.mp hmem with hmem | hmem
    · exact h.meant d hd x hmem
    · exact hx d hd x hmem

end

section
variable {ι : Type} [DecidableEq ι] (net : Nodes ι)

def step (w : State ι) (a : Action ι) : Option (State ι) :=
  match a with
  | .event i session e now draw =>
    let r := GossipActor.handle (net.config i) (w.actors i) e now draw
    some {
      actors := Function.update w.actors i r.1
      ledger := w.ledger ++ (newlySigned session r.2).map (Prod.mk i)
      drawn := w.drawn ++ newlyDrawn i session draw w.ledger.length e }
  | .sign i t => some { w with ledger := w.ledger ++ [(i,.transcript t)] }

variable {net} {w w' : State ι}

/-- An event that signs nothing: what is drawn is new. -/
theorem Sound.draw (h : Sound net w) {i : ι} {session : Nat} {e : NetworkEvent} {now : Rat}
    {draw : Challenge} (hf : FreshDraw w (.event i session e now draw)) {b : GossipActor}
    (hb : ∀ peerId challenge, JsMap.get b.challenges peerId = some challenge →
      JsMap.get (w.actors i).challenges peerId = some challenge ∨
        e = .peerConnected peerId ∧ draw.1 = challenge) :
    Sound net ⟨Function.update w.actors i b,w.ledger,
      w.drawn ++ newlyDrawn i session draw w.ledger.length e⟩ := by
  have hnew {d : Drawing ι} (hd : d ∈ newlyDrawn i session draw w.ledger.length e) :
      ∃ peerId, e = .peerConnected peerId ∧ d = ⟨i,session,peerId,draw,w.ledger.length⟩ := by
    cases e with
    | peerConnected peerId => exact ⟨peerId,rfl,List.mem_singleton.mp hd⟩
    | _ => cases hd
  refine ⟨fun j peerId challenge hj => ?_,fun d hd => ?_,?_,fun d hd x hx t q he => ?_⟩
  · have hold (hj : JsMap.get (w.actors j).challenges peerId = some challenge) :
        ∃ d ∈ w.drawn ++ newlyDrawn i session draw w.ledger.length e,
          d.node = j ∧ d.peerId = peerId ∧ d.challenge.1 = challenge := by
      obtain ⟨d,hd,hrest⟩ := h.held j peerId challenge hj
      exact ⟨d,List.mem_append_left _ hd,hrest⟩
    dsimp only at hj
    rw [Function.update_apply] at hj
    split at hj
    · next hji =>
      subst hji
      obtain hj | ⟨rfl,rfl⟩ := hb peerId challenge hj
      · exact hold hj
      · exact ⟨_,List.mem_append_right _ (List.mem_singleton_self _),rfl,rfl,rfl⟩
    · exact hold hj
  · rcases List.mem_append.mp hd with hd | hd
    · exact h.before d hd
    · obtain ⟨peerId,rfl,rfl⟩ := hnew hd
      exact ⟨Nat.le_refl _,fun x hx => (hf _ _ _ _ _ rfl).2 x (List.mem_of_mem_take hx)⟩
  · rw [List.map_append]
    refine h.distinct.append ?_ fun c hc hc' => ?_
    · cases e with
      | peerConnected peerId => exact List.nodup_singleton _
      | _ => exact List.nodup_nil
    · obtain ⟨d,hd,rfl⟩ := List.mem_map.mp hc
      obtain ⟨d',hd',he⟩ := List.mem_map.mp hc'
      obtain ⟨peerId,rfl,rfl⟩ := hnew hd'
      exact (hf _ _ _ _ _ rfl).1 d hd he.symm
  · rcases List.mem_append.mp hd with hd | hd
    · exact h.meant d hd x hx t q he
    · obtain ⟨peerId,rfl,rfl⟩ := hnew hd
      exact absurd he ((hf _ _ _ _ _ rfl).2 x hx t q)

theorem Sound.step (h : Sound net w) {a : Action ι} (hf : FreshDraw w a) (hu : Undiverted net w a)
    (hs : step net w a = some w') : Sound net w' := by
  cases a with
  | sign i t =>
    cases hs
    refine h.ledger fun d hd x hx session peerId he => ?_
    obtain rfl := List.mem_singleton.mp hx
    cases he
  | event i session e now draw =>
    cases hs
    refine Sound.ledger (h.draw hf fun peerId challenge => challenges_handle rfl)
      fun d hd x hx t q he => ?_
    obtain ⟨y,hy,rfl⟩ := List.mem_map.mp hx
    obtain ⟨peerId,challenge,rfl,hjoin⟩ := signed_handle rfl hy
    rw [hjoin] at he
    cases he
    have hd : d ∈ w.drawn := by simpa [newlyDrawn] using hd
    exact hu.hello _ _ _ _ _ _ rfl d hd rfl

end

end World

open World

def sampleCrypto : Crypto where
  sha256 bs := bs.drop (bs.length-32)
  argon2id _ _ _ _ := some (List.replicate 32 0)
  verifyingKey signingKey := signingKey
  isVerifyingKey bs := bs.length == 32
  sign signingKey message := signingKey ++ message.drop (message.length-32)
  verify verifyingKey message signature :=
    signature == verifyingKey ++ message.drop (message.length-32)

def sampleIdentity (b : UInt8) : NodeIdentity sampleCrypto where
  peerId := derivePeerId sampleCrypto (List.replicate 32 b)
  powCounter := 0
  signingKey := List.replicate 32 b
  bound := rfl

/-- The node `false` has the key 1, the node `true` the key 2. -/
def sampleNodes (otherEnd : Bool → Nat → Option (Bool × Nat)) : Nodes Bool where
  crypto := sampleCrypto
  identity i := sampleIdentity (if i then 2 else 1)
  powParams := nodeIdPow
  otherEnd := otherEnd
  trusted := TrustedGuards.sampleConfig
  lower := id

def sampleChallenge (b : UInt8) : Challenge := ⟨List.replicate 32 b,by simp [challengeBytes]⟩

def meetingNodes : Nodes Bool :=
  sampleNodes fun i session => if session = 1 then some (!i,1) else none

/-- `World.Symbolic` for two nodes -/
def isSymbolic (net : Nodes Bool) (w : World.State Bool) : World.Action Bool → Bool
  | .event _ _ (.messageReceived _ (.join _ pubkey _ challenge signature)) _ _ =>
    !net.crypto.verify pubkey (joinMessage challenge) signature ||
      [false,true].all (fun v => (net.identity v).pubkey != pubkey) ||
        w.ledger.any fun x => (net.identity x.1).pubkey == pubkey &&
          (net.message x.2).toOption == some (joinMessage challenge)
  | .event _ _ (.peerConnected _) _ draw =>
    (w.drawn.all fun d => d.challenge != draw) && w.ledger.all fun x =>
      match x.2 with
      | .join _ _ challenge => challenge != draw.1
      | .transcript _ => true
  | _ => true

theorem symbolic_of_isSymbolic {net : Nodes Bool} (w : World.State Bool) (a : World.Action Bool)
    (h : isSymbolic net w a = true) : Symbolic net w a := by
  constructor
  · rintro i session peerId claimedId pubkey powCounter challenge signature now draw rfl hsig ⟨v,hv⟩
    simp only [isSymbolic,hsig,Bool.not_true,Bool.false_or,Bool.or_eq_true] at h
    obtain h | h := h
    · have hne := List.all_eq_true.mp h v (by cases v <;> simp)
      simp [hv] at hne
    · obtain ⟨x,hx,hm⟩ := List.any_eq_true.mp h
      simp only [Bool.and_eq_true,beq_iff_eq] at hm
      refine ⟨x,hx,hm.1,?_⟩
      cases hmsg : net.message x.2 with
      | error e => simp [hmsg,Except.toOption] at hm
      | ok m => simpa [hmsg,Except.toOption] using hm.2
  · rintro i session peerId now draw rfl
    simp only [isSymbolic,Bool.and_eq_true,List.all_eq_true] at h
    refine ⟨fun d hd => by simpa using h.1 d hd,fun x hx t q he => ?_⟩
    have hx := h.2 x hx
    rw [he] at hx
    simp at hx

/-- `World.Undiverted` for two nodes -/
def isUndiverted (net : Nodes Bool) (w : World.State Bool) : World.Action Bool → Bool
  | .event v session (.messageReceived peerId (.hello challenge)) _ _ =>
    w.drawn.all fun d => d.challenge.1 != challenge ||
      net.otherEnd v session == some (d.node,d.session) && peerId == (net.identity d.node).peerId
  | .event i session (.messageReceived peerId (.join _ _ _ _ _)) _ _ =>
    (JsMap.get (w.actors i).challenges peerId).all fun held => w.drawn.any fun d =>
      d.node == i && d.session == session && d.peerId == peerId && d.challenge.1 == held
  | _ => true

theorem undiverted_of_isUndiverted {net : Nodes Bool} (w : World.State Bool) (a : World.Action Bool)
    (h : isUndiverted net w a = true) : Undiverted net w a := by
  constructor
  · rintro v session peerId challenge now draw rfl d hd hch
    simp only [isUndiverted,List.all_eq_true] at h
    simpa [hch] using h d hd
  · rintro i session peerId claimedId pubkey powCounter challenge signature now draw rfl held hheld
    simp only [isUndiverted,hheld,Option.all_some,List.any_eq_true,Bool.and_eq_true,beq_iff_eq] at h
    obtain ⟨d,hd,⟨⟨hn,hs⟩,hp⟩,hc⟩ := h
    exact ⟨d,hd,hn,hs,hp,hc⟩

def sampleEvent (i : Bool) (e : NetworkEvent) (b : UInt8) : World.Action Bool :=
  .event i 1 e 0 (sampleChallenge b)

/-- The node `true` is at the other end of a session under the id of the key `b`, and answers the
challenge of the other node. -/
def answeredRun (b : UInt8) : List (World.Action Bool) :=
  [sampleEvent false (.peerConnected (sampleIdentity 2).peerId) 7,
    sampleEvent true (.peerConnected (sampleIdentity b).peerId) 8,
    sampleEvent true (.messageReceived (sampleIdentity b).peerId (.hello (sampleChallenge 7).1)) 0]

def sampleJoin : World.Action Bool :=
  sampleEvent false (.messageReceived (sampleIdentity 2).peerId
    (GossipActor.answer (meetingNodes.config true) (sampleChallenge 7).1)) 0

/-- An attacker is at the other end of every session. -/
def relayNodes : Nodes Bool := sampleNodes fun _ _ => none

end Cache
