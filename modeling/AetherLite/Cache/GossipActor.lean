import AetherLite.Cache.NodeIdentity
import AetherLite.Lib.JsMap
import AetherLite.Lib.JsValue
import Mathlib.Data.Rat.Defs

/-! The handshake of the cache node: a HELLO is answered by a JOIN, and a JOIN that is good
proves the peer whose challenge it answers. -/
set_option autoImplicit false

namespace Cache

inductive Category where
  | gossip
  | dhtPut
  | dhtGet
  | pex
  | handshake
  | signaling
  deriving DecidableEq

structure RateLimitConfig where
  ratePerSec : Rat
  burst : Rat

def Category.config : Category → RateLimitConfig
  | gossip => ⟨20,60⟩
  | dhtPut => ⟨5,30⟩
  | dhtGet => ⟨5,20⟩
  | pex => ⟨1,5⟩
  | handshake => ⟨1/5,3⟩
  | signaling => ⟨10,40⟩

structure Bucket where
  tokens : Rat
  lastRefill : Rat

structure RateLimiter where
  buckets : JsMap (String × Category) Bucket := []
  dropped : JsMap Category Nat := []

namespace RateLimiter

/-- The clock is in seconds. -/
def allowAt (l : RateLimiter) (peerId : String) (category : Category) (now : Rat) :
    RateLimiter × Bool :=
  let config := category.config
  let bucket := (JsMap.get l.buckets (peerId,category)).getD ⟨config.burst,now⟩
  let elapsed := max 0 (now-bucket.lastRefill)
  let tokens := min (bucket.tokens+elapsed*config.ratePerSec) config.burst
  if tokens < 1 then
    ({ buckets := JsMap.set l.buckets (peerId,category) ⟨tokens,now⟩
       dropped := JsMap.set l.dropped category ((JsMap.get l.dropped category).getD 0+1) },false)
  else ({ l with buckets := JsMap.set l.buckets (peerId,category) ⟨tokens-1,now⟩ },true)

def forget (l : RateLimiter) (peerId : String) : RateLimiter :=
  { l with buckets := l.buckets.filter fun e => e.1.1 ≠ peerId }

end RateLimiter

abbrev PeerId := String

abbrev Challenge := {challenge : Bytes // challenge.length = challengeBytes}

/-- `P2PMessage`, as the handshake sees it -/
inductive GossipActor.P2PMessage where
  | hello (challenge : Bytes)
  | join (peerId : PeerId) (pubkey : Bytes) (powCounter : UInt64) (challenge signature : Bytes)
  | other (category : Option Category)

inductive NetworkEvent where
  | peerConnected (peerId : PeerId)
  | peerDisconnected (peerId : PeerId) (session : Nat)
  | peerReset (peerId : PeerId)
  | messageReceived (peerId : PeerId) (message : GossipActor.P2PMessage)

inductive PeerManagerControl where
  | initiateConnection (peerId : PeerId)
  | handleIncomingSignal (senderId : PeerId) (payload : Js.Val)
  | peerDisconnected (peerId : PeerId) (session : Nat)
  | dropPeer (peerId : PeerId)
  | setChallenge (peerId : PeerId) (challenge : Bytes)
  | markVerified (peerId : PeerId)

/-- What the actor sends to the peer manager. -/
inductive Sent where
  /-- `PeerManagerCommand::SendMessage` -/
  | sendMessage (peerId : PeerId) (message : GossipActor.P2PMessage)
  | control (c : PeerManagerControl)

/-- The part of the actor that the handshake uses -/
structure GossipActor where
  rateLimiter : RateLimiter := {}
  challenges : JsMap PeerId Bytes := []
  verified : JsMap PeerId Unit := []

namespace GossipActor

def categoryOf : P2PMessage → Option Category
  | .hello _ => some .handshake
  | .join _ _ _ _ _ => some .handshake
  | .other category => category

def isPreHandshake : P2PMessage → Bool
  | .hello _ => true
  | .join _ _ _ _ _ => true
  | .other _ => false

def forgetPeer (a : GossipActor) (peerId : PeerId) : GossipActor where
  challenges := JsMap.delete a.challenges peerId
  verified := JsMap.delete a.verified peerId
  rateLimiter := a.rateLimiter.forget peerId

def beginHandshake (a : GossipActor) (peerId : PeerId) (challenge : Challenge) :
    GossipActor × List Sent :=
  ({ a with challenges := JsMap.set a.challenges peerId challenge.1 },
    [.control (.setChallenge peerId challenge.1),.sendMessage peerId (.hello challenge.1)])

/-- A peer whose JOIN is bad is forgotten and dropped. -/
def refuse (a : GossipActor) (peerId : PeerId) : GossipActor × List Sent :=
  (a.forgetPeer peerId,[.control (.dropPeer peerId)])

/-- What an actor is spawned with -/
structure Config where
  crypto : Crypto
  identity : NodeIdentity crypto
  powParams : NodeIdPowParams

section
variable (cfg : Config)

def handleJoin (a : GossipActor) (peerId claimedId : PeerId) (pubkey : Bytes) (powCounter : UInt64)
    (challenge signature : Bytes) : GossipActor × List Sent :=
  if JsMap.has a.verified peerId then (a,[])
  else match JsMap.get a.challenges peerId with
  | none => (a,[])
  | some expected =>
    if claimedId ≠ peerId then a.refuse peerId
    else if pubkey.length ≠ pubkeyBytes then a.refuse peerId
    else if !verifySignedClaim cfg.crypto ⟨claimedId,pubkey,powCounter⟩ challenge signature expected
        cfg.powParams then a.refuse peerId
    else ({ a with verified := JsMap.set a.verified peerId () },[.control (.markVerified peerId)])

/-- The JOIN that answers a challenge, of whatever length -/
def answer (challenge : Bytes) : P2PMessage :=
  .join cfg.identity.claim.peerId cfg.identity.claim.pubkey cfg.identity.claim.powCounter challenge
    (cfg.identity.signChallenge challenge)

/-- A message that has no category costs nothing. -/
def allow (a : GossipActor) (peerId : PeerId) (msg : P2PMessage) (now : Rat) : RateLimiter × Bool :=
  match categoryOf msg with
  | none => (a.rateLimiter,true)
  | some category => a.rateLimiter.allowAt peerId category now

def handleMessage (a : GossipActor) (peerId : PeerId) (msg : P2PMessage) (now : Rat) :
    GossipActor × List Sent :=
  let allowed := a.allow peerId msg now
  let a := { a with rateLimiter := allowed.1 }
  if !allowed.2 then (a,[])
  else if !isPreHandshake msg && !JsMap.has a.verified peerId then (a,[])
  else match msg with
  | .hello challenge =>
    if challenge.isEmpty then (a,[]) else (a,[.sendMessage peerId (answer cfg challenge)])
  | .join claimedId pubkey powCounter challenge signature =>
    handleJoin cfg a peerId claimedId pubkey powCounter challenge signature
  | .other _ => (a,[])

/-- The loop of the actor handles an event. A challenge is drawn for a peer that connects. -/
def handle (a : GossipActor) (e : NetworkEvent) (now : Rat) (draw : Challenge) :
    GossipActor × List Sent :=
  match e with
  | .peerConnected peerId => a.beginHandshake peerId draw
  | .peerDisconnected peerId session =>
    (a.forgetPeer peerId,[.control (.peerDisconnected peerId session)])
  | .peerReset peerId => (a.forgetPeer peerId,[])
  | .messageReceived peerId message => handleMessage cfg a peerId message now

end

/-- A JOIN that the actor takes. -/
structure Accepted (cfg : Config) (a : GossipActor) (peerId : PeerId) (msg : P2PMessage)
    (expected : Bytes) : Prop where
  unverified : JsMap.get a.verified peerId = none
  held : JsMap.get a.challenges peerId = some expected
  join : ∃ pubkey powCounter signature, msg = .join peerId pubkey powCounter expected signature ∧
    derivePeerId cfg.crypto pubkey = peerId ∧
      cfg.crypto.verify pubkey (joinMessage expected) signature = true

/-- What a message does to the handshake. -/
inductive Handled (cfg : Config) (a : GossipActor) (peerId : PeerId) (msg : P2PMessage)
    (b : GossipActor) (out : List Sent) : Prop where
  | ignored (hc : b.challenges = a.challenges) (hv : b.verified = a.verified) (ho : out = [])
  | answered (challenge : Bytes) (hm : msg = .hello challenge) (hc : b.challenges = a.challenges)
      (hv : b.verified = a.verified) (ho : out = [.sendMessage peerId (answer cfg challenge)])
  | refused (hv : JsMap.get a.verified peerId = none) (expected : Bytes)
      (held : JsMap.get a.challenges peerId = some expected)
      (hj : ∃ claimedId pubkey powCounter challenge signature,
        msg = .join claimedId pubkey powCounter challenge signature)
      (hb : b.challenges = JsMap.delete a.challenges peerId ∧
        b.verified = JsMap.delete a.verified peerId)
      (ho : out = [.control (.dropPeer peerId)])
  | accepted (expected : Bytes) (h : Accepted cfg a peerId msg expected)
      (hc : b.challenges = a.challenges) (hv : b.verified = JsMap.set a.verified peerId ())
      (ho : out = [.control (.markVerified peerId)])

section
variable {cfg : Config} {a b : GossipActor} {out : List Sent} {peerId : PeerId} {msg : P2PMessage}

theorem handled_handleJoin {a₀ : GossipActor} (hc₀ : a.challenges = a₀.challenges)
    (hv₀ : a.verified = a₀.verified) {claimedId : PeerId} {pubkey : Bytes} {powCounter : UInt64}
    {challenge signature : Bytes} (h : handleJoin cfg a peerId claimedId pubkey powCounter challenge
      signature = (b,out)) :
    Handled cfg a₀ peerId (.join claimedId pubkey powCounter challenge signature) b out := by
  unfold handleJoin at h
  split at h
  · cases h
    exact .ignored hc₀ hv₀ rfl
  next hver =>
  have hnone : JsMap.get a₀.verified peerId = none := by
    rw [← hv₀]
    simpa [JsMap.has] using hver
  split at h
  · cases h
    exact .ignored hc₀ hv₀ rfl
  next expected held =>
  have held : JsMap.get a₀.challenges peerId = some expected := by rw [← hc₀,held]
  have hrefuse (h : a.refuse peerId = (b,out)) :
      Handled cfg a₀ peerId (.join claimedId pubkey powCounter challenge signature) b out := by
    cases h
    exact .refused hnone expected held ⟨_,_,_,_,_,rfl⟩
      ⟨by rw [forgetPeer,hc₀],by rw [forgetPeer,hv₀]⟩ rfl
  split at h
  · exact hrefuse h
  next hid =>
  split at h
  · exact hrefuse h
  split at h
  · exact hrefuse h
  next hgood =>
  cases h
  obtain rfl : claimedId = peerId := not_not.mp hid
  have hgood : verifySignedClaim cfg.crypto ⟨claimedId,pubkey,powCounter⟩ challenge signature
      expected cfg.powParams = true := by simpa using hgood
  obtain ⟨rfl,hkey,hsig⟩ := verified_of_verifySignedClaim hgood
  exact .accepted challenge ⟨hnone,held,pubkey,powCounter,signature,rfl,hkey,hsig⟩ hc₀
    (by rw [hv₀]) rfl

theorem handled_handleMessage {now : Rat} (h : handleMessage cfg a peerId msg now = (b,out)) :
    Handled cfg a peerId msg b out := by
  unfold handleMessage at h
  dsimp only at h
  split at h
  · cases h
    exact .ignored rfl rfl rfl
  split at h
  · cases h
    exact .ignored rfl rfl rfl
  cases msg with
  | hello challenge =>
    dsimp only at h
    split at h
    · cases h
      exact .ignored rfl rfl rfl
    · cases h
      exact .answered challenge rfl rfl rfl rfl
  | join claimedId pubkey powCounter challenge signature =>
    exact handled_handleJoin (by rfl) (by rfl) h
  | other category =>
    cases h
    exact .ignored rfl rfl rfl

end

end GossipActor

end Cache
