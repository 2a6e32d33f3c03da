import AetherLite.Crypto.NodeIdentity

/-! One connection to a peer, as far as the peer manager sees it. What the browser does
with it is left to the caller. -/
set_option autoImplicit false

namespace Network

open Js

abbrev PeerId := String

namespace RingPosition

def distance (a b : Number) : Number :=
  let d := (a.sub b).abs
  Number.min d ((Number.fin 1).sub d)

end RingPosition

namespace Sdp

/-- The line terminators of a regular expression. -/
def isLineEnd (c : Char) : Bool := c ∈ ['\n','\r','\u2028','\u2029']

/-- What is left after the pattern's literal head. -/
def dropHead (cs : List Char) : Option (List Char) :=
  if "a=fingerprint:".toList.isPrefixOf cs then some (cs.drop 14) else none

def isFingerprintChar (c : Char) : Bool :=
  c.isDigit || (decide ('a' ≤ c) && decide (c ≤ 'f')) || (decide ('A' ≤ c) && decide (c ≤ 'F')) ||
    c == ':'

/-- `/a=fingerprint:\s*(\S+)\s+([0-9A-Fa-f:]+)\s*$/` at the head of a text: the two groups
and the text that follows. -/
def fingerprintLine (cs : List Char) : Option ((List Char × List Char) × List Char) := do
  let cs ← dropHead cs
  let (hash,cs) := (cs.dropWhile isSpace).span fun c => !isSpace c
  let (digits,cs) := (cs.dropWhile isSpace).span isFingerprintChar
  let (blank,rest) := cs.span isSpace
  if hash.isEmpty || digits.isEmpty then none
  else if rest.isEmpty || blank.any isLineEnd then some ((hash,digits),cs)
  else none

/-- The matches of the pattern at the starts of lines, each after the one before. -/
def fingerprintLines : Nat → Bool → List Char → List (List Char × List Char)
  | 0, _, _ => []
  | _, _, [] => []
  | n+1, atLineStart, c :: cs =>
    match if atLineStart then fingerprintLine (c :: cs) else none with
    | some (a,rest) => a :: fingerprintLines n false rest
    | none => fingerprintLines n (isLineEnd c) cs

/-- The code units of a text, in which `sort` compares. -/
def codeUnits (s : String) : List Nat :=
  s.toList.flatMap fun c =>
    let n := c.toNat
    if n < 0x10000 then [n] else [0xd800+(n-0x10000)/1024,0xdc00+(n-0x10000) % 1024]

end Sdp

/-- `toLowerCase` and `toUpperCase` -/
structure CaseMap where
  lower : String → String
  upper : String → String

/-- `extractFingerprint` -/
def extractFingerprint (cases : CaseMap) : Option String → String
  | none => ""
  | some sdp =>
    let found := (Sdp.fingerprintLines (sdp.length+1) true sdp.toList).map fun a =>
      cases.lower (String.ofList a.1) ++ " " ++ cases.upper (String.ofList a.2)
    ",".intercalate
      (sortBy (fun a b => if Sdp.codeUnits b < Sdp.codeUnits a then Number.fin 1 else Number.fin 0)
        found.eraseDups)

inductive Direction where
  | outbound
  | inbound
  deriving DecidableEq, Repr

structure WebRTCPeer where
  peerId : PeerId
  position : Number
  direction : Direction
  connected : Bool := false
  connecting : Bool := true
  verified : Bool := false
  pubkey : Option Bytes := none
  powCounter : Option Number := none
  verifiedAt : Option Nat := none
  netGroup : Option String := none
  challenge : Option Bytes := none
  /-- `channel.readyState === 'open'` -/
  channelOpen : Bool := false
  /-- The SDP of the two descriptions of the RTCPeerConnection. -/
  localSdp : Option String := none
  remoteSdp : Option String := none
  /-- What `signal` was called with. -/
  signals : List Val := []

namespace WebRTCPeer

def create (sodium : Sodium) (remoteId : PeerId) (initiator : Bool) : WebRTCPeer where
  peerId := remoteId
  position := NodeIdentity.derivePosition sodium remoteId
  direction := if initiator then .outbound else .inbound

def opened (p : WebRTCPeer) : WebRTCPeer :=
  { p with connected := true, connecting := false, channelOpen := true }

/-- The descriptions of the RTCPeerConnection are set. -/
def describe (own remote : Option String) (p : WebRTCPeer) : WebRTCPeer :=
  { p with localSdp := own, remoteSdp := remote }

/-- The channel takes nothing more. -/
def closing (p : WebRTCPeer) : WebRTCPeer := { p with channelOpen := false }

/-- The channel has closed, or the transport was lost. -/
def lost (p : WebRTCPeer) : WebRTCPeer := { p with connected := false, connecting := false }

def close (p : WebRTCPeer) : WebRTCPeer :=
  { p with connected := false, connecting := false, channelOpen := false }

def signal (data : Val) (p : WebRTCPeer) : WebRTCPeer := { p with signals := p.signals ++ [data] }

def setChallenge (challenge : Bytes) (p : WebRTCPeer) : WebRTCPeer :=
  { p with challenge := some challenge }

def markVerified (pubkey : Bytes) (powCounter : Number) (now : Nat) (p : WebRTCPeer) : WebRTCPeer :=
  { p with
    verified := true
    verifiedAt := some now
    pubkey := some pubkey
    powCounter := some powCounter }

/-- `resolveNetGroup`, with the group the statistics of the transport give. -/
def resolveNetGroup (group : String) (p : WebRTCPeer) : WebRTCPeer :=
  { p with netGroup := some (p.netGroup.getD group) }

structure Fingerprints where
  own : String
  remote : String

def dtlsFingerprints (cases : CaseMap) (p : WebRTCPeer) : Fingerprints :=
  ⟨extractFingerprint cases p.localSdp,extractFingerprint cases p.remoteSdp⟩

end WebRTCPeer

end Network
