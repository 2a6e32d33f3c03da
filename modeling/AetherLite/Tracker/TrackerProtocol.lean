import AetherLite.Crypto.NodeIdentity
import AetherLite.Lib.JsonText

/-! What a node and a tracker say to each other. -/
set_option autoImplicit false

namespace TrackerProtocol

open Js NodeIdentity

abbrev PeerId := String

def trackerProtocolVersion : Nat := 2
def trackerMaxFrameBytes : Nat := 64*1024
def trackerMaxPeers : Nat := 32

inductive TrackerErrorCode where
  | badMessage
  | unsupportedVersion
  | invalidIdentity
  | badSignature
  | badHost
  | rateLimited
  | capacity
  | notJoined
  | timeout
  deriving DecidableEq

structure TrackerJoin where
  v : Int
  peerId : PeerId
  pubkey : String
  powCounter : Number
  host : String
  sig : String
  deriving DecidableEq

inductive TrackerClientMessage where
  | join (m : TrackerJoin)
  | relay (targetPeerId : PeerId) (payload : List (String × Val))

/-- A text of so many hex digits. -/
def isHexText (n : Nat) (s : String) : Bool := s.toList.length == n && s.toList.all isHexDigit

def isHostChar (c : Char) : Bool :=
  c.isDigit || (decide ('a' ≤ c) && decide (c ≤ 'z')) || c == '.' || c == '-'

def isAddressChar (c : Char) : Bool := isHexDigit c || c == ':' || c == '.'

/-- The end of a host: nothing, or a port. -/
def portRe : List Char → Bool
  | [] => true
  | c :: ds => c == ':' && decide (1 ≤ ds.length) && decide (ds.length ≤ 5) && ds.all Char.isDigit

/-- `HOST_RE` -/
def hostRe : List Char → Bool
  | '[' :: cs =>
    match cs.span isAddressChar with
    | (inside,']' :: port) =>
      decide (2 ≤ inside.length) && decide (inside.length ≤ 45) && portRe port
    | _ => false
  | cs =>
    let (name,port) := cs.span isHostChar
    decide (1 ≤ name.length) && decide (name.length ≤ 253) && portRe port

/-- A text without the default port that it may end in. -/
def dropDefaultPort (cs : List Char) : List Char :=
  if [':','8','0'].isSuffixOf cs then cs.take (cs.length-3)
  else if [':','4','4','3'].isSuffixOf cs then cs.take (cs.length-4)
  else cs

/-- `toLowerCase` is given by `lower`. -/
def normalizeHostHeader (lower : String → String) : Option String → Option String
  | none => none
  | some host =>
    let h := lower (String.ofList (trim host.toList))
    if hostRe h.toList then some (String.ofList (dropDefaultPort h.toList)) else none

def parseJoin (d : Val) : Option TrackerJoin :=
  match PowPolicy.safeInteger? (d.field "v"),d.field "peerId",d.field "pubkey",d.field "powCounter",
      d.field "host",d.field "sig" with
  | some v,.str peerId,.str pubkey,.num powCounter,.str host,.str sig =>
    if isPeerId peerId && isHexText 64 pubkey && (powCounter.toSafeInt?).any (0 ≤ ·) &&
        hostRe host.toList && isHexText 128 sig then some ⟨v,peerId,pubkey,powCounter,host,sig⟩
    else none
  | _,_,_,_,_,_ => none

/-- A text that is no JSON or no message is none. -/
def parseTrackerClientMessage (raw : String) : Option TrackerClientMessage :=
  if trackerMaxFrameBytes < utf16Length raw then none
  else
    match JsonText.parse raw.toList with
    | .ok (.obj fs) =>
      match (Val.obj fs).field "type" with
      | .str "join" => (parseJoin (.obj fs)).map .join
      | .str "relay" =>
        match (Val.obj fs).field "targetPeerId",(Val.obj fs).field "payload" with
        | .str targetPeerId,.obj payload =>
          if isPeerId targetPeerId then some (.relay targetPeerId payload) else none
        | _,_ => none
      | _ => none
    | _ => none

end TrackerProtocol
