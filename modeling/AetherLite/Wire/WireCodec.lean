import AetherLite.Lib.JsonText

/-! The frames of a data channel: a byte for the type and a msgpack payload, or a JSON
text. -/
set_option autoImplicit false

namespace Wire

open Js

inductive WireType where
  | join
  | ringInfo
  | ping
  | pong
  | localLinkReq
  | localLinkAck
  | localLinkRej
  | hello
  | pexRequest
  | pexResponse
  | sdpRelay
  | iceRelay
  | gossip
  | stem
  | hint
  | hintStem
  | onionStem
  | dhtPut
  | dhtGet
  | dhtRes
  | dhtPutStem
  | unknown
  deriving DecidableEq, Repr

namespace WireType

def byte : WireType → UInt8
  | join => 0x10
  | ringInfo => 0x11
  | ping => 0x12
  | pong => 0x13
  | localLinkReq => 0x14
  | localLinkAck => 0x15
  | localLinkRej => 0x16
  | hello => 0x17
  | pexRequest => 0x20
  | pexResponse => 0x21
  | sdpRelay => 0x30
  | iceRelay => 0x31
  | gossip => 0x40
  | stem => 0x41
  | hint => 0x42
  | hintStem => 0x43
  | onionStem => 0x44
  | dhtPut => 0x50
  | dhtGet => 0x51
  | dhtRes => 0x52
  | dhtPutStem => 0x53
  | unknown => 0xff

/-- `KNOWN_WIRE_TYPES` -/
def known : List WireType :=
  [join,ringInfo,ping,pong,localLinkReq,localLinkAck,localLinkRej,hello,pexRequest,pexResponse,
    sdpRelay,iceRelay,gossip,stem,hint,hintStem,onionStem,dhtPut,dhtGet,dhtRes,dhtPutStem]

def ofByte? (b : UInt8) : Option WireType := known.find? fun t => t.byte = b

end WireType

structure DecodedWireMessage where
  type : WireType
  payload : Val

namespace WireCodec

/-- The types a JSON text can name. -/
def typeMap : JsMap String WireType :=
  [("hello",.hello),("join",.join),("ping",.ping),("pong",.pong),("gossip",.gossip),
    ("stem",.stem),("onion-stem",.onionStem),("dht-put",.dhtPut),("dht-get",.dhtGet),
    ("dht-res",.dhtRes),("pex-request",.pexRequest),("pex-response",.pexResponse),
    ("sdp-relay",.sdpRelay),("ice-relay",.iceRelay)]

def jsonType (msg : Val) : WireType :=
  match msg.field "type" with
  | .str t => (JsMap.get typeMap t).getD .unknown
  | _ => .unknown

/-- The fallback of `decode`. -/
def decodeJson (data : Bytes) : DecodedWireMessage :=
  match JsonText.parse (Utf8.decode data) with
  | .ok msg => ⟨jsonType msg,msg⟩
  | .error _ => ⟨.unknown,.null⟩

section
variable (unpack : Bytes → Option Val)

/-- The message of a frame with a known first byte and a payload that msgpack can read. -/
def decodeBinary (data : Bytes) : Option DecodedWireMessage := do
  let t ← data.head?.bind WireType.ofByte?
  let payload ← unpack data.tail
  some ⟨t,payload⟩

def decode (data : Bytes) : DecodedWireMessage :=
  (decodeBinary unpack data).getD (decodeJson data)

end

end WireCodec

end Wire
