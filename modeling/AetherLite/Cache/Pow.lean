import AetherLite.Lib.Bytes

/-! The proof of work of gossip packets as the cache node computes it. -/
set_option autoImplicit false

namespace Cache

def minDifficulty : UInt32 := 8
def maxDifficulty : UInt32 := 32
def maxPayloadSize : Nat := 2*1024
def nonceSize : Nat := 12
def maxTimeDriftMs : UInt64 := 15*60*1000
def maxHopCount : UInt32 := 30

/-- `b"AETHER/v3/gossip"` -/
def gossipDomain : Bytes :=
  [0x41,0x45,0x54,0x48,0x45,0x52,0x2f,0x76,0x33,0x2f,0x67,0x6f,0x73,0x73,0x69,0x70]

def toBeBytes64 (n : UInt64) : Bytes := Bytes.bigEndian 8 n.toNat
def toBeBytes32 (n : UInt32) : Bytes := Bytes.bigEndian 4 n.toNat

structure PowCommittedHeader where
  timestamp : UInt64
  zoneId : UInt32
  powDifficulty : UInt32
  nonce : Bytes
  payload : Bytes

def preimage (h : PowCommittedHeader) : Option Bytes :=
  if h.powDifficulty > 0xff then none
  else if h.nonce.length > 0xffff then none
  else if h.payload.length > 0xffffffff then none
  else some (gossipDomain ++ toBeBytes64 h.timestamp ++ toBeBytes32 h.zoneId ++
    [h.powDifficulty.toUInt8] ++ Bytes.bigEndian 2 h.nonce.length ++ h.nonce ++
      Bytes.bigEndian 4 h.payload.length ++ h.payload)

/-- Whether the hash has that many leading zero bits. -/
def meetsDifficulty (hash : Bytes) (difficulty : UInt32) : Bool :=
  if difficulty = 0 then true
  else if difficulty.toNat > hash.length*8 then false
  else
    let fullBytes := difficulty.toNat/8
    let remainBits := difficulty.toNat % 8
    if (hash.take fullBytes).any (· != 0) then false
    else if remainBits > 0 then
      hash.getD fullBytes 0 &&& ((0xff : UInt8) <<< UInt8.ofNat (8-remainBits)) == 0
    else true

section
variable (sha256 : Bytes → Bytes)

def powHash (preimage : Bytes) (powNonce : UInt64) : Bytes := sha256 (preimage ++ toBeBytes64 powNonce)

def packetId (h : PowCommittedHeader) : Option String :=
  (preimage h).map fun bs => Bytes.toHex (sha256 bs)

def verifyPow (h : PowCommittedHeader) (powNonce : UInt64) : Bool :=
  if h.powDifficulty < minDifficulty || h.powDifficulty > maxDifficulty then false
  else match preimage h with
  | some bs => meetsDifficulty (powHash sha256 bs powNonce) h.powDifficulty
  | none => false

end

end Cache
