import AetherLite.Crypto.NodeIdentity
import AetherLite.Lib.MsgPack

/-! Onions: cells of one size, a layer for each hop. -/
set_option autoImplicit false

namespace OnionRouter

open Js

structure OnionHop where
  peerId : String
  /-- Ed25519 -/
  pubkey : Bytes
  deriving DecidableEq

/-- libsodium and the decoder of msgpack as the router calls them; none is a throw. -/
structure Primitives where
  float64 : MsgPack.Float64
  decode : Bytes → Option Val
  toCurvePublicKey : Bytes → Option Bytes
  /-- the first argument is the ephemeral key -/
  boxSeal : (seed plaintext xPk : Bytes) → Bytes
  boxSealOpen : (ciphertext xPk xSk : Bytes) → Option Bytes

/-- The random bytes of one call. -/
structure Entropy where
  /-- a draw of so many bytes, by its number -/
  padding : Nat → Nat → Bytes
  padding_length : ∀ i n, (padding i n).length = n
  /-- the ephemeral key of the layer with so many hops behind it -/
  seed : Nat → Bytes

/-- What the exit is to do. -/
inductive ExitPayload where
  | exitFluff (zoneId : Int) (packet : Val) (slot : Option (String × Bytes))
  | exitHint (hint : Bytes)
  | drop

inductive OnionPayload where
  | relay (nextHop : String) (innerOnion : Bytes)
  | exit (payload : ExitPayload)

namespace ExitPayload

def slotVal : Option (String × Bytes) → Val
  | none => .undefined
  | some (topicHash,hint) => .obj [("topicHash",.str topicHash),("hint",.bytes hint)]

def toVal : ExitPayload → Val
  | exitFluff zoneId packet slot =>
    .obj [("type",.str "exit_fluff"),("zoneId",.num (Number.ofInt zoneId)),("packet",packet),
      ("slot",slotVal slot)]
  | exitHint hint => .obj [("type",.str "exit_hint"),("hint",.bytes hint)]
  | drop => .obj [("type",.str "drop")]

/-- What msgpack keeps of it. -/
def nullify : ExitPayload → ExitPayload
  | exitFluff zoneId packet slot => exitFluff zoneId packet.nullify slot
  | p => p

end ExitPayload

def relayVal (nextHop : String) (innerOnion : Bytes) : Val :=
  .obj [("type",.str "relay"),("nextHop",.str nextHop),("innerOnion",.bytes innerOnion)]

def cellSize : Nat := 3800
def exitLayerSize : Nat := 3400
def sealOverhead : Nat := 48
def sealedExitLayerSize : Nat := exitLayerSize+sealOverhead

/-- Magic, length, data and random padding; none where it throws. -/
def padCell (random : Nat → Bytes) (payload : Bytes) (size : Nat) : Option Bytes :=
  if payload.length > size-4 then none
  else some ([0xa5,0x5a] ++ Bytes.bigEndian 2 payload.length ++ payload ++
    random (size-4-payload.length))

def unpadCell (cell : Bytes) (expectedSize : Nat) : Option Bytes :=
  if cell.length ≠ expectedSize then none
  else if cell.getD 0 0 ≠ 0xa5 || cell.getD 1 0 ≠ 0x5a then none
  else
    let len := Bytes.toNat ((cell.drop 2).take 2)
    if len > cell.length-4 then none else some ((cell.drop 4).take len)

/-- The shape of a decoded plaintext. -/
def parsePayload (decoded : Val) : Option OnionPayload :=
  if !decoded.truthy || !decoded.isObject then none
  else match decoded.field "type" with
  | .str "relay" =>
    match decoded.field "nextHop",decoded.field "innerOnion" with
    | .str nextHop,.bytes innerOnion =>
      if !NodeIdentity.isPeerId nextHop then none
      else if innerOnion.length > cellSize-4 then none
      else some (.relay nextHop innerOnion)
    | _,_ => none
  | .str "exit_fluff" =>
    let packet := decoded.field "packet"
    if !packet.truthy || !packet.isObject then none
    else match PowPolicy.integer? (decoded.field "zoneId") with
    | none => none
    | some zoneId =>
      let s := decoded.field "slot"
      if s.isNullish then some (.exit (.exitFluff zoneId packet none))
      else match s.field "topicHash",s.field "hint" with
      | .str topicHash,.bytes hint => some (.exit (.exitFluff zoneId packet (some (topicHash,hint))))
      | _,_ => none
  | .str "exit_hint" =>
    match decoded.field "hint" with
    | .bytes hint => some (.exit (.exitHint hint))
    | _ => none
  | .str "drop" => some (.exit .drop)
  | _ => none

section
variable (p : Primitives)

def encode (v : Val) : Option Bytes := MsgPack.encode p.float64 v

/-- The sealed layers, the innermost first. -/
def wrapLayers (r : Entropy) (exit : ExitPayload) : List OnionHop → Option Bytes
  | [] => none
  | [exitHop] => do
    let payload ← encode p exit.toVal
    let layer ← padCell (r.padding 0) payload exitLayerSize
    let xPk ← p.toCurvePublicKey exitHop.pubkey
    some (p.boxSeal (r.seed 0) layer xPk)
  | hop :: next :: rest => do
    let inner ← wrapLayers r exit (next :: rest)
    let layer ← encode p (relayVal next.peerId inner)
    let xPk ← p.toCurvePublicKey hop.pubkey
    some (p.boxSeal (r.seed (rest.length+1)) layer xPk)

/-- The cell for the first hop; none where it throws. -/
def wrapCircuit (r : Entropy) (exit : ExitPayload) (hops : List OnionHop) : Option Bytes := do
  let ciphertext ← wrapLayers p r exit hops
  padCell (r.padding 1) ciphertext cellSize

/-- A padded plaintext is taken out of its padding. -/
def plainLayer (plaintext : Bytes) : Bytes :=
  if plaintext.length = exitLayerSize then (unpadCell plaintext exitLayerSize).getD plaintext
  else plaintext

/-- One layer of a cell; none for what does not open or has not the shape. -/
def unwrapWithCurveKeys (cell myXPk myXSk : Bytes) : Option OnionPayload := do
  let rawCiphertext ← unpadCell cell cellSize
  let plaintext ← p.boxSealOpen rawCiphertext myXPk myXSk
  let decoded ← p.decode (plainLayer plaintext)
  parsePayload decoded

end

theorem padCell_some {random : Nat → Bytes} {payload cell : Bytes} {size : Nat}
    (h : padCell random payload size = some cell) : payload.length ≤ size-4 ∧
      cell = [0xa5,0x5a] ++ Bytes.bigEndian 2 payload.length ++ payload ++
        random (size-4-payload.length) := by
  simp only [padCell,Option.ite_none_left_eq_some,Option.some.injEq] at h
  exact ⟨not_lt.mp h.1,h.2.symm⟩

theorem padCell_length {random : Nat → Bytes} (hr : ∀ n, (random n).length = n)
    {payload cell : Bytes} {size : Nat} (hs : 4 ≤ size)
    (h : padCell random payload size = some cell) : cell.length = size := by
  obtain ⟨hle,rfl⟩ := padCell_some h
  simp [hr]
  omega

/-- What is padded is taken out again. -/
theorem unpadCell_padCell {random : Nat → Bytes} (hr : ∀ n, (random n).length = n)
    {payload cell : Bytes} {size : Nat} (hs : 4 ≤ size) (hmax : size ≤ 0x10000)
    (h : padCell random payload size = some cell) : unpadCell cell size = some payload := by
  have hlen := padCell_length hr hs h
  obtain ⟨hle,rfl⟩ := padCell_some h
  have hbe : Bytes.toNat (Bytes.bigEndian 2 payload.length) = payload.length :=
    Bytes.toNat_bigEndian (by omega)
  have hfield : ((([0xa5,0x5a] ++ Bytes.bigEndian 2 payload.length ++ payload ++
      random (size-4-payload.length)).drop 2).take 2) = Bytes.bigEndian 2 payload.length := by
    simp [List.append_assoc,List.take_left']
  have hdata : ((([0xa5,0x5a] ++ Bytes.bigEndian 2 payload.length ++ payload ++
      random (size-4-payload.length)).drop 4).take payload.length) = payload := by
    rw [List.append_assoc,List.drop_left' (by simp),List.take_left' rfl]
  unfold unpadCell
  rw [if_neg (not_not.mpr hlen),if_neg (by simp)]
  dsimp only
  rw [hfield,hbe,if_neg (by rw [hlen]; omega),hdata]

end OnionRouter
