import AetherLite.Lib.MsgPack
import AetherLite.Wire.WireCodec

/-! A frame as it is built, and that it is read as what it was built from. -/
set_option autoImplicit false

namespace Wire

open Js

/-- `REVERSE_TYPE_MAP` -/
def WireType.tag? : WireType → Option String
  | hello => some "hello"
  | join => some "join"
  | ringInfo => some "ring-info"
  | ping => some "ping"
  | pong => some "pong"
  | pexRequest => some "pex-request"
  | pexResponse => some "pex-response"
  | sdpRelay => some "sdp-relay"
  | iceRelay => some "ice-relay"
  | gossip => some "gossip"
  | stem => some "stem"
  | onionStem => some "onion-stem"
  | hint => some "hint"
  | hintStem => some "hint-stem"
  | dhtPut => some "dht-put"
  | dhtPutStem => some "dht-put-stem"
  | dhtGet => some "dht-get"
  | dhtRes => some "dht-res"
  | localLinkReq | localLinkAck | localLinkRej | unknown => none

namespace WireCodec

/-- Fields that are assigned one after the other. -/
def assign (gs fs : List (String × Val)) : List (String × Val) :=
  fs.foldl (fun gs e => JsMap.set gs e.1 e.2) gs

/-- `{ type: tag, ...payload }`. The keys of an array are its indices, which come before others. -/
def withTag (tag : String) : Val → Val
  | .obj fs => .obj (assign [("type",.str tag)] fs)
  | .arr xs => .obj (xs.zipIdx.map (fun x => (toString x.2,x.1)) ++ [("type",.str tag)])
  | .bytes bs =>
    .obj (bs.zipIdx.map (fun b => (toString b.2,.num (Number.ofNat b.1.toNat))) ++
      [("type",.str tag)])
  | _ => .obj [("type",.str tag)]

def taggedPayload (type : WireType) (payload : Val) : Val :=
  match type.tag? with
  | some tag => if payload.isObject then withTag tag payload else payload
  | none => payload

section
variable (f : MsgPack.Float64)

/-- None where msgpack does not write the payload. -/
def encode (type : WireType) (payload : Val) : Option Bytes :=
  (MsgPack.encode f (taggedPayload type payload)).map fun body => type.byte :: body

/-- What is read of a message that was sent. -/
def received (type : WireType) (payload : Val) : DecodedWireMessage :=
  ⟨type,(taggedPayload type payload).nullify⟩

variable {f} {type : WireType} {payload : Val} {data : Bytes}

theorem ofByte?_byte (h : type ∈ WireType.known) : WireType.ofByte? type.byte = some type := by
  cases type with
  | unknown => simp [WireType.known] at h
  | _ => rfl

/-- No known type has the byte that marks a chunk. -/
theorem byte_ne_zero (type : WireType) : type.byte ≠ 0x00 := by
  cases type <;> decide

theorem encode_head (h : encode f type payload = some data) : data.head? = some type.byte := by
  obtain ⟨body,-,rfl⟩ := Option.map_eq_some_iff.mp h
  rfl

theorem decode_encode (htype : type ∈ WireType.known) (h : encode f type payload = some data)
    (hp : MsgPack.Portable f (taggedPayload type payload)) :
    decode (MsgPack.decode f) data = received type payload := by
  obtain ⟨body,hbody,rfl⟩ := Option.map_eq_some_iff.mp h
  have hread := MsgPack.decode_encode hbody hp
  simp [decode,decodeBinary,ofByte?_byte htype,hread,received]

theorem nodup_assign {gs : List (String × Val)} (h : (JsMap.keys gs).Nodup)
    (fs : List (String × Val)) : (JsMap.keys (assign gs fs)).Nodup := by
  induction fs generalizing gs with
  | nil => exact h
  | cons e fs ih => exact ih (JsMap.nodup_keys_set h e.1 e.2)

theorem get_assign {gs fs : List (String × Val)} (h : (JsMap.keys fs).Nodup) (k : String) :
    JsMap.get (assign gs fs) k = (JsMap.get fs k).or (JsMap.get gs k) := by
  induction fs generalizing gs with
  | nil => rfl
  | cons e fs ih =>
    obtain ⟨hnew,hrest⟩ := List.nodup_cons.mp h
    rw [assign,List.foldl_cons]
    refine (ih hrest).trans ?_
    by_cases hk : k = e.1
    · have hnone : JsMap.get fs k = none := (JsMap.get_eq_none_iff fs k).mpr (hk ▸ hnew)
      rw [hnone,Option.none_or,hk]
      simp [JsMap.get]
    · have hne : (e.1 == k) = false := by simpa using Ne.symm hk
      rw [JsMap.get_set_ne _ hk]
      simp [JsMap.get,hne]

theorem mem_assign {gs fs : List (String × Val)} {e : String × Val} (h : e ∈ assign gs fs) :
    e ∈ gs ∨ e ∈ fs := by
  induction fs generalizing gs with
  | nil => exact .inl h
  | cons x fs ih =>
    rcases ih h with h | h
    · rcases JsMap.mem_set h with h | h
      · exact .inr (h ▸ List.mem_cons_self)
      · exact .inl h
    · exact .inr (List.mem_cons_of_mem x h)

/-- The tag stands beside the fields, and a field of its name takes its place. -/
theorem field_withTag (tag : String) {fs : List (String × Val)} (h : (JsMap.keys fs).Nodup)
    (k : String) : (withTag tag (.obj fs)).field k =
      ((JsMap.get fs k).or (if k = "type" then some (.str tag) else none)).getD .undefined := by
  change (JsMap.get (assign [("type",.str tag)] fs) k).getD .undefined = _
  rw [get_assign h]
  by_cases hk : k = "type"
  · simp [JsMap.get,hk]
  · have hne : ("type" == k) = false := by simpa using Ne.symm hk
    simp [JsMap.get,hk,hne]

theorem portableFields_iff {fs : List (String × Val)} :
    MsgPack.PortableFields f fs ↔ ∀ e ∈ fs, MsgPack.Portable f e.2 := by
  induction fs with
  | nil => simp [MsgPack.PortableFields]
  | cons e fs ih =>
    obtain ⟨k,x⟩ := e
    simp [MsgPack.PortableFields,ih]

theorem portable_taggedPayload {fs : List (String × Val)} (type : WireType)
    (h : MsgPack.Portable f (.obj fs)) : MsgPack.Portable f (taggedPayload type (.obj fs)) := by
  unfold taggedPayload
  cases htag : type.tag? with
  | none => exact h
  | some tag =>
    change MsgPack.Portable f (.obj (assign [("type",.str tag)] fs))
    simp only [MsgPack.Portable] at h ⊢
    obtain ⟨-,hproto,hfields⟩ := h
    refine ⟨nodup_assign (by simp [JsMap.keys]) fs,?_,portableFields_iff.mpr fun e he => ?_⟩
    · intro hmem
      obtain ⟨e,he,hk⟩ := List.mem_map.mp hmem
      rcases mem_assign he with he | he
      · rw [List.mem_singleton.mp he] at hk
        exact absurd (show "type" = "__proto__" from hk) (by decide)
      · exact hproto (hk ▸ List.mem_map_of_mem he)
    · rcases mem_assign he with he | he
      · rw [List.mem_singleton.mp he]
        trivial
      · exact portableFields_iff.mp hfields e he

end

end WireCodec

end Wire
