import AetherLite.Onion.OnionRouter

/-! Wrapping and peeling are inverse, and nothing that a hop sees depends on the payload. -/
set_option autoImplicit false

namespace OnionRouter

open Js

/-- What the router relies on: a box is 48 bytes longer than its plaintext and opens with its
key pair, and msgpack reads what it writes. -/
structure Primitives.Sound (p : Primitives) (keyPair : Bytes → Bytes → Prop) : Prop where
  length_boxSeal : ∀ seed plaintext xPk,
    (p.boxSeal seed plaintext xPk).length = plaintext.length+sealOverhead
  open_boxSeal : ∀ seed plaintext xPk xSk, keyPair xPk xSk →
    p.boxSealOpen (p.boxSeal seed plaintext xPk) xPk xSk = some plaintext
  open_other : ∀ pubkey seed plaintext xPk xPk' xSk', p.toCurvePublicKey pubkey = some xPk →
    xPk' ≠ xPk → p.boxSealOpen (p.boxSeal seed plaintext xPk) xPk' xSk' = none
  decode_encode : ∀ v bs, MsgPack.encode p.float64 v = some bs →
    MsgPack.Portable p.float64 v → p.decode bs = some v.nullify

/-- A hop with its keys. -/
structure KeyedHop where
  hop : OnionHop
  xPk : Bytes
  xSk : Bytes

structure KeyedHop.Valid (p : Primitives) (keyPair : Bytes → Bytes → Prop) (h : KeyedHop) :
    Prop where
  peerId : NodeIdentity.isPeerId h.hop.peerId = true
  curve : p.toCurvePublicKey h.hop.pubkey = some h.xPk
  pair : keyPair h.xPk h.xSk

/-- The payload can be sent: msgpack writes it and reads it back, and it fits the exit layer. -/
structure ExitPayload.Fits (p : Primitives) (exit : ExitPayload) : Prop where
  packet : ∀ zoneId packet slot, exit = .exitFluff zoneId packet slot →
    ∃ fields, packet = .obj fields
  portable : MsgPack.Portable p.float64 exit.toVal
  encodes : ∃ bs, encode p exit.toVal = some bs ∧ bs.length ≤ exitLayerSize-4

/-- What the cell opens to with the key of the hop, and with no other. -/
structure OpensTo (p : Primitives) (cell : Bytes) (h : KeyedHop) (x : OnionPayload) : Prop where
  length : cell.length = cellSize
  own : unwrapWithCurveKeys p cell h.xPk h.xSk = some x
  other : ∀ xPk xSk, xPk ≠ h.xPk → unwrapWithCurveKeys p cell xPk xSk = none

/-- The hops peel the cell in turn, each padding what it passes on as it likes, and the last
of them finds the payload in a layer of the one size. -/
def Peels (p : Primitives) (payload : ExitPayload) : Bytes → List KeyedHop → Prop
  | _, [] => False
  | cell, [h] => OpensTo p cell h (.exit payload) ∧
      (unpadCell cell cellSize).map List.length = some sealedExitLayerSize
  | cell, h :: next :: rest => ∃ inner, OpensTo p cell h (.relay next.hop.peerId inner) ∧
      ∀ random : Nat → Bytes, (∀ n, (random n).length = n) →
        ∃ cell', padCell random inner cellSize = some cell' ∧ Peels p payload cell' (next :: rest)

section
variable {p : Primitives} {keyPair : Bytes → Bytes → Prop}

theorem isPeerId_length {id : String} (h : NodeIdentity.isPeerId id = true) :
    (Bytes.utf8 id).length = 32 := by
  simp only [NodeIdentity.isPeerId,Bool.and_eq_true,beq_iff_eq,List.all_eq_true] at h
  obtain ⟨hlen,hhex⟩ := h
  rw [Bytes.utf8_length_of_ascii,hlen]
  intro c hc
  have hd := hhex c hc
  simp only [NodeIdentity.isHexDigit,Char.isDigit,Bool.or_eq_true,Bool.and_eq_true,
    decide_eq_true_eq] at hd
  rcases hd with ⟨-,hd⟩ | ⟨-,hd⟩
  · exact UInt32.le_trans hd (by decide)
  · exact UInt32.le_trans (show c.val ≤ 'f'.val from hd) (by decide)

theorem pack_str_length {f : MsgPack.Float64} {t : String} {n : Nat}
    (h : (Bytes.utf8 t).length = n) (hn : n < 0x20) :
    (MsgPack.pack f (.str t)).length = n+1 := by
  simp [MsgPack.pack,MsgPack.packHead,h,hn]

/-- A relay instruction is 68 bytes longer than what it carries. -/
theorem encode_relay {id : String} {inner : Bytes} (hid : NodeIdentity.isPeerId id = true)
    (hlo : 0x100 ≤ inner.length) (hhi : inner.length < 0x10000) :
    ∃ bs, encode p (relayVal id inner) = some bs ∧ bs.length = 68+inner.length ∧
      bs.getD 0 0 = 0x83 := by
  have hutf := isPeerId_length hid
  have hpack : MsgPack.packable MsgPack.maxDepth (relayVal id inner) = true := by
    simp [relayVal,MsgPack.packable,MsgPack.packableFields,MsgPack.maxDepth,hutf]
    refine ⟨by decide,by decide,by decide,by omega⟩
  refine ⟨_,if_pos hpack,?_,?_⟩
  · have hbytes : (MsgPack.pack p.float64 (.bytes inner)).length = inner.length+3 := by
      simp [MsgPack.pack,MsgPack.packHead,not_lt.mpr hlo,hhi]
      omega
    have hpeer : (MsgPack.pack p.float64 (.str id)).length = 34 := by
      simp [MsgPack.pack,MsgPack.packHead,hutf]
    have htype : (MsgPack.pack p.float64 (.str "type")).length = 5 :=
      pack_str_length (by decide) (by decide)
    have hrelay : (MsgPack.pack p.float64 (.str "relay")).length = 6 :=
      pack_str_length (by decide) (by decide)
    have hnext : (MsgPack.pack p.float64 (.str "nextHop")).length = 8 :=
      pack_str_length (by decide) (by decide)
    have hinner : (MsgPack.pack p.float64 (.str "innerOnion")).length = 11 :=
      pack_str_length (by decide) (by decide)
    have hhead : (MsgPack.packHead (.map 3)).length = 1 := rfl
    rw [relayVal,MsgPack.pack]
    simp only [List.length_append,MsgPack.packFields,List.length_cons,List.length_nil,hhead,
      htype,hrelay,hnext,hpeer,hinner,hbytes]
    omega
  · simp [relayVal,MsgPack.pack,MsgPack.packHead]

theorem portable_relay (f : MsgPack.Float64) (id : String) (inner : Bytes) :
    MsgPack.Portable f (relayVal id inner) := by
  simp [relayVal,MsgPack.Portable,MsgPack.PortableFields,JsMap.keys]

/-- A plaintext that does not begin with the magic is taken as it is. -/
theorem plainLayer_of_head {plaintext : Bytes} (h : plaintext.getD 0 0 = 0x83) :
    plainLayer plaintext = plaintext := by
  unfold plainLayer
  split
  · next hlen =>
    have hmagic : (plaintext.getD 0 0 ≠ 0xa5 || plaintext.getD 1 0 ≠ 0x5a) = true := by
      rw [h]
      rfl
    rw [unpadCell,if_neg (not_not.mpr hlen),if_pos hmagic]
    rfl
  · rfl

theorem parse_relay {id : String} {inner : Bytes} (hid : NodeIdentity.isPeerId id = true)
    (hlen : inner.length ≤ cellSize-4) :
    parsePayload (relayVal id inner).nullify = some (.relay id inner) := by
  simp [relayVal,Val.nullify,Val.nullifyFields,parsePayload,Val.truthy,Val.isObject,Val.field,
    JsMap.get,hid,not_lt.mpr hlen]

theorem parse_exit {exit : ExitPayload} (hf : exit.Fits p) :
    parsePayload exit.toVal.nullify = some (.exit exit.nullify) := by
  cases exit with
  | exitFluff zoneId packet slot =>
    obtain ⟨fields,rfl⟩ := hf.packet zoneId packet slot rfl
    have hzone : PowPolicy.integer? (.num (Number.ofInt zoneId)) = some zoneId :=
      Number.toInt?_ofInt zoneId
    cases slot with
    | none =>
      simp [ExitPayload.toVal,ExitPayload.slotVal,Val.nullify,Val.nullifyFields,parsePayload,
        Val.truthy,Val.isObject,Val.field,JsMap.get,hzone,Val.isNullish,ExitPayload.nullify]
    | some s =>
      simp [ExitPayload.toVal,ExitPayload.slotVal,Val.nullify,Val.nullifyFields,parsePayload,
        Val.truthy,Val.isObject,Val.field,JsMap.get,hzone,Val.isNullish,ExitPayload.nullify]
  | exitHint hint =>
    simp [ExitPayload.toVal,Val.nullify,Val.nullifyFields,parsePayload,Val.truthy,Val.isObject,
      Val.field,JsMap.get,ExitPayload.nullify]
  | drop =>
    simp [ExitPayload.toVal,Val.nullify,Val.nullifyFields,parsePayload,Val.truthy,Val.isObject,
      Val.field,JsMap.get,ExitPayload.nullify]

/-- The sealed layers for a path of `n+1` hops. -/
def layersSize (n : Nat) : Nat := sealedExitLayerSize+116*n

variable {r : Entropy} {exit : ExitPayload}

theorem unwrap_of_closed {cell raw xPk xSk : Bytes} (hraw : unpadCell cell cellSize = some raw)
    (hopen : p.boxSealOpen raw xPk xSk = none) : unwrapWithCurveKeys p cell xPk xSk = none := by
  simp [unwrapWithCurveKeys,hraw,hopen]

theorem unwrap_of_open {cell raw plaintext xPk xSk : Bytes} {v : Val}
    (hraw : unpadCell cell cellSize = some raw) (hopen : p.boxSealOpen raw xPk xSk = some plaintext)
    (hdecode : p.decode (plainLayer plaintext) = some v) :
    unwrapWithCurveKeys p cell xPk xSk = parsePayload v := by
  simp [unwrapWithCurveKeys,hraw,hopen,hdecode]

theorem padCell_of_le (random : Nat → Bytes) {payload : Bytes} {size : Nat}
    (h : payload.length ≤ size-4) : ∃ cell, padCell random payload size = some cell :=
  ⟨_,if_neg (not_lt.mpr h)⟩

/-- The layers for the last hop. -/
theorem wrapLayers_last (hs : p.Sound keyPair) (hf : exit.Fits p) {h : KeyedHop}
    (hv : h.Valid p keyPair) :
    ∃ c, wrapLayers p r exit [h.hop] = some c ∧ c.length = layersSize 0 ∧
      ∀ cell, cell.length = cellSize → unpadCell cell cellSize = some c →
        OpensTo p cell h (.exit exit.nullify) := by
  obtain ⟨bs,hbs,hfit⟩ := hf.encodes
  obtain ⟨layer,hlayer⟩ := padCell_of_le (r.padding 0) hfit
  have hlen : layer.length = exitLayerSize :=
    padCell_length (r.padding_length 0) (by decide) hlayer
  have hunpad : unpadCell layer exitLayerSize = some bs :=
    unpadCell_padCell (r.padding_length 0) (by decide) (by decide) hlayer
  have hplain : plainLayer layer = bs := by
    rw [plainLayer,if_pos hlen,hunpad,Option.getD_some]
  refine ⟨p.boxSeal (r.seed 0) layer h.xPk,?_,?_,fun cell hlen' hcell => ⟨hlen',?_,fun xPk xSk hne => ?_⟩⟩
  · simp [wrapLayers,hbs,hlayer,hv.curve]
  · rw [hs.length_boxSeal,hlen]
    rfl
  · have hdecode : p.decode (plainLayer layer) = some exit.toVal.nullify := by
      rw [hplain]
      exact hs.decode_encode _ _ hbs hf.portable
    rw [unwrap_of_open hcell (hs.open_boxSeal _ _ _ _ hv.pair) hdecode,parse_exit hf]
  · exact unwrap_of_closed hcell (hs.open_other _ _ _ _ _ _ hv.curve hne)

/-- One layer more. -/
theorem wrapLayers_relay (hs : p.Sound keyPair) {h next : KeyedHop} {rest : List OnionHop}
    {inner : Bytes} {n : Nat} (hv : h.Valid p keyPair) (hn : n < 3)
    (hid : NodeIdentity.isPeerId next.hop.peerId = true)
    (hinner : wrapLayers p r exit (next.hop :: rest) = some inner)
    (hlen : inner.length = layersSize n) :
    ∃ c, wrapLayers p r exit (h.hop :: next.hop :: rest) = some c ∧
      c.length = layersSize (n+1) ∧ ∀ cell, cell.length = cellSize →
        unpadCell cell cellSize = some c → OpensTo p cell h (.relay next.hop.peerId inner) := by
  have hsize : layersSize n = 3448+116*n := rfl
  obtain ⟨layer,hlayer,hlayerLen,hhead⟩ :=
    encode_relay (p := p) hid (show 0x100 ≤ inner.length by omega) (by omega)
  refine ⟨p.boxSeal (r.seed (rest.length+1)) layer h.xPk,?_,?_,fun cell hlen' hcell => ⟨hlen',?_,fun xPk xSk hne => ?_⟩⟩
  · simp [wrapLayers,hinner,hlayer,hv.curve]
  · have hsucc : layersSize (n+1) = 3448+116*(n+1) := rfl
    have hover : sealOverhead = 48 := rfl
    rw [hs.length_boxSeal]
    omega
  · have hdecode : p.decode (plainLayer layer) =
        some (relayVal next.hop.peerId inner).nullify := by
      rw [plainLayer_of_head hhead]
      exact hs.decode_encode _ _ hlayer (portable_relay _ _ _)
    have hfits : inner.length ≤ cellSize-4 := by
      have hcell : cellSize-4 = 3796 := rfl
      omega
    rw [unwrap_of_open hcell (hs.open_boxSeal _ _ _ _ hv.pair) hdecode,parse_relay hid hfits]
  · exact unwrap_of_closed hcell (hs.open_other _ _ _ _ _ _ hv.curve hne)

/-- Four hops exactly fill a cell. -/
theorem wrapLayers_peels (hs : p.Sound keyPair) (hf : exit.Fits p) (hops : List KeyedHop)
    (hne : hops ≠ []) (hlen : hops.length ≤ 4) (hv : ∀ h ∈ hops, h.Valid p keyPair) :
    ∃ c, wrapLayers p r exit (hops.map KeyedHop.hop) = some c ∧
      c.length = layersSize (hops.length-1) ∧
        ∀ random : Nat → Bytes, (∀ n, (random n).length = n) →
          ∃ cell, padCell random c cellSize = some cell ∧ Peels p exit.nullify cell hops := by
  induction hops with
  | nil => exact absurd rfl hne
  | cons h rest ih =>
    have hh := hv h List.mem_cons_self
    cases rest with
    | nil =>
      obtain ⟨c,hc,hclen,hpeel⟩ := wrapLayers_last (r := r) hs hf hh
      refine ⟨c,hc,hclen,fun random hr => ?_⟩
      have hfits : c.length ≤ cellSize-4 := by
        rw [hclen]
        decide
      obtain ⟨cell,hcell⟩ := padCell_of_le random hfits
      have hunpad := unpadCell_padCell hr (by decide) (by decide) hcell
      refine ⟨cell,hcell,hpeel cell (padCell_length hr (by decide) hcell) hunpad,?_⟩
      rw [hunpad,Option.map_some,hclen]
      rfl
    | cons next rest =>
      have hlen' : rest.length < 3 := by
        simp only [List.length_cons] at hlen
        omega
      obtain ⟨inner,hinner,hinnerLen,hrepad⟩ := ih (List.cons_ne_nil _ _)
        (by simp only [List.length_cons] at hlen ⊢; omega)
        fun x hx => hv x (List.mem_cons_of_mem h hx)
      have hid := (hv next (by simp)).peerId
      obtain ⟨c,hc,hclen,hpeel⟩ := wrapLayers_relay (r := r) hs hh hlen' hid hinner hinnerLen
      refine ⟨c,hc,hclen,fun random hr => ?_⟩
      have hsize : layersSize (rest.length+1) = 3448+116*(rest.length+1) := rfl
      have hcellSize : cellSize-4 = 3796 := rfl
      have hfits : c.length ≤ cellSize-4 := by omega
      obtain ⟨cell,hcell⟩ := padCell_of_le random hfits
      have hunpad := unpadCell_padCell hr (by decide) (by decide) hcell
      exact ⟨cell,hcell,inner,hpeel cell (padCell_length hr (by decide) hcell) hunpad,hrepad⟩

theorem wrapCircuit_peels (hs : p.Sound keyPair) (r : Entropy) (hf : exit.Fits p)
    (hops : List KeyedHop) (hne : hops ≠ []) (hlen : hops.length ≤ 4)
    (hv : ∀ h ∈ hops, h.Valid p keyPair) :
    ∃ cell, wrapCircuit p r exit (hops.map KeyedHop.hop) = some cell ∧
      Peels p exit.nullify cell hops := by
  obtain ⟨c,hc,-,hpeel⟩ := wrapLayers_peels (r := r) hs hf hops hne hlen hv
  obtain ⟨cell,hcell,hpeels⟩ := hpeel (r.padding 1) (r.padding_length 1)
  exact ⟨cell,by simp [wrapCircuit,hc,hcell],hpeels⟩

end

/-- The plaintext is a layer of the one size with its padding. -/
def Padded (plaintext : Bytes) : Prop :=
  plaintext.length = exitLayerSize ∧ ∃ bs, unpadCell plaintext exitLayerSize = some bs

/-- An exit layer is padded and a relay layer is not. -/
def WellShaped (plaintext : Bytes) : OnionPayload → Prop
  | .exit _ => Padded plaintext
  | .relay _ _ => ¬Padded plaintext

/-- The router takes from the cell only what is in a layer of the right shape. -/
def RejectsMisshapen (p : Primitives) (cell xPk xSk : Bytes) : Prop :=
  ∀ x, unwrapWithCurveKeys p cell xPk xSk = some x → ∃ raw plaintext,
    unpadCell cell cellSize = some raw ∧ p.boxSealOpen raw xPk xSk = some plaintext ∧
      WellShaped plaintext x

/-- An exit payload without padding, or padding around a relay instruction. -/
def Misshapen (p : Primitives) (plaintext : Bytes) : Prop :=
  (¬Padded plaintext ∧ ∃ v e, p.decode plaintext = some v ∧ parsePayload v = some (.exit e)) ∨
    plaintext.length = exitLayerSize ∧ ∃ bs v id inner,
      unpadCell plaintext exitLayerSize = some bs ∧ p.decode bs = some v ∧
        parsePayload v = some (.relay id inner)

section
variable {p : Primitives}

theorem plainLayer_of_padded {plaintext bs : Bytes} (hlen : plaintext.length = exitLayerSize)
    (hbs : unpadCell plaintext exitLayerSize = some bs) : plainLayer plaintext = bs := by
  rw [plainLayer,if_pos hlen,hbs,Option.getD_some]

theorem plainLayer_of_not_padded {plaintext : Bytes} (h : ¬Padded plaintext) :
    plainLayer plaintext = plaintext := by
  unfold plainLayer
  split
  · next hlen =>
    cases hbs : unpadCell plaintext exitLayerSize with
    | none => rfl
    | some bs => exact absurd ⟨hlen,bs,hbs⟩ h
  · rfl

theorem rejects_iff (cell xPk xSk : Bytes) :
    RejectsMisshapen p cell xPk xSk ↔ ∀ raw plaintext, unpadCell cell cellSize = some raw →
      p.boxSealOpen raw xPk xSk = some plaintext → ¬Misshapen p plaintext := by
  constructor
  · intro h raw plaintext hraw hopen hmis
    rcases hmis with ⟨hpad,v,e,hv,hparse⟩ | ⟨hlen,bs,v,id,inner,hbs,hv,hparse⟩
    · have hunwrap : unwrapWithCurveKeys p cell xPk xSk = some (.exit e) := by
        rw [unwrap_of_open hraw hopen (by rw [plainLayer_of_not_padded hpad]; exact hv),hparse]
      obtain ⟨raw',plaintext',hraw',hopen',hshape⟩ := h _ hunwrap
      rw [hraw] at hraw'
      cases hraw'
      rw [hopen] at hopen'
      cases hopen'
      exact hpad hshape
    · have hunwrap : unwrapWithCurveKeys p cell xPk xSk = some (.relay id inner) := by
        rw [unwrap_of_open hraw hopen (by rw [plainLayer_of_padded hlen hbs]; exact hv),hparse]
      obtain ⟨raw',plaintext',hraw',hopen',hshape⟩ := h _ hunwrap
      rw [hraw] at hraw'
      cases hraw'
      rw [hopen] at hopen'
      cases hopen'
      exact hshape ⟨hlen,bs,hbs⟩
  · intro h x hx
    simp only [unwrapWithCurveKeys,Option.bind_eq_bind,Option.bind_eq_some_iff] at hx
    obtain ⟨raw,hraw,plaintext,hopen,v,hv,hparse⟩ := hx
    refine ⟨raw,plaintext,hraw,hopen,?_⟩
    have hmis := h raw plaintext hraw hopen
    cases x with
    | exit e =>
      by_contra hpad
      rw [plainLayer_of_not_padded hpad] at hv
      exact hmis (.inl ⟨hpad,v,e,hv,hparse⟩)
    | relay id inner =>
      intro ⟨hlen,bs,hbs⟩
      rw [plainLayer_of_padded hlen hbs] at hv
      exact hmis (.inr ⟨hlen,bs,v,id,inner,hbs,hv,hparse⟩)

end

def sampleFloat64 : MsgPack.Float64 where
  bytes _ := List.replicate 8 0
  value _ := .nan
  length := MsgPack.zeros_length

def samplePrimitives : Primitives where
  float64 := sampleFloat64
  decode := MsgPack.decode sampleFloat64
  toCurvePublicKey pubkey := if pubkey.length = 32 then some pubkey else none
  boxSeal _ plaintext xPk := (xPk ++ List.replicate 32 0).take 32 ++ List.replicate 16 0 ++ plaintext
  boxSealOpen ciphertext xPk xSk :=
    if ciphertext.take 32 = xPk ∧ xSk = xPk then some (ciphertext.drop 48) else none

theorem samplePrimitives_sound :
    samplePrimitives.Sound fun xPk xSk => xPk.length = 32 ∧ xSk = xPk where
  length_boxSeal seed plaintext xPk := by
    simp [samplePrimitives,sealOverhead]
    omega
  open_boxSeal seed plaintext xPk xSk := by
    rintro ⟨hlen,rfl⟩
    have hpk : (xSk ++ List.replicate 32 0).take 32 = xSk := List.take_left' hlen
    simp only [samplePrimitives,hpk]
    rw [if_pos ⟨by rw [List.append_assoc,List.take_left' hlen],trivial⟩,List.drop_left']
    simp [hlen]
  open_other pubkey seed plaintext xPk xPk' xSk' := by
    intro hcurve hne
    obtain ⟨hlen,rfl⟩ : pubkey.length = 32 ∧ pubkey = xPk := by
      simpa [samplePrimitives] using hcurve
    have hpk : (pubkey ++ List.replicate 32 0).take 32 = pubkey := List.take_left' hlen
    simp only [samplePrimitives,hpk]
    rw [if_neg]
    rintro ⟨htake,-⟩
    rw [List.append_assoc,List.take_left' hlen] at htake
    exact hne htake.symm
  decode_encode v bs h hv := MsgPack.decode_encode h hv

def zeros : Entropy where
  padding _ n := List.replicate n 0
  padding_length _ _ := List.length_replicate
  seed _ := []

def sampleHop (b : UInt8) : KeyedHop :=
  ⟨⟨String.ofList (List.replicate 32 'a'),List.replicate 32 b⟩,List.replicate 32 b,
    List.replicate 32 b⟩

theorem sampleHop_valid (b : UInt8) :
    (sampleHop b).Valid samplePrimitives fun xPk xSk => xPk.length = 32 ∧ xSk = xPk where
  peerId := by
    change NodeIdentity.isPeerId (String.ofList (List.replicate 32 'a')) = true
    decide +kernel
  curve := by
    have hlen : (List.replicate 32 b).length = 32 := List.length_replicate
    change (if (List.replicate 32 b).length = 32 then some (List.replicate 32 b) else none) = _
    rw [if_pos hlen]
    rfl
  pair := ⟨List.length_replicate,rfl⟩

theorem encode_drop : encode samplePrimitives ExitPayload.drop.toVal =
    some [0x81,0xa4,0x74,0x79,0x70,0x65,0xa4,0x64,0x72,0x6f,0x70] := by
  decide +kernel

theorem drop_fits : ExitPayload.drop.Fits samplePrimitives where
  packet zoneId packet slot h := by cases h
  portable := by
    simp [ExitPayload.toVal,MsgPack.Portable,MsgPack.PortableFields,JsMap.keys]
  encodes := ⟨_,encode_drop,by decide⟩

/-- The instruction to drop as an exit layer without its padding. -/
def bareLayer : Bytes := [0x81,0xa4,0x74,0x79,0x70,0x65,0xa4,0x64,0x72,0x6f,0x70]

end OnionRouter
