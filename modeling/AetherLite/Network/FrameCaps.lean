import AetherLite.Network.PeerManager

/-! How long a frame may be. The limit is chosen by the first byte before the frame is
decoded; a frame that is read as JSON names its type later. -/
set_option autoImplicit false

namespace PeerManager

open Js Network Wire

section
variable {ρ μ : Type} (cfg : Config ρ μ)

/-- A message of the type would be let through from the peer: it is not banned, has the
budget, and is verified where the type asks for it. -/
def admits (s : State ρ μ) (id : PeerId) (t : WireType) : Bool :=
  !isBanned cfg s id && allowed cfg s id t && (preHandshake t || authenticated s id)

/-- The frame is not a binary one, and the type its JSON text names has a lower limit than
the one its first byte selects and the frame keeps to. -/
structure Smuggles (unpack : Bytes → Option Val) (frame : Bytes) (t : WireType) : Prop where
  fallback : WireCodec.decodeBinary unpack frame = none
  type : (WireCodec.decodeJson frame).type = t
  known : t ≠ .unknown
  kept : frame.length ≤ frameLimit frame
  tooLong : maxFrameBytes t < frame.length

variable {cfg} {s : State ρ μ} {id : PeerId} {data : Data}

/-- What is dispatched is what the frame decodes to, from a peer that may send it. -/
theorem receive_eq_some {m : DecodedWireMessage} :
    (receive cfg s id data).2 = some m ↔
      m = WireCodec.decode cfg.unpack data.frame ∧ m.type ≠ .unknown ∧
        data.frame.length ≤ frameLimit data.frame ∧ admits cfg s id m.type = true := by
  have hallow : ∀ t, allowed cfg (checkBan cfg s id) id t = allowed cfg s id t := fun _ => rfl
  have hauth : authenticated (checkBan cfg s id) id = authenticated s id := rfl
  unfold receive
  by_cases hban : isBanned cfg s id = true
  · simp [hban,admits]
  by_cases hlen : frameLimit data.frame < data.frame.length
  · simp [hban,hlen,Nat.not_le.mpr hlen]
  by_cases hknown : (WireCodec.decode cfg.unpack data.frame).type = .unknown
  · simp only [hban,hlen,hknown,if_true,if_false]
    constructor
    · intro h
      cases h
    · rintro ⟨rfl,h,-⟩
      exact absurd hknown h
  simp only [hban,hlen,hknown,Bool.false_eq_true,if_false,hallow,hauth]
  constructor
  · intro h
    split at h
    · next hpass =>
      cases h
      exact ⟨rfl,hknown,Nat.le_of_not_lt hlen,by simpa [admits,hban] using hpass⟩
    · cases h
  · rintro ⟨rfl,-,-,ha⟩
    rw [if_pos (by simpa [admits,hban] using ha)]

theorem frameLimit_of_binary {unpack : Bytes → Option Val} {frame : Bytes} {m : DecodedWireMessage}
    (h : WireCodec.decodeBinary unpack frame = some m) : frameLimit frame = maxFrameBytes m.type := by
  obtain ⟨t,ht,h⟩ := Option.bind_eq_some_iff.mp h
  obtain ⟨payload,-,h⟩ := Option.bind_eq_some_iff.mp h
  cases h
  simp [frameLimit,maxFrameBytes,ht]

/-- A dispatched message keeps to the limit of its type exactly when the frame is not one
that smuggles a type past its first byte, from a peer that may send that type. -/
theorem dispatched_capped_iff {ρ μ : Type} (cfg : Config ρ μ) (s : State ρ μ) (id : PeerId)
    (data : Data) :
    (∀ m, (receive cfg s id data).2 = some m → data.frame.length ≤ maxFrameBytes m.type) ↔
      ∀ t, admits cfg s id t = true → ¬Smuggles cfg.unpack data.frame t := by
  constructor
  · intro h t ha hs
    have hd : WireCodec.decode cfg.unpack data.frame = WireCodec.decodeJson data.frame := by
      simp [WireCodec.decode,hs.fallback]
    have hle := h _ (receive_eq_some.mpr ⟨hd.symm,by rw [hs.type]; exact hs.known,hs.kept,
      by rw [hs.type]; exact ha⟩)
    rw [hs.type] at hle
    have hlong := hs.tooLong
    omega
  · intro h m hm
    obtain ⟨hdec,hknown,hlen,ha⟩ := receive_eq_some.mp hm
    cases hb : WireCodec.decodeBinary cfg.unpack data.frame with
    | some m' =>
      have hm' : m = m' := by simpa [WireCodec.decode,hb] using hdec
      rw [hm',← frameLimit_of_binary hb]
      exact hlen
    | none =>
      have hj : m = WireCodec.decodeJson data.frame := by simpa [WireCodec.decode,hb] using hdec
      by_contra hlong
      exact h m.type ha ⟨hb,by rw [hj],hknown,hlen,Nat.lt_of_not_le hlong⟩

end

/-- A verified peer that is registered. -/
def verifiedState (id : PeerId) : State Unit Unit :=
  { initial () () with
    conns := [{ WebRTCPeer.create sampleSodium id true with connected := true, verified := true }]
    peers := [(id,0)] }

/-- `{"type":"ping"}` and blanks: no type starts with a brace, so the limit is 1 MiB. -/
def paddedPing : Bytes :=
  [123,34,116,121,112,101,34,58,34,112,105,110,103,34,125] ++ List.replicate 250 32

theorem dispatched_uncapped_paddedPing :
    ¬∀ m, (receive (sampleConfig 1) (verifiedState "p") "p" (.bytes paddedPing)).2 = some m →
      paddedPing.length ≤ maxFrameBytes m.type := by
  intro h
  have hrun : ((receive (sampleConfig 1) (verifiedState "p") "p" (.bytes paddedPing)).2.map
      fun m => m.type) = some .ping := by decide +kernel
  obtain ⟨m,hm,ht⟩ := Option.map_eq_some_iff.mp hrun
  have hle := h m hm
  rw [ht] at hle
  exact absurd hle (by decide +kernel)

end PeerManager
