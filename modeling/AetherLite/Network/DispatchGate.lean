import AetherLite.Network.FrameCaps

/-! What is dispatched from a connection that has not proved its identity. The gate looks
at the connection that is registered under the id. -/
set_option autoImplicit false

namespace PeerManager

open Js Network Wire

section
variable {ρ μ : Type} (cfg : Config ρ μ)

/-- A message that needs the handshake is dispatched from a connection that has passed it. -/
def Gated (s : State ρ μ) (a : Action μ) : Prop :=
  ∀ c d p m, a = .data c d → s.conns[c]? = some p → (receive cfg s p.peerId d).2 = some m →
    preHandshake m.type = false → p.verified = true

/-- A frame that arrives on an unverified connection after another one, that is verified,
has taken its place; the peer of that id has the budget and is not banned. -/
structure Late (s : State ρ μ) (c : Nat) (d : Data) (p : WebRTCPeer) : Prop where
  conn : s.conns[c]? = some p
  unverified : p.verified = false
  superseded : ∃ e, s.peer? p.peerId = some e ∧ e.1 ≠ c ∧ e.2.verified = true
  kept : d.frame.length ≤ frameLimit d.frame
  type : (WireCodec.decode cfg.unpack d.frame).type ≠ .unknown ∧
    preHandshake (WireCodec.decode cfg.unpack d.frame).type = false
  admitted : isBanned cfg s p.peerId = false ∧
    allowed cfg s p.peerId (WireCodec.decode cfg.unpack d.frame).type = true

def LateFrame (s : State ρ μ) (a : Action μ) : Prop := ∃ c d p, a = .data c d ∧ Late cfg s c d p

variable {cfg} {s : State ρ μ}

theorem gated_iff (a : Action μ) : Gated cfg s a ↔ ¬LateFrame cfg s a := by
  constructor
  · rintro h ⟨c,d,p,rfl,hl⟩
    obtain ⟨e,he,-,hv⟩ := hl.superseded
    have hm : (receive cfg s p.peerId d).2 = some (WireCodec.decode cfg.unpack d.frame) := by
      refine receive_eq_some.mpr ⟨rfl,hl.type.1,hl.kept,?_⟩
      simp [admits,hl.admitted.1,hl.admitted.2,authenticated,he,hv]
    have hp := h c d p _ rfl hl.conn hm hl.type.2
    rw [hl.unverified] at hp
    cases hp
  · intro h c d p m ha hp hm hpre
    by_contra hv
    obtain ⟨rfl,hknown,hlen,hadmits⟩ := receive_eq_some.mp hm
    simp only [admits,hpre,Bool.false_or,Bool.and_eq_true,Bool.not_eq_true'] at hadmits
    obtain ⟨e,he,hev⟩ := (Option.any_eq_true _ _).mp hadmits.2
    refine h ⟨c,d,p,ha,hp,by simpa using hv,⟨e,he,?_,hev⟩,hlen,⟨hknown,hpre⟩,hadmits.1⟩
    rintro rfl
    obtain ⟨c,hc,he⟩ := Option.bind_eq_some_iff.mp he
    obtain ⟨q,hq,he⟩ := Option.bind_eq_some_iff.mp he
    cases he
    rw [hq] at hp
    cases hp
    exact hv hev

/-- Over a run, every dispatch is from a connection that is verified itself exactly when
no frame comes late. -/
theorem dispatch_gated_iff {ρ μ : Type} (cfg : Config ρ μ) (s : State ρ μ) (as : List (Action μ)) :
    Machine.Along (step cfg) (Gated cfg) s as ↔
      Machine.Along (step cfg) (fun s a => ¬LateFrame cfg s a) s as :=
  ⟨fun h => h.imp fun _ a => (gated_iff a).mp,fun h => h.imp fun _ a => (gated_iff a).mpr⟩

end

/-- The peer offers twice, and proves its identity on the second connection. -/
def reofferedRun : List (Action Unit) :=
  [.relay (sampleIdentity 2).peerId offer,.opened 0 (sampleChallenge 7),
    .relay (sampleIdentity 2).peerId offer,.described 1 sampleSdp sampleSdp,
    .opened 1 (sampleChallenge 8),.data 1 (sampleJoin 2 (sampleChallenge 8))]

def lateGossip : Data := sampleFrame ⟨.gossip,.obj []⟩

theorem dispatch_ungated_reofferedRun :
    ¬∀ as, Machine.Along (step (sampleConfig 1)) (Gated (sampleConfig 1)) (initial () ()) as := by
  intro h
  have hrun : (Machine.run (step (sampleConfig 1)) (initial () ()) reofferedRun).map (fun s =>
      (s.conns[0]?).any (fun p => !p.verified &&
        ((receive (sampleConfig 1) s p.peerId lateGossip).2.any fun m => m.type = .gossip))) =
      some true := by decide +kernel
  obtain ⟨s,hs,hsum⟩ := Option.map_eq_some_iff.mp hrun
  obtain ⟨p,hp,hsum⟩ := (Option.any_eq_true _ _).mp hsum
  simp only [Bool.and_eq_true,Bool.not_eq_true'] at hsum
  obtain ⟨m,hm,ht⟩ := (Option.any_eq_true _ _).mp hsum.2
  have ha := ((Machine.along_append _ _ [.data 0 lateGossip]).mp
    (h (reofferedRun ++ [.data 0 lateGossip]))).2 s hs
  have hv := ha.1 0 lateGossip p m rfl hp hm (by rw [of_decide_eq_true ht]; rfl)
  rw [hsum.1] at hv
  cases hv

end PeerManager
