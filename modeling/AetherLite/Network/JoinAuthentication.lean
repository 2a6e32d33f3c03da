import Mathlib.Data.List.Nodup
import Mathlib.Logic.Function.Basic
import AetherLite.Network.Admission

/-! Many nodes on a network that delivers what it likes. What a node accepts as a JOIN
has been signed by the owner of the key, for this node, for the challenge of this
connection and for its two ends. -/
set_option autoImplicit false

namespace PeerManager

open Js Network Wire NodeIdentity

section
variable {ρ μ : Type} {cfg : Config ρ μ} {s t u : State ρ μ} {id : PeerId} {c : Nat}

/-- What a step does to the standing of the connections: nothing, or one is challenged,
or one is proved. -/
inductive Handshake (cfg : Config ρ μ) (s : State ρ μ) (a : Action μ) (t : State ρ μ) : Prop where
  | onward (h : Onward s t)
  | challenged (c : Nat) (challenge : Challenge) (u : State ρ μ) (ha : a = .opened c challenge)
      (hu : Onward s u) (ht : Onward (u.update c (WebRTCPeer.setChallenge challenge.1)) t)
  | proved (d : Nat) (data : Data) (q : WebRTCPeer) (c : Nat) (p : WebRTCPeer)
      (claim : SignedNodeClaim) (u : State ρ μ) (ha : a = .data d data) (hq : s.conns[d]? = some q)
      (h : AcceptedJoin cfg s q.peerId (WireCodec.decode cfg.unpack data.frame).payload c p claim)
      (hu : u.conns = s.conns) (ht : t = acceptJoin u c q.peerId claim)

theorem AcceptedJoin.same {msg : Val} {p : WebRTCPeer} {claim : SignedNodeClaim}
    (h : AcceptedJoin cfg s id msg c p claim) (hc : t.conns = s.conns) (hp : t.peers = s.peers) :
    AcceptedJoin cfg t id msg c p claim :=
  ⟨by rw [State.peer?,hp,hc]; exact h.registered,h.unverified,h.reads,h.peerId,h.fingerprints,h.answer⟩

theorem handshake_handleData (s : State ρ μ) {d : Nat} {q : WebRTCPeer} (hq : s.conns[d]? = some q)
    (data : Data) : Handshake cfg s (.data d data) (handleData cfg s d q.peerId data) := by
  unfold handleData
  have hr : Quiet Moved s (receive cfg s q.peerId data).1 := quiet_receive s q.peerId data
  split
  · next heq =>
    rw [heq] at hr
    exact .onward hr.onward
  next u m heq =>
  rw [heq] at hr
  have hu : Onward s (u.emit (.dispatched d m.type m.payload)) :=
    hr.onward.trans (quiet_emit _ _).onward
  obtain ⟨hconns,hpeers,hm⟩ := receive_conns heq
  unfold handle
  split
  · cases hh : handleHello cfg (u.emit (.dispatched d m.type m.payload)) q.peerId m.payload with
    | error e => exact .onward hu
    | ok t => exact .onward (hu.trans (quiet_handleHello hh).onward)
  · cases hj : handleJoin cfg (u.emit (.dispatched d m.type m.payload)) q.peerId m.payload with
    | error e => exact .onward hu
    | ok t =>
      obtain ht | ⟨c,p,claim,hacc,rfl⟩ := handleJoin_cases hj
      · exact .onward (hu.trans ht.onward)
      · rw [hm] at hacc
        exact .proved d data q c p claim (u.emit (.dispatched d m.type m.payload)) rfl hq
          (hacc.same hconns.symm hpeers.symm) hconns rfl
  · exact .onward (hu.trans (onward_handleRelayMessage _ _ _ _))
  · exact .onward (hu.trans (onward_handleRelayMessage _ _ _ _))
  · exact .onward hu

theorem handshake_step {a : Action μ} (hs : step cfg s a = some t) : Handshake cfg s a t := by
  have onConn {c : Nat} {f : WebRTCPeer → State ρ μ} (hs : onConn s c f = some t)
      (hf : ∀ p, Onward s (f p)) : Handshake cfg s a t := by
    obtain ⟨p,-,rfl⟩ := Option.map_eq_some_iff.mp hs
    exact .onward (hf p)
  cases a with
  | relay sender msg =>
    cases hs
    exact .onward (onward_handleRelay _ _ _ _)
  | trackerPeers peers =>
    cases hs
    exact .onward (onward_handleTrackerPeers _ _)
  | connect id initiator via =>
    cases hs
    exact .onward (onward_connect _ _ _ _)
  | described c own remote =>
    exact onConn hs fun _ => (quiet_update (f := WebRTCPeer.describe own remote)
      (fun _ => ⟨rfl,rfl,rfl,rfl,rfl,rfl⟩) s c).onward
  | signalled c payload => exact onConn hs fun _ => (quiet_onSignal _ _ _).onward
  | opened c challenge =>
    obtain ⟨p,-,rfl⟩ := Option.map_eq_some_iff.mp hs
    have hopen := quiet_update (f := WebRTCPeer.opened) (fun _ => ⟨rfl,rfl,rfl,rfl,rfl,rfl⟩) s c
    exact .challenged c challenge _ rfl (hopen.trans (quiet_emit _ (.connected c))).onward
      (quiet_sendMessage _ p.peerId .hello _).onward
  | closing c =>
    exact onConn hs fun _ => (quiet_update (f := WebRTCPeer.closing)
      (fun _ => ⟨rfl,rfl,rfl,rfl,rfl,rfl⟩) s c).onward
  | lost c =>
    refine onConn hs fun p => Quiet.onward ?_
    exact (quiet_update (f := WebRTCPeer.lost) (fun _ => ⟨rfl,rfl,rfl,rfl,rfl,rfl⟩) s c).trans
      (quiet_dropIf _ _ _ _)
  | data d data =>
    obtain ⟨q,hq,rfl⟩ := Option.map_eq_some_iff.mp hs
    exact handshake_handleData s hq data
  | netGroup i group =>
    obtain ⟨r,-,rfl⟩ := Option.map_eq_some_iff.mp hs
    refine .onward (Quiet.onward (Quiet.trans ?_ (quiet_rebalance _ _)))
    exact Quiet.trans (t := { s with resolving := r.2 }) (.same rfl rfl rfl rfl)
      (quiet_resolved _ r.1.1 group)
  | connectTimeout c => exact onConn hs fun p => (quiet_dropIf _ _ _ _).onward
  | handshakeTimeout c => exact onConn hs fun p => (quiet_dropIf _ _ _ _).onward
  | disconnect id =>
    cases hs
    exact .onward (quiet_disconnect _ _).onward
  | rebalance newcomerId =>
    cases hs
    exact .onward (quiet_rebalance _ _).onward
  | misbehavior m =>
    cases hs
    exact .onward (.same rfl)
  | tick now =>
    cases hs
    exact .onward (.same rfl)
  | start =>
    cases hs
    exact .onward (.same rfl)
  | stop =>
    cases hs
    have hstop : Onward s { s with stopped := true, pendingSignals := [] } := .same rfl
    exact .onward (hstop.trans (quiet_disconnects _ _).onward)

/-- A challenge that a connection has after a step was there before, or was just drawn. -/
theorem challenge_step {a : Action μ} (hs : step cfg s a = some t) {q : WebRTCPeer}
    {challenge : Bytes} (hq : t.conns[c]? = some q) (hc : q.challenge = some challenge) :
    (∃ p, s.conns[c]? = some p ∧ p.challenge = some challenge) ∨
      ∃ drawn : Challenge, a = .opened c drawn ∧ drawn.1 = challenge := by
  have back {v w : State ρ μ} (h : Onward v w) {c : Nat} {q : WebRTCPeer} (hq : w.conns[c]? = some q)
      (hc : q.challenge = some challenge) : ∃ p, v.conns[c]? = some p ∧ p.challenge = some challenge := by
    cases hv : v.conns[c]? with
    | none =>
      have hnone := (h.created c q hv hq).2
      rw [hc] at hnone
      cases hnone
    | some p =>
      obtain ⟨q',hq',hm⟩ := h.conns c p hv
      rw [hq] at hq'
      cases hq'
      exact ⟨p,rfl,hm.challenge.symm.trans hc⟩
  cases handshake_step hs with
  | onward h => exact .inl (back h hq hc)
  | challenged d drawn u ha hu ht =>
    obtain ⟨p,hp,hpc⟩ := back ht hq hc
    simp only [State.update,List.getElem?_modify] at hp
    obtain ⟨r,hr,rfl⟩ := Option.map_eq_some_iff.mp hp
    by_cases hd : d = c
    · simp only [hd,if_true,WebRTCPeer.setChallenge,Option.some.injEq] at hpc
      exact .inr ⟨drawn,by rw [ha,hd],hpc⟩
    · simp only [if_neg hd] at hpc
      exact .inl (back hu hr hpc)
  | proved d data q' e p claim u ha hd h hu ht =>
    subst ht
    simp only [acceptJoin,List.getElem?_modify,hu] at hq
    obtain ⟨r,hr,rfl⟩ := Option.map_eq_some_iff.mp hq
    refine .inl ⟨r,hr,?_⟩
    by_cases he : e = c
    · simpa [he,WebRTCPeer.markVerified] using hc
    · simpa [if_neg he] using hc

/-- No step takes a connection back in the handshake. -/
theorem standing_step {a : Action μ} (hs : step cfg s a = some t) {p : WebRTCPeer}
    (hp : s.conns[c]? = some p) : ∃ q, t.conns[c]? = some q ∧
      (p.verified = true → q.verified = true) ∧ (p.challenge ≠ none → q.challenge ≠ none) := by
  cases handshake_step hs with
  | onward h =>
    obtain ⟨q,hq,hm⟩ := h.conns c p hp
    exact ⟨q,hq,fun hv => hm.verified.trans hv,fun hc => by rwa [hm.challenge]⟩
  | challenged d drawn u ha hu ht =>
    obtain ⟨r,hr,hm⟩ := hu.conns c p hp
    obtain ⟨q,hq,hm'⟩ := ht.conns c _ (get_modify (f := WebRTCPeer.setChallenge drawn.1) (d := d) hr)
    refine ⟨q,hq,?_,?_⟩
    · intro hv
      rw [hm'.verified]
      split
      · exact hm.verified.trans hv
      · exact hm.verified.trans hv
    · intro hc
      rw [hm'.challenge]
      split
      · simp [WebRTCPeer.setChallenge]
      · rwa [hm.challenge]
  | proved d data q e p' claim u ha hd h hu ht =>
    subst ht
    refine ⟨_,get_modify (f := WebRTCPeer.markVerified claim.pubkey claim.powCounter u.now) (d := e)
      (by rw [hu]; exact hp : u.conns[c]? = some p),?_,?_⟩
    · intro hv
      split
      · rfl
      · exact hv
    · intro hc
      split
      · exact hc
      · exact hc

theorem Onward.verified_back (h : Onward s t) {q : WebRTCPeer} (hq : t.conns[c]? = some q)
    (hv : q.verified = true) : ∃ p, s.conns[c]? = some p ∧ p.verified = true := by
  cases hs : s.conns[c]? with
  | none =>
    rw [(h.created c q hs hq).1] at hv
    cases hv
  | some p =>
    obtain ⟨q',hq',hm⟩ := h.conns c p hs
    rw [hq] at hq'
    cases hq'
    exact ⟨p,rfl,hm.verified.symm.trans hv⟩

/-- A connection that is verified was so before, or is proved by a JOIN that is found good. -/
theorem verified_step {a : Action μ} (hs : step cfg s a = some t) {q : WebRTCPeer}
    (hq : t.conns[c]? = some q) (hv : q.verified = true) :
    ∃ p, s.conns[c]? = some p ∧ (p.verified = true ∨
      ∃ d data r claim, a = .data d data ∧ s.conns[d]? = some r ∧ q.pubkey = some claim.pubkey ∧
        AcceptedJoin cfg s r.peerId (WireCodec.decode cfg.unpack data.frame).payload c p claim) := by
  cases handshake_step hs with
  | onward h =>
    obtain ⟨p,hp,hpv⟩ := h.verified_back hq hv
    exact ⟨p,hp,.inl hpv⟩
  | challenged d drawn u ha hu ht =>
    obtain ⟨r,hr,hrv⟩ := ht.verified_back hq hv
    simp only [State.update,List.getElem?_modify] at hr
    obtain ⟨r',hr',rfl⟩ := Option.map_eq_some_iff.mp hr
    have hrv' : r'.verified = true := by
      by_cases hd : d = c
      · simpa [hd,WebRTCPeer.setChallenge] using hrv
      · simpa [hd] using hrv
    obtain ⟨p,hp,hpv⟩ := hu.verified_back hr' hrv'
    exact ⟨p,hp,.inl hpv⟩
  | proved d data r e p' claim u ha hd h hu ht =>
    subst ht
    simp only [acceptJoin,List.getElem?_modify,hu] at hq
    obtain ⟨p,hp,rfl⟩ := Option.map_eq_some_iff.mp hq
    refine ⟨p,hp,?_⟩
    by_cases he : e = c
    · subst he
      obtain ⟨e',-,hreg⟩ := Option.bind_eq_some_iff.mp h.registered
      obtain ⟨p'',hp'',hreg⟩ := Option.bind_eq_some_iff.mp hreg
      cases hreg
      rw [hp] at hp''
      cases hp''
      exact .inr ⟨d,data,r,claim,ha,hd,by simp [WebRTCPeer.markVerified],h⟩
    · exact .inl (by simpa [he] using hv)

end

/-- The claim of a JOIN whose signature is good for the connection it arrives for, and the
message it is good for. -/
def checkedSignature {ρ μ : Type} (cfg : Config ρ μ) (s : State ρ μ) (d : Nat) (data : Data) :
    Option (SignedNodeClaim × Bytes) := do
  let q ← s.conns[d]?
  let e ← s.peer? q.peerId
  let claim ← (joinClaim (WireCodec.decode cfg.unpack data.frame).payload).toOption
  let m ← (joinMessage claim.challenge claim.peerId (verifierBinding cfg e.2)).toOption
  if cfg.sodium.verifyDetached claim.signature m claim.pubkey then some (claim,m) else none

/-- Honest nodes, each with a key of which its id is the hash. -/
structure Nodes (ι ρ μ : Type) where
  config : ι → Config ρ μ
  sodium : Sodium
  uses : ∀ i, (config i).sodium = sodium
  bound : ∀ i, derivePeerId sodium (config i).identity.pubkey = (config i).identity.peerId
  strict : ∀ i, (config i).allowMissingDtlsFingerprint = false

/-- What the key of a node signs. -/
inductive Signed where
  | join (challenge : Challenge) (binding : JoinBinding)
  | trackerJoin (nonce : Bytes) (trackerHost : String)
  | guardDeclaration (body : Bytes)

def Signed.message {ρ μ : Type} (cfg : Config ρ μ) : Signed → Except Thrown Bytes
  | .join challenge binding => joinMessage challenge.1 cfg.identity.peerId binding
  | .trackerJoin nonce trackerHost =>
    trackerJoinMessage cfg.cases.lower nonce cfg.identity.peerId trackerHost
  | .guardDeclaration body => .ok (guardDeclDomain ++ body)

/-- A challenge that a node has drawn for a connection, and how much was signed by then. -/
structure Drawing (ι : Type) where
  node : ι
  conn : Nat
  challenge : Challenge
  before : Nat

namespace World

structure State (ι ρ μ : Type) where
  nodes : ι → PeerManager.State ρ μ
  ledger : List (ι × Signed) := []
  drawn : List (Drawing ι) := []

inductive Action (ι μ : Type) where
  /-- A step of a node, which may be given any frame on any connection. -/
  | node (i : ι) (a : PeerManager.Action μ)
  /-- The node answers a tracker. -/
  | trackerJoin (i : ι) (nonce : Bytes) (trackerHost : String)
  | declareGuard (i : ι) (body : Bytes)

/-- The signatures that a step has made. -/
def newlySigned {ρ μ : Type} (s t : PeerManager.State ρ μ) : List Signed :=
  (t.trace.drop s.trace.length).filterMap fun e =>
    match e with
    | .signedJoin challenge binding => some (.join challenge binding)
    | _ => none

def newlyDrawn {ι μ : Type} (i : ι) (before : Nat) : PeerManager.Action μ → List (Drawing ι)
  | .opened c challenge => [⟨i,c,challenge,before⟩]
  | _ => []

section
variable {ι ρ μ : Type} (net : Nodes ι ρ μ)

/-- A message that cannot be built is not signed. -/
def sign (w : State ι ρ μ) (i : ι) (x : Signed) : State ι ρ μ :=
  match x.message (net.config i) with
  | .ok _ => { w with ledger := w.ledger ++ [(i,x)] }
  | .error _ => w

/-- A signature that is good under the key of a node is on a message that the node has
signed. -/
def Unforged (w : State ι ρ μ) (a : Action ι μ) : Prop :=
  ∀ i d data claim m, a = .node i (.data d data) →
    checkedSignature (net.config i) (w.nodes i) d data = some (claim,m) →
      (∃ v, (net.config v).identity.pubkey = claim.pubkey) →
        ∃ x ∈ w.ledger, (net.config x.1).identity.pubkey = claim.pubkey ∧
          x.2.message (net.config x.1) = .ok m

/-- A challenge that is drawn is a new one. -/
def FreshDraw (w : State ι ρ μ) (a : Action ι μ) : Prop :=
  ∀ i c challenge, a = .node i (.opened c challenge) →
    (∀ d ∈ w.drawn, d.challenge ≠ challenge) ∧
      ∀ x ∈ w.ledger, ∀ binding, x.2 ≠ .join challenge binding

def Symbolic (w : State ι ρ μ) (a : Action ι μ) : Prop := Unforged net w a ∧ FreshDraw w a

/-- The challenges that are outstanding were drawn for their connections, each once and
before anybody signed it. -/
structure Sound (w : State ι ρ μ) : Prop where
  nodes : ∀ i, Inv (net.config i) (w.nodes i)
  outstanding : ∀ i (c : Nat) (p : WebRTCPeer) challenge, (w.nodes i).conns[c]? = some p →
    p.challenge = some challenge → ∃ d ∈ w.drawn, d.node = i ∧ d.conn = c ∧ d.challenge.1 = challenge
  before : ∀ d ∈ w.drawn, d.before ≤ w.ledger.length ∧
    ∀ x ∈ w.ledger.take d.before, ∀ binding, x.2 ≠ .join d.challenge binding
  distinct : (w.drawn.map Drawing.challenge).Nodup

/-- What the node `v` has signed for the connection `c` of the node `i`, as `i` sees it. -/
structure Agreed (w : State ι ρ μ) (i : ι) (c : Nat) (p : WebRTCPeer) (v : ι)
    (challenge : Challenge) (binding : JoinBinding) : Prop where
  peerId : p.peerId = (net.config v).identity.peerId
  other : p.peerId ≠ (net.config i).identity.peerId
  outstanding : p.challenge = some challenge.1
  verifier : binding.verifierId = (net.config i).identity.peerId
  signerEnd : binding.signerFingerprint = (p.dtlsFingerprints (net.config i).cases).remote
  verifierEnd : binding.verifierFingerprint = (p.dtlsFingerprints (net.config i).cases).own
  present : binding.signerFingerprint ≠ "" ∧ binding.verifierFingerprint ≠ ""
  /-- It was signed after the challenge was drawn for this connection. -/
  signed : ∃ d ∈ w.drawn, d.node = i ∧ d.conn = c ∧ d.challenge = challenge ∧
    (v,.join challenge binding) ∈ w.ledger.drop d.before
  /-- The challenge is for no other connection. -/
  once : ∀ d ∈ w.drawn, d.challenge = challenge → d.node = i ∧ d.conn = c
  /-- Nothing else that was signed has the same message. -/
  only : ∀ x ∈ w.ledger, x.2.message (net.config x.1) = joinMessage challenge.1 p.peerId binding →
    x.2 = .join challenge binding

variable {net} {w w' : State ι ρ μ}

theorem Sound.ledger (h : Sound net w) (xs : List (ι × Signed)) :
    Sound net { w with ledger := w.ledger ++ xs } := by
  refine ⟨h.nodes,h.outstanding,fun d hd => ?_,h.distinct⟩
  obtain ⟨hle,hnot⟩ := h.before d hd
  refine ⟨by rw [List.length_append]; omega,fun x hx => hnot x ?_⟩
  rwa [List.take_append_of_le_length hle] at hx

theorem Sound.sign (h : Sound net w) (i : ι) (x : Signed) : Sound net (sign net w i x) := by
  unfold World.sign
  split
  · exact h.ledger _
  · exact h

/-- A message of a JOIN was signed as that JOIN. -/
theorem Signed.eq_join {cfg : Config ρ μ} {x : Signed} {m : Bytes} {challenge : Challenge}
    {id : PeerId} {binding : JoinBinding} (hx : x.message cfg = .ok m)
    (hm : joinMessage challenge.1 id binding = .ok m) : x = .join challenge binding := by
  cases x with
  | join challenge' binding' =>
    obtain ⟨hch,-,hb⟩ := joinMessage_inj (challenge'.2.trans challenge.2.symm) hx hm
    rw [Subtype.ext hch,hb]
  | trackerJoin nonce host => exact absurd hx (joinMessage_ne_trackerJoinMessage hm)
  | guardDeclaration body => exact absurd (Except.ok.inj hx) (joinMessage_ne_guardDecl hm)

/-- What was signed with a challenge was signed after it was drawn. -/
theorem Sound.signed_after (h : Sound net w) {d : Drawing ι} (hd : d ∈ w.drawn) {v : ι}
    {binding : JoinBinding} (hx : (v,Signed.join d.challenge binding) ∈ w.ledger) :
    (v,Signed.join d.challenge binding) ∈ w.ledger.drop d.before := by
  rw [← List.take_append_drop d.before w.ledger] at hx
  rcases List.mem_append.mp hx with hx | hx
  · exact absurd rfl ((h.before d hd).2 _ hx binding)
  · exact hx

theorem Sound.drawn_once (h : Sound net w) {d e : Drawing ι} (hd : d ∈ w.drawn) (he : e ∈ w.drawn)
    (hc : e.challenge = d.challenge) : e = d := by
  exact List.inj_on_of_nodup_map h.distinct he hd hc

theorem Sound.draw (h : Sound net w) {i : ι} {a : PeerManager.Action μ}
    (hf : FreshDraw w (.node i a)) :
    (∀ d ∈ w.drawn ++ newlyDrawn i w.ledger.length a, d.before ≤ w.ledger.length ∧
      ∀ x ∈ w.ledger.take d.before, ∀ binding, x.2 ≠ .join d.challenge binding) ∧
        ((w.drawn ++ newlyDrawn i w.ledger.length a).map Drawing.challenge).Nodup := by
  cases a with
  | opened c challenge =>
    obtain ⟨hnew,hsigned⟩ := hf i c challenge rfl
    refine ⟨fun d hd => ?_,?_⟩
    · rcases List.mem_append.mp hd with hd | hd
      · exact h.before d hd
      · obtain rfl := List.mem_singleton.mp hd
        exact ⟨Nat.le_refl _,fun x hx => hsigned x (List.mem_of_mem_take hx)⟩
    · rw [List.map_append]
      refine h.distinct.append (List.nodup_singleton _) fun x hx hy => ?_
      obtain ⟨d,hd,rfl⟩ := List.mem_map.mp hx
      exact hnew d hd (List.mem_singleton.mp hy)
  | _ =>
    simp only [newlyDrawn,List.append_nil]
    exact ⟨h.before,h.distinct⟩

end

section
variable {ι ρ μ : Type} [DecidableEq ι] (net : Nodes ι ρ μ)

def step (w : State ι ρ μ) (a : Action ι μ) : Option (State ι ρ μ) :=
  match a with
  | .node i a => (PeerManager.step (net.config i) (w.nodes i) a).map fun t => {
      nodes := Function.update w.nodes i t
      ledger := w.ledger ++ (newlySigned (w.nodes i) t).map (Prod.mk i)
      drawn := w.drawn ++ newlyDrawn i w.ledger.length a }
  | .trackerJoin i nonce trackerHost => some (sign net w i (.trackerJoin nonce trackerHost))
  | .declareGuard i body => some (sign net w i (.guardDeclaration body))

variable {net} {w w' : State ι ρ μ}

theorem Sound.step (h : Sound net w) {a : Action ι μ} (hG : Symbolic net w a)
    (hs : step net w a = some w') : Sound net w' := by
  cases a with
  | trackerJoin i nonce host =>
    cases hs
    exact h.sign _ _
  | declareGuard i body =>
    cases hs
    exact h.sign _ _
  | node i a =>
    obtain ⟨t,ht,rfl⟩ := Option.map_eq_some_iff.mp hs
    obtain ⟨hbefore,hdistinct⟩ := h.draw hG.2
    have hnodes (j : ι) : Function.update w.nodes i t j = if j = i then t else w.nodes j :=
      Function.update_apply _ _ _ _
    refine Sound.ledger (w := ⟨Function.update w.nodes i t,w.ledger,
      w.drawn ++ newlyDrawn i w.ledger.length a⟩) ⟨fun j => ?_,?_,hbefore,hdistinct⟩ _
    · dsimp only
      rw [hnodes]
      split
      · next hj => exact hj ▸ inv_step (h.nodes i) a ht
      · exact h.nodes j
    · intro j c p challenge hp hc
      have hold {p : WebRTCPeer} (hp : (w.nodes j).conns[c]? = some p)
          (hc : p.challenge = some challenge) :
          ∃ d ∈ w.drawn ++ newlyDrawn i w.ledger.length a,
            d.node = j ∧ d.conn = c ∧ d.challenge.1 = challenge := by
        obtain ⟨d,hd,hrest⟩ := h.outstanding j c p challenge hp hc
        exact ⟨d,List.mem_append_left _ hd,hrest⟩
      dsimp only at hp
      rw [hnodes] at hp
      split at hp
      · next hj =>
        subst hj
        obtain ⟨p',hp',hc'⟩ | ⟨drawn,rfl,rfl⟩ := challenge_step ht hp hc
        · exact hold hp' hc'
        · exact ⟨_,List.mem_append_right _ (List.mem_singleton_self _),rfl,rfl,rfl⟩
      · exact hold hp hc

/-- A connection is proved by a frame that its node is given. -/
theorem verified_node {a : Action ι μ} (hs : World.step net w a = some w') {i : ι} {c : Nat}
    {p q : WebRTCPeer} (hp : (w.nodes i).conns[c]? = some p) (hv : p.verified = false)
    (hq : (w'.nodes i).conns[c]? = some q) (hvq : q.verified = true) :
    ∃ d data r claim, a = .node i (.data d data) ∧ (w.nodes i).conns[d]? = some r ∧
      q.pubkey = some claim.pubkey ∧ AcceptedJoin (net.config i) (w.nodes i) r.peerId
        (WireCodec.decode (net.config i).unpack data.frame).payload c p claim := by
  have hsame (h : w'.nodes i = w.nodes i) : False := by
    rw [h,hp] at hq
    cases hq
    rw [hv] at hvq
    cases hvq
  have hsign (j : ι) (x : Signed) : (sign net w j x).nodes = w.nodes := by
    unfold sign
    split
    · rfl
    · rfl
  cases a with
  | trackerJoin j nonce host =>
    cases hs
    exact (hsame (congrFun (hsign _ _) i)).elim
  | declareGuard j body =>
    cases hs
    exact (hsame (congrFun (hsign _ _) i)).elim
  | node j a =>
    obtain ⟨t,ht,rfl⟩ := Option.map_eq_some_iff.mp hs
    by_cases hj : i = j
    · subst hj
      dsimp only at hq
      rw [Function.update_self] at hq
      obtain ⟨p',hp',hpv | ⟨d,data,r,claim,rfl,hr,hk,hacc⟩⟩ := verified_step ht hq hvq
      · rw [hp] at hp'
        cases hp'
        rw [hv] at hpv
        cases hpv
      · rw [hp] at hp'
        cases hp'
        exact ⟨d,data,r,claim,rfl,hr,hk,hacc⟩
    · exact (hsame (Function.update_of_ne hj _ _)).elim

/-- A claim that is accepted was found good on the message that was checked. -/
theorem checkedSignature_of_accepted {cfg : Config ρ μ} {s : PeerManager.State ρ μ} {d c : Nat}
    {data : Data} {r p : WebRTCPeer} {claim : SignedNodeClaim} (hr : s.conns[d]? = some r)
    (h : AcceptedJoin cfg s r.peerId (WireCodec.decode cfg.unpack data.frame).payload c p claim) :
    ∃ m challenge, checkedSignature cfg s d data = some (claim,m) ∧ p.challenge = some challenge ∧
      challenge.length = challengeBytes ∧
        joinMessage challenge claim.peerId (verifierBinding cfg p) = .ok m ∧
          derivePeerId cfg.sodium claim.pubkey = claim.peerId := by
  obtain ⟨challenge,hch,hgood⟩ := h.answer
  have hv := verified_of_verifySignedClaim hgood
  obtain ⟨m,hm,hsig⟩ := hv.signature
  refine ⟨m,challenge,?_,hch,hv.length,hm,hv.peerId⟩
  simp [checkedSignature,hr,h.registered,h.reads,hv.answers,hm,hsig,Except.toOption]

end

end World

/-- For any number of honest nodes and everything that a network can deliver: when a
connection of one of them is proved under the key of another, that one has signed a JOIN
for it, and nothing else that was signed could have been accepted. -/
theorem join_authenticated {ι ρ μ : Type} [DecidableEq ι] {net : Nodes ι ρ μ} {l : ι → ρ} {m : ι → μ}
    {as : List (World.Action ι μ)} {a : World.Action ι μ} {w w' : World.State ι ρ μ}
    (hG : Machine.Along (World.step net) (World.Symbolic net) ⟨fun i => initial (l i) (m i),[],[]⟩
      (as ++ [a]))
    (hr : Machine.run (World.step net) ⟨fun i => initial (l i) (m i),[],[]⟩ as = some w)
    (hs : World.step net w a = some w') {i j : ι} {c : Nat} {p q : WebRTCPeer}
    (hp : (w.nodes i).conns[c]? = some p) (hv : p.verified = false)
    (hq : (w'.nodes i).conns[c]? = some q) (hvq : q.verified = true)
    (hk : q.pubkey = some (net.config j).identity.pubkey) :
    ∃ v challenge binding, (net.config v).identity.pubkey = (net.config j).identity.pubkey ∧
      World.Agreed net w i c p v challenge binding := by
  obtain ⟨hGr,hGa⟩ := (Machine.along_append _ _ _).mp hG
  have hG := (hGa w hr).1
  have hsound : World.Sound net w := by
    refine Machine.invariant_run (fun _ _ _ h hG hs => h.step hG hs) ?_ hGr hr
    exact ⟨fun i => inv_initial (l i) (m i),fun i c p challenge hp => by simp [initial] at hp,
      fun d hd => by simp at hd,.nil⟩
  obtain ⟨d,data,r,claim,rfl,hr,hclaim,hacc⟩ := World.verified_node hs hp hv hq hvq
  rw [hclaim] at hk
  have hkey : claim.pubkey = (net.config j).identity.pubkey := Option.some.inj hk
  obtain ⟨m,challenge,hchecked,hch,hlen,hm,hid⟩ := World.checkedSignature_of_accepted hr hacc
  obtain ⟨⟨v,x⟩,hx,hxk,hxm⟩ := hG.1 i d data claim m rfl hchecked ⟨j,hkey.symm⟩
  obtain rfl : x = .join ⟨challenge,hlen⟩ (verifierBinding (net.config i) p) :=
    World.Signed.eq_join hxm hm
  obtain ⟨e,he,hei,hec,hech⟩ := hsound.outstanding i c p challenge hp hch
  have hech : e.challenge = ⟨challenge,hlen⟩ := Subtype.ext hech
  -- The connection is registered under the id of the claim.
  obtain ⟨c',hreg,hrest⟩ := Option.bind_eq_some_iff.mp hacc.registered
  obtain ⟨p',hp',hrest⟩ := Option.bind_eq_some_iff.mp hrest
  cases hrest
  have hentry := JsMap.mem_of_get hreg
  obtain ⟨p',hp'',hpid,-⟩ := (hsound.nodes i).entries _ hentry
  obtain rfl := Option.some.inj (hp''.symm.trans hp')
  have hpclaim : p'.peerId = claim.peerId := hpid.trans hacc.peerId.symm
  refine ⟨v,⟨challenge,hlen⟩,verifierBinding (net.config i) p',hxk.trans hkey,?_⟩
  refine ⟨?_,?_,hch,rfl,rfl,rfl,?_,⟨e,he,hei,hec,hech,?_⟩,fun d hd hdc => ?_,fun y hy hym => ?_⟩
  · rw [hpclaim,← hid,net.uses,← hxk,net.bound]
  · rw [hpid]
    exact ((hsound.nodes i).ids _ (List.mem_map_of_mem hentry)).2
  · have husable := hacc.fingerprints
    simp only [fingerprintsUsable,net.strict,Bool.or_false,Bool.and_eq_true,decide_eq_true_eq,
      ne_eq] at husable
    exact ⟨husable.2,husable.1⟩
  · rw [← hech]
    exact hsound.signed_after he (by rw [hech]; exact hx)
  · obtain rfl := hsound.drawn_once he hd (hdc.trans hech.symm)
    exact ⟨hei,hec⟩
  · rw [hpclaim,hm] at hym
    exact World.Signed.eq_join hym hm

/-! Two nodes that meet. -/

/-- The node `false` has the key 1, the node `true` the key 2. -/
def sampleNodes : Nodes Bool Unit Unit where
  config i := sampleConfig (if i then 2 else 1)
  sodium := sampleSodium
  uses _ := rfl
  bound _ := rfl
  strict _ := rfl

/-- `World.Symbolic` for the sample nodes -/
def isSymbolic (w : World.State Bool Unit Unit) : World.Action Bool Unit → Bool
  | .node i (.data d data) =>
    (checkedSignature (sampleNodes.config i) (w.nodes i) d data).all fun r =>
      [false,true].all fun v => (sampleNodes.config v).identity.pubkey != r.1.pubkey ||
        w.ledger.any fun x => (sampleNodes.config x.1).identity.pubkey == r.1.pubkey &&
          (x.2.message (sampleNodes.config x.1)).toOption == some r.2
  | .node _ (.opened _ challenge) =>
    (w.drawn.all fun d => d.challenge != challenge) && w.ledger.all fun x =>
      match x.2 with
      | .join signed _ => signed != challenge
      | _ => true
  | _ => true

theorem symbolic_of_isSymbolic (w : World.State Bool Unit Unit) (a : World.Action Bool Unit)
    (h : isSymbolic w a = true) : World.Symbolic sampleNodes w a := by
  constructor
  · rintro i d data claim m rfl hc ⟨v,hv⟩
    simp only [isSymbolic,hc,Option.all_some,List.all_eq_true] at h
    have hany := h v (by cases v <;> simp)
    simp only [hv,bne_self_eq_false,Bool.false_or] at hany
    obtain ⟨x,hx,hm⟩ := List.any_eq_true.mp hany
    simp only [Bool.and_eq_true,beq_iff_eq] at hm
    refine ⟨x,hx,hm.1,?_⟩
    cases hmsg : x.2.message (sampleNodes.config x.1) with
    | error e => simp [hmsg,Except.toOption] at hm
    | ok m' => simpa [hmsg,Except.toOption] using hm.2
  · rintro i c challenge rfl
    simp only [isSymbolic,Bool.and_eq_true,List.all_eq_true] at h
    refine ⟨fun d hd => by simpa using h.1 d hd,fun x hx binding he => ?_⟩
    have hx := h.2 x hx
    rw [he] at hx
    simp at hx

/-- The node `true` connects to the other and answers its challenge. -/
def meetingRun : List (World.Action Bool Unit) :=
  [.node false (.relay (sampleIdentity 2).peerId offer),
    .node true (.connect (sampleIdentity 1).peerId true none),
    .node false (.described 0 sampleSdp sampleSdp),.node true (.described 0 sampleSdp sampleSdp),
    .node false (.opened 0 (sampleChallenge 7)),.node true (.opened 0 (sampleChallenge 8)),
    .node true (.data 0 (sampleFrame ⟨.hello,.obj [("challenge",.bytes (sampleChallenge 7).1)]⟩))]

def meetingJoin : World.Action Bool Unit := .node false (.data 0 (sampleJoin 2 (sampleChallenge 7)))

theorem join_authenticated_meetingRun : ∃ w p,
    Machine.run (World.step sampleNodes) ⟨fun _ => initial () (),[],[]⟩ meetingRun = some w ∧
      (w.nodes false).conns[0]? = some p ∧ ∃ v challenge binding,
        (sampleNodes.config v).identity.pubkey = (sampleNodes.config true).identity.pubkey ∧
          World.Agreed sampleNodes w false 0 p v challenge binding := by
  have hG : Machine.Along (World.step sampleNodes) (World.Symbolic sampleNodes)
      ⟨fun _ => initial () (),[],[]⟩ (meetingRun ++ [meetingJoin]) :=
    Machine.along_of_check symbolic_of_isSymbolic (by decide +kernel)
  have hrun : (Machine.run (World.step sampleNodes) ⟨fun _ => initial () (),[],[]⟩ meetingRun).any
      (fun w => ((w.nodes false).conns[0]?).any (fun p => !p.verified) &&
        (World.step sampleNodes w meetingJoin).any fun w' => ((w'.nodes false).conns[0]?).any fun q =>
          q.verified && q.pubkey == some (sampleIdentity 2).pubkey) = true := by decide +kernel
  obtain ⟨w,hr,hw⟩ := (Option.any_eq_true _ _).mp hrun
  rw [Bool.and_eq_true] at hw
  obtain ⟨p,hp,hv⟩ := (Option.any_eq_true _ _).mp hw.1
  obtain ⟨w',hs,hw'⟩ := (Option.any_eq_true _ _).mp hw.2
  obtain ⟨q,hq,hvq⟩ := (Option.any_eq_true _ _).mp hw'
  simp only [Bool.and_eq_true,beq_iff_eq] at hvq
  exact ⟨w,p,hr,hp,join_authenticated (j := true) hG hr hs hp (by simpa using hv) hq hvq.1 hvq.2⟩

end PeerManager
