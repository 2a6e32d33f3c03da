import AetherLite.Network.Rebalance

/-! How many peers a rebalance leaves, and which of them it may not touch. -/
set_option autoImplicit false

namespace PeerManager

open Js Network

section
variable {ρ μ : Type} {cfg : Config ρ μ} {s t : State ρ μ}

/-- What is registered besides the verified peers. -/
def State.others (s : State ρ μ) : List WebRTCPeer :=
  s.registered.filter fun p => !(p.connected && p.verified)

variable (cfg s) in
/-- Fewer than `LOCAL_LINKS` of the verified peers are nearer. -/
def IsNearest (p : WebRTCPeer) : Prop :=
  p ∈ s.verifiedPeers ∧
    s.verifiedPeers.countP (fun q => (distance cfg q).lt (distance cfg p)) < localLinks

theorem Table.registered_evict (h : Table cfg s) (newcomerId : Option PeerId) (victim : PeerId) :
    (evict cfg s newcomerId victim).registered = s.registered.filter fun q => q.peerId ≠ victim := by
  rw [PeerManager.registered_evict,h.registered_disconnect]

theorem Table.after_evict (h : Table cfg s) (newcomerId : Option PeerId) (victim : PeerId) :
    Table cfg (evict cfg s newcomerId victim) := h.quiet (quiet_evict s newcomerId victim)

theorem Table.eq_of_peerId (h : Table cfg s) {p q : WebRTCPeer} (hp : p ∈ s.registered)
    (hq : q ∈ s.registered) (hid : p.peerId = q.peerId) : p = q := by
  have hn : (s.registered.map WebRTCPeer.peerId).Nodup := h.registered_ids ▸ h.keys
  exact List.inj_on_of_nodup_map hn hp hq hid

/-- Who leaves is a verified peer, so that nobody else is concerned. -/
theorem Table.others_evict (h : Table cfg s) (newcomerId : Option PeerId) {victim : WebRTCPeer}
    (hv : victim ∈ s.verifiedPeers) :
    (evict cfg s newcomerId victim.peerId).others = s.others := by
  unfold State.others
  rw [h.registered_evict,List.filter_filter]
  apply List.filter_congr
  intro p hp
  cases hother : !(p.connected && p.verified) with
  | false => rfl
  | true =>
    obtain ⟨hreg,hverified⟩ := List.mem_filter.mp hv
    have hne : p.peerId ≠ victim.peerId := by
      intro hid
      rw [h.eq_of_peerId hp hreg hid,hverified] at hother
      cases hother
    simp [hne]

/-- One turn of the loop: while there are too many, one that is not local leaves. -/
theorem Table.turn (h : Table cfg s) (hown : cfg.identity.position.InUnit)
    (hlen : maxDegree < s.verifiedPeers.length) (newcomerId : Option PeerId) (n : Nat) :
    ∃ victim ∈ s.verifiedPeers, isLocal cfg s.verifiedPeers victim = false ∧
      rebalanceLoop cfg newcomerId (n+1) s =
        rebalanceLoop cfg newcomerId n (evict cfg s newcomerId victim.peerId) := by
  obtain ⟨victim,hv,hpick,hlocal,-⟩ :=
    pickEvictionVictim_spec (h.placed hown) hlen s.seenGroups newcomerId
  refine ⟨victim,hv,hlocal,?_⟩
  have hnot : ¬s.verifiedPeers.length ≤ maxDegree := by omega
  simp only [rebalanceLoop,if_neg hnot,hpick]

theorem rebalanceLoop_few (hlen : s.verifiedPeers.length ≤ maxDegree) (newcomerId : Option PeerId)
    (n : Nat) : rebalanceLoop cfg newcomerId n s = s := by
  cases n with
  | zero => rfl
  | succ n => simp only [rebalanceLoop,if_pos hlen]

/-- The count after some turns. -/
theorem rebalanceLoop_length (h : Table cfg s) (hown : cfg.identity.position.InUnit)
    (newcomerId : Option PeerId) (n : Nat) :
    (rebalanceLoop cfg newcomerId n s).verifiedPeers.length =
      min s.verifiedPeers.length (max maxDegree (s.verifiedPeers.length-n)) := by
  induction n generalizing s with
  | zero =>
    simp only [rebalanceLoop]
    omega
  | succ n ih =>
    by_cases hlen : s.verifiedPeers.length ≤ maxDegree
    · rw [rebalanceLoop_few hlen]
      omega
    obtain ⟨victim,hv,-,hturn⟩ := h.turn hown (Nat.lt_of_not_le hlen) newcomerId n
    have hrest := ih (h.after_evict newcomerId victim.peerId)
    have hfewer := length_filter_peerId (h.placed hown).ids hv
    rw [hturn,hrest,h.verifiedPeers_evict]
    omega

theorem rebalanceLoop_local (h : Table cfg s) (hown : cfg.identity.position.InUnit)
    (newcomerId : Option PeerId) (n : Nat) {p : WebRTCPeer} (hp : p ∈ s.verifiedPeers)
    (hlocal : isLocal cfg s.verifiedPeers p = true) :
    p ∈ (rebalanceLoop cfg newcomerId n s).verifiedPeers := by
  induction n generalizing s with
  | zero => exact hp
  | succ n ih =>
    by_cases hlen : s.verifiedPeers.length ≤ maxDegree
    · rw [rebalanceLoop_few hlen]
      exact hp
    obtain ⟨victim,-,hnot,hturn⟩ := h.turn hown (Nat.lt_of_not_le hlen) newcomerId n
    have hne : p.peerId ≠ victim.peerId := by
      intro hid
      unfold isLocal at hlocal hnot
      rw [hid,hnot] at hlocal
      cases hlocal
    rw [hturn]
    apply ih (h.after_evict newcomerId victim.peerId)
    · rw [h.verifiedPeers_evict]
      exact List.mem_filter.mpr ⟨hp,by simpa using hne⟩
    · rw [h.verifiedPeers_evict,isLocal_filter (h.placed hown) hnot]
      exact hlocal

theorem rebalanceLoop_others (h : Table cfg s) (hown : cfg.identity.position.InUnit)
    (newcomerId : Option PeerId) (n : Nat) :
    (rebalanceLoop cfg newcomerId n s).others = s.others := by
  induction n generalizing s with
  | zero => rfl
  | succ n ih =>
    by_cases hlen : s.verifiedPeers.length ≤ maxDegree
    · rw [rebalanceLoop_few hlen]
    obtain ⟨victim,hv,-,hturn⟩ := h.turn hown (Nat.lt_of_not_le hlen) newcomerId n
    rw [hturn,ih (h.after_evict newcomerId victim.peerId),h.others_evict newcomerId hv]

theorem distance_lt_iff {verified : List WebRTCPeer} (h : Placed cfg verified) {p q : WebRTCPeer}
    (hp : p ∈ verified) (hq : q ∈ verified) :
    (distance cfg q).lt (distance cfg p) = true ↔
      (distance cfg q).toRat < (distance cfg p).toRat := by
  obtain ⟨j,hj⟩ := RingPosition.distance_onGrid h.own (h.positions p hp)
  obtain ⟨k,hk⟩ := RingPosition.distance_onGrid h.own (h.positions q hq)
  unfold distance
  rw [hj,hk]
  simp [Number.lt,Number.toRat]

/-- The nearest peers are the local ones, when no two are equally far. -/
theorem IsNearest.isLocal (h : Table cfg s) (hown : cfg.identity.position.InUnit)
    (hdistinct : ∀ p ∈ s.verifiedPeers, ∀ q ∈ s.verifiedPeers,
      distance cfg p = distance cfg q → p = q) {p : WebRTCPeer} (hn : IsNearest cfg s p) :
    PeerManager.isLocal cfg s.verifiedPeers p = true := by
  obtain ⟨hp,hfew⟩ := hn
  have hplaced := h.placed hown
  have hkey : ∀ a ∈ s.verifiedPeers, ∀ b ∈ s.verifiedPeers,
      (distance cfg a).toRat = (distance cfg b).toRat → a = b := by
    intro a ha b hb hab
    obtain ⟨j,hj⟩ := RingPosition.distance_onGrid hown (hplaced.positions a ha)
    obtain ⟨k,hk⟩ := RingPosition.distance_onGrid hown (hplaced.positions b hb)
    apply hdistinct a ha b hb
    unfold distance at hab ⊢
    rw [hj,hk] at hab ⊢
    exact congrArg Number.fin hab
  have hcount : s.verifiedPeers.countP (fun q => decide ((distance cfg q).toRat <
      (distance cfg p).toRat)) < localLinks := by
    refine lt_of_eq_of_lt (List.countP_congr fun q hq => ?_) hfew
    rw [decide_eq_true_iff,distance_lt_iff hplaced hp hq]
  have hmem := mem_take_sortBy (comparesBy_distance hplaced) hplaced.ids.of_map hkey hp hcount
  exact List.contains_iff_mem.mpr (List.mem_map_of_mem hmem)

end

end PeerManager
