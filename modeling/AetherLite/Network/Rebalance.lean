import AetherLite.Lib.JsNumber
import AetherLite.Network.Admission

/-! Which links a rebalance drops. While there are inbound peers to give up, a link this
node chose is kept; after them the links it chose go. -/
set_option autoImplicit false

open Js Network NodeIdentity

theorem NodeIdentity.derivePosition_inUnit (sodium : Sodium) (id : String) :
    (derivePosition sodium id).InUnit := by
  unfold derivePosition
  have hlen : (Bytes.toNat ((sodium.sha256 (positionDomain ++ fromHex id.toList)).take 8)) < 2^64 := by
    refine (Bytes.toNat_lt _).trans_le ?_
    rw [show (2 : Nat)^64 = 256^8 by norm_num]
    exact Nat.pow_le_pow_right (by norm_num) (List.length_take_le _ _)
  obtain ⟨d,hd,h0,h1⟩ := Number.ofRat_le_two_pow (e := 64) (by norm_num)
    (Nat.cast_nonneg _) (by exact_mod_cast hlen.le)
  simp only [hd,Number.divBy]
  refine Number.ofRat_unit (by positivity) ?_
  rw [div_le_one (by positivity)]
  exact_mod_cast h1

/-- The distance of two positions is a double like any other. -/
theorem Network.RingPosition.distance_onGrid {a b : Number} (ha : a.InUnit) (hb : b.InUnit) :
    (RingPosition.distance a b).OnGrid := by
  obtain ⟨p,rfl,hp0,hp1⟩ := ha
  obtain ⟨q,rfl,hq0,hq1⟩ := hb
  obtain ⟨d,hd,hgrid,hd2⟩ := Number.ofRat_small (q := p+-q) (by
    rw [abs_le]
    constructor <;> linarith)
  obtain ⟨e,he,hgrid',-⟩ := Number.ofRat_small (q := 1+-|d|) (by
    have := abs_nonneg d
    rw [abs_le]
    constructor <;> linarith)
  have hsub : (Number.fin p).sub (.fin q) = .fin d := hd
  have hrest : (Number.fin 1).sub (Number.fin d).abs = .fin e := he
  unfold RingPosition.distance
  dsimp only
  rw [hsub,hrest]
  refine Number.onGrid_min (Number.onGrid_abs ?_) ?_
  · obtain ⟨k,rfl⟩ := hgrid
    exact ⟨k,rfl⟩
  · obtain ⟨k,rfl⟩ := hgrid'
    exact ⟨k,rfl⟩

namespace PeerManager

section
variable {ρ μ : Type} {cfg : Config ρ μ} {s t u : State ρ μ} {id : PeerId}

/-- The ids of the links this node chose. -/
def State.outbound (s : State ρ μ) : List PeerId :=
  (s.registered.filter fun p => p.direction = .outbound).map WebRTCPeer.peerId

theorem take_filter {α : Type*} {p : α → Bool} (n : Nat) (as : List α)
    (h : ∀ a ∈ as.take n, p a = true) : (as.filter p).take n = as.take n := by
  induction as generalizing n with
  | nil => rfl
  | cons a as ih =>
    cases n with
    | zero => rfl
    | succ n =>
      simp only [List.take_succ_cons,List.mem_cons,forall_eq_or_imp] at h
      simp [h.1,ih n h.2]

/-- The peers of a list have their positions on the ring, and are different. -/
structure Placed (cfg : Config ρ μ) (verified : List WebRTCPeer) : Prop where
  own : cfg.identity.position.InUnit
  positions : ∀ p ∈ verified, p.position.InUnit
  ids : (verified.map WebRTCPeer.peerId).Nodup

variable {verified : List WebRTCPeer}

theorem comparesBy_distance (h : Placed cfg verified) :
    ComparesBy (fun a b => (distance cfg a).sub (distance cfg b))
      (fun p => (distance cfg p).toRat) verified := fun a ha b hb =>
  Number.lt_sub (RingPosition.distance_onGrid h.own (h.positions a ha))
    (RingPosition.distance_onGrid h.own (h.positions b hb))

/-- Who is local does not change when somebody else leaves. -/
theorem isLocal_filter (h : Placed cfg verified) {victim : WebRTCPeer}
    (hv : isLocal cfg verified victim = false) (p : WebRTCPeer) :
    isLocal cfg (verified.filter fun q => q.peerId ≠ victim.peerId) p = isLocal cfg verified p := by
  unfold isLocal byDistance at *
  rw [sortBy_filter _ (comparesBy_distance h),take_filter]
  intro q hq
  rw [decide_eq_true_iff]
  intro he
  have hmem := List.mem_map_of_mem (f := WebRTCPeer.peerId) hq
  rw [he] at hmem
  rw [List.contains_iff_mem.mpr hmem] at hv
  cases hv

theorem evictable_filter (h : Placed cfg verified) {victim : WebRTCPeer}
    (hv : isLocal cfg verified victim = false) :
    evictable cfg (verified.filter fun q => q.peerId ≠ victim.peerId) =
      (evictable cfg verified).filter fun q => q.peerId ≠ victim.peerId := by
  unfold evictable
  rw [List.filter_filter,List.filter_filter]
  refine List.filter_congr fun p _ => ?_
  rw [isLocal_filter h hv,Bool.and_comm]

/-- One peer of a list is one less. -/
theorem length_filter_peerId {peers : List WebRTCPeer} {victim : WebRTCPeer}
    (hn : (peers.map WebRTCPeer.peerId).Nodup) (hm : victim ∈ peers) :
    (peers.filter fun q => q.peerId ≠ victim.peerId).length+1 = peers.length := by
  have hc : peers.countP (fun q => q.peerId = victim.peerId) = 1 := by
    have hcount := List.count_eq_one_of_mem hn (List.mem_map_of_mem hm)
    rw [List.count,List.countP_map] at hcount
    rw [← hcount]
    refine List.countP_congr fun q _ => ?_
    simp
  have hsplit := List.length_eq_countP_add_countP (fun q : WebRTCPeer => q.peerId = victim.peerId)
    (l := peers)
  rw [hc,List.countP_eq_length_filter] at hsplit
  simp only [decide_not,decide_eq_true_eq] at hsplit ⊢
  omega

variable (cfg s) in
/-- Each id of the table names one connection, which is its own and at its position. -/
structure Table : Prop where
  keys : (JsMap.keys s.peers).Nodup
  entries : ∀ e ∈ s.peers, ∃ p, s.conns[e.2]? = some p ∧ p.peerId = e.1 ∧
    p.position = derivePosition cfg.sodium e.1

theorem Inv.table (h : Inv cfg s) : Table cfg s := ⟨h.keys,h.entries⟩

theorem Table.quiet (h : Table cfg s) (hq : Quiet Moved s t) : Table cfg t where
  keys := h.keys.sublist (hq.peers.map Prod.fst)
  entries e he := by
    obtain ⟨p,hp,hid,hpos⟩ := h.entries e (hq.peers.subset he)
    obtain ⟨q,hc,hm⟩ := hq.conns e.2 p hp
    exact ⟨q,hc,hm.peerId.trans hid,hm.position.trans hpos⟩

theorem registered_eq (s : State ρ μ) :
    s.registered = s.peers.filterMap fun e => s.conns[e.2]? := by
  simp [State.registered,JsMap.values,List.filterMap_map]

theorem Table.mem_registered (h : Table cfg s) {p : WebRTCPeer} :
    p ∈ s.registered ↔ ∃ c, JsMap.get s.peers p.peerId = some c ∧ s.conns[c]? = some p := by
  rw [registered_eq,List.mem_filterMap]
  constructor
  · rintro ⟨e,he,hp⟩
    obtain ⟨q,hq,hid,-⟩ := h.entries e he
    obtain rfl := Option.some.inj (hq.symm.trans hp)
    exact ⟨e.2,JsMap.get_of_mem h.keys (by rw [hid]; exact he),hp⟩
  · rintro ⟨c,hg,hp⟩
    exact ⟨_,JsMap.mem_of_get hg,hp⟩

theorem Table.registered_ids (h : Table cfg s) :
    s.registered.map WebRTCPeer.peerId = JsMap.keys s.peers := by
  rw [registered_eq,JsMap.keys]
  have hent := h.entries
  generalize s.peers = peers at hent
  induction peers with
  | nil => rfl
  | cons e es ih =>
    obtain ⟨p,hp,hid,-⟩ := hent e List.mem_cons_self
    simp [hp,hid,ih fun e he => hent e (List.mem_cons_of_mem _ he)]

theorem Table.placed (h : Table cfg s) (hown : cfg.identity.position.InUnit) :
    Placed cfg s.verifiedPeers where
  own := hown
  positions p hp := by
    obtain ⟨c,hg,hc⟩ := h.mem_registered.mp (List.mem_filter.mp hp).1
    obtain ⟨q,hq,-,hpos⟩ := h.entries _ (JsMap.mem_of_get hg)
    obtain rfl := Option.some.inj (hq.symm.trans hc)
    rw [hpos]
    exact derivePosition_inUnit _ _
  ids := by
    have hsub : (s.verifiedPeers.map WebRTCPeer.peerId).Sublist (JsMap.keys s.peers) := by
      rw [← h.registered_ids]
      exact List.filter_sublist.map _
    exact h.keys.sublist hsub

/-- A disconnected peer is gone, and the others are as they were. -/
theorem Table.registered_disconnect (h : Table cfg s) (id : PeerId) :
    (disconnect cfg s id).registered = s.registered.filter fun q => q.peerId ≠ id := by
  have hothers {c : Nat} (hg : JsMap.get s.peers id = some c) {e : PeerId × Nat} (he : e ∈ s.peers)
      (hne : e.1 ≠ id) : c ≠ e.2 := by
    rintro rfl
    obtain ⟨p,hp,hid,-⟩ := h.entries e he
    obtain ⟨q,hq,hid',-⟩ := h.entries _ (JsMap.mem_of_get hg)
    obtain rfl := Option.some.inj (hp.symm.trans hq)
    exact hne (hid.symm.trans hid')
  rw [registered_eq,registered_eq,List.filter_filterMap]
  unfold disconnect
  split
  · next hg =>
    refine List.filterMap_congr fun e he => ?_
    obtain ⟨p,hp,hid,-⟩ := h.entries e he
    have hne : e.1 ≠ id := by
      rintro rfl
      exact (JsMap.get_eq_none_iff _ _).mp hg (List.mem_map_of_mem he)
    simp [hp,Option.filter,hid,hne]
  · next c hg =>
    simp only [JsMap.delete,List.filterMap_filter]
    refine List.filterMap_congr fun e he => ?_
    obtain ⟨p,hp,hid,-⟩ := h.entries e he
    by_cases hne : e.1 = id
    · simp [hp,Option.filter,hid,hne]
    · simp [hp,Option.filter,hid,hne,hothers hg he hne]

theorem registered_evict (s : State ρ μ) (newcomerId : Option PeerId) (victim : PeerId) :
    (evict cfg s newcomerId victim).registered = (disconnect cfg s victim).registered := by
  unfold evict
  split
  · rfl
  unfold disconnect
  cases JsMap.get s.peers victim with
  | none => rfl
  | some c => rfl

theorem Table.verifiedPeers_evict (h : Table cfg s) (newcomerId : Option PeerId) (victim : PeerId) :
    (evict cfg s newcomerId victim).verifiedPeers =
      s.verifiedPeers.filter fun q => q.peerId ≠ victim := by
  unfold State.verifiedPeers
  rw [registered_evict,h.registered_disconnect,List.filter_filter,List.filter_filter]
  exact List.filter_congr fun p _ => Bool.and_comm _ _

theorem Table.outbound_evict (h : Table cfg s) (newcomerId : Option PeerId) (victim : PeerId) :
    (evict cfg s newcomerId victim).outbound = s.outbound.filter fun id => id ≠ victim := by
  unfold State.outbound
  rw [registered_evict,h.registered_disconnect,List.filter_map,List.filter_filter,
    List.filter_filter]
  congr 1
  exact List.filter_congr fun p _ => Bool.and_comm _ _

theorem Table.outbound_quiet (h : Table cfg s) (hq : Quiet Moved s t) : t.outbound ⊆ s.outbound := by
  intro id hi
  obtain ⟨q,hm,rfl⟩ := List.mem_map.mp hi
  obtain ⟨hm,hd⟩ := List.mem_filter.mp hm
  obtain ⟨c,hg,hc⟩ := (h.quiet hq).mem_registered.mp hm
  have he := hq.peers.subset (JsMap.mem_of_get hg)
  obtain ⟨p,hp,hid,-⟩ := h.entries _ he
  obtain ⟨q',hq',hl⟩ := hq.conns c p hp
  obtain rfl := Option.some.inj (hq'.symm.trans hc)
  have hreg : p ∈ s.registered :=
    h.mem_registered.mpr ⟨c,by rw [hid]; exact JsMap.get_of_mem h.keys he,hp⟩
  refine List.mem_map.mpr ⟨p,List.mem_filter.mpr ⟨hreg,?_⟩,hid⟩
  rw [← hl.direction]
  exact hd

theorem firstOf_mem (cfg : Config ρ μ) (groups : List String) (verified : List WebRTCPeer)
    {pool : List WebRTCPeer} (hne : pool ≠ []) :
    ∃ p ∈ pool, firstOf cfg groups verified pool = some p := by
  unfold firstOf
  have hperm := sortBy_perm (evictionOrder cfg (overflow groups verified)) pool
  cases hs : sortBy (evictionOrder cfg (overflow groups verified)) pool with
  | nil =>
    rw [hs] at hperm
    exact absurd hperm.symm.eq_nil hne
  | cons p ps =>
    rw [hs] at hperm
    exact ⟨p,hperm.subset List.mem_cons_self,rfl⟩

/-- Only the `LOCAL_LINKS` nearest are local. -/
theorem exists_not_local (h : Placed cfg verified) (hlen : localLinks < verified.length) :
    ∃ p ∈ verified, isLocal cfg verified p = false := by
  by_contra hall
  have hsub : verified.map WebRTCPeer.peerId ⊆
      ((byDistance cfg verified).take localLinks).map WebRTCPeer.peerId := by
    intro id hi
    obtain ⟨p,hp,rfl⟩ := List.mem_map.mp hi
    by_contra hn
    exact hall ⟨p,hp,by simpa [isLocal] using hn⟩
  have hle := (List.subperm_of_subset h.ids hsub).length_le
  simp only [List.length_map,List.length_take] at hle
  omega

/-- While there are inbound peers to give up, the victim is one of them; then it is a link
this node chose. -/
theorem pickEvictionVictim_spec (h : Placed cfg verified) (hlen : maxDegree < verified.length)
    (groups : List String) (newcomerId : Option PeerId) :
    ∃ victim ∈ verified, pickEvictionVictim cfg groups verified newcomerId = some victim ∧
      isLocal cfg verified victim = false ∧
      if evictable cfg verified = [] then victim.direction = .outbound
      else victim ∈ evictable cfg verified := by
  by_cases hev : evictable cfg verified = []
  · have hout {p : WebRTCPeer} (hp : p ∈ verified) (hl : isLocal cfg verified p = false) :
        p.direction = .outbound := by
      cases hd : p.direction with
      | outbound => rfl
      | inbound =>
        have : p ∈ evictable cfg verified := List.mem_filter.mpr ⟨hp,by simp [hd,hl]⟩
        rw [hev] at this
        cases this
    unfold pickEvictionVictim
    simp only [hev,List.isEmpty_nil,if_true]
    cases hn : newcomer? cfg verified newcomerId with
    | some newcomer =>
      obtain ⟨hf,hl⟩ := Option.filter_eq_some_iff.mp hn
      have hm := List.mem_of_find?_eq_some hf
      have hl : isLocal cfg verified newcomer = false := by simpa using hl
      exact ⟨newcomer,hm,rfl,hl,hout hm hl⟩
    | none =>
      have hpool : (verified.filter fun p =>
          !isLocal cfg verified p && decide (some p.peerId ≠ newcomerId)) ≠ [] := by
        obtain ⟨p,hp,hl⟩ := exists_not_local h (Nat.lt_trans (by decide) hlen)
        refine List.ne_nil_of_mem (List.mem_filter.mpr ⟨hp,?_⟩)
        simp only [hl,Bool.not_false,Bool.true_and,decide_eq_true_eq]
        -- The newcomer itself is local, or has gone.
        intro he
        obtain ⟨q,hq⟩ := Option.isSome_iff_exists.mp (List.find?_isSome.mpr
          ⟨p,hp,decide_eq_true he⟩ : (verified.find? fun p => some p.peerId = newcomerId).isSome)
        have hid : q.peerId = p.peerId := by
          have := List.find?_some hq
          rw [decide_eq_true_iff] at this
          exact Option.some.inj (this.trans he.symm)
        have hlq : isLocal cfg verified q = false := by
          rw [← hl,isLocal,isLocal,hid]
        simp [newcomer?,hq,Option.filter,hlq] at hn
      obtain ⟨p,hp,hf⟩ := firstOf_mem cfg groups verified hpool
      obtain ⟨hm,hl⟩ := List.mem_filter.mp hp
      have hl : isLocal cfg verified p = false := by
        simp only [Bool.and_eq_true,Bool.not_eq_true'] at hl
        exact hl.1
      exact ⟨p,hm,hf,hl,hout hm hl⟩
  · obtain ⟨p,hp,hf⟩ := firstOf_mem cfg groups verified hev
    obtain ⟨hm,hl⟩ := List.mem_filter.mp hp
    refine ⟨p,hm,?_,?_,?_⟩
    · simp [pickEvictionVictim,hev,hf]
    · simp only [Bool.and_eq_true,Bool.not_eq_true'] at hl
      exact hl.2
    · rw [if_neg hev]
      exact hp

/-- A link this node chose is under no other peer's id. -/
theorem Table.not_outbound (h : Table cfg s) {p : WebRTCPeer} (hp : p ∈ s.registered)
    (hd : p.direction = .inbound) : p.peerId ∉ s.outbound := by
  intro hi
  obtain ⟨q,hq,hid⟩ := List.mem_map.mp hi
  obtain ⟨hq,hdq⟩ := List.mem_filter.mp hq
  obtain ⟨c,hg,hc⟩ := h.mem_registered.mp hp
  obtain ⟨c',hg',hc'⟩ := h.mem_registered.mp hq
  rw [hid,hg] at hg'
  cases hg'
  rw [hc] at hc'
  cases hc'
  rw [hd] at hdq
  cases hdq

/-- The links this node chose survive exactly when the inbound peers that may go cover
what has to go. -/
theorem rebalanceLoop_keeps_iff (h : Table cfg s) (hown : cfg.identity.position.InUnit)
    (newcomerId : Option PeerId) (n : Nat) :
    s.outbound ⊆ (rebalanceLoop cfg newcomerId n s).outbound ↔
      min (s.verifiedPeers.length-maxDegree) n ≤ (evictable cfg s.verifiedPeers).length := by
  induction n generalizing s with
  | zero => simp [rebalanceLoop]
  | succ n ih =>
    unfold rebalanceLoop
    by_cases hlen : s.verifiedPeers.length ≤ maxDegree
    · rw [if_pos hlen]
      simp [Nat.sub_eq_zero_of_le hlen]
    rw [if_neg hlen]
    have hplaced := h.placed hown
    obtain ⟨v,hv,hpick,hlocal,hcase⟩ :=
      pickEvictionVictim_spec hplaced (Nat.lt_of_not_le hlen) s.seenGroups newcomerId
    have hreg : v ∈ s.registered := (List.mem_filter.mp hv).1
    have hq : Quiet Moved s (evict cfg s newcomerId v.peerId) := quiet_evict s newcomerId v.peerId
    have hrest := ih (h.quiet hq)
    have hfewer := length_filter_peerId hplaced.ids hv
    rw [h.verifiedPeers_evict,evictable_filter hplaced hlocal] at hrest
    simp only [hpick]
    by_cases hev : evictable cfg s.verifiedPeers = []
    · rw [if_pos hev] at hcase
      have hchosen : v.peerId ∈ s.outbound :=
        List.mem_map_of_mem (List.mem_filter.mpr ⟨hreg,by simp [hcase]⟩)
      constructor
      · intro hsub
        have hin := (h.quiet hq).outbound_quiet (quiet_rebalanceLoop newcomerId n _) (hsub hchosen)
        rw [h.outbound_evict] at hin
        simp at hin
      · intro hle
        rw [hev,List.length_nil] at hle
        omega
    · rw [if_neg hev] at hcase
      have hd : v.direction = .inbound := by
        have := (List.mem_filter.mp hcase).2
        simp only [Bool.and_eq_true,decide_eq_true_eq] at this
        exact this.1
      have hsame : (evict cfg s newcomerId v.peerId).outbound = s.outbound := by
        rw [h.outbound_evict,List.filter_eq_self]
        intro id hi
        rw [decide_eq_true_iff]
        rintro rfl
        exact h.not_outbound hreg hd hi
      have hfewer' : ((evictable cfg s.verifiedPeers).filter fun q => q.peerId ≠ v.peerId).length+1 =
          (evictable cfg s.verifiedPeers).length := length_filter_peerId
        (hplaced.ids.sublist (List.filter_sublist.map WebRTCPeer.peerId)) hcase
      rw [hsame] at hrest
      rw [hrest]
      omega

end

section
variable {ρ μ : Type} (cfg : Config ρ μ)

/-- The state in which a rebalance begins, once the group of a verified peer is known. -/
def rebalanced (s : State ρ μ) (task : (Nat × PeerId) × List (Nat × PeerId)) (group : String) :
    State ρ μ :=
  resolved { s with resolving := task.2 } task.1.1 group

/-- The rebalance that an inbound peer brings about leaves the links this node chose. -/
def KeepsOutbound (s : State ρ μ) (a : Action μ) : Prop :=
  ∀ i group task p t, a = .netGroup i group → Machine.takeTask s.resolving i = some task →
    s.conns[task.1.1]? = some p → p.direction = .inbound → step cfg s a = some t →
      s.outbound ⊆ t.outbound

/-- There are as many inbound peers outside the nearest ones as the rebalance drops. -/
def HasRoom (s : State ρ μ) (a : Action μ) : Prop :=
  ∀ i group task p, a = .netGroup i group → Machine.takeTask s.resolving i = some task →
    s.conns[task.1.1]? = some p → p.direction = .inbound →
      min ((rebalanced s task group).verifiedPeers.length-maxDegree) (maxDegree*2) ≤
        (evictable cfg (rebalanced s task group).verifiedPeers).length

variable {cfg} {s : State ρ μ}

theorem quiet_rebalanced (s : State ρ μ) (task : (Nat × PeerId) × List (Nat × PeerId))
    (group : String) : Quiet Moved s (rebalanced s task group) :=
  Quiet.trans (t := { s with resolving := task.2 }) (.same rfl rfl rfl rfl)
    (quiet_resolved _ task.1.1 group)

theorem rebalanced_peers (s : State ρ μ) (task : (Nat × PeerId) × List (Nat × PeerId))
    (group : String) : (rebalanced s task group).peers = s.peers := by
  unfold rebalanced resolved noteGroup
  dsimp only
  split
  · rfl
  · rfl

theorem hasRoom_of_few (h : s.peers.length ≤ maxDegree) (a : Action μ) : HasRoom cfg s a := by
  intro i group task p _ _ _ _
  have hle : (rebalanced s task group).verifiedPeers.length ≤ s.peers.length := by
    rw [← rebalanced_peers s task group]
    refine (List.length_filter_le _ _).trans ?_
    rw [registered_eq]
    exact List.length_filterMap_le _ _
  omega

theorem rebalanced_outbound (h : Table cfg s) (task : (Nat × PeerId) × List (Nat × PeerId))
    (group : String) : s.outbound ⊆ (rebalanced s task group).outbound := by
  intro id hi
  have hq := quiet_rebalanced s task group
  obtain ⟨p,hm,rfl⟩ := List.mem_map.mp hi
  obtain ⟨hm,hd⟩ := List.mem_filter.mp hm
  obtain ⟨c,hg,hc⟩ := h.mem_registered.mp hm
  obtain ⟨q,hq',hl⟩ := hq.conns c p hc
  rw [← hl.peerId]
  refine List.mem_map_of_mem (List.mem_filter.mpr ⟨?_,?_⟩)
  · exact (h.quiet hq).mem_registered.mpr ⟨c,by rw [rebalanced_peers,hl.peerId]; exact hg,hq'⟩
  · rw [hl.direction]
    exact hd

theorem keepsOutbound_iff (h : Table cfg s) (hown : cfg.identity.position.InUnit) (a : Action μ) :
    KeepsOutbound cfg s a ↔ HasRoom cfg s a := by
  have hturn (i : Nat) (group : String) (task : (Nat × PeerId) × List (Nat × PeerId))
      (ht : Machine.takeTask s.resolving i = some task) :
      step cfg s (.netGroup i group) =
        some (rebalance cfg (rebalanced s task group) (some task.1.2)) := by
    simp [step,ht,rebalanced]
  have hiff (task : (Nat × PeerId) × List (Nat × PeerId)) (group : String) :
      s.outbound ⊆ (rebalance cfg (rebalanced s task group) (some task.1.2)).outbound ↔
        min ((rebalanced s task group).verifiedPeers.length-maxDegree) (maxDegree*2) ≤
          (evictable cfg (rebalanced s task group).verifiedPeers).length := by
    have hq := quiet_rebalanced s task group
    rw [← rebalanceLoop_keeps_iff (h.quiet hq) hown (some task.1.2) (maxDegree*2)]
    exact ⟨fun hs => List.Subset.trans (h.outbound_quiet hq) hs,
      fun hs => List.Subset.trans (rebalanced_outbound h task group) hs⟩
  constructor
  · intro hk i group task p ha ht hp hd
    exact (hiff task group).mp (hk i group task p _ ha ht hp hd (by rw [ha]; exact hturn i group task ht))
  · intro hr i group task p t ha ht hp hd hs
    rw [ha,hturn i group task ht] at hs
    cases hs
    exact (hiff task group).mpr (hr i group task p ha ht hp hd)

end

/-- A peer connects and proves its identity. -/
def joinRun (c : Nat) (key : UInt8) (direction : Direction) : List (Action Unit) :=
  let id := (sampleIdentity key).peerId
  [match direction with
    | .inbound => .relay id offer
    | .outbound => .connect id true none,
    .described c sampleSdp sampleSdp,.opened c (sampleChallenge 7),
    .data c (sampleJoin key (sampleChallenge 7))]

/-- Four inbound peers, which are the nearest ones, and thirteen that this node chose. -/
def crowdedRun : List (Action Unit) :=
  (List.range 4).flatMap (fun c => joinRun c (UInt8.ofNat (c+2)) .inbound) ++
    (List.range 13).flatMap fun c => joinRun (c+4) (UInt8.ofNat (c+6)) .outbound

/-- The rebalance for the first of them drops a link this node chose. -/
def pushesOut (s : State Unit Unit) : Bool :=
  (Machine.takeTask s.resolving 0).any fun task =>
    (s.conns[task.1.1]?).any (fun p => p.direction = .inbound) &&
      (step (sampleConfig 1) s (.netGroup 0 "lan")).any fun t => !(s.outbound.all t.outbound.contains)

end PeerManager
