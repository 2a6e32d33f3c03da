import AetherLite.Gossip.SeenLifetime
import AetherLite.Hint.HintArrivals
import AetherLite.Hint.SchrodingerMailbox

/-! The hints that the holders of slots flood anew in each period, against the caches of
those who relay them. -/
set_option autoImplicit false

namespace Reflood

open Js Hint HintRouter HintArrivals SchrodingerMailbox
open ZoneGossipRouter (Peer PeerId)

def refloodPeriodMs : Nat := 20*60*1000
def refloodTickMs : Nat := 60*1000

/-- `Number.parseInt(keyHex.substring(0, 8), 16) % REFLOOD_PERIOD_MS`. A key is lower-case
hexadecimal; of any other nothing is stored. -/
def offset? (keyHex : String) : Option Nat :=
  (digitsValue 16 (keyHex.toList.take 8)).map (· % refloodPeriodMs)

/-- The period a time is in. -/
def windowStart (offset now : Nat) : Int := ((now : Int)-offset)/refloodPeriodMs

def isDueNow (keyHex : String) (now : Nat) : Bool :=
  (offset? keyHex).any fun offset =>
    (now : Int)-(windowStart offset now*refloodPeriodMs+offset) < refloodTickMs

/-- What a holder floods at a tick of its timer. -/
def refloodDue (stored : List (String × List Bytes)) (now : Nat) : List HintPacket :=
  (stored.filter fun e => isDueNow e.1 now).flatMap fun e => e.2.filterMap extractHint

/-- A holder of a slot floods its hint at a tick in a period. -/
def Refloods (stored : List (String × List Bytes)) (keyHex : String) (hint : HintPacket) (k : Int)
    (now : Nat) : Prop :=
  (∃ entries, (keyHex,entries) ∈ stored ∧ hint ∈ entries.filterMap extractHint) ∧
    isDueNow keyHex now = true ∧ (offset? keyHex).map (windowStart · now) = some k

theorem Refloods.mem {stored : List (String × List Bytes)} {keyHex : String} {hint : HintPacket}
    {k : Int} {now : Nat} (h : Refloods stored keyHex hint k now) : hint ∈ refloodDue stored now := by
  obtain ⟨⟨entries,hm,hh⟩,hdue,-⟩ := h
  exact List.mem_flatMap.mpr ⟨(keyHex,entries),List.mem_filter.mpr ⟨hm,hdue⟩,hh⟩

/-- Between the ticks of two holders in periods that follow each other lie at least nineteen
minutes, and less than twenty-one. -/
theorem Refloods.gap {stored stored' : List (String × List Bytes)} {keyHex : String}
    {hint hint' : HintPacket} {k : Int} {now now' : Nat} (h : Refloods stored keyHex hint k now)
    (h' : Refloods stored' keyHex hint' (k+1) now') :
    now+(refloodPeriodMs-refloodTickMs) < now' ∧ now' < now+(refloodPeriodMs+refloodTickMs) := by
  obtain ⟨-,hdue,hk⟩ := h
  obtain ⟨-,hdue',hk'⟩ := h'
  obtain ⟨offset,ho,hk⟩ := Option.map_eq_some_iff.mp hk
  unfold isDueNow at hdue hdue'
  rw [ho] at hk' hdue hdue'
  simp only [Option.any_some,decide_eq_true_eq,Option.map_some,Option.some.injEq] at hdue hdue' hk'
  rw [hk] at hdue
  rw [hk'] at hdue'
  unfold windowStart at hk hk'
  unfold refloodPeriodMs refloodTickMs at *
  omega

/-- In each period each holder has exactly one such tick, whatever the phase of its timer. -/
theorem due_tick (offset phase : Nat) (k : Int)
    (hk : (phase : Int) ≤ k*refloodPeriodMs+offset) : ∃! i : Nat,
      windowStart offset (phase+i*refloodTickMs) = k ∧
      ((phase+i*refloodTickMs : Nat) : Int)-(k*refloodPeriodMs+offset) < refloodTickMs := by
  obtain ⟨d,hd⟩ := Int.eq_ofNat_of_zero_le (Int.sub_nonneg.mpr hk)
  unfold windowStart refloodPeriodMs refloodTickMs at *
  refine ⟨(d+59999)/60000,⟨?_,?_⟩,fun j hj => ?_⟩ <;> omega

def seen (s : HintRouter.State) : Cache → SeenCache
  | .flooded => s.flooded
  | .received => s.received
  | .delivered => s.delivered

/-- The hint as it is sent on. -/
def relayed (hint : HintPacket) : HintPacket :=
  { hint with ttl := hintInitialTtl, ttl_le := hintInitialTtl_le }

section
variable (sha256 : Bytes → Bytes) (c : Primitives)

/-- What a step does to one of the caches that relaying depends on. -/
def seenOp (s : HintRouter.State) (a : Action) : Cache → Option SeenCache.Op
  | .received =>
    match a with
    | .network _ _ _ now => (arrival sha256 a).map fun h => .add (hintId sha256 h) now
    | .cleanup .received now => some (.cleanup now)
    | _ => none
  | .flooded =>
    match a with
    | .network _ _ _ now => (arrival sha256 a).bind fun h =>
        if s.received.has (hintId sha256 h) then none else some (.add (hintId sha256 h) now)
    | .exit _ _ _ now => (arrival sha256 a).map fun h => .add (hintId sha256 h) now
    | .reflood hint _ _ now => some (.add (hintId sha256 hint) now)
    | .cleanup .flooded now => some (.cleanup now)
    | _ => none
  | .delivered => none

def next (s : HintRouter.State) (a : Action) : HintRouter.State := (transition sha256 c s a).1

def after (s : HintRouter.State) (as : List Action) : HintRouter.State := as.foldl (next sha256 c) s

def seenOps (cache : Cache) : HintRouter.State → List Action → List SeenCache.Op
  | _, [] => []
  | s, a :: as => (seenOp sha256 s a cache).toList ++ seenOps cache (next sha256 c s a) as

/-- A hint that comes from a neighbour is sent to all other neighbours. -/
def Relays (s : HintRouter.State) (sender : PeerId) (hint : HintPacket) (now : Nat) : Prop :=
  ∀ peers, (handleHint sha256 c s sender hint peers now).1.relays =
    ((peers.filter fun p => p.peerId ≠ sender && p.isConnected && p.isVerified).map
      fun p => (p.peerId,relayed hint)) ++ s.relays

end

section
variable {sha256 : Bytes → Bytes} {c : Primitives} {s : HintRouter.State}

theorem flood_flooded (hint : HintPacket) (excluded : PeerId) (peers : List Peer) (now : Nat) :
    (HintRouter.flood sha256 s hint excluded peers now).flooded =
      s.flooded.add (hintId sha256 hint) now := by
  unfold HintRouter.flood
  dsimp only
  split
  · next h => rw [SeenCache.add_old now h]
  · rfl

theorem take_frame (hint : HintPacket) (now : Nat) :
    (take sha256 c s hint now).1.flooded = s.flooded ∧
      (take sha256 c s hint now).1.relays = s.relays := by
  have hr : (remember sha256 s hint).flooded = s.flooded ∧
      (remember sha256 s hint).relays = s.relays := by
    unfold remember
    dsimp only
    split
    · exact ⟨rfl,rfl⟩
    · exact ⟨rfl,rfl⟩
  unfold take tryOpen
  split
  · exact hr
  split
  · exact hr
  · exact hr

/-- A hint is sent on if it has its proof of work and neither cache has it. -/
theorem relays_iff {sender : PeerId} {hint : HintPacket} {now : Nat} :
    Relays sha256 c s sender hint now ↔ verifyHintPow sha256 hint = true ∧
      s.received.has (hintId sha256 hint) = false ∧ s.flooded.has (hintId sha256 hint) = false := by
  -- a neighbour that is not the sender
  have hother : sender ++ "x" ≠ sender := by
    intro he
    have hlen := congrArg String.length he
    simp at hlen
  have hsent : ∀ r : HintRouter.State, r.relays = s.relays → r.relays ≠
      (([⟨sender ++ "x",true,true⟩] : List Peer).filter fun p =>
        p.peerId ≠ sender && p.isConnected && p.isVerified).map (fun p => (p.peerId,relayed hint)) ++
          s.relays := by
    intro r hr he
    rw [hr] at he
    simp [hother] at he
  obtain ⟨hflooded,hrelays⟩ : (take sha256 c { s with
      received := s.received.add (hintId sha256 hint) now, anyHints := s.anyHints+1 } hint now).1.flooded =
      s.flooded ∧ _ = s.relays := take_frame hint now
  constructor
  · intro h
    have h := h [⟨sender ++ "x",true,true⟩]
    unfold handleHint at h
    dsimp only at h
    split at h
    · exact absurd h (hsent s rfl)
    · next hpow =>
      split at h
      · exact absurd h (hsent s rfl)
      · next hrec =>
        refine ⟨by simpa using hpow,by simpa using hrec,?_⟩
        rw [← Bool.not_eq_true]
        intro hf
        unfold HintRouter.flood at h
        dsimp only at h
        rw [hflooded,if_pos hf] at h
        exact hsent _ hrelays h
  · rintro ⟨hpow,hrec,hf⟩ peers
    unfold handleHint
    dsimp only
    rw [hpow,hrec]
    simp only [Bool.not_true,Bool.false_eq_true,if_false]
    unfold HintRouter.flood
    dsimp only
    rw [hflooded,hf,if_neg (by simp),hrelays]
    rfl

theorem tryOpen_flooded (hint : HintPacket) (now : Nat) :
    (tryOpen sha256 c s hint now).1.flooded = s.flooded := by
  unfold tryOpen
  split
  · rfl
  split
  · rfl
  · rfl

theorem reopen_seen (now : Nat) (hints : List HintPacket) :
    (reopen sha256 c now s hints).1.flooded = s.flooded ∧
      (reopen sha256 c now s hints).1.received = s.received := by
  induction hints generalizing s with
  | nil => exact ⟨rfl,rfl⟩
  | cons hint hints ih =>
    obtain ⟨hf,hr⟩ := ih (s := (tryOpen sha256 c s hint now).1)
    exact ⟨hf.trans (tryOpen_flooded hint now),hr.trans (tryOpen_received hint now)⟩

theorem handleHint_seen (sender : PeerId) (hint : HintPacket) (peers : List Peer) (now : Nat) :
    (handleHint sha256 c s sender hint peers now).1.received =
        (if verifyHintPow sha256 hint then s.received.add (hintId sha256 hint) now else s.received) ∧
      (handleHint sha256 c s sender hint peers now).1.flooded =
        if verifyHintPow sha256 hint && !s.received.has (hintId sha256 hint) then
          s.flooded.add (hintId sha256 hint) now
        else s.flooded := by
  unfold handleHint
  dsimp only
  cases hpow : verifyHintPow sha256 hint with
  | false => exact ⟨rfl,rfl⟩
  | true =>
    cases hrec : s.received.has (hintId sha256 hint) with
    | true => exact ⟨(SeenCache.add_old now hrec).symm,rfl⟩
    | false =>
      refine ⟨?_,?_⟩
      · exact (flood_same hint sender peers now).2.2.trans (take_received hint now)
      · exact (flood_flooded hint sender peers now).trans
          (congrArg (SeenCache.add · (hintId sha256 hint) now) (take_frame hint now).1)

theorem handleExitHint_seen (myPeerId : PeerId) (bytes : Bytes) (peers : List Peer) (now : Nat) :
    (handleExitHint sha256 c s myPeerId bytes peers now).1.received = s.received ∧
      (handleExitHint sha256 c s myPeerId bytes peers now).1.flooded =
        match (decodeHint bytes).filter (verifyHintPow sha256) with
        | some hint => s.flooded.add (hintId sha256 hint) now
        | none => s.flooded := by
  unfold handleExitHint
  cases decodeHint bytes with
  | none => exact ⟨rfl,rfl⟩
  | some hint =>
    dsimp only
    cases hpow : verifyHintPow sha256 hint with
    | false => simp [Option.filter,hpow]
    | true =>
      rw [Option.filter_some,if_pos hpow]
      refine ⟨?_,?_⟩
      · exact (flood_same hint myPeerId peers now).2.2.trans (take_received hint now)
      · exact (flood_flooded hint myPeerId peers now).trans
          (congrArg (SeenCache.add · (hintId sha256 hint) now) (take_frame hint now).1)

theorem ingestLocal_seen (hint : HintPacket) (now : Nat) :
    (ingestLocal sha256 c s hint now).1.received = s.received ∧
      (ingestLocal sha256 c s hint now).1.flooded = s.flooded := by
  unfold ingestLocal
  split
  · exact ⟨rfl,rfl⟩
  · exact ⟨take_received hint now,(take_frame hint now).1⟩

/-- What a step does to a cache is what it asks of it. -/
theorem seen_next {a : Action} (ha : a ≠ .destroy) {cache : Cache} (hc : cache ≠ .delivered) :
    seen (next sha256 c s a) cache =
      (seen s cache).run (seenOp sha256 s a cache).toList := by
  cases a with
  | network sender msg peers now =>
    cases hp : parseHintPacket msg with
    | none =>
      have hsame : next sha256 c s (.network sender msg peers now) = s := by
        simp [next,transition,hp]
      rw [hsame]
      cases cache with
      | delivered => exact absurd rfl hc
      | _ => simp [seenOp,arrival,hp,SeenCache.run]
    | some hint =>
      have hnext : next sha256 c s (.network sender msg peers now) =
          (handleHint sha256 c s sender hint peers now).1 := by simp [next,transition,hp]
      obtain ⟨hr,hf⟩ : (handleHint sha256 c s sender hint peers now).1.received = _ ∧
        (handleHint sha256 c s sender hint peers now).1.flooded = _ := handleHint_seen sender hint peers now
      cases cache with
      | received =>
        simp only [seen,hnext,hr,seenOp,arrival,hp,Option.filter_some]
        split
        · rfl
        · rfl
      | flooded =>
        simp only [seen,hnext,hf,seenOp,arrival,hp,Option.filter_some]
        cases verifyHintPow sha256 hint with
        | false => rfl
        | true => cases hrec : s.received.has (hintId sha256 hint) <;> simp [hrec,SeenCache.run,SeenCache.apply]
      | delivered => exact absurd rfl hc
  | exit myPeerId bytes peers now =>
    cases cache with
    | received => exact (handleExitHint_seen myPeerId bytes peers now).1
    | flooded =>
      refine (handleExitHint_seen myPeerId bytes peers now).2.trans ?_
      simp only [seen,seenOp,arrival]
      cases (decodeHint bytes).filter (verifyHintPow sha256) with
      | none => rfl
      | some hint => rfl
    | delivered => exact absurd rfl hc
  | slot hint now =>
    cases cache with
    | received => exact (ingestLocal_seen hint now).1
    | flooded => exact (ingestLocal_seen hint now).2
    | delivered => exact absurd rfl hc
  | addKey keyId k now =>
    cases cache with
    | received => exact (reopen_seen now s.recentHints).2
    | flooded => exact (reopen_seen now s.recentHints).1
    | delivered => exact absurd rfl hc
  | removeKey keyId =>
    cases cache with
    | delivered => exact absurd rfl hc
    | _ => rfl
  | originate id now =>
    cases cache with
    | delivered => exact absurd rfl hc
    | _ => rfl
  | reflood hint myPeerId peers now =>
    cases cache with
    | received => exact (flood_same hint myPeerId peers now).2.2
    | flooded => exact flood_flooded hint myPeerId peers now
    | delivered => exact absurd rfl hc
  | cleanup cache' now =>
    cases cache with
    | delivered => exact absurd rfl hc
    | _ => cases cache' <;> rfl
  | destroy => exact absurd rfl ha

theorem seen_after {as : List Action} (ha : .destroy ∉ as) {cache : Cache} (hc : cache ≠ .delivered) :
    seen (after sha256 c s as) cache = (seen s cache).run (seenOps sha256 c cache s as) := by
  induction as generalizing s with
  | nil => rfl
  | cons a as ih =>
    rw [List.mem_cons,not_or] at ha
    have hstep : seen (next sha256 c s a) cache = _ := seen_next (Ne.symm ha.1) hc
    show seen (after sha256 c (next sha256 c s a) as) cache = _
    rw [ih ha.2,hstep,seenOps,SeenCache.run,SeenCache.run,SeenCache.run,List.foldl_append]

theorem seenOp_time {a : Action} {cache : Cache} {op : SeenCache.Op}
    (h : seenOp sha256 s a cache = some op) : time a = some op.time := by
  cases cache with
  | received =>
    cases a with
    | network sender msg peers now =>
      obtain ⟨hint,-,rfl⟩ := Option.map_eq_some_iff.mp h
      rfl
    | cleanup cache now =>
      cases cache with
      | received =>
        cases h
        rfl
      | _ => cases h
    | _ => cases h
  | flooded =>
    cases a with
    | network sender msg peers now =>
      obtain ⟨hint,-,h⟩ := Option.bind_eq_some_iff.mp h
      rw [Option.ite_none_left_eq_some] at h
      cases h.2
      rfl
    | exit myPeerId bytes peers now =>
      obtain ⟨hint,-,rfl⟩ := Option.map_eq_some_iff.mp h
      rfl
    | reflood hint myPeerId peers now =>
      cases h
      rfl
    | cleanup cache now =>
      cases cache with
      | flooded =>
        cases h
        rfl
      | _ => cases h
    | _ => cases h
  | delivered => cases h

theorem seenOp_add {a : Action} {cache : Cache} {id : String} {now : Nat}
    (h : seenOp sha256 s a cache = some (.add id now)) : ∃ hint, id = hintId sha256 hint := by
  cases cache with
  | received =>
    cases a with
    | network sender msg peers now =>
      obtain ⟨hint,-,he⟩ := Option.map_eq_some_iff.mp h
      cases he
      exact ⟨hint,rfl⟩
    | cleanup cache now => cases cache <;> cases h
    | _ => cases h
  | flooded =>
    cases a with
    | network sender msg peers now =>
      obtain ⟨hint,-,h⟩ := Option.bind_eq_some_iff.mp h
      rw [Option.ite_none_left_eq_some] at h
      cases h.2
      exact ⟨hint,rfl⟩
    | exit myPeerId bytes peers now =>
      obtain ⟨hint,-,he⟩ := Option.map_eq_some_iff.mp h
      cases he
      exact ⟨hint,rfl⟩
    | reflood hint myPeerId peers now =>
      cases h
      exact ⟨hint,rfl⟩
    | cleanup cache now => cases cache <;> cases h
    | _ => cases h
  | delivered => cases h

theorem seenOps_times (as : List Action) (cache : Cache) :
    ((seenOps sha256 c cache s as).map SeenCache.Op.time).Sublist (as.filterMap time) := by
  induction as generalizing s with
  | nil => exact .slnil
  | cons a as ih =>
    rw [seenOps,List.map_append]
    cases h : seenOp sha256 s a cache with
    | none =>
      refine ih.trans ?_
      cases ht : time a with
      | none => simp [ht]
      | some now => simp [ht]
    | some op =>
      rw [List.filterMap_cons_some (seenOp_time h)]
      exact ih.cons_cons _

theorem hintId_ne (hsha : ∀ bs, sha256 bs ≠ []) (hint : HintPacket) : hintId sha256 hint ≠ "" := by
  intro he
  have hlen := Bytes.toHex_length (sha256 (hintPreimage hint))
  rw [show Bytes.toHex (sha256 (hintPreimage hint)) = "" from he] at hlen
  exact hsha _ (List.length_eq_zero_iff.mp (by simpa using hlen.symm))

theorem seenOps_named (hsha : ∀ bs, sha256 bs ≠ []) (as : List Action) (cache : Cache) :
    ∀ id now, .add id now ∈ seenOps sha256 c cache s as → id ≠ "" := by
  induction as generalizing s with
  | nil => simp [seenOps]
  | cons a as ih =>
    intro id now hm
    rw [seenOps,List.mem_append,Option.mem_toList] at hm
    rcases hm with hm | hm
    · obtain ⟨hint,rfl⟩ := seenOp_add hm
      exact hintId_ne hsha hint
    · exact ih id now hm

/-- The times of a run do not go back, and the router is not destroyed in it. -/
structure Alive (as : List Action) : Prop where
  clock : (as.filterMap time).Pairwise (· ≤ ·)
  kept : .destroy ∉ as

/-- A cache of a router that has run from its start has forgotten a hint exactly if the
hint has outlived its time there. -/
theorem forgotten_iff (hsha : ∀ bs, sha256 bs ≠ []) {as : List Action} (ha : Alive as) (cache : Cache)
    (hc : cache ≠ .delivered) (id : String) :
    (seen (after sha256 c {} as) cache).has id = false ↔
      SeenCache.Outlived id {} (seenOps sha256 c cache {} as) := by
  have hempty : seen ({} : HintRouter.State) cache = {} := by cases cache <;> rfl
  have hclock : (0 :: (seenOps sha256 c cache {} as).map SeenCache.Op.time).Pairwise (· ≤ ·) :=
    List.pairwise_cons.mpr ⟨fun _ _ => Nat.zero_le _,ha.clock.sublist (seenOps_times as cache)⟩
  rw [seen_after ha.kept hc,hempty]
  exact SeenCache.has_run_iff (SeenCache.timed_empty 0) rfl hclock (seenOps_named hsha as cache)

/-- A hint that is flooded anew a period later, nineteen to twenty-one minutes after it came
last, is relayed again if it has outlived its time in the cache of what was received and in
that of what was flooded, and only then: it was found too old there by a timer, or was pushed
out, since the cache last took it up. -/
theorem relays_again (hsha : ∀ bs, sha256 bs ≠ []) {stored stored' : List (String × List Bytes)}
    {keyHex : String} {hint : HintPacket} {k : Int} {now now' : Nat} {sender sender' : PeerId}
    {peers : List Peer} {as bs : List Action} (h : Refloods stored keyHex hint k now)
    (h' : Refloods stored' keyHex hint (k+1) now')
    (ha : Alive (as ++ .network sender (relayed hint).toVal peers now :: bs))
    (hr : Relays sha256 c (after sha256 c {} as) sender (relayed hint) now) :
    now+(refloodPeriodMs-refloodTickMs) < now' ∧ now' < now+(refloodPeriodMs+refloodTickMs) ∧
      (Relays sha256 c
          (after sha256 c {} (as ++ .network sender (relayed hint).toVal peers now :: bs))
          sender' (relayed hint) now' ↔
        ∀ cache ∈ [Cache.received,.flooded], SeenCache.Outlived (hintId sha256 hint) {}
          (seenOps sha256 c cache {} (as ++ .network sender (relayed hint).toVal peers now :: bs))) := by
  obtain ⟨hlate,hearly⟩ := h.gap h'
  refine ⟨hlate,hearly,?_⟩
  have hpow := (relays_iff.mp hr).1
  have hid : hintId sha256 (relayed hint) = hintId sha256 hint := rfl
  have hreceived := forgotten_iff (c := c) hsha ha .received (by decide) (hintId sha256 hint)
  have hflooded := forgotten_iff (c := c) hsha ha .flooded (by decide) (hintId sha256 hint)
  rw [relays_iff,hid]
  simp only [hpow,true_and,List.forall_mem_cons,List.not_mem_nil,false_imp_iff,implies_true,and_true,
    ← hreceived,← hflooded,seen]

end

def zeroKey : String := "0000000000000000000000000000000000000000000000000000000000000000"

def holder : List (String × List Bytes) := [(zeroKey,[encodeSlotBlob sampleHint []])]

theorem refloods_holder {k : Int} {now : Nat} (hdue : isDueNow zeroKey now = true)
    (hk : (offset? zeroKey).map (windowStart · now) = some k) :
    Refloods holder zeroKey sampleHint k now :=
  ⟨⟨_,List.mem_singleton.mpr rfl,by decide +kernel⟩,hdue,hk⟩

/-- The ticks of the two timers of a router, every five minutes since it was made. -/
def timers (made ticks : Nat) : List Action :=
  (List.range ticks).flatMap fun i =>
    [.cleanup .flooded (made+(i+1)*(5*60*1000)),.cleanup .received (made+(i+1)*(5*60*1000))]

def arrives (now : Nat) : Action := .network "a" (relayed sampleHint).toVal [] now

theorem relays_sample {s : HintRouter.State} {sender : PeerId} {now : Nat}
    (hr : s.received.has (hintId Sha256.sha256 sampleHint) = false)
    (hf : s.flooded.has (hintId Sha256.sha256 sampleHint) = false) :
    Relays Sha256.sha256 sample s sender (relayed sampleHint) now :=
  relays_iff.mpr ⟨by decide +kernel,hr,hf⟩

theorem relays_again_sample :
    Relays Sha256.sha256 sample
        (after Sha256.sha256 sample {} ([] ++ arrives 1259999 :: timers 1000000 4)) "b"
        (relayed sampleHint) 2400000 ↔
      ∀ cache ∈ [Cache.received,.flooded], SeenCache.Outlived (hintId Sha256.sha256 sampleHint) {}
        (seenOps Sha256.sha256 sample cache {} ([] ++ arrives 1259999 :: timers 1000000 4)) := by
  have hsha : ∀ bs, Sha256.sha256 bs ≠ [] := by
    intro bs he
    have hlen := Sha256.sha256_length bs
    rw [he] at hlen
    cases hlen
  have ha : Alive ([] ++ arrives 1259999 :: timers 1000000 4) := by
    refine ⟨by decide,?_⟩
    simp [arrives,timers]
  exact (relays_again hsha (refloods_holder (k := 1) (by decide) (by decide))
    (refloods_holder (by decide) (by decide)) ha (relays_sample rfl rfl)).2.2

/-- The receiver is made and takes the hint up at the end of the minute in which the first
period begins for its holders. The tick fifteen minutes later finds it not too old yet, the
next one would come after the second period has begun. -/
theorem reflood_suppressed :
    Refloods holder zeroKey sampleHint 0 59999 ∧ Refloods holder zeroKey sampleHint 1 1200000 ∧
      Relays Sha256.sha256 sample {} "a" (relayed sampleHint) 59999 ∧
      1200000 < 59999+(3+1)*(5*60*1000) ∧
      ¬Relays Sha256.sha256 sample
        (after Sha256.sha256 sample {} (arrives 59999 :: timers 59999 3)) "b" (relayed sampleHint)
        1200000 := by
  refine ⟨refloods_holder (by decide) (by decide),refloods_holder (by decide) (by decide),
    relays_sample rfl rfl,by decide,fun h => ?_⟩
  have hgone := (relays_iff.mp h).2.1
  have hthere : (after Sha256.sha256 sample {} (arrives 59999 :: timers 59999 3)).received.has
      (hintId Sha256.sha256 (relayed sampleHint)) = true := by decide +kernel
  rw [hthere] at hgone
  cases hgone

end Reflood
