import AetherLite.Onion.GuardPex
import AetherLite.Onion.QueuedCells

/-! Two nodes that have different entries to send, and what their guards see of it. -/
set_option autoImplicit false

namespace OnionCircuit

open Js OnionRouter DandelionRouter

/-- Two tables of neighbours that differ in old neighbours, their order and how long they have
been known. -/
structure TablesAlike (now : Nat) (T U : Table) : Prop where
  common : ∀ id i j, JsMap.get T id = some i → JsMap.get U id = some j →
    i.pubkey = j.pubkey ∧ i.seenAt = j.seenAt
  left : ∀ id i, JsMap.get T id = some i → JsMap.get U id = none → isFresh now i = false
  right : ∀ id j, JsMap.get T id = none → JsMap.get U id = some j → isFresh now j = false

namespace TablesAlike

variable {now t : Nat} {T U : Table}

theorem refl (now : Nat) (T : Table) : TablesAlike now T T where
  common id i j hi hj := by
    rw [hi] at hj
    cases hj
    exact ⟨rfl,rfl⟩
  left id i hi hn := by
    rw [hi] at hn
    cases hn
  right id j hn hj := by
    rw [hj] at hn
    cases hn

theorem symm (h : TablesAlike now T U) : TablesAlike now U T where
  common id i j hi hj := ⟨(h.common id j i hj hi).1.symm,(h.common id j i hj hi).2.symm⟩
  left id i hi hn := h.right id i hn hi
  right id j hn hj := h.left id j hj hn

theorem isFresh_of_later {info : GuardNeighbor} (hle : now ≤ t)
    (h : isFresh now info = false) : isFresh t info = false := by
  simp [isFresh] at h ⊢
  omega

theorem later (h : TablesAlike now T U) (hle : now ≤ t) : TablesAlike t T U where
  common := h.common
  left id i hi hn := isFresh_of_later hle (h.left id i hi hn)
  right id j hn hj := isFresh_of_later hle (h.right id j hn hj)

theorem get_filter {T : Table} (hn : (JsMap.keys T).Nodup) (now : Nat) (id : String) :
    JsMap.get (T.filter fun e => isFresh now e.2) id =
      (JsMap.get T id).filter (isFresh now) := by
  have hnf : (JsMap.keys (T.filter fun e => isFresh now e.2)).Nodup :=
    hn.sublist (List.Sublist.map _ List.filter_sublist)
  cases h : JsMap.get T id with
  | none =>
    rw [Option.filter_none,JsMap.get_eq_none_iff]
    rw [JsMap.get_eq_none_iff] at h
    exact fun hmem => h (List.Sublist.subset (List.Sublist.map _ List.filter_sublist) hmem)
  | some info =>
    have hmem := JsMap.mem_of_get h
    cases hf : isFresh now info with
    | true =>
      rw [Option.filter_some,if_pos hf]
      exact JsMap.get_of_mem hnf (List.mem_filter.mpr ⟨hmem,hf⟩)
    | false =>
      rw [Option.filter_some,if_neg (by simp [hf]),JsMap.get_eq_none_iff]
      intro hk
      obtain ⟨e,he,rfl⟩ := List.mem_map.mp hk
      obtain ⟨he,hfresh⟩ := List.mem_filter.mp he
      rw [JsMap.get_of_mem hn he] at h
      cases h
      rw [hf] at hfresh
      cases hfresh

/-- Old neighbours may be dropped from one of the tables. -/
theorem filter_left (h : TablesAlike now T U) (hn : (JsMap.keys T).Nodup) :
    TablesAlike now (T.filter fun e => isFresh now e.2) U where
  common id i j hi hj := by
    rw [get_filter hn,Option.filter_eq_some_iff] at hi
    exact h.common id i j hi.1 hj
  left id i hi hnone := by
    rw [get_filter hn,Option.filter_eq_some_iff] at hi
    exact h.left id i hi.1 hnone
  right id j hnone hj := by
    rw [get_filter hn] at hnone
    cases hi : JsMap.get T id with
    | none => exact h.right id j hi hj
    | some i =>
      have hsame := (h.common id i j hi hj).2
      rw [hi,Option.filter_eq_none_iff] at hnone
      have hold := hnone i rfl
      simp [isFresh,hsame] at hold ⊢
      omega

theorem set (h : TablesAlike now T U) (id : String) {i j : GuardNeighbor}
    (hk : i.pubkey = j.pubkey) (hs : i.seenAt = j.seenAt) :
    TablesAlike now (JsMap.set T id i) (JsMap.set U id j) where
  common id' i' j' hi hj := by
    rw [JsMap.get_set] at hi hj
    split at hi
    · next heq =>
      rw [if_pos heq] at hj
      cases hi
      cases hj
      exact ⟨hk,hs⟩
    · next hne =>
      rw [if_neg hne] at hj
      exact h.common id' i' j' hi hj
  left id' i' hi hj := by
    rw [JsMap.get_set] at hi hj
    split at hi
    · next heq =>
      rw [if_pos heq] at hj
      cases hj
    · next hne =>
      rw [if_neg hne] at hj
      exact h.left id' i' hi hj
  right id' j' hi hj := by
    rw [JsMap.get_set] at hi hj
    split at hi
    · cases hi
    · next hne =>
      rw [if_neg hne] at hj
      exact h.right id' j' hi hj

theorem mem_eligible {cfg : Config} {s : State} {guardId : String} {exclude : List String}
    {hop : OnionHop} : hop ∈ eligible cfg s guardId exclude ↔
      ∃ e ∈ s.guardNeighbors, isFresh s.now e.2 = true ∧ hop = ⟨e.1,e.2.pubkey⟩ ∧
        e.1 ≠ cfg.myPeerId ∧ e.1 ≠ guardId ∧ e.1 ∉ exclude := by
  simp only [eligible,List.mem_filterMap,List.mem_filter,Option.ite_none_left_eq_some,
    Option.some.injEq,Bool.or_eq_true,decide_eq_true_eq,not_or,List.contains_iff_mem]
  constructor
  · rintro ⟨e,⟨he,hf⟩,⟨⟨hme,hg⟩,hx⟩,rfl⟩
    exact ⟨e,he,hf,rfl,hme,hg,hx⟩
  · rintro ⟨e,he,hf,rfl,hme,hg,hx⟩
    exact ⟨e,⟨he,hf⟩,⟨⟨hme,hg⟩,hx⟩,rfl⟩

/-- The same neighbours may be an exit. -/
theorem eligible_nil {cfg : Config} {s t : State} {guardId : String} {exclude : List String}
    (h : TablesAlike s.now s.guardNeighbors t.guardNeighbors) (hnow : t.now = s.now)
    (hs : (JsMap.keys s.guardNeighbors).Nodup)
    (he : eligible cfg t guardId exclude = []) : eligible cfg s guardId exclude = [] := by
  rw [List.eq_nil_iff_forall_not_mem]
  intro hop hmem
  obtain ⟨e,hin,hf,-,hx⟩ := mem_eligible.mp hmem
  have hget := JsMap.get_of_mem hs hin
  cases hj : JsMap.get t.guardNeighbors e.1 with
  | none =>
    rw [h.left _ _ hget hj] at hf
    cases hf
  | some j =>
    have hsame := (h.common _ _ _ hget hj).2
    have hfresh : isFresh t.now j = true := by
      simpa [isFresh,hnow,← hsame] using hf
    have hmem' : (⟨e.1,j.pubkey⟩ : OnionHop) ∈ eligible cfg t guardId exclude :=
      mem_eligible.mpr ⟨(e.1,j),JsMap.mem_of_get hj,hfresh,rfl,hx⟩
    rw [he] at hmem'
    cases hmem'

end TablesAlike

/-- Where only one of the tables holds the peer that the entry names, the entry is one that both
nodes take, or none of them. -/
def SameClaim (cfg : Config) (T U : Table) (entry : Val) : Prop :=
  ∀ id pubkey info, entry.field "id" = .str id →
    PowPolicy.toBytes (entry.field "pubkey") = .ok pubkey →
      (JsMap.get T id = some info ∧ JsMap.get U id = none ∨
        JsMap.get T id = none ∧ JsMap.get U id = some info) →
      info.pubkey.length = pubkey.length ∧ (info.pubkey = pubkey →
        NodeIdentity.verifyClaim cfg.sodium ⟨id,pubkey,powCounterOf entry⟩ cfg.powParams = true)

section
variable {cfg : Config} {now : Nat} {T U : Table}

theorem SameClaim.symm {entry : Val} (h : SameClaim cfg T U entry) : SameClaim cfg U T entry :=
  fun id pubkey info hid hpk hone => h id pubkey info hid hpk (hone.symm.imp And.symm And.symm)

/-- After an entry the tables hold more peers together, or are as before. -/
def Joined (T U T' U' : Table) : Prop :=
  ∀ id, JsMap.get T' id = JsMap.get T id ∧ JsMap.get U' id = JsMap.get U id ∨
    (JsMap.get T' id).isSome ∧ (JsMap.get U' id).isSome

theorem SameClaim.joined {T' U' : Table} {entry : Val} (h : SameClaim cfg T U entry)
    (hj : Joined T U T' U') : SameClaim cfg T' U' entry := by
  intro id pubkey info hid hpk hone
  rcases hj id with ⟨hT,hU⟩ | ⟨hT,hU⟩
  · rw [hT,hU] at hone
    exact h id pubkey info hid hpk hone
  · rcases hone with ⟨-,hn⟩ | ⟨hn,-⟩
    · simp [hn] at hU
    · simp [hn] at hT

theorem joined_set (T U : Table) (id : String) (i j : GuardNeighbor) :
    Joined T U (JsMap.set T id i) (JsMap.set U id j) := by
  intro id'
  simp only [JsMap.get_set]
  split
  · exact .inr ⟨rfl,rfl⟩
  · exact .inl ⟨rfl,rfl⟩

theorem sameKey_of_length {info : GuardNeighbor} {pubkey : Bytes}
    (h : info.pubkey.length = pubkey.length) :
    sameKey (some info) pubkey = .ok (info.pubkey == pubkey) := by
  simp [sameKey,memcmp,h]

theorem mergedWith_alike (h : TablesAlike now T U) (id : String) (entry : Val) (pubkey : Bytes)
    {b c : Bool} (hbc : b = c ∨
      NodeIdentity.verifyClaim cfg.sodium ⟨id,pubkey,powCounterOf entry⟩ cfg.powParams = true) :
    TablesAlike now (mergedWith cfg now T id entry pubkey b)
        (mergedWith cfg now U id entry pubkey c) ∧
      Joined T U (mergedWith cfg now T id entry pubkey b)
        (mergedWith cfg now U id entry pubkey c) := by
  have hset : ∀ i j : GuardNeighbor, i.pubkey = j.pubkey → i.seenAt = j.seenAt →
      TablesAlike now (JsMap.set T id i) (JsMap.set U id j) ∧
        Joined T U (JsMap.set T id i) (JsMap.set U id j) := fun i j hk hs =>
    ⟨h.set id hk hs,joined_set T U id i j⟩
  cases hv : NodeIdentity.verifyClaim cfg.sodium ⟨id,pubkey,powCounterOf entry⟩ cfg.powParams with
  | true => cases b <;> cases c <;> simp [mergedWith,hv,hset]
  | false =>
    obtain rfl : b = c := by simpa [hv] using hbc
    cases b with
    | true => simp [mergedWith,hset]
    | false =>
      simp only [mergedWith,hv]
      exact ⟨h,fun _ => .inl ⟨rfl,rfl⟩⟩

/-- Both lookups fail, or say the same of the key, or the claim settles it. -/
theorem sameKey_alike {entry : Val} {id : String} {pubkey : Bytes} (h : TablesAlike now T U)
    (hc : SameClaim cfg T U entry) (hid : entry.field "id" = .str id)
    (hpk : PowPolicy.toBytes (entry.field "pubkey") = .ok pubkey) :
    (∃ e e', sameKey (JsMap.get T id) pubkey = .error e ∧
      sameKey (JsMap.get U id) pubkey = .error e') ∨
    ∃ b c, sameKey (JsMap.get T id) pubkey = .ok b ∧ sameKey (JsMap.get U id) pubkey = .ok c ∧
      (b = c ∨
        NodeIdentity.verifyClaim cfg.sodium ⟨id,pubkey,powCounterOf entry⟩ cfg.powParams = true) := by
  cases hT : JsMap.get T id with
  | none =>
    cases hU : JsMap.get U id with
    | none => exact .inr ⟨false,false,rfl,rfl,.inl rfl⟩
    | some j =>
      obtain ⟨hlen,hverify⟩ := hc id pubkey j hid hpk (.inr ⟨hT,hU⟩)
      refine .inr ⟨false,j.pubkey == pubkey,rfl,sameKey_of_length hlen,?_⟩
      cases hkey : j.pubkey == pubkey with
      | false => exact .inl rfl
      | true => exact .inr (hverify (by simpa using hkey))
  | some i =>
    cases hU : JsMap.get U id with
    | none =>
      obtain ⟨hlen,hverify⟩ := hc id pubkey i hid hpk (.inl ⟨hT,hU⟩)
      refine .inr ⟨i.pubkey == pubkey,false,sameKey_of_length hlen,rfl,?_⟩
      cases hkey : i.pubkey == pubkey with
      | false => exact .inl rfl
      | true => exact .inr (hverify (by simpa using hkey))
    | some j =>
      have hsame : sameKey (some i) pubkey = sameKey (some j) pubkey := by
        simp [sameKey,(h.common id i j hT hU).1]
      rw [hsame]
      cases hs : sameKey (some j) pubkey with
      | error e => exact .inl ⟨e,e,rfl,rfl⟩
      | ok b => exact .inr ⟨b,b,rfl,rfl,.inl rfl⟩

/-- Both nodes take an entry, or both leave it, or both give up. -/
theorem mergeEntry_alike {entry : Val} (h : TablesAlike now T U) (hc : SameClaim cfg T U entry) :
    (∃ e e', mergeEntry cfg now T entry = .error e ∧ mergeEntry cfg now U entry = .error e') ∨
      ∃ T' U', mergeEntry cfg now T entry = .ok T' ∧ mergeEntry cfg now U entry = .ok U' ∧
        TablesAlike now T' U' ∧ Joined T U T' U' := by
  have hleave : mergeEntry cfg now T entry = .ok T → mergeEntry cfg now U entry = .ok U →
      ∃ T' U', mergeEntry cfg now T entry = .ok T' ∧ mergeEntry cfg now U entry = .ok U' ∧
        TablesAlike now T' U' ∧ Joined T U T' U' := fun hT hU =>
    ⟨T,U,hT,hU,h,fun _ => .inl ⟨rfl,rfl⟩⟩
  cases hnamed : named? cfg entry with
  | none => exact .inr (hleave (mergeEntry_unnamed hnamed) (mergeEntry_unnamed hnamed))
  | some id =>
    obtain ⟨hid,hpeer,hme⟩ := named?_some hnamed
    rw [mergeEntry_eq hid hpeer hme,mergeEntry_eq hid hpeer hme]
    cases hpk : PowPolicy.toBytes (entry.field "pubkey") with
    | error e => exact .inl ⟨e,e,rfl,rfl⟩
    | ok pubkey =>
      obtain ⟨e,e',hT,hU⟩ | ⟨b,c,hT,hU,hbc⟩ := sameKey_alike h hc hid hpk
      · refine .inl ⟨e,e',?_,?_⟩
        · simp [Except.bind,Except.map,hT]
        · simp [Except.bind,Except.map,hU]
      · refine .inr ⟨_,_,?_,?_,mergedWith_alike h id entry pubkey hbc⟩
        · simp [Except.bind,Except.map,hT]
        · simp [Except.bind,Except.map,hU]

theorem mergeEntries_alike {entries : List Val} (h : TablesAlike now T U)
    (hc : ∀ entry ∈ entries, SameClaim cfg T U entry) :
    TablesAlike now (mergeEntries cfg now T entries) (mergeEntries cfg now U entries) := by
  induction entries generalizing T U with
  | nil => exact h
  | cons entry entries ih =>
    rcases mergeEntry_alike h (hc entry List.mem_cons_self) with
      ⟨e,e',hT,hU⟩ | ⟨T',U',hT,hU,halike,hjoined⟩
    · simp only [mergeEntries,hT,hU]
      exact h
    · simp only [mergeEntries,hT,hU]
      exact ih halike fun x hx => (hc x (List.mem_cons_of_mem entry hx)).joined hjoined

theorem mergeEntry_cases {entry : Val} {T' : Table} (h : mergeEntry cfg now T entry = .ok T') :
    T' = T ∨ ∃ id info, T' = JsMap.set T id info := by
  unfold mergeEntry at h
  split at h
  · split at h
    · exact .inl (Except.ok.inj h).symm
    split at h
    · exact .inl (Except.ok.inj h).symm
    obtain ⟨pubkey,-,h⟩ := bind_ok h
    obtain ⟨same,-,h⟩ := bind_ok h
    split at h
    · exact .inr ⟨_,_,(Except.ok.inj h).symm⟩
    split at h
    · exact .inl (Except.ok.inj h).symm
    · exact .inr ⟨_,_,(Except.ok.inj h).symm⟩
  · exact .inl (Except.ok.inj h).symm

theorem nodup_mergeEntries {entries : List Val} (h : (JsMap.keys T).Nodup) :
    (JsMap.keys (mergeEntries cfg now T entries)).Nodup := by
  induction entries generalizing T with
  | nil => exact h
  | cons entry entries ih =>
    unfold mergeEntries
    split
    · next T' hT =>
      rcases mergeEntry_cases hT with rfl | ⟨id,info,rfl⟩
      · exact ih h
      · exact ih (JsMap.nodup_keys_set h id info)
    · exact h

end

/-- Two nodes that differ in what they have to send, and in what the queue left in their
tables. -/
structure Twin (s t : State) : Prop where
  now : t.now = s.now
  peers : t.peers = s.peers
  running : t.running = s.running
  pinnedGuardId : t.pinnedGuardId = s.pinnedGuardId
  pinnedGuardExpiry : t.pinnedGuardExpiry = s.pinnedGuardExpiry
  tables : TablesAlike s.now s.guardNeighbors t.guardNeighbors
  left : (JsMap.keys s.guardNeighbors).Nodup
  right : (JsMap.keys t.guardNeighbors).Nodup

section
variable {cfg : Config} {s t u v : State} {guard : OnionHop} {d : Draws}

theorem setGuard_frame (s : State) (id : Option String) (expiry : Number) :
    (setGuard s id expiry).now = s.now ∧ (setGuard s id expiry).peers = s.peers ∧
      (setGuard s id expiry).running = s.running := by
  unfold setGuard guardChanged State.post
  dsimp only
  split
  · split
    · split <;> exact ⟨rfl,rfl,rfl⟩
    · exact ⟨rfl,rfl,rfl⟩
  · exact ⟨rfl,rfl,rfl⟩

theorem Twin.setGuard (h : Twin s t) (id : Option String) (expiry : Number) :
    Twin (setGuard s id expiry) (setGuard t id expiry) := by
  obtain ⟨hp,he,-,-,-,hclear,hkeep⟩ := setGuard_fields s id expiry
  obtain ⟨hp',he',-,-,-,hclear',hkeep'⟩ := setGuard_fields t id expiry
  obtain ⟨hn,hpeers,hr⟩ := setGuard_frame s id expiry
  obtain ⟨hn',hpeers',hr'⟩ := setGuard_frame t id expiry
  have htables : TablesAlike s.now (OnionCircuit.setGuard s id expiry).guardNeighbors
      (OnionCircuit.setGuard t id expiry).guardNeighbors ∧
        (JsMap.keys (OnionCircuit.setGuard s id expiry).guardNeighbors).Nodup ∧
          (JsMap.keys (OnionCircuit.setGuard t id expiry).guardNeighbors).Nodup := by
    by_cases hid : id = s.pinnedGuardId
    · rw [hkeep hid,hkeep' (hid.trans h.pinnedGuardId.symm)]
      exact ⟨h.tables,h.left,h.right⟩
    · rw [hclear hid,hclear' (fun heq => hid (heq.trans h.pinnedGuardId))]
      exact ⟨TablesAlike.refl _ _,List.nodup_nil,List.nodup_nil⟩
  exact {
    now := by rw [hn,hn',h.now]
    peers := by rw [hpeers,hpeers',h.peers]
    running := by rw [hr,hr',h.running]
    pinnedGuardId := by rw [hp,hp']
    pinnedGuardExpiry := by rw [he,he']
    tables := by rw [hn]; exact htables.1
    left := htables.2.1
    right := htables.2.2 }

/-- Both nodes have the same guard. -/
theorem Twin.currentGuard (h : Twin s t) (draw : UInt32) :
    (currentGuard t draw).2 = (currentGuard s draw).2 ∧
      Twin (OnionCircuit.currentGuard s draw).1 (OnionCircuit.currentGuard t draw).1 := by
  have hneighbors : verifiedNeighbors t = verifiedNeighbors s := by
    unfold verifiedNeighbors
    rw [h.peers]
  have hlive : ∀ candidates, liveGuard t candidates = liveGuard s candidates := by
    intro candidates
    unfold liveGuard
    rw [h.pinnedGuardId,h.pinnedGuardExpiry,h.now,h.peers]
  have hweight : (fun c : OnionHop => guardWeight t c.peerId) = fun c => guardWeight s c.peerId := by
    funext c
    unfold guardWeight
    rw [h.peers,h.now]
  unfold OnionCircuit.currentGuard getPinnedGuard
  rw [hneighbors,hlive,hweight,h.pinnedGuardId,h.peers]
  cases liveGuard s (verifiedNeighbors s) with
  | some guard => exact ⟨rfl,h⟩
  | none =>
    dsimp only
    cases (verifiedNeighbors s).isEmpty with
    | true =>
      cases s.pinnedGuardId with
      | none => exact ⟨rfl,h⟩
      | some id =>
        dsimp only
        cases JsMap.has s.peers id with
        | true => exact ⟨rfl,h⟩
        | false => exact ⟨rfl,h.setGuard none (.fin 0)⟩
    | false =>
      cases (verifiedNeighbors s)[secureWeightedIndex draw
          ((verifiedNeighbors s).map fun c => guardWeight s c.peerId)]? with
      | none => exact ⟨rfl,h⟩
      | some selected => exact ⟨rfl,h.setGuard _ _⟩

/-- What a tick with a guard changes besides the queue and the outbox. -/
structure Ticked (u t : State) : Prop where
  now : t.now = u.now
  peers : t.peers = u.peers
  running : t.running = u.running
  pinnedGuardId : t.pinnedGuardId = u.pinnedGuardId
  pinnedGuardExpiry : t.pinnedGuardExpiry = u.pinnedGuardExpiry
  table : t.guardNeighbors = u.guardNeighbors ∨
    t.guardNeighbors = u.guardNeighbors.filter fun e => isFresh u.now e.2

theorem Ticked.refl (u : State) : Ticked u u := ⟨rfl,rfl,rfl,rfl,rfl,.inl rfl⟩

theorem Ticked.trans (h : Ticked u t) (h' : Ticked t v) : Ticked u v where
  now := h'.now.trans h.now
  peers := h'.peers.trans h.peers
  running := h'.running.trans h.running
  pinnedGuardId := h'.pinnedGuardId.trans h.pinnedGuardId
  pinnedGuardExpiry := h'.pinnedGuardExpiry.trans h.pinnedGuardExpiry
  table := by
    rcases h.table with ht | ht <;> rcases h'.table with ht' | ht'
    · exact .inl (ht'.trans ht)
    · exact .inr (by rw [ht',ht,h.now])
    · exact .inr (ht'.trans ht)
    · exact .inr (by rw [ht',ht,h.now,List.filter_filter]; simp)

theorem ticked_pickExit (cfg : Config) (s : State) (guardId : String) (exclude : List String)
    (draw : UInt32) : Ticked s (pickExit cfg s guardId exclude draw).1 := by
  rw [pickExit_state]
  exact ⟨rfl,rfl,rfl,rfl,rfl,.inr rfl⟩

theorem ticked_takeItem (cfg : Config) (guardId : String) (draw : UInt32) (s : State)
    (items : List QueuedCell) : Ticked s (takeItem cfg guardId draw s items).1 := by
  induction items generalizing s with
  | nil => exact ⟨rfl,rfl,rfl,rfl,rfl,.inl rfl⟩
  | cons item rest ih =>
    unfold takeItem
    split
    · exact ⟨rfl,rfl,rfl,rfl,rfl,.inl rfl⟩
    · have hpick := ticked_pickExit cfg s guardId [] draw
      split
      · next t exit ht =>
        rw [ht] at hpick
        exact hpick.trans ⟨rfl,rfl,rfl,rfl,rfl,.inl rfl⟩
      · next t ht =>
        rw [ht] at hpick
        exact hpick.trans (ih t)

theorem ticked_emitWrapped (cfg : Config) (s : State) (d : Draws) (guard exit : OnionHop)
    (payload : ExitPayload) (ticket : Option Nat) :
    Ticked s (emitWrapped cfg s d guard exit payload ticket) := by
  unfold emitWrapped
  split <;> exact ⟨rfl,rfl,rfl,rfl,rfl,.inl rfl⟩

theorem ticked_emitCell (hg : currentGuard s d.guard = (u,some guard)) :
    Ticked u (emitCell cfg s d) := by
  have htake := ticked_takeItem cfg guard.peerId d.exit u u.queue
  unfold emitCell
  rw [hg]
  dsimp only
  split
  · next t item ht =>
    rw [ht] at htake
    exact htake.trans (ticked_emitWrapped _ _ _ _ _ _ _)
  · next t ht =>
    rw [ht] at htake
    have hpick := ticked_pickExit cfg t guard.peerId [] d.exit
    split
    · next v exit hv =>
      rw [hv] at hpick
      exact (htake.trans hpick).trans (ticked_emitWrapped _ _ _ _ _ _ _)
    · next v hv =>
      rw [hv] at hpick
      exact htake.trans hpick

theorem nodup_filter {T : Table} (h : (JsMap.keys T).Nodup) (now : Nat) :
    (JsMap.keys (T.filter fun e => isFresh now e.2)).Nodup :=
  h.sublist (List.Sublist.map _ List.filter_sublist)

/-- What a tick changes in one of two twins leaves them twins. -/
theorem Twin.ticked_left (h : Twin s t) (hu : Ticked s u) : Twin u t where
  now := h.now.trans hu.now.symm
  peers := h.peers.trans hu.peers.symm
  running := h.running.trans hu.running.symm
  pinnedGuardId := h.pinnedGuardId.trans hu.pinnedGuardId.symm
  pinnedGuardExpiry := h.pinnedGuardExpiry.trans hu.pinnedGuardExpiry.symm
  tables := by
    rw [hu.now]
    rcases hu.table with ht | ht <;> rw [ht]
    · exact h.tables
    · exact h.tables.filter_left h.left
  left := by
    rcases hu.table with ht | ht <;> rw [ht]
    · exact h.left
    · exact nodup_filter h.left _
  right := h.right

theorem Twin.symm (h : Twin s t) : Twin t s where
  now := h.now.symm
  peers := h.peers.symm
  running := h.running.symm
  pinnedGuardId := h.pinnedGuardId.symm
  pinnedGuardExpiry := h.pinnedGuardExpiry.symm
  tables := by
    rw [h.now]
    exact h.tables.symm
  left := h.right
  right := h.left

/-- What a tick would put into its cell: the first entry of the queue, or the drop. -/
def firstPayload (s : State) : ExitPayload :=
  match s.queue with
  | [] => .drop
  | item :: _ => item.payload

def firstExit (cfg : Config) (s : State) (guardId : String) (draw : UInt32) : Option OnionHop :=
  match s.queue with
  | [] => (pickExit cfg s guardId [] draw).2
  | item :: _ => exitOf cfg s guardId draw item

/-- Behind the guard there is an exit, and what comes first fits; or there is none, and no entry
of the queue is for this guard. -/
def Uniform (cfg : Config) (s : State) (d : Draws) : Prop :=
  ∀ u guard, currentGuard s d.guard = (u,some guard) →
    if eligible cfg u guard.peerId [] = [] then ∀ item ∈ u.queue, item.guardId ≠ guard.peerId
    else ∃ exit, firstExit cfg u guard.peerId d.exit = some exit ∧
      NodeIdentity.isPeerId exit.peerId = true ∧
        Wrappable cfg.router (firstPayload u) guard exit

theorem eligible_ticked (h : Ticked s t) (guardId : String) (exclude : List String) :
    eligible cfg t guardId exclude = eligible cfg s guardId exclude := by
  unfold eligible
  rcases h.table with ht | ht
  · rw [ht,h.now]
  · rw [ht,h.now,List.filter_filter]
    simp

theorem pickExit_none (cfg : Config) {guardId : String} {exclude : List String}
    (he : eligible cfg s guardId exclude = []) (draw : UInt32) :
    ∃ t, pickExit cfg s guardId exclude draw = (t,none) ∧ t.outbox = s.outbox ∧ Ticked s t := by
  have hnone := (pickExit_eq_none cfg s guardId exclude draw).mpr he
  have hstate := pickExit_state cfg s guardId exclude draw
  refine ⟨(pickExit cfg s guardId exclude draw).1,Prod.ext rfl hnone,?_,ticked_pickExit _ _ _ _ _⟩
  rw [hstate]

/-- Without an exit all entries for other guards are gone. -/
theorem takeItem_none {guardId : String} (draw : UInt32) {items : List QueuedCell}
    (he : eligible cfg s guardId [] = []) (hi : ∀ item ∈ items, item.guardId ≠ guardId) :
    (takeItem cfg guardId draw s items).2 = none := by
  induction items generalizing s with
  | nil => rfl
  | cons item rest ih =>
    obtain ⟨t,ht,-,htick⟩ := pickExit_none cfg he draw
    unfold takeItem
    rw [if_neg (hi item List.mem_cons_self),ht]
    refine ih ?_ fun x hx => hi x (List.mem_cons_of_mem item hx)
    rw [eligible_ticked htick]
    exact he

theorem emitCell_silent (hg : currentGuard s d.guard = (u,some guard))
    (he : eligible cfg u guard.peerId [] = [])
    (hi : ∀ item ∈ u.queue, item.guardId ≠ guard.peerId) :
    (emitCell cfg s d).outbox = u.outbox := by
  have hnone := takeItem_none d.exit he hi
  have htaken := taken_takeItem cfg guard.peerId d.exit u u.queue
  have htick := ticked_takeItem cfg guard.peerId d.exit u u.queue
  unfold emitCell
  rw [hg]
  dsimp only
  split
  · next t item ht =>
    rw [ht] at hnone
    cases hnone
  · next t ht =>
    rw [ht] at htaken htick
    obtain ⟨v,hv,ho,-⟩ := pickExit_none cfg ((eligible_ticked htick _ _).trans he) d.exit
    rw [hv]
    exact ho.trans htaken.outbox

theorem emitWrapped_outbox {exit : OnionHop} {payload : ExitPayload} (ticket : Option Nat)
    (hbox : SealsTo cfg.router) (hid : NodeIdentity.isPeerId exit.peerId = true)
    (hw : Wrappable cfg.router payload guard exit) :
    ∃ cell, (emitWrapped cfg s d guard exit payload ticket).outbox =
      s.outbox ++ [(guard.peerId,.cell cell ticket)] ∧ cell.length = cellSize := by
  obtain ⟨cell,hcell⟩ := hw.wraps hbox hid d.entropy
  exact ⟨cell,by simp [emitWrapped,hcell,State.post],wrapCircuit_length hcell⟩

theorem emitCell_sends {exit : OnionHop} (hbox : SealsTo cfg.router)
    (hg : currentGuard s d.guard = (u,some guard))
    (hx : firstExit cfg u guard.peerId d.exit = some exit)
    (hid : NodeIdentity.isPeerId exit.peerId = true)
    (hw : Wrappable cfg.router (firstPayload u) guard exit) :
    ∃ cell ticket, (emitCell cfg s d).outbox = u.outbox ++ [(guard.peerId,.cell cell ticket)] ∧
      cell.length = cellSize := by
  cases hq : u.queue with
  | cons item rest =>
    simp only [firstExit,firstPayload,hq] at hx hw
    obtain ⟨table,heq⟩ := emitCell_lead hg hq hx
    obtain ⟨cell,hout,hlen⟩ := emitWrapped_outbox (s := { u with
      queue := rest, guardNeighbors := table }) (d := d) (some item.ticket) hbox hid hw
    exact ⟨cell,_,by rw [heq,hout],hlen⟩
  | nil =>
    simp only [firstExit,firstPayload,hq] at hx hw
    have hu : ({ u with queue := [] } : State) = u := by rw [← hq]
    have hpick : pickExit cfg u guard.peerId [] d.exit =
        ({ u with guardNeighbors := u.guardNeighbors.filter fun e => isFresh u.now e.2 },
          some exit) := Prod.ext (pickExit_state cfg u guard.peerId [] d.exit) hx
    obtain ⟨cell,hout,hlen⟩ := emitWrapped_outbox (s := { u with
      guardNeighbors := u.guardNeighbors.filter fun e => isFresh u.now e.2 }) (d := d) none
        hbox hid hw
    refine ⟨cell,none,?_,hlen⟩
    unfold emitCell
    rw [hg]
    dsimp only
    rw [hq]
    simp only [takeItem,hu,hpick]
    exact hout

/-- The cells among the messages, as the guard sees them: from whom, and how long. -/
def cells (messages : List (String × Message)) : List (String × Nat) :=
  messages.filterMap fun m => match m.2 with
    | .cell onionBytes _ => some (m.1,onionBytes.length)
    | .pexRequest => none

/-- The cells of one event. -/
def sent (s t : State) : List (String × Nat) := cells (t.outbox.drop s.outbox.length)

theorem sent_append {new : List (String × Message)} (h : t.outbox = s.outbox ++ new) :
    sent s t = cells new := by
  rw [sent,h,List.drop_left']
  rfl

theorem Looked.sent (h : Looked s t) : sent s t = [] := by
  rcases h.outbox with ho | ⟨id,ho⟩
  · have happ : t.outbox = s.outbox ++ [] := by simpa using ho
    exact sent_append happ
  · rw [sent_append ho]
    rfl

/-- What happens to both nodes alike. -/
def Common : Action → Prop
  | .clock _ | .peer _ _ | .pexResponse _ _ | .pexTimer _ | .tick _ | .resetPinnedGuard => True
  | .send _ _ | .echo _ _ _ | .start _ | .stop => False

/-- Every tick finds an exit and a payload that fits in both nodes, or nothing to send in either;
and what the guard tells of a peer that one of the tables dropped is taken by both. -/
def Covered (cfg : Config) (p : State × State) : Action → Prop
  | .tick d => Uniform cfg p.1 d ∧ Uniform cfg p.2 d
  | .pexResponse senderId msg => ∀ peers, p.1.pinnedGuardId = some senderId →
      msg.field "peers" = .arr peers → ∀ entry ∈ peers.take 16,
        SameClaim cfg p.1.guardNeighbors p.2.guardNeighbors entry
  | _ => True

/-- The two nodes send a cell at the same event or not at all, of one size and to one guard. -/
def SameCells (cfg : Config) (p : State × State) (a : Action) : Prop :=
  ∀ q, Machine.pair (step cfg) p a = some q → sent p.1 q.1 = sent p.2 q.2 ∧
    (sent p.1 q.1 = [] ∨ ∃ guardId, sent p.1 q.1 = [(guardId,cellSize)])

theorem Twin.pex (h : Twin s t) {senderId : String} {msg : Val}
    (hc : Covered cfg (s,t) (.pexResponse senderId msg)) :
    Twin (handleGuardPex cfg s senderId msg) (handleGuardPex cfg t senderId msg) := by
  unfold handleGuardPex
  dsimp only
  rw [h.pinnedGuardId,h.now]
  split
  · exact ⟨rfl,h.peers,h.running,rfl,h.pinnedGuardExpiry,h.tables,h.left,h.right⟩
  · next hpinned =>
    split
    · next peers hpeers =>
      exact ⟨rfl,h.peers,h.running,rfl,h.pinnedGuardExpiry,
        mergeEntries_alike h.tables (hc peers (not_not.mp hpinned) hpeers),
        nodup_mergeEntries h.left,nodup_mergeEntries h.right⟩
    · exact ⟨rfl,h.peers,h.running,rfl,h.pinnedGuardExpiry,h.tables,h.left,h.right⟩

/-- Two twins pick the same guard and stay twins. -/
theorem Twin.guarded (h : Twin s t) (draw : UInt32) : ∃ found u v,
    OnionCircuit.currentGuard s draw = (u,found) ∧
      OnionCircuit.currentGuard t draw = (v,found) ∧ Twin u v := by
  obtain ⟨hsame,htwin⟩ := h.currentGuard draw
  exact ⟨(OnionCircuit.currentGuard s draw).2,_,_,rfl,Prod.ext rfl hsame,htwin⟩

theorem Twin.tick (h : Twin s t) (d : Draws) :
    Twin (emitCell cfg s d) (emitCell cfg t d) := by
  obtain ⟨found,u,v,hg,hg',htwin⟩ := h.guarded d.guard
  cases found with
  | none =>
    simp only [emitCell,hg,hg']
    exact htwin
  | some guard =>
    exact ((htwin.ticked_left (ticked_emitCell hg)).symm.ticked_left (ticked_emitCell hg')).symm

theorem Twin.requestGuardNeighbors (h : Twin s t) (draw : UInt32) :
    Twin (requestGuardNeighbors s draw) (requestGuardNeighbors t draw) := by
  obtain ⟨found,u,v,hg,hg',htwin⟩ := h.guarded draw
  unfold OnionCircuit.requestGuardNeighbors
  rw [hg,hg']
  cases found with
  | none => exact htwin
  | some guard =>
    exact ⟨htwin.now,htwin.peers,htwin.running,htwin.pinnedGuardId,htwin.pinnedGuardExpiry,
      htwin.tables,htwin.left,htwin.right⟩

theorem twin_step {a : Action} (h : Twin s t) (ha : Common a) (hc : Covered cfg (s,t) a)
    (hs : step cfg s a = some u) (ht : step cfg t a = some v) : Twin u v := by
  cases a with
  | clock ms =>
    cases hs
    cases ht
    have hlater := h.tables.later (Nat.le_add_right s.now ms)
    exact ⟨by simp [h.now],h.peers,h.running,h.pinnedGuardId,h.pinnedGuardExpiry,hlater,h.left,
      h.right⟩
  | peer id peer =>
    cases peer <;> cases hs <;> cases ht <;>
      exact ⟨h.now,by simp [h.peers],h.running,h.pinnedGuardId,h.pinnedGuardExpiry,h.tables,h.left,
        h.right⟩
  | pexResponse senderId msg =>
    cases hs
    cases ht
    exact h.pex hc
  | pexTimer draw =>
    cases hs
    cases ht
    exact h.requestGuardNeighbors draw
  | tick d =>
    cases hs
    cases ht
    exact h.tick d
  | resetPinnedGuard =>
    cases hs
    cases ht
    exact h.setGuard none (.fin 0)
  | send payload d => cases ha
  | echo i seen d => cases ha
  | start draw => cases ha
  | stop => cases ha

/-- A tick of two twins. -/
theorem sent_tick (h : Twin s t) (hbox : SealsTo cfg.router) (hu : Uniform cfg s d)
    (hv : Uniform cfg t d) : sent s (emitCell cfg s d) = sent t (emitCell cfg t d) ∧
      (sent s (emitCell cfg s d) = [] ∨
        ∃ guardId, sent s (emitCell cfg s d) = [(guardId,cellSize)]) := by
  -- what one node sends is settled by its guard and by whether there is an exit
  have hone : ∀ s u guard, Uniform cfg s d → currentGuard s d.guard = (u,some guard) →
      sent s (emitCell cfg s d) =
        if eligible cfg u guard.peerId [] = [] then [] else [(guard.peerId,cellSize)] := by
    intro s u guard hs hg
    have hlook := looked_currentGuard s d.guard
    rw [hg] at hlook
    have hsilent := hlook.sent
    have huniform := hs u guard hg
    split at huniform
    · next he =>
      rw [if_pos he,sent,emitCell_silent hg he huniform]
      exact hsilent
    · next he =>
      obtain ⟨exit,hx,hid,hw⟩ := huniform
      obtain ⟨cell,ticket,hout,hlen⟩ := emitCell_sends hbox hg hx hid hw
      have hlast : cells [(guard.peerId,.cell cell ticket)] = [(guard.peerId,cellSize)] := by
        simp [cells,hlen]
      rw [if_neg he]
      rcases hlook.outbox with ho | ⟨id,ho⟩
      · rw [ho] at hout
        rw [sent_append hout,hlast]
      · rw [ho,List.append_assoc] at hout
        rw [sent_append hout]
        exact hlast
  obtain ⟨found,u,v,hg,hg',htwin⟩ := h.guarded d.guard
  cases found with
  | none =>
    have hlook := (looked_currentGuard s d.guard).sent
    have hlook' := (looked_currentGuard t d.guard).sent
    rw [hg] at hlook
    rw [hg'] at hlook'
    have hs : emitCell cfg s d = u := by simp [emitCell,hg]
    have ht : emitCell cfg t d = v := by simp [emitCell,hg']
    rw [hs,ht,hlook,hlook']
    exact ⟨rfl,.inl rfl⟩
  | some guard =>
    have hiff : eligible cfg u guard.peerId [] = [] ↔ eligible cfg v guard.peerId [] = [] :=
      ⟨htwin.symm.tables.eligible_nil htwin.symm.now htwin.right,
        htwin.tables.eligible_nil htwin.now htwin.left⟩
    rw [hone s u guard hu hg,hone t v guard hv hg']
    refine ⟨by simp only [hiff],?_⟩
    split
    · exact .inl rfl
    · exact .inr ⟨_,rfl⟩

theorem looked_request (s : State) (draw : UInt32) :
    sent s (requestGuardNeighbors s draw) = [] := by
  have hlook := looked_currentGuard s draw
  unfold requestGuardNeighbors
  split
  · next u guard hu =>
    rw [hu] at hlook
    rcases hlook.outbox with ho | ⟨id,ho⟩ <;> dsimp only at ho
    · have hnew : (u.post guard.peerId .pexRequest).outbox =
          s.outbox ++ [(guard.peerId,.pexRequest)] := by simp [State.post,ho]
      rw [sent_append hnew]
      rfl
    · have hnew : (u.post guard.peerId .pexRequest).outbox =
          s.outbox ++ [(id,.pexRequest),(guard.peerId,.pexRequest)] := by simp [State.post,ho]
      rw [sent_append hnew]
      rfl
  · next u hu =>
    rw [hu] at hlook
    exact hlook.sent

/-- Only a tick sends cells. -/
theorem sent_other {a : Action} (ha : Common a) (htick : ∀ d, a ≠ .tick d)
    (hs : step cfg s a = some t) : sent s t = [] := by
  have hsame : ∀ u : State, u.outbox = s.outbox → sent s u = [] := by
    intro u hu
    have happ : u.outbox = s.outbox ++ [] := by simpa using hu
    exact sent_append happ
  cases a with
  | clock ms =>
    cases hs
    exact hsame _ rfl
  | peer id peer => cases peer <;> cases hs <;> exact hsame _ rfl
  | pexResponse senderId msg =>
    cases hs
    refine hsame _ ?_
    unfold handleGuardPex
    dsimp only
    repeat' split
    all_goals rfl
  | pexTimer draw =>
    cases hs
    exact looked_request s draw
  | tick d => exact absurd rfl (htick d)
  | resetPinnedGuard =>
    cases hs
    exact (looked_setGuard s none (.fin 0)).sent
  | send payload d => cases ha
  | echo i seen d => cases ha
  | start draw => cases ha
  | stop => cases ha

end

def isUniform (cfg : Config) (s : State) (d : Draws) : Bool :=
  match currentGuard s d.guard with
  | (_,none) => true
  | (u,some guard) =>
    if (eligible cfg u guard.peerId []).isEmpty then u.queue.all (·.guardId ≠ guard.peerId)
    else (firstExit cfg u guard.peerId d.exit).any fun exit =>
      NodeIdentity.isPeerId exit.peerId && isWrappable cfg.router (firstPayload u) guard exit

theorem uniform_of_is {cfg : Config} {s : State} {d : Draws} (h : isUniform cfg s d = true) :
    Uniform cfg s d := by
  intro u guard hg
  simp only [isUniform,hg] at h
  split at h
  · next he =>
    rw [if_pos (List.isEmpty_iff.mp he)]
    simpa using h
  · next he =>
    rw [if_neg (fun hn => he (by rw [hn]; rfl))]
    simp only [Option.any_eq_true,Bool.and_eq_true] at h
    obtain ⟨exit,hx,hid,hw⟩ := h
    exact ⟨exit,hx,hid,wrappable_of_is hw⟩

/-- A hint waits for its tick. -/
def waitingRun : List Action :=
  [.peer "guard" (some (samplePeer 1)),.start 0,.pexResponse "guard" (sampleResponse 2),
    .send (.exitHint [1]) sampleDraws]

end OnionCircuit
