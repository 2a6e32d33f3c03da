import AetherLite.Onion.GuardPinning

/-! The entries of a PEX response of the guard, each taken for itself and as the loop takes them. -/
set_option autoImplicit false

namespace OnionCircuit

open Js OnionRouter

/-- The entries that are looked at. -/
def entriesOf (msg : Val) : List Val :=
  match msg.field "peers" with
  | .arr peers => peers.take 16
  | _ => []

section
variable (cfg : Config) (now : Nat)

/-- The peer an entry can be about. -/
def named? (entry : Val) : Option String :=
  match entry.field "id" with
  | .str peerId => if NodeIdentity.isPeerId peerId && peerId != cfg.myPeerId then some peerId else none
  | _ => none

/-- A key that is offered for a peer: the one that is known is refreshed, another is inserted
when it is valid. -/
def offered (peerId : String) (row : Option GuardNeighbor) (pubkey : Bytes) (entry : Val) :
    Option GuardNeighbor :=
  match row.filter fun info => info.pubkey == pubkey with
  | some info => some { info with seenAt := now }
  | none =>
    if NodeIdentity.verifyClaim cfg.sodium ⟨peerId,pubkey,powCounterOf entry⟩ cfg.powParams then
      some ⟨pubkey,now,now⟩
    else row

/-- What an entry alone does to the row of a peer. -/
def rowAlone (peerId : String) (row : Option GuardNeighbor) (entry : Val) : Option GuardNeighbor :=
  if named? cfg entry = some peerId then
    match PowPolicy.toBytes (entry.field "pubkey") with
    | .error _ => row
    | .ok pubkey => offered cfg now peerId row pubkey entry
  else row

/-- What the entries do to the row of a peer, each of them alone. -/
def rowAfter (peerId : String) (row : Option GuardNeighbor) (entries : List Val) :
    Option GuardNeighbor :=
  entries.foldl (rowAlone cfg now peerId) row

/-- The key of an entry that can be about a peer cannot be read, or has not the length of the
one that is known. -/
def throwsAt (rows : String → Option GuardNeighbor) (entry : Val) : Bool :=
  match named? cfg entry with
  | none => false
  | some peerId =>
    match PowPolicy.toBytes (entry.field "pubkey") with
    | .error _ => true
    | .ok pubkey => (rows peerId).any fun info => info.pubkey.length != pubkey.length

/-- From the first entry on that throws, none has anything to change. -/
def Undisturbed : (String → Option GuardNeighbor) → List Val → Prop
  | _, [] => True
  | rows, entry :: entries =>
    if throwsAt cfg rows entry = true then
      ∀ peerId, rowAfter cfg now peerId (rows peerId) (entry :: entries) = rows peerId
    else Undisturbed (fun peerId => rowAlone cfg now peerId (rows peerId) entry) entries

end

section
variable {cfg : Config} {now : Nat} {table : Table} {entry : Val}

theorem named?_some {peerId : String} (h : named? cfg entry = some peerId) :
    entry.field "id" = .str peerId ∧ NodeIdentity.isPeerId peerId = true ∧ peerId ≠ cfg.myPeerId := by
  unfold named? at h
  split at h
  · next id hid =>
    simp only [Option.ite_none_right_eq_some,Bool.and_eq_true,bne_iff_ne,ne_eq,
      Option.some.injEq] at h
    obtain ⟨⟨hpeer,hme⟩,rfl⟩ := h
    exact ⟨hid,hpeer,hme⟩
  · cases h

theorem mergeEntry_unnamed (h : named? cfg entry = none) : mergeEntry cfg now table entry = .ok table := by
  unfold named? at h
  split at h
  · next id hid =>
    simp only [ite_eq_right_iff,reduceCtorEq,imp_false,Bool.and_eq_true,bne_iff_ne,ne_eq,not_and,
      not_not] at h
    unfold mergeEntry
    rw [hid]
    dsimp only
    split
    · rfl
    · next hpeer =>
      have hme := h (by simpa using hpeer)
      simp [hme]
  · next hid =>
    unfold mergeEntry
    split
    · next id hid' => exact absurd hid' (hid id)
    · rfl

/-- The table after an entry with a key that is the known one, or not. -/
def mergedWith (cfg : Config) (now : Nat) (T : Table) (id : String) (entry : Val)
    (pubkey : Bytes) (same : Bool) : Table :=
  if same then
    JsMap.set T id ⟨pubkey,((JsMap.get T id).map GuardNeighbor.firstSeen).getD now,now⟩
  else if !NodeIdentity.verifyClaim cfg.sodium ⟨id,pubkey,powCounterOf entry⟩ cfg.powParams then T
  else JsMap.set T id ⟨pubkey,now,now⟩

theorem mergeEntry_eq {id : String} (hid : entry.field "id" = .str id)
    (hpeer : NodeIdentity.isPeerId id = true) (hme : id ≠ cfg.myPeerId) (T : Table) :
    mergeEntry cfg now T entry = (PowPolicy.toBytes (entry.field "pubkey")).bind fun pubkey =>
      (sameKey (JsMap.get T id) pubkey).map (mergedWith cfg now T id entry pubkey) := by
  unfold mergeEntry
  rw [hid]
  simp only [hpeer,hme,Bool.not_true,Bool.false_eq_true,if_false,bind,Except.bind,Except.map]
  cases PowPolicy.toBytes (entry.field "pubkey") with
  | error e => rfl
  | ok pubkey =>
    cases hs : sameKey (JsMap.get T id) pubkey with
    | error e => simp [hs]
    | ok same =>
      cases hv : NodeIdentity.verifyClaim cfg.sodium ⟨id,pubkey,powCounterOf entry⟩
        cfg.powParams <;> cases same <;> simp [mergedWith,hs,hv]

theorem sameKey_error_iff {row : Option GuardNeighbor} {pubkey : Bytes} :
    (∃ e, sameKey row pubkey = .error e) ↔
      (row.any fun info => info.pubkey.length != pubkey.length) = true := by
  cases row with
  | none => simp [sameKey]
  | some info =>
    by_cases hlen : info.pubkey.length = pubkey.length
    · simp [sameKey,memcmp,hlen]
    · simp [sameKey,memcmp,hlen]

theorem mergeEntry_throws (now : Nat) (h : throwsAt cfg (JsMap.get table) entry = true) :
    ∃ e, mergeEntry cfg now table entry = .error e := by
  unfold throwsAt at h
  split at h
  · cases h
  next peerId hnamed =>
  obtain ⟨hid,hpeer,hme⟩ := named?_some hnamed
  rw [mergeEntry_eq hid hpeer hme]
  split at h
  · next e he => exact ⟨e,by rw [he]; rfl⟩
  · next pubkey hpk =>
    obtain ⟨e,he⟩ := sameKey_error_iff.mpr h
    exact ⟨e,by rw [hpk]; simp [Except.bind,Except.map,he]⟩

theorem sameKey_ok {row : Option GuardNeighbor} {pubkey : Bytes}
    (h : (row.any fun info => info.pubkey.length != pubkey.length) = false) :
    sameKey row pubkey = .ok (row.any fun info => info.pubkey == pubkey) := by
  cases row with
  | none => rfl
  | some info =>
    have hlen : info.pubkey.length = pubkey.length := by simpa using h
    simp [sameKey,memcmp,hlen]

/-- What the loop makes of a row, when the comparison is made. -/
theorem offered_eq (cfg : Config) (now : Nat) (entry : Val) (peerId : String) (row : Option GuardNeighbor) (pubkey : Bytes) :
    offered cfg now peerId row pubkey entry =
      if (row.any fun info => info.pubkey == pubkey) = true then
        some ⟨pubkey,(row.map GuardNeighbor.firstSeen).getD now,now⟩
      else if NodeIdentity.verifyClaim cfg.sodium ⟨peerId,pubkey,powCounterOf entry⟩ cfg.powParams
        then some ⟨pubkey,now,now⟩
      else row := by
  cases row with
  | none => simp [offered]
  | some info =>
    by_cases hkey : info.pubkey = pubkey
    · simp [offered,Option.filter_some,hkey]
    · simp [offered,Option.filter_some,hkey]

theorem get_set_offered {id : String} {pubkey : Bytes} {info : GuardNeighbor}
    (h : offered cfg now id (JsMap.get table id) pubkey entry = some info) (peerId : String) :
    JsMap.get (JsMap.set table id info) peerId =
      if id = peerId then offered cfg now peerId (JsMap.get table peerId) pubkey entry
      else JsMap.get table peerId := by
  rw [JsMap.get_set]
  by_cases hid : id = peerId
  · subst hid
    simp [h]
  · simp [hid]

/-- The entry changes no row but its own. -/
theorem get_mergedWith (cfg : Config) (now : Nat) (table : Table) (entry : Val) (id : String)
    (pubkey : Bytes) (peerId : String) :
    JsMap.get (mergedWith cfg now table id entry pubkey
        ((JsMap.get table id).any fun info => info.pubkey == pubkey)) peerId =
      if id = peerId then offered cfg now peerId (JsMap.get table peerId) pubkey entry
      else JsMap.get table peerId := by
  have hoffered := offered_eq cfg now entry id (JsMap.get table id) pubkey
  unfold mergedWith
  split
  · next hsame =>
    rw [if_pos hsame] at hoffered
    exact get_set_offered hoffered peerId
  next hsame =>
  rw [if_neg hsame] at hoffered
  split
  · next hinvalid =>
    rw [if_neg (by simpa using hinvalid)] at hoffered
    split
    · next heq =>
      subst heq
      exact hoffered.symm
    · rfl
  · next hvalid =>
    rw [if_pos (by simpa using hvalid)] at hoffered
    exact get_set_offered hoffered peerId

/-- An entry that does not throw is taken as if it were alone. -/
theorem mergeEntry_row (now : Nat) (h : throwsAt cfg (JsMap.get table) entry = false) :
    ∃ table', mergeEntry cfg now table entry = .ok table' ∧
      ∀ peerId, JsMap.get table' peerId = rowAlone cfg now peerId (JsMap.get table peerId) entry := by
  unfold throwsAt at h
  split at h
  · next hnamed =>
    refine ⟨table,mergeEntry_unnamed hnamed,?_⟩
    intro peerId
    simp [rowAlone,hnamed]
  next id hnamed =>
  obtain ⟨hid,hpeer,hme⟩ := named?_some hnamed
  split at h
  · cases h
  next pubkey hpk =>
  have hmerge : mergeEntry cfg now table entry = _ := mergeEntry_eq hid hpeer hme table
  rw [hpk,Except.bind,sameKey_ok h,Except.map] at hmerge
  refine ⟨_,hmerge,?_⟩
  intro peerId
  rw [get_mergedWith]
  simp [rowAlone,hnamed,hpk]

theorem mergeEntries_iff (entries : List Val) :
    (∀ peerId, JsMap.get (mergeEntries cfg now table entries) peerId =
      rowAfter cfg now peerId (JsMap.get table peerId) entries) ↔
    Undisturbed cfg now (JsMap.get table) entries := by
  induction entries generalizing table with
  | nil => simp [mergeEntries,rowAfter,Undisturbed]
  | cons entry entries ih =>
    unfold Undisturbed mergeEntries
    cases hthrows : throwsAt cfg (JsMap.get table) entry with
    | true =>
      obtain ⟨e,he⟩ := mergeEntry_throws now hthrows
      rw [he,if_pos rfl]
      constructor
      · intro h peerId
        exact (h peerId).symm
      · intro h peerId
        exact (h peerId).symm
    | false =>
      obtain ⟨table',hmerge,hrows⟩ := mergeEntry_row now hthrows
      rw [hmerge,if_neg Bool.false_ne_true]
      simp only [← hrows,← ih]
      simp only [rowAfter,List.foldl_cons,hrows]

end

theorem handleGuardPex_table {cfg : Config} {s : State} {senderId : String} (msg : Val)
    (hguard : s.pinnedGuardId = some senderId) :
    (handleGuardPex cfg s senderId msg).guardNeighbors =
      mergeEntries cfg s.now s.guardNeighbors (entriesOf msg) := by
  unfold handleGuardPex entriesOf
  dsimp only
  rw [if_neg (not_not.mpr hguard)]
  cases msg.field "peers" <;> rfl

/-- Every entry of a response of the guard is taken as if it were alone if and only if from the
first that throws on none has anything to change. -/
theorem pex_isolated_iff (cfg : Config) {s : State} {senderId : String} (msg : Val)
    (hguard : s.pinnedGuardId = some senderId) :
    (∀ peerId, JsMap.get (handleGuardPex cfg s senderId msg).guardNeighbors peerId =
      rowAfter cfg s.now peerId (JsMap.get s.guardNeighbors peerId) (entriesOf msg)) ↔
    Undisturbed cfg s.now (JsMap.get s.guardNeighbors) (entriesOf msg) := by
  rw [handleGuardPex_table msg hguard]
  exact mergeEntries_iff _

/-- A node that knows one neighbour of its guard. -/
def knowing : State where
  now := 5
  pinnedGuardId := some "guard"
  guardNeighbors := [(samplePeerId 2,⟨List.replicate 32 2,1,1⟩)]

def sampleEntry (b : UInt8) : Val :=
  .obj [("id",.str (samplePeerId b)),("pubkey",.bytes (List.replicate 32 b)),
    ("powCounter",.num (.fin 0))]

theorem pex_isolated_sample :
    JsMap.get (handleGuardPex sampleConfig knowing "guard" (sampleResponse 3)).guardNeighbors
        (samplePeerId 3) =
      rowAfter sampleConfig 5 (samplePeerId 3) none (entriesOf (sampleResponse 3)) := by
  have hnone : JsMap.get knowing.guardNeighbors (samplePeerId 3) = none := by decide +kernel
  have hentries : entriesOf (sampleResponse 3) = [sampleEntry 3] := rfl
  have hthrows : throwsAt sampleConfig (JsMap.get knowing.guardNeighbors) (sampleEntry 3) = false := by
    decide +kernel
  rw [← hnone]
  apply (pex_isolated_iff sampleConfig (sampleResponse 3) rfl).mpr
  rw [hentries]
  simp [Undisturbed,hthrows]

/-- The neighbour that is known is named without its key, and after it one that is new. -/
def keylessResponse : Val :=
  .obj [("peers",.arr [.obj [("id",.str (samplePeerId 2))],sampleEntry 3])]

/-- The new neighbour is lost. -/
theorem pex_entry_dropped :
    ¬∀ peerId, JsMap.get (handleGuardPex sampleConfig knowing "guard" keylessResponse).guardNeighbors
        peerId =
      rowAfter sampleConfig knowing.now peerId (JsMap.get knowing.guardNeighbors peerId)
        (entriesOf keylessResponse) := by
  intro h
  have hlost := h (samplePeerId 3)
  revert hlost
  decide +kernel

end OnionCircuit
