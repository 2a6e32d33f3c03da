import AetherLite.Storage.KeySlots
import AetherLite.Storage.Migration

/-! Histories of a page that keeps its keys and changes its passphrase. The data key is sealed
again with the new one, and the keys in the other slots are not. -/
set_option autoImplicit false

namespace Storage

open Js Program IndexedDBStore

namespace PassphraseChange

inductive Call where
  | unlock (passphrase : String) (params : VaultParams)
  | initTrip (passphrase : String)
  | generateTrip (passphrase : String) (params : VaultParams)
  | loadOrMine (passphrase : String) (params : NodeIdentity.PowParams) (vaultParams : VaultParams)
  | changePassphrase (oldPassphrase newPassphrase : String) (params : VaultParams)
  | lock
  /-- The page is closed and opened again. -/
  | reload

/-- A call on a database whose operations all succeed. -/
def perform {α : Type} (x : Action α) (s : Session) : Except Thrown α × Session :=
  exec x { s with budget := none }

def reloaded (s : Session) : Session :=
  { s with opened := false, vault := none, tripKeyPair := none }

section
variable (p : Primitives) (w : World) (sodium : Sodium) (hash : Bytes → Bytes)

def step (s : Session) : Call → Option Session
  | .unlock passphrase params => some (perform (unlock p w passphrase params) s).2
  | .initTrip passphrase => some (perform (Identity.initTrip p passphrase) s).2
  | .generateTrip passphrase params =>
    some (perform (Identity.generateTrip p w hash passphrase params) s).2
  | .loadOrMine passphrase params vaultParams =>
    some (perform (NodeIdentityStore.loadOrMine p w sodium passphrase params vaultParams) s).2
  | .changePassphrase oldPassphrase newPassphrase params =>
    some (perform (changePassphrase p w oldPassphrase newPassphrase params) s).2
  | .lock => some { s with vault := none }
  | .reload => some (reloaded s)

/-- The record was sealed with the passphrase, and holds the secret. -/
def Seals (r : IdentityRecord) (secret : Bytes) (passphrase : String) : Prop :=
  ∃ sealed, r.sealed = some sealed ∧ SecretVault.SealedBy p sealed secret passphrase

def HoldsKey (db : Database) (dek : Bytes) : Prop :=
  ∃ r passphrase, JsMap.get db.identity dekSlot = some r ∧ Seals p r dek passphrase

/-- The record of a slot holds the key pair of a trip. -/
structure TripRecord (r : IdentityRecord) (pair : KeyPair) (passphrase : String) : Prop where
  sealed : Seals p r pair.secret passphrase
  privateKey : pair.privateKey.length = secretKeyBytes

/-- The record of a slot holds the identity of a node, beside metadata under the data key. -/
structure NodeRecord (dek : Bytes) (r : IdentityRecord) (identity : NodeIdentity)
    (passphrase : String) : Prop where
  sealed : Seals p r (NodeIdentityStore.keyPair identity).secret passphrase
  metadata : DataVault.Sealed p (DataVault.fromDek p dek) r.emeta
    ("identity:" ++ NodeIdentityStore.nodeSlot) (NodeIdentityStore.metaOf identity)
  privkey : identity.privkey.length = secretKeyBytes
  derived : NodeIdentity.fromKeyPair sodium identity.pubkey identity.privkey
    identity.powCounter = identity

def HoldsTrip (db : Database) (pair : KeyPair) : Prop :=
  ∃ r passphrase, JsMap.get db.identity Identity.tripSlot = some r ∧ TripRecord p r pair passphrase

def HoldsNode (db : Database) (identity : NodeIdentity) : Prop :=
  ∃ r dek passphrase, HoldsKey p db dek ∧
    JsMap.get db.identity NodeIdentityStore.nodeSlot = some r ∧
      NodeRecord p sodium dek r identity passphrase

/-- The page has every key that was in the database, or gets it with the passphrase. An
identity whose proof of work is too weak by now is given up. -/
structure Opened (db : Database) (passphrase : String) (s : Session) : Prop where
  vault : ∀ dek, HoldsKey p db dek → s.vault = some (DataVault.fromDek p dek)
  trip : ∀ pair, HoldsTrip p db pair → ∃ t,
    perform (Identity.initTrip p passphrase) s = (.ok true,t) ∧ t.tripKeyPair = some pair
  node : ∀ identity, HoldsNode p sodium db identity → ∀ params vaultParams,
    NodeIdentity.verifyClaim sodium identity.claim params = true →
      (perform (NodeIdentityStore.loadOrMine p w sodium passphrase params vaultParams) s).1 =
        .ok identity

/-- The next start with the passphrase restores all that was in the database. -/
def Restores (db : Database) (passphrase : String) (s : Session) : Prop :=
  ∀ params, ∃ t, perform (unlock p w passphrase params) (reloaded s) = (.ok (),t) ∧
    Opened p w sodium db passphrase t

/-- The keys beside the data key have been sealed with the passphrase. -/
def SealedWith (db : Database) (passphrase : String) : Prop :=
  ∀ slot ∈ [Identity.tripSlot,NodeIdentityStore.nodeSlot], ∀ r,
    JsMap.get db.identity slot = some r → ∃ secret, Seals p r secret passphrase

/-- What a history leaves in the database, with the data key once there is one. -/
structure Kept (db : Database) (dek : Option Bytes) : Prop where
  mailbox : db.mailbox = none
  posts : db.posts = none
  threads : db.threads = none
  unkeyed : JsMap.get db.identity dekSlot = none → dek = none
  key : ∀ r, JsMap.get db.identity dekSlot = some r → ∃ d passphrase, dek = some d ∧
    d.length = DataVault.dekBytes ∧ passphrase ≠ "" ∧ Seals p r d passphrase
  trip : ∀ r, JsMap.get db.identity Identity.tripSlot = some r → ∃ pair passphrase,
    passphrase ≠ "" ∧ r.emeta = .undefined ∧ TripRecord p r pair passphrase
  node : ∀ r, JsMap.get db.identity NodeIdentityStore.nodeSlot = some r →
    ∃ d identity passphrase params, dek = some d ∧ passphrase ≠ "" ∧
      NodeIdentity.verifyClaim sodium identity.claim params = true ∧
        NodeRecord p sodium d r identity passphrase

structure Inv (s : Session) (dek : Option Bytes) : Prop where
  kept : Kept p sodium s.db dek
  vault : ∀ v, s.vault = some v → ∃ d, dek = some d ∧ v = DataVault.fromDek p d

end

section Proofs
variable {p : Primitives} {w : World} {sodium : Sodium} {hash : Bytes → Bytes} {s t : Session}
  {db db' : Database} {dek : Option Bytes} {d : Bytes}

/-- A slot whose record is sealed opens under its passphrase alone. -/
theorem Seals.opens_iff (hp : p.Ideal) {r : IdentityRecord} {secret : Bytes} {passphrase : String}
    (h : Seals p r secret passphrase) {sealed : SealedSecret} (hs : r.sealed = some sealed)
    (other : String) (opened : Bytes) : SecretVault.openSealed p sealed other = some opened ↔
      other = passphrase ∧ opened = secret := by
  obtain ⟨sealed',hs',hby⟩ := h
  cases hs.symm.trans hs'
  exact hby.openSealed_iff hp other opened

theorem Seals.unique (hp : p.Ideal) {r : IdentityRecord} {a b : Bytes} {q q' : String}
    (h : Seals p r a q) (h' : Seals p r b q') : q = q' ∧ a = b := by
  obtain ⟨sealed,hs,hby⟩ := h
  exact (h'.opens_iff hp hs q a).mp ((hby.openSealed_iff hp q a).mpr ⟨rfl,rfl⟩)

theorem Kept.congr (h : Kept p sodium db dek) (hm : db'.mailbox = none) (hpo : db'.posts = none)
    (ht : db'.threads = none)
    (hid : ∀ slot, JsMap.get db'.identity slot = JsMap.get db.identity slot) :
    Kept p sodium db' dek := by
  refine ⟨hm,hpo,ht,?_,?_,?_,?_⟩
  · rw [hid]
    exact h.unkeyed
  · rw [hid]
    exact h.key
  · rw [hid]
    exact h.trip
  · rw [hid]
    exact h.node

/-- A record is put into a slot. The data key, once there, stays the same. -/
theorem Kept.put (h : Kept p sodium db dek) {slot : String} {r : IdentityRecord}
    {dek' : Option Bytes} (hdek : ∀ d, dek = some d → dek' = some d)
    (hother : slot ≠ dekSlot → dek' = dek)
    (hkey : slot = dekSlot → ∃ d passphrase, dek' = some d ∧ d.length = DataVault.dekBytes ∧
      passphrase ≠ "" ∧ Seals p r d passphrase)
    (htrip : slot = Identity.tripSlot → ∃ pair passphrase, passphrase ≠ "" ∧
      r.emeta = .undefined ∧ TripRecord p r pair passphrase)
    (hnode : slot = NodeIdentityStore.nodeSlot → ∃ d identity passphrase params, dek' = some d ∧
      passphrase ≠ "" ∧ NodeIdentity.verifyClaim sodium identity.claim params = true ∧
        NodeRecord p sodium d r identity passphrase) :
    Kept p sodium { db with identity := JsMap.set db.identity slot r } dek' := by
  refine ⟨h.mailbox,h.posts,h.threads,?_,?_,?_,?_⟩
  · intro hnone
    by_cases hs : dekSlot = slot
    · subst hs
      rw [JsMap.get_set_self] at hnone
      cases hnone
    · rw [JsMap.get_set_ne _ hs] at hnone
      rw [hother (Ne.symm hs),h.unkeyed hnone]
  · intro r' hr'
    by_cases hs : dekSlot = slot
    · subst hs
      rw [JsMap.get_set_self] at hr'
      cases hr'
      exact hkey rfl
    · rw [JsMap.get_set_ne _ hs] at hr'
      obtain ⟨d,q,hd,hrest⟩ := h.key r' hr'
      exact ⟨d,q,hdek d hd,hrest⟩
  · intro r' hr'
    by_cases hs : Identity.tripSlot = slot
    · subst hs
      rw [JsMap.get_set_self] at hr'
      cases hr'
      exact htrip rfl
    · rw [JsMap.get_set_ne _ hs] at hr'
      exact h.trip r' hr'
  · intro r' hr'
    by_cases hs : NodeIdentityStore.nodeSlot = slot
    · subst hs
      rw [JsMap.get_set_self] at hr'
      cases hr'
      exact hnode rfl
    · rw [JsMap.get_set_ne _ hs] at hr'
      obtain ⟨d,identity,q,params,hd,hrest⟩ := h.node r' hr'
      exact ⟨d,identity,q,params,hdek d hd,hrest⟩

/-- The data key is sealed, for the first time or again. -/
theorem Kept.putKey (h : Kept p sodium db dek) {d : Bytes} (hdek : ∀ d', dek = some d' → d' = d)
    {r : IdentityRecord} {passphrase : String} (hlen : d.length = DataVault.dekBytes)
    (hne : passphrase ≠ "") (hseals : Seals p r d passphrase) :
    Kept p sodium { db with identity := JsMap.set db.identity dekSlot r } (some d) := by
  refine h.put (fun d' hd' => congrArg some (hdek d' hd').symm) (absurd rfl)
    (fun _ => ⟨d,passphrase,rfl,hlen,hne,hseals⟩) ?_ ?_
  · intro hslot
    simp [dekSlot,Identity.tripSlot] at hslot
  · intro hslot
    simp [dekSlot,NodeIdentityStore.nodeSlot] at hslot

/-- A page whose database is left alone. -/
theorem Inv.same (h : Inv p sodium s dek) (hdb : t.db = s.db)
    (hv : t.vault = s.vault ∨ t.vault = none) : Inv p sodium t dek := by
  refine ⟨hdb ▸ h.kept,fun v hv' => ?_⟩
  rcases hv with hv | hv
  · exact h.vault v (hv ▸ hv')
  · rw [hv] at hv'
    cases hv'

theorem Inv.does {n : Nat} (h : Inv p sodium s dek) (ht : s.Does n s.db t) : Inv p sodium t dek :=
  h.same ht.db_eq (.inl ht.vault_eq)

theorem Inv.initTrip (h : Inv p sodium s dek) (passphrase : String) :
    Ensures s (Identity.initTrip p passphrase) (fun _ t => Inv p sodium t dek)
      (fun t => Inv p sodium t dek) := by
  unfold Identity.initTrip
  have hkeep : ∀ t, (∃ n, s.Does n s.db t) → Inv p sodium t dek := fun t ⟨_,ht⟩ => h.does ht
  refine ((ensures_getSealed _).mono (fun _ _ h => h) hkeep).bind ?_
  intro record t ht
  split
  · exact ensures_pure (hkeep t ht)
  split
  · exact ensures_pure (hkeep t ht)
  refine Ensures.bind (Q := fun _ u => Inv p sodium u dek) (ensures_modify ?_) ?_
  · exact (hkeep t ht).same rfl (.inl rfl)
  · exact fun _ u hu => ensures_pure hu

/-- The record that `saveSealed` puts into a slot is one that a history leaves there. -/
theorem Inv.saveSealed (h : Inv p sodium s dek) {slot : String} {sealed : SealedSecret} {m : Val}
    (hrecord : ∀ r : IdentityRecord, r.sealed = some sealed →
      (m = .undefined ∧ r.emeta = .undefined ∨ m ≠ .undefined ∧ ∃ v, s.vault = some v ∧
        DataVault.Sealed p v r.emeta ("identity:" ++ slot) m) →
      Kept p sodium { s.db with identity := JsMap.set s.db.identity slot r } dek) :
    Ensures s (saveSealed p w slot sealed m) (fun _ t => Inv p sodium t dek)
      (fun t => Inv p sodium t dek) := by
  refine (ensures_saveSealed slot sealed m).mono ?_ fun t ht => h.does ht
  rintro - t (⟨-,rfl⟩ | ⟨r,hs,-,hmeta,ht⟩)
  · exact h
  · refine ⟨?_,fun v hv => h.vault v (ht.vault_eq ▸ hv)⟩
    rw [ht.db_eq]
    exact hrecord r hs hmeta

theorem Inv.generateTrip (h : Inv p sodium s dek) (passphrase : String) (params : VaultParams) :
    Ensures s (Identity.generateTrip p w hash passphrase params)
      (fun _ t => Inv p sodium t dek) (fun t => Inv p sodium t dek) := by
  unfold Identity.generateTrip
  split
  · exact ensures_throw h
  next hne =>
  refine ensures_signKeypair.bind_of_total ?_
  intro pair t ht
  refine Ensures.bind (Q := fun _ u => Inv p sodium u dek) (ensures_modify ?_) ?_
  · exact (h.does ht).same rfl (.inl rfl)
  intro _ u hu
  refine ((ensures_sealSecret pair.val.secret passphrase params).mono (fun _ _ h => h)
    fun _ h => hu.does h).bind ?_
  rintro sealed x ⟨hx,hby⟩
  refine Ensures.bind (Q := fun _ y => Inv p sodium y dek)
    ((hu.does hx).saveSealed fun r hr hmeta => (hu.does hx).kept.put (fun _ hd => hd)
      (fun _ => rfl) ?_ ?_ ?_) fun _ y hy => ensures_get_bind (ensures_pure hy)
  · intro hslot
    simp [Identity.tripSlot,dekSlot] at hslot
  · refine fun _ => ⟨pair.val,passphrase,hne,?_,⟨sealed,hr,hby⟩,pair.2.2⟩
    exact (hmeta.resolve_right fun h => h.1 rfl).2
  · intro hslot
    simp [Identity.tripSlot,NodeIdentityStore.nodeSlot] at hslot

theorem Inv.loadOrMine (hsha : ∀ bs, (sodium.sha256 bs).length = 32) (h : Inv p sodium s dek)
    (passphrase : String) (params : NodeIdentity.PowParams) (vaultParams : VaultParams) :
    Ensures s (NodeIdentityStore.loadOrMine p w sodium passphrase params vaultParams)
      (fun _ t => Inv p sodium t dek) (fun t => Inv p sodium t dek) := by
  unfold NodeIdentityStore.loadOrMine
  split
  · exact ensures_throw h
  next hne =>
  have hkeep : ∀ t, (∃ n, s.Does n s.db t) → Inv p sodium t dek := fun t ⟨_,ht⟩ => h.does ht
  refine ((NodeIdentityStore.ensures_tryLoad passphrase params).mono (fun _ _ h => h) hkeep).bind ?_
  intro restored t ht
  have hti := hkeep t ht
  cases restored with
  | some identity => exact ensures_pure hti
  | none =>
    refine ((NodeIdentityStore.ensures_mine hsha params).mono (fun _ _ h => h) fun _ h => hti.does h).bind ?_
    rintro identity u ⟨hu,hmined⟩
    have hui := hti.does hu
    refine Ensures.bind (Q := fun _ x => Inv p sodium x dek) ?_ fun _ x hx => ensures_pure hx
    unfold NodeIdentityStore.save
    refine ((ensures_sealSecret _ passphrase vaultParams).mono (fun _ _ h => h)
      fun _ h => hui.does h).bind ?_
    rintro sealed x ⟨hx,hby⟩
    have hxi := hui.does hx
    refine hxi.saveSealed fun r hr hmeta => hxi.kept.put (fun _ hd => hd) (fun _ => rfl) ?_ ?_ ?_
    · intro hslot
      simp [NodeIdentityStore.nodeSlot,dekSlot] at hslot
    · intro hslot
      simp [NodeIdentityStore.nodeSlot,Identity.tripSlot] at hslot
    · intro _
      rcases hmeta with ⟨hm,-⟩ | ⟨-,v,hv,hs⟩
      · cases hm
      · obtain ⟨d,hd,rfl⟩ := hxi.vault v hv
        exact ⟨d,identity,passphrase,params,hd,hne,hmined.claim,⟨sealed,hr,hby⟩,hs,hmined.privkey,
          hmined.derived⟩

/-- The sealed data key, and the slot it is in. -/
theorem Kept.dek_eq (h : Kept p sodium db dek) {sealed : SealedSecret} (hd : db.dek = some sealed) :
    ∃ r d passphrase, JsMap.get db.identity dekSlot = some r ∧ r.sealed = some sealed ∧
      dek = some d ∧ d.length = DataVault.dekBytes ∧ passphrase ≠ "" ∧ Seals p r d passphrase := by
  obtain ⟨r,hr,hs⟩ := Option.bind_eq_some_iff.mp hd
  obtain ⟨d,q,hrest⟩ := h.key r hr
  exact ⟨r,d,q,hr,hs,hrest⟩

theorem Kept.unsealed (h : Kept p sodium db dek) (hd : db.dek = none) : dek = none := by
  cases hr : JsMap.get db.identity dekSlot with
  | none => exact h.unkeyed hr
  | some r =>
    obtain ⟨d,q,-,-,-,sealed,hs,-⟩ := h.key r hr
    rw [Database.dek,hr,Option.bind_some,hs] at hd
    cases hd

/-- The passphrase that opens the data key is the one it was sealed with. -/
theorem Kept.openDek (hp : p.Ideal) (h : Kept p sodium db dek) {sealed : SealedSecret}
    (hd : db.dek = some sealed) {passphrase : String} {key : Bytes}
    (hu : DataVault.unsealDek p sealed passphrase = .ok key) :
    dek = some key ∧ key.length = DataVault.dekBytes := by
  obtain ⟨r,d,q,-,hs,hdek,hlen,-,hseals⟩ := h.dek_eq hd
  unfold DataVault.unsealDek at hu
  split at hu
  · cases hu
  next opened ho =>
  obtain ⟨-,rfl⟩ := (hseals.opens_iff hp hs passphrase opened).mp ho
  split at hu
  · cases hu
  · cases hu
    exact ⟨hdek,hlen⟩

/-- A change of the passphrase puts a new record into one slot, or does nothing. -/
theorem ensures_changePassphrase (hp : p.Ideal) (h : Kept p sodium s.db dek)
    (oldPassphrase newPassphrase : String) (params : VaultParams) :
    Ensures s (changePassphrase p w oldPassphrase newPassphrase params)
      (fun _ t => t.vault = s.vault ∧ ∃ r d, dek = some d ∧ d.length = DataVault.dekBytes ∧
        newPassphrase ≠ "" ∧ Seals p r d newPassphrase ∧
          t.db = { s.db with identity := JsMap.set s.db.identity dekSlot r })
      (fun t => t.vault = s.vault ∧ t.db = s.db) := by
  unfold changePassphrase
  refine (ensures_init.mono (fun _ _ h => h) fun t ht => ht.1 ▸ ⟨rfl,rfl⟩).bind ?_
  intro _ t ht
  have hstay : ∀ {n u}, t.Does n s.db u → u.vault = s.vault ∧ u.db = s.db :=
    fun hu => ⟨by rw [hu.vault_eq,ht.vault_eq],hu.db_eq⟩
  refine ((ensures_read _).mono (fun _ _ h => h) fun _ hu => hu.1 ▸ ⟨ht.vault_eq,ht.db_eq⟩).bind ?_
  rintro sealed? u ⟨hu,rfl⟩
  rw [ht.db_eq] at hu ⊢
  split
  · exact ensures_throw (hstay hu)
  next sealed hd =>
  refine (ensures_randombytes 16).bind_of_total ?_
  intro salt a ha
  refine (ensures_randombytes DataVault.nonceBytes).bind_of_total ?_
  intro nonce b hb
  have htb := hu.trans (hu.db_eq ▸ ha.draw hb)
  refine (ensures_lift (Q := fun resealed c => c = b ∧
      DataVault.rewrap p sealed oldPassphrase newPassphrase params salt nonce = .ok resealed)
    (fun _ hr => ⟨rfl,hr⟩) fun _ _ => hstay htb).bind ?_
  rintro resealed c ⟨rfl,hrewrap⟩
  refine ensures_dateNow.bind_of_total ?_
  intro now e he
  have hte := htb.trans (htb.db_eq ▸ he)
  refine (ensures_write _).mono ?_ fun _ hx => hx.1 ▸ hstay hte
  intro _ x hx
  obtain ⟨_,hpass,hrewrap⟩ := bind_ok hrewrap
  obtain ⟨key,hkey,hseal⟩ := bind_ok hrewrap
  obtain ⟨hdek,hlen⟩ := h.openDek hp hd hkey
  rw [hte.db_eq] at hx
  exact ⟨by rw [hx.vault_eq,hte.vault_eq,ht.vault_eq],_,key,hdek,hlen,DataVault.requirePassphrase_ok hpass,
    ⟨resealed,rfl,params,salt,nonce,hseal⟩,hx.db_eq⟩

theorem Inv.changePassphrase (hp : p.Ideal) (h : Inv p sodium s dek)
    (oldPassphrase newPassphrase : String) (params : VaultParams) :
    Ensures s (changePassphrase p w oldPassphrase newPassphrase params)
      (fun _ t => Inv p sodium t dek) (fun t => Inv p sodium t dek) := by
  refine (ensures_changePassphrase hp h.kept oldPassphrase newPassphrase params).mono ?_
    fun t ht => h.same ht.2 (.inl ht.1)
  rintro - t ⟨hv,r,d,hdek,hlen,hne,hseals,hdb⟩
  refine ⟨?_,fun v hv' => h.vault v (hv ▸ hv')⟩
  rw [hdb]
  cases hdek
  exact h.kept.putKey (fun _ hd => (Option.some.inj hd).symm) hlen hne hseals

theorem Seals.isProtected {r : IdentityRecord} {secret : Bytes} {passphrase : String}
    (h : Seals p r secret passphrase) (hne : passphrase ≠ "") {sealed : SealedSecret}
    (hs : r.sealed = some sealed) : sealed.isProtected = true := by
  obtain ⟨sealed',hs',hby⟩ := h
  cases hs.symm.trans hs'
  simp [hby.isProtected,hne]

/-- No slot has been sealed without a passphrase. -/
theorem Kept.isProtected (h : Kept p sodium db dek) {slot : String} (hslot : slot ∈ ["trip","node"])
    {r : IdentityRecord} (hr : JsMap.get db.identity slot = some r) {sealed : SealedSecret}
    (hs : r.sealed = some sealed) : sealed.isProtected = true := by
  obtain rfl | rfl : slot = Identity.tripSlot ∨ slot = NodeIdentityStore.nodeSlot := by
    simpa [Identity.tripSlot,NodeIdentityStore.nodeSlot] using hslot
  · obtain ⟨pair,q,hne,-,htrip⟩ := h.trip r hr
    exact htrip.sealed.isProtected hne hs
  · obtain ⟨d,identity,q,params,-,hne,-,hnode⟩ := h.node r hr
    exact hnode.sealed.isProtected hne hs

/-- There is nothing to migrate. -/
theorem Kept.progress {v : DataVault} {passphrase : String} {budget : Option Nat}
    (h : Kept p sodium db dek) (hprog : Progress p v passphrase budget db db') :
    Kept p sodium db' dek := by
  refine h.congr ?_ ?_ ?_ fun slot => ?_
  · rcases hprog.mailbox with he | ⟨he,-⟩
    · rw [he,h.mailbox]
    · rw [he,h.mailbox,emptied,Option.map_none]
  · rcases hprog.posts with ⟨he,-⟩ | ⟨he,-⟩
    · rw [he,h.posts]
    · rw [he,h.posts,emptied,Option.map_none]
  · rcases hprog.threads with he | ⟨he,-⟩
    · rw [he,h.threads]
    · rw [he,h.threads,emptied,Option.map_none]
  · refine (hprog.identity slot).resolve_right ?_
    rintro ⟨hslot,r,r',hr,-,hre⟩
    obtain ⟨sealed,_,_,hs,hprot,-⟩ := hre.kept
    cases hprot.symm.trans (h.isProtected hslot hr hs)

/-- The data key when a page is unlocked. -/
theorem Kept.start (hp : p.Ideal) (h : Kept p sodium db dek) {v : DataVault} {passphrase : String}
    (hs : Migration.Start p passphrase db v db') :
    ∃ d, Kept p sodium db' (some d) ∧ v = DataVault.fromDek p d := by
  cases hs with
  | opened hd ho =>
    obtain ⟨_,-,ho⟩ := bind_ok ho
    obtain ⟨key,hkey,ho⟩ := bind_ok ho
    cases ho
    obtain ⟨rfl,-⟩ := h.openDek hp hd hkey
    exact ⟨key,h,rfl⟩
  | created hd hr hl hby hne =>
    cases h.unsealed hd
    exact ⟨_,h.putKey (fun _ hd => by cases hd) hl hne ⟨_,hr,hby⟩,rfl⟩

theorem Inv.migrating (hp : p.Ideal) (h : Inv p sodium s dek) {passphrase : String}
    (hm : Migration.Migrating p passphrase s t) : ∃ d, Inv p sodium t (some d) := by
  obtain ⟨v,db,budget,hstart,hv,-,-,hprog⟩ := hm
  obtain ⟨d,hkept,rfl⟩ := h.kept.start hp hstart
  refine ⟨d,hkept.progress hprog,fun v' hv' => ⟨d,rfl,?_⟩⟩
  exact Option.some.inj (hv'.symm.trans hv)

theorem Inv.unlock (hp : p.Ideal) (h : Inv p sodium s dek) (passphrase : String)
    (params : VaultParams) :
    Ensures s (unlock p w passphrase params) (fun _ t => ∃ dek, Inv p sodium t dek)
      (fun t => ∃ dek, Inv p sodium t dek) := by
  cases hl : s.isUnlocked with
  | true =>
    exact (Migration.ensures_unlock_unlocked passphrase params hl).mono
      (fun _ _ ht => ⟨dek,h.same ht.1 (.inl ht.2.1)⟩) fun _ ht => ⟨dek,h.same ht.1 (.inl ht.2.1)⟩
  | false =>
    refine (Migration.ensures_unlock_locked passphrase params hl).mono ?_ ?_
    · intro _ t ht
      obtain ⟨d,hd⟩ := h.migrating hp ht.2
      exact ⟨some d,hd⟩
    · rintro t (⟨hdb,hv⟩ | hm)
      · exact ⟨dek,h.same hdb (.inl hv)⟩
      · obtain ⟨d,hd⟩ := h.migrating hp hm
        exact ⟨some d,hd⟩

theorem inv_initial : Inv p sodium {} none where
  kept := ⟨rfl,rfl,rfl,fun _ => rfl,fun r hr => (by cases hr),fun r hr => (by cases hr),
    fun r hr => (by cases hr)⟩
  vault v hv := by cases hv

theorem inv_step (hp : p.Ideal) (hsha : ∀ bs, (sodium.sha256 bs).length = 32) (s : Session)
    (call : Call) (t : Session) (h : ∃ dek, Inv p sodium s dek)
    (hs : step p w sodium hash s call = some t) : ∃ dek, Inv p sodium t dek := by
  obtain ⟨dek,h⟩ := h
  have hfree : Inv p sodium { s with budget := none } dek := h.same rfl (.inl rfl)
  cases call with
  | unlock passphrase params =>
    cases hs
    exact (hfree.unlock hp passphrase params).state rfl
  | initTrip passphrase =>
    cases hs
    exact ⟨dek,(hfree.initTrip passphrase).state rfl⟩
  | generateTrip passphrase params =>
    cases hs
    exact ⟨dek,(hfree.generateTrip passphrase params).state rfl⟩
  | loadOrMine passphrase params vaultParams =>
    cases hs
    exact ⟨dek,(hfree.loadOrMine hsha passphrase params vaultParams).state rfl⟩
  | changePassphrase oldPassphrase newPassphrase params =>
    cases hs
    exact ⟨dek,(hfree.changePassphrase hp oldPassphrase newPassphrase params).state rfl⟩
  | lock =>
    cases hs
    exact ⟨dek,h.same rfl (.inr rfl)⟩
  | reload =>
    cases hs
    exact ⟨dek,h.same rfl (.inr rfl)⟩

theorem exec_resealSlot (h : Kept p sodium s.db dek) (hb : s.budget = none) {slot : String}
    (hslot : slot ∈ ["trip","node"]) (passphrase : String) (params : VaultParams) :
    exec (resealSlot p w passphrase params slot) s = (.ok (),s) := by
  rw [resealSlot,exec_bind,exec_read hb]
  dsimp only
  split
  · next sealed emeta metadata updatedAt hr =>
    rw [if_pos (h.isProtected hslot hr rfl)]
    rfl
  · rfl

/-- Without rows of an earlier version the migration changes nothing. -/
theorem exec_migrateLegacy (h : Kept p sodium s.db dek) (hb : s.budget = none)
    (passphrase : String) (params : VaultParams) :
    exec (migrateLegacy p w passphrase params) s = (.ok (),s) := by
  have htrip : exec (resealSlot p w passphrase params "trip") s = (.ok (),s) :=
    exec_resealSlot h hb (by simp) passphrase params
  have hnode : exec (resealSlot p w passphrase params "node") s = (.ok (),s) :=
    exec_resealSlot h hb (by simp) passphrase params
  simp [migrateLegacy,migrateMailbox,migratePosts,migrateThreads,exec_bind,h.mailbox,h.posts,
    h.threads,htrip,hnode]

/-- A page that has just been unlocked with the data key. -/
def unlocked (p : Primitives) (s : Session) (d : Bytes) : Session :=
  { reloaded s with budget := none, opened := true, vault := some (DataVault.fromDek p d) }

/-- A page unlocks with the passphrase its data key is sealed with. -/
theorem perform_unlock (hp : p.Ideal) (h : Kept p sodium s.db dek) {r : IdentityRecord}
    {d : Bytes} {passphrase : String} (hr : JsMap.get s.db.identity dekSlot = some r)
    (hseals : Seals p r d passphrase) (hne : passphrase ≠ "")
    (hlen : d.length = DataVault.dekBytes) (params : VaultParams) :
    perform (IndexedDBStore.unlock p w passphrase params) (reloaded s) =
      (.ok (),unlocked p s d) := by
  obtain ⟨sealed,hs,hby⟩ := hseals
  have hd : s.db.dek = some sealed := by rw [Database.dek,hr,Option.bind_some,hs]
  have ho := DataVault.openDek_ok hne ((hby.openSealed_iff hp passphrase d).mpr ⟨rfl,rfl⟩) hlen
  have hinit : exec init { reloaded s with budget := none } =
      (.ok (),{ reloaded s with budget := none, opened := true }) := by
    simp [init,exec_bind,reloaded,exec_write]
  have hlegacy : exec (migrateLegacy p w passphrase params) (unlocked p s d) =
      (.ok (),unlocked p s d) :=
    exec_migrateLegacy (s := unlocked p s d) h rfl passphrase params
  rw [perform,IndexedDBStore.unlock,exec_bind,hinit]
  simp only [exec_bind,exec_read,exec_get,reloaded,Session.isUnlocked,hd,ho,exec_lift_ok,
    exec_modify,Bool.false_eq_true,if_false]
  exact hlegacy

/-- The identity of a node is restored by the passphrase it was sealed with. -/
theorem loadOrMine_iff (hp : p.Ideal) (ho : s.opened = true)
    (hv : s.vault = some (DataVault.fromDek p d)) {r : IdentityRecord}
    (hr : JsMap.get s.db.identity NodeIdentityStore.nodeSlot = some r) {identity : NodeIdentity}
    {q : String} (hnode : NodeRecord p sodium d r identity q) {passphrase : String}
    (hne : passphrase ≠ "") {params : NodeIdentity.PowParams}
    (hclaim : NodeIdentity.verifyClaim sodium identity.claim params = true)
    (vaultParams : VaultParams) :
    (perform (NodeIdentityStore.loadOrMine p w sodium passphrase params vaultParams) s).1 =
      .ok identity ↔ passphrase = q := by
  obtain ⟨sealed,hs,hby⟩ := hnode.sealed
  have hslot : NodeIdentityStore.nodeSlot ≠ dekSlot := by decide
  obtain ⟨m,hm,hsame⟩ := exec_getSealed_meta (s := { s with budget := none }) hp ho rfl hslot hr hs
    hv hnode.metadata (DataVault.fromDek_isOpen d)
  rw [perform,NodeIdentityStore.loadOrMine,if_neg hne,exec_bind,NodeIdentityStore.tryLoad,exec_bind,
    hm]
  dsimp only
  by_cases hq : passphrase = q
  · rw [(hby.openSealed_iff hp passphrase _).mpr ⟨hq,rfl⟩]
    dsimp only
    rw [NodeIdentityStore.restore_eq hnode.privkey hnode.derived hsame hclaim]
    exact ⟨fun _ => hq,fun _ => rfl⟩
  · have hopen : SecretVault.openSealed p sealed passphrase = none := by
      rw [Option.eq_none_iff_forall_ne_some]
      exact fun opened ho => hq ((hby.openSealed_iff hp passphrase opened).mp ho).1
    rw [hopen]
    exact ⟨fun h => (by cases h),fun h => absurd h hq⟩

/-- A trip is restored by the passphrase it was sealed with. -/
theorem initTrip_iff (hp : p.Ideal) (ho : s.opened = true) {r : IdentityRecord}
    (hr : JsMap.get s.db.identity Identity.tripSlot = some r) (he : r.emeta = .undefined)
    {pair : KeyPair} {q : String} (htrip : TripRecord p r pair q) (passphrase : String) :
    (∃ t, perform (Identity.initTrip p passphrase) s = (.ok true,t) ∧ t.tripKeyPair = some pair) ↔
      passphrase = q := by
  obtain ⟨sealed,hs,hby⟩ := htrip.sealed
  have hexec := Identity.exec_initTrip (p := p) (s := { s with budget := none }) ho rfl hr hs he passphrase
  rw [perform,hexec]
  constructor
  · rintro ⟨t,ht,-⟩
    cases hopen : SecretVault.openSealed p sealed passphrase with
    | none =>
      rw [hopen] at ht
      cases ht
    | some opened => exact ((hby.openSealed_iff hp passphrase opened).mp hopen).1
  · intro hq
    rw [(hby.openSealed_iff hp passphrase _).mpr ⟨hq,rfl⟩]
    exact ⟨_,rfl,congrArg some (KeyPair.ofSecret_secret htrip.privateKey)⟩

theorem Kept.key_unique (hp : p.Ideal) (h : Kept p sodium db dek) {d : Bytes}
    (hd : HoldsKey p db d) : dek = some d := by
  obtain ⟨r,q,hr,hseals⟩ := hd
  obtain ⟨d',q',hdek,-,-,hseals'⟩ := h.key r hr
  obtain ⟨-,rfl⟩ := hseals.unique hp hseals'
  exact hdek

theorem Kept.holdsKey (h : Kept p sodium db dek) {d : Bytes} (hd : dek = some d) :
    HoldsKey p db d := by
  cases hr : JsMap.get db.identity dekSlot with
  | none => cases (h.unkeyed hr).symm.trans hd
  | some r =>
    obtain ⟨d',q,hd',-,-,hseals⟩ := h.key r hr
    cases hd.symm.trans hd'
    exact ⟨r,q,hr,hseals⟩

/-- An unlocked page on a database in which only the data key has been sealed again. -/
theorem opened_iff (hp : p.Ideal) (h : Kept p sodium db (some d)) (ho : s.opened = true)
    (hv : s.vault = some (DataVault.fromDek p d))
    (hslots : ∀ slot, slot ≠ dekSlot →
      JsMap.get s.db.identity slot = JsMap.get db.identity slot)
    {passphrase : String} (hne : passphrase ≠ "") :
    Opened p w sodium db passphrase s ↔ SealedWith p db passphrase := by
  have htrip : JsMap.get s.db.identity Identity.tripSlot = _ := hslots _ (by decide)
  have hnode : JsMap.get s.db.identity NodeIdentityStore.nodeSlot = _ := hslots _ (by decide)
  constructor
  · intro hopened slot hslot r hr
    obtain rfl | rfl : slot = Identity.tripSlot ∨ slot = NodeIdentityStore.nodeSlot := by
      simpa using hslot
    · obtain ⟨pair,q,-,he,hrec⟩ := h.trip r hr
      have hq := (initTrip_iff hp ho (htrip.trans hr) he hrec passphrase).mp
        (hopened.trip pair ⟨r,q,hr,hrec⟩)
      exact ⟨pair.secret,hq ▸ hrec.sealed⟩
    · obtain ⟨d',identity,q,params,hd,-,hclaim,hrec⟩ := h.node r hr
      cases hd
      have hq := (loadOrMine_iff hp ho hv (hnode.trans hr) hrec hne hclaim ⟨0,0⟩).mp
        (hopened.node identity ⟨r,d,q,h.holdsKey rfl,hr,hrec⟩ params ⟨0,0⟩ hclaim)
      exact ⟨_,hq ▸ hrec.sealed⟩
  · intro hsealed
    refine ⟨fun dek hdek => ?_,fun pair ⟨r,q,hr,hrec⟩ => ?_,
      fun identity ⟨r,d',q,hkey,hr,hrec⟩ params vaultParams hclaim => ?_⟩
    · cases h.key_unique hp hdek
      exact hv
    · obtain ⟨_,_,-,he,-⟩ := h.trip r hr
      obtain ⟨secret,hseals⟩ := hsealed _ (by simp) r hr
      exact (initTrip_iff hp ho (htrip.trans hr) he hrec passphrase).mpr
        (hseals.unique hp hrec.sealed).1
    · cases h.key_unique hp hkey
      obtain ⟨secret,hseals⟩ := hsealed _ (by simp) r hr
      exact (loadOrMine_iff hp ho hv (hnode.trans hr) hrec hne hclaim vaultParams).mpr
        (hseals.unique hp hrec.sealed).1

/-- After a history and a change of the passphrase the next start restores every key that was
stored, if and only if the keys beside the data key had been sealed with the new passphrase. -/
theorem restores_iff (hp : p.Ideal) (hsha : ∀ bs, (sodium.sha256 bs).length = 32)
    {calls : List Call} (hr : Machine.run (step p w sodium hash) {} calls = some s)
    {oldPassphrase newPassphrase : String} {params : VaultParams}
    (ht : perform (changePassphrase p w oldPassphrase newPassphrase params) s = (.ok (),t)) :
    Restores p w sodium s.db newPassphrase t ↔ SealedWith p s.db newPassphrase := by
  obtain ⟨dek,hinv⟩ := Machine.invariant_run' (inv_step hp hsha) ⟨none,inv_initial⟩ hr
  have hfree : Inv p sodium { s with budget := none } dek := hinv.same rfl (.inl rfl)
  have hti := (hfree.changePassphrase hp oldPassphrase newPassphrase params).ok ht
  obtain ⟨-,r,d,rfl,hlen,hne,hseals,hdb⟩ :=
    (ensures_changePassphrase hp hfree.kept oldPassphrase newPassphrase params).ok ht
  have hkey : JsMap.get t.db.identity dekSlot = some r := by
    rw [hdb]
    exact JsMap.get_set_self _ _ _
  have hslots : ∀ slot, slot ≠ dekSlot →
      JsMap.get (unlocked p t d).db.identity slot = JsMap.get s.db.identity slot := by
    intro slot hslot
    change JsMap.get t.db.identity slot = _
    rw [hdb]
    exact JsMap.get_set_ne _ hslot r
  have hunlock : ∀ params, perform (IndexedDBStore.unlock p w newPassphrase params) (reloaded t) =
      (.ok (),unlocked p t d) := perform_unlock hp hti.kept hkey hseals hne hlen
  have hopened : Opened p w sodium s.db newPassphrase (unlocked p t d) ↔
      SealedWith p s.db newPassphrase := opened_iff hp hinv.kept rfl rfl hslots hne
  rw [← hopened]
  constructor
  · intro hrestores
    obtain ⟨u,hu,h⟩ := hrestores params
    cases (hunlock params).symm.trans hu
    exact h
  · exact fun h params => ⟨_,hunlock params,h⟩

end Proofs

/-! A stand-in that encodes the metadata of one identity. -/

namespace Sample

def sodium : Sodium where
  sha256 _ := List.replicate 32 0
  pwhash _ _ _ _ := List.replicate 32 0
  signDetached _ _ := List.replicate 64 0
  verifyDetached _ _ _ := true

def nodeMeta : Val := .obj [
  ("powCounter",.num (.fin 0)),
  ("peerId",.str "00000000000000000000000000000000")]

def encode : Val → Except Thrown Bytes
  | .obj [("powCounter",.num n),("peerId",.str peerId)] =>
    if n = .fin 0 ∧ peerId = "00000000000000000000000000000000" then .ok [1]
    else .error (.error "not encoded")
  | _ => .error (.error "not encoded")

def decode (bs : Bytes) : Option Val := if bs = [1] then some nodeMeta else none

theorem decode_encode {v : Val} {bs : Bytes} (h : encode v = .ok bs) : decode bs = some v := by
  unfold encode at h
  split at h
  · split at h
    · next hv =>
      obtain ⟨rfl,rfl⟩ := hv
      cases h
      rfl
    · cases h
  · cases h

def primitives : Primitives := { sample with encode := encode, decode := decode }

theorem ideal : primitives.Ideal where
  box := sample_ideal.box
  boxKey := sample_ideal.boxKey
  passphrase := sample_ideal.passphrase
  limits := sample_ideal.limits
  aead := sample_ideal.aead
  tag := sample_ideal.tag
  hash := sample_ideal.hash
  encoding v _ h := ⟨v,decode_encode h,rfl⟩

theorem sha256_length (bs : Bytes) : (sodium.sha256 bs).length = 32 := by simp [sodium]

abbrev next : Session → Call → Option Session := step primitives sampleWorld sodium id

def params : VaultParams := ⟨1,8192⟩

def change (s : Session) : Except Thrown Unit × Session :=
  perform (changePassphrase primitives sampleWorld "a" "b" params) s

/-- Both keys are stored with the passphrase that the page changes to. -/
def rekeyedRun : List Call := [
  .unlock "a" params,
  .generateTrip "b" params,
  .loadOrMine "b" ⟨0,1,8192⟩ params]

/-- The trip is stored with the passphrase of the page. -/
def keptRun : List Call := [.unlock "a" params,.generateTrip "a" params]

/-- Whether the key in a slot opens with the new passphrase. -/
def opens (s : Session) (slot : String) : Bool :=
  match (JsMap.get s.db.identity slot).bind IdentityRecord.sealed with
  | some sealed => (SecretVault.openSealed primitives sealed "b").isSome
  | none => false

end Sample

section Samples
open PassphraseChange.Sample

theorem stored_of_opens {s : Session} {slot : String} (h : opens s slot = true) :
    ∃ r, JsMap.get s.db.identity slot = some r := by
  cases hr : JsMap.get s.db.identity slot with
  | none => simp [opens,hr] at h
  | some r => exact ⟨r,rfl⟩

theorem sealedWith_of_opens {s : Session} {dek : Option Bytes} (h : Kept primitives sodium s.db dek)
    (hs : ∀ slot ∈ [Identity.tripSlot,NodeIdentityStore.nodeSlot], opens s slot = true) :
    SealedWith primitives s.db "b" := by
  intro slot hslot r hr
  have hopens := hs slot hslot
  obtain ⟨secret,q,sealed,hsealed,hby⟩ : ∃ secret q, Seals primitives r secret q := by
    obtain rfl | rfl : slot = Identity.tripSlot ∨ slot = NodeIdentityStore.nodeSlot := by
      simpa using hslot
    · obtain ⟨pair,q,-,-,hrec⟩ := h.trip r hr
      exact ⟨_,q,hrec.sealed⟩
    · obtain ⟨d,identity,q,params,-,-,-,hrec⟩ := h.node r hr
      exact ⟨_,q,hrec.sealed⟩
  simp only [opens,hr,Option.bind_some,hsealed,Option.isSome_iff_exists] at hopens
  obtain ⟨opened,hopened⟩ := hopens
  obtain ⟨rfl,-⟩ := (hby.openSealed_iff ideal "b" opened).mp hopened
  exact ⟨secret,sealed,hsealed,hby⟩

theorem kept_run {calls : List Call} {s : Session} (hr : Machine.run next {} calls = some s) :
    ∃ dek, Kept primitives sodium s.db dek := by
  obtain ⟨dek,h⟩ := Machine.invariant_run' (inv_step ideal sha256_length)
    ⟨none,inv_initial⟩ hr
  exact ⟨dek,h.kept⟩

theorem restores_iff_rekeyedRun : ∃ s t, Machine.run next {} rekeyedRun = some s ∧
    change s = (.ok (),t) ∧ (∃ pair, HoldsTrip primitives s.db pair) ∧
      (∃ identity, HoldsNode primitives sodium s.db identity) ∧
        Restores primitives sampleWorld sodium s.db "b" t := by
  have hrun : (Machine.run next {} rekeyedRun).map (fun s => !throws (change s).1 &&
      [Identity.tripSlot,NodeIdentityStore.nodeSlot].all (opens s)) = some true := by
    decide +kernel
  obtain ⟨s,hs,hsum⟩ := Option.map_eq_some_iff.mp hrun
  simp only [Bool.and_eq_true,Bool.not_eq_true',List.all_eq_true] at hsum
  obtain ⟨dek,h⟩ := kept_run hs
  cases ht : change s with
  | mk result t =>
    rw [ht] at hsum
    obtain ⟨a,rfl⟩ := throws_eq_false hsum.1
    have hsealed := sealedWith_of_opens h hsum.2
    refine ⟨s,t,hs,ht,?_,?_,(restores_iff ideal sha256_length hs ht).mpr hsealed⟩
    · obtain ⟨r,hr⟩ := stored_of_opens (hsum.2 Identity.tripSlot (by simp))
      obtain ⟨pair,q,-,-,hrec⟩ := h.trip r hr
      exact ⟨pair,r,q,hr,hrec⟩
    · obtain ⟨r,hr⟩ := stored_of_opens (hsum.2 NodeIdentityStore.nodeSlot (by simp))
      obtain ⟨d,identity,q,_,hd,-,-,hrec⟩ := h.node r hr
      exact ⟨identity,r,d,q,h.holdsKey hd,hr,hrec⟩

/-- A trip that was stored with the passphrase of the page does not survive its change. -/
theorem restores_not_keptRun : ¬∀ (calls : List Call) (s t : Session),
    Machine.run next {} calls = some s → change s = (.ok (),t) →
      Restores primitives sampleWorld sodium s.db "b" t := by
  intro h
  have hrun : (Machine.run next {} keptRun).map (fun s => !throws (change s).1 &&
      (JsMap.get s.db.identity Identity.tripSlot).isSome &&
        (let u := (perform (unlock primitives sampleWorld "b" params) (reloaded (change s).2)).2
        (perform (Identity.initTrip primitives "b") u).1.toOption == some false)) = some true := by
    decide +kernel
  obtain ⟨s,hs,hsum⟩ := Option.map_eq_some_iff.mp hrun
  simp only [Bool.and_eq_true,Bool.not_eq_true',beq_iff_eq,Option.isSome_iff_exists] at hsum
  obtain ⟨⟨hok,r,hr⟩,hlost⟩ := hsum
  obtain ⟨dek,hkept⟩ := kept_run hs
  obtain ⟨pair,q,-,-,hrec⟩ := hkept.trip r hr
  cases ht : change s with
  | mk result t =>
    rw [ht] at hok hlost
    obtain ⟨a,rfl⟩ := throws_eq_false hok
    obtain ⟨u,hu,hopened⟩ := h keptRun s t hs ht params
    obtain ⟨x,hx,-⟩ := hopened.trip pair ⟨r,q,hr,hrec⟩
    rw [hu,hx] at hlost
    cases hlost

end Samples

end PassphraseChange

end Storage
