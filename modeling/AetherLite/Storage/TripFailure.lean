import AetherLite.Storage.PassphraseChange

/-! What a trip is after the store has failed. The key pair in memory is replaced before the
store is asked to keep it, and given up before the store is asked to forget it. -/
set_option autoImplicit false

namespace Storage.Identity

open Js Program IndexedDBStore PassphraseChange

inductive TripCall where
  | generateTrip (passphrase : String) (params : VaultParams)
  | deleteTrip

section
variable (p : Primitives) (w : World) (hash : Bytes → Bytes)

def TripCall.run : TripCall → Action Unit
  | .generateTrip passphrase params => do
    let _ ← Identity.generateTrip p w hash passphrase params
    pure ()
  | .deleteTrip => Identity.deleteTrip

/-- A trip that is loaded is the one that is stored. -/
def Agrees (s : Session) : Prop := ∀ pair, s.tripKeyPair = some pair → HoldsTrip p s.db pair

/-- The trip in memory, the name it is shown under and its slot are as they were. -/
structure Unchanged (s t : Session) : Prop where
  loaded : t.tripKeyPair = s.tripKeyPair
  display : tripDisplay hash t.tripKeyPair = tripDisplay hash s.tripKeyPair
  slot : JsMap.get t.db.identity tripSlot = JsMap.get s.db.identity tripSlot
  agrees : Agrees p s → Agrees p t

/-- The call fails, and leaves the trip as it was. -/
def FailsSafely (c : TripCall) (s : Session) : Prop :=
  ∃ e t, exec (c.run p w hash) s = (.error e,t) ∧ Unchanged p hash s t

/-- There is nothing to replace or to give up. -/
def Harmless (s : Session) : TripCall → Prop
  | .generateTrip passphrase _ =>
    passphrase = "" ∨ s.tripKeyPair = some (w.keypair s.drawn).val
  | .deleteTrip => s.tripKeyPair = none

/-- The trip in memory after the store has failed. -/
def loadedAfter (s : Session) : TripCall → Option KeyPair
  | .generateTrip passphrase _ =>
    if passphrase = "" then s.tripKeyPair else some (w.keypair s.drawn).val
  | .deleteTrip => none

end

section
variable {p : Primitives} {w : World} {hash : Bytes → Bytes} {s : Session} {c : TripCall}

theorem loadedAfter_eq_iff : loadedAfter w s c = s.tripKeyPair ↔ Harmless w s c := by
  cases c with
  | generateTrip passphrase params =>
    dsimp only [loadedAfter,Harmless]
    split
    · next h => exact ⟨fun _ => .inl h,fun _ => rfl⟩
    · next h => exact ⟨fun heq => .inr heq.symm,fun hor => (hor.resolve_left h).symm⟩
  | deleteTrip => exact eq_comm

theorem fails_generateTrip (ho : s.opened = true) (hb : s.budget = some 0) (passphrase : String)
    (params : VaultParams) :
    Ensures s (generateTrip p w hash passphrase params) (fun _ _ => False)
      (fun t => t.db = s.db ∧ t.tripKeyPair =
        if passphrase = "" then s.tripKeyPair else some (w.keypair s.drawn).val) := by
  unfold generateTrip
  split
  · exact ensures_throw ⟨rfl,rfl⟩
  let u := { s with drawn := s.drawn+1, tripKeyPair := some (w.keypair s.drawn).val }
  have hdone {t : Session} (ht : u.Does 0 s.db t) :
      t.db = s.db ∧ t.tripKeyPair = some (w.keypair s.drawn).val := ⟨ht.db_eq,ht.tripKeyPair_eq⟩
  have hrest : Ensures u (do
      let sealed ← sealSecret p w (w.keypair s.drawn).val.secret passphrase params
      saveSealed p w tripSlot sealed .undefined
      pure (tripDisplay hash (← get).tripKeyPair)) (fun _ _ => False)
      (fun t => t.db = s.db ∧ t.tripKeyPair = some (w.keypair s.drawn).val) := by
    refine ((ensures_sealSecret _ passphrase params).mono (fun _ _ h => h.1) fun _ h =>
      hdone h).bind ?_
    intro sealed t ht
    refine Ensures.bind (Q := fun _ _ => False)
      ((ensures_saveSealed tripSlot sealed .undefined).mono (fun _ x hx => ?_) fun x hx =>
        hdone (ht.draw hx)) fun _ _ h => h.elim
    obtain ⟨hclosed,-⟩ | ⟨_,-,-,-,hdoes⟩ := hx
    · rw [ht.opened_eq] at hclosed
      exact absurd (ho.symm.trans hclosed) (by decide)
    · have hone := (ht.after_draw hdoes).affords 0 hb
      omega
  exact hrest

theorem fails_deleteTrip (ho : s.opened = true) (hb : s.budget = some 0) :
    Ensures s deleteTrip (fun _ _ => False) (fun t => t.db = s.db ∧ t.tripKeyPair = none) := by
  unfold deleteTrip
  refine Ensures.bind (Q := fun _ t => t = { s with tripKeyPair := none })
    (ensures_modify rfl) ?_
  rintro _ t rfl
  unfold deleteSealed
  refine ensures_get_bind ?_
  rw [if_neg (by simp [ho,tripSlot,dekSlot])]
  refine (ensures_write _).mono (fun _ x hx => ?_) fun x hx => hx.1 ▸ ⟨rfl,rfl⟩
  have hone := hx.affords 0 hb
  omega

variable (p w hash) in
/-- When the store fails the call does, the database is as it was, and the trip in memory is
what the call has made of it by then. -/
theorem fails_run (ho : s.opened = true) (hb : s.budget = some 0) (c : TripCall) :
    ∃ e t, exec (c.run p w hash) s = (.error e,t) ∧ t.db = s.db ∧
      t.tripKeyPair = loadedAfter w s c := by
  have hfails : Ensures s (c.run p w hash) (fun _ _ => False)
      (fun t => t.db = s.db ∧ t.tripKeyPair = loadedAfter w s c) := by
    cases c with
    | generateTrip passphrase params =>
      exact (fails_generateTrip ho hb passphrase params).bind fun _ _ h => h.elim
    | deleteTrip => exact fails_deleteTrip ho hb
  cases hx : exec (c.run p w hash) s with
  | mk r t =>
    cases r with
    | ok a => exact (hfails.ok hx).elim
    | error e => exact ⟨e,t,rfl,hfails.thrown hx⟩

/-- A failure of the store leaves the trip as it was just when there was nothing to replace or
to give up. -/
theorem failsSafely_iff (ho : s.opened = true) (hb : s.budget = some 0) (c : TripCall) :
    FailsSafely p w hash c s ↔ Harmless w s c := by
  obtain ⟨e,t,hx,hdb,hloaded⟩ := fails_run p w hash ho hb c
  rw [← loadedAfter_eq_iff]
  constructor
  · rintro ⟨e',t',hx',hsafe⟩
    cases hx.symm.trans hx'
    exact hloaded.symm.trans hsafe.loaded
  · intro heq
    have hsame := hloaded.trans heq
    refine ⟨e,t,hx,hsame,congrArg _ hsame,by rw [hdb],fun h pair hpair => ?_⟩
    rw [hdb]
    exact h pair (hsame.symm.trans hpair)

end

section Samples
open PassphraseChange.Sample

abbrev failsInSample : TripCall → Session → Prop := FailsSafely primitives sampleWorld id

/-- No trip, and a store that is open but writes nothing more. -/
def namelessPage : Session := { opened := true, budget := some 0 }

/-- A trip that was stored and is loaded, and the same store. -/
def tripPage : Session :=
  { (perform (generateTrip primitives sampleWorld id "a" params) { opened := true }).2 with
    budget := some 0 }

theorem tripPage_opened : tripPage.opened = true := by decide +kernel

theorem tripPage_loaded : tripPage.tripKeyPair.isSome = true := by decide +kernel

theorem failsSafely_namelessPage : failsInSample .deleteTrip namelessPage :=
  (failsSafely_iff rfl rfl _).mpr rfl

/-- A trip that was never stored is used from then on, or one that is still stored is not. -/
theorem not_failsSafely :
    ¬failsInSample (.generateTrip "a" params) namelessPage ∧ ¬failsInSample .deleteTrip tripPage := by
  constructor
  · rintro ⟨e,t,hx,hsafe⟩
    obtain ⟨e',t',hx',-,hloaded⟩ := fails_run primitives sampleWorld id
      (s := namelessPage) rfl rfl (.generateTrip "a" params)
    cases hx.symm.trans hx'
    cases hsafe.loaded.symm.trans hloaded
  · rintro ⟨e,t,hx,hsafe⟩
    obtain ⟨e',t',hx',-,hloaded⟩ := fails_run primitives sampleWorld id
      (s := tripPage) tripPage_opened rfl .deleteTrip
    cases hx.symm.trans hx'
    have hnone : tripPage.tripKeyPair = none := hsafe.loaded.symm.trans hloaded
    have hsome := tripPage_loaded
    rw [hnone] at hsome
    cases hsome

end Samples

end Storage.Identity
