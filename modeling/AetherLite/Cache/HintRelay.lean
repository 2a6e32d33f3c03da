import AetherLite.Cache.Hint
import AetherLite.Lib.JsMap
import AetherLite.Lib.Sha256

/-! The relaying of hints by the cache node. -/
set_option autoImplicit false

namespace Cache

/-- The clock is in milliseconds. -/
structure SeenCache where
  cache : JsMap String Nat := []
  order : List String := []
  maxSize : Nat
  ttl : Nat

namespace SeenCache

/-- What is out of date is dropped, though not from the order. -/
def has (c : SeenCache) (id : String) (now : Nat) : Bool × SeenCache :=
  match JsMap.get c.cache id with
  | some timestamp =>
    if now-timestamp < c.ttl then (true,c) else (false,{ c with cache := JsMap.delete c.cache id })
  | none => (false,c)

def add (c : SeenCache) (id : String) (now : Nat) : SeenCache :=
  if JsMap.has c.cache id then c
  else
    let cache := JsMap.set c.cache id now
    match c.order ++ [id] with
    | [] => { c with cache, order := [] }
    | oldest :: rest =>
      if rest.length+1 > c.maxSize then
        { c with cache := JsMap.delete cache oldest, order := rest }
      else { c with cache, order := oldest :: rest }

/-- The id was never added, or has been pushed out. -/
structure Unseen (c : SeenCache) (id : String) : Prop where
  cache : JsMap.get c.cache id = none
  order : id ∉ c.order

section
variable {c : SeenCache} {id : String} {now : Nat}

theorem Unseen.has (h : c.Unseen id) : c.has id now = (false,c) := by
  simp [SeenCache.has,h.cache]

theorem has_of_get {timestamp : Nat} (h : JsMap.get c.cache id = some timestamp)
    (hnow : now < timestamp+c.ttl) (hpos : timestamp ≤ now) : c.has id now = (true,c) := by
  have hlt : now-timestamp < c.ttl := by omega
  simp [SeenCache.has,h,hlt]

@[simp] theorem add_ttl (c : SeenCache) (id : String) (now : Nat) : (c.add id now).ttl = c.ttl := by
  unfold add
  split
  · rfl
  · dsimp only
    split
    · rfl
    · split
      · rfl
      · rfl

/-- What is added is not what is pushed out. -/
theorem Unseen.get_add (h : c.Unseen id) (hmax : 0 < c.maxSize) :
    JsMap.get (c.add id now).cache id = some now := by
  have hhas : JsMap.has c.cache id = false := by simp [JsMap.has,h.cache]
  unfold add
  simp only [hhas,Bool.false_eq_true,if_false]
  cases horder : c.order with
  | nil =>
    have hroom : ¬0+1 > c.maxSize := by omega
    simp [hroom]
  | cons oldest rest =>
    have hne : id ≠ oldest := by
      rintro rfl
      exact h.order (by simp [horder])
    simp only [List.cons_append]
    split
    · rw [JsMap.get_delete_ne hne,JsMap.get_set_self]
    · rw [JsMap.get_set_self]

end

end SeenCache

/-- `P2PMessage::Hint` -/
structure HintMessage where
  ttl : UInt8
  view : HintView

structure Broadcast where
  excludePeerId : Option String
  message : HintMessage

structure Arrival where
  now : Nat
  peerId : String
  message : HintMessage

section
variable (sha256 : Bytes → Bytes)

def HintView.id (h : HintView) : Option String :=
  h.preimage.map fun pre => Bytes.toHex (sha256 pre)

/-- The hint is remembered before its ttl is looked at. -/
def handleHint (hintSeen : SeenCache) (a : Arrival) : SeenCache × List Broadcast :=
  match a.message.view.check sha256 hintPowDifficulty with
  | .error _ => (hintSeen,[])
  | .ok () =>
    match a.message.view.id sha256 with
    | none => (hintSeen,[])
    | some id =>
      let found := hintSeen.has id a.now
      if found.1 then (found.2,[])
      else
        let hintSeen := found.2.add id a.now
        if a.message.ttl = 0 then (hintSeen,[])
        else (hintSeen,[⟨some a.peerId,{ a.message with ttl := a.message.ttl-1 }⟩])

/-- The hints that are relayed as these arrive. -/
def relays : SeenCache → List Arrival → List Broadcast
  | _, [] => []
  | hintSeen, a :: arrivals =>
    let handled := handleHint sha256 hintSeen a
    handled.2 ++ relays handled.1 arrivals

end

section
variable {sha256 : Bytes → Bytes} {hintSeen : SeenCache} {h : HintView} {id : String}

theorem handleHint_seen (hgood : h.check sha256 hintPowDifficulty = .ok ())
    (hid : h.id sha256 = some id) {timestamp : Nat}
    (hget : JsMap.get hintSeen.cache id = some timestamp) {a : Arrival} (ha : a.message.view = h)
    (hpast : timestamp ≤ a.now) (hnow : a.now < timestamp+hintSeen.ttl) :
    handleHint sha256 hintSeen a = (hintSeen,[]) := by
  simp [handleHint,ha,hgood,hid,SeenCache.has_of_get hget hnow hpast]

theorem handleHint_unseen (hgood : h.check sha256 hintPowDifficulty = .ok ())
    (hid : h.id sha256 = some id) (hnew : hintSeen.Unseen id) {a : Arrival}
    (ha : a.message.view = h) :
    handleHint sha256 hintSeen a = (hintSeen.add id a.now,
      if a.message.ttl = 0 then []
      else [⟨some a.peerId,{ a.message with ttl := a.message.ttl-1 }⟩]) := by
  simp only [handleHint,ha,hgood,hid,hnew.has,Bool.false_eq_true,if_false]
  split
  · rfl
  · rfl

theorem relays_seen (hgood : h.check sha256 hintPowDifficulty = .ok ())
    (hid : h.id sha256 = some id) {timestamp : Nat}
    (hget : JsMap.get hintSeen.cache id = some timestamp) {arrivals : List Arrival}
    (hcopies : ∀ a ∈ arrivals, a.message.view = h)
    (htime : ∀ a ∈ arrivals, timestamp ≤ a.now ∧ a.now < timestamp+hintSeen.ttl) :
    relays sha256 hintSeen arrivals = [] := by
  induction arrivals with
  | nil => rfl
  | cons a arrivals ih =>
    have ha := htime a List.mem_cons_self
    have hseen := handleHint_seen hgood hid hget (hcopies a List.mem_cons_self) ha.1 ha.2
    simp only [relays,hseen,List.nil_append]
    exact ih (fun b hb => hcopies b (List.mem_cons_of_mem a hb))
      (fun b hb => htime b (List.mem_cons_of_mem a hb))

/-- Of copies of one hint only the first counts. -/
theorem relays_copies (hgood : h.check sha256 hintPowDifficulty = .ok ())
    (hid : h.id sha256 = some id) (hnew : hintSeen.Unseen id) (hmax : 0 < hintSeen.maxSize)
    {a : Arrival} {arrivals : List Arrival} (hcopies : ∀ b ∈ a :: arrivals, b.message.view = h)
    (htime : ∀ b ∈ arrivals, a.now ≤ b.now ∧ b.now < a.now+hintSeen.ttl) :
    relays sha256 hintSeen (a :: arrivals) = [] ↔ a.message.ttl = 0 := by
  have hrest : relays sha256 (hintSeen.add id a.now) arrivals = [] :=
    relays_seen hgood hid (hnew.get_add hmax) (fun b hb => hcopies b (List.mem_cons_of_mem a hb))
      (by simpa using htime)
  simp only [relays,handleHint_unseen hgood hid hnew (hcopies a List.mem_cons_self),hrest,
    List.append_nil]
  split
  · next hzero => simp [hzero]
  · next hpos => simp [hpos]

theorem id_of_check (hgood : h.check sha256 hintPowDifficulty = .ok ()) :
    ∃ id, h.id sha256 = some id := by
  obtain ⟨-,-,-,-,pre,hpre,-⟩ := (HintView.check_ok (by decide)).mp hgood
  exact ⟨_,by rw [HintView.id,hpre,Option.map_some]⟩

/-- Whether a hint is relayed depends on the copy that comes first. -/
theorem hint_relayed_iff (hgood : h.check sha256 hintPowDifficulty = .ok ())
    (hnew : ∀ id, h.id sha256 = some id → hintSeen.Unseen id) (hmax : 0 < hintSeen.maxSize)
    {arrivals : List Arrival} (hcopies : ∀ a ∈ arrivals, a.message.view = h)
    (htime : arrivals.Pairwise fun a b => a.now ≤ b.now ∧ b.now < a.now+hintSeen.ttl) :
    (relays sha256 hintSeen arrivals ≠ [] ↔ ∃ a ∈ arrivals, a.message.ttl > 0) ↔
      ∀ a, arrivals.head? = some a → a.message.ttl = 0 → ∀ b ∈ arrivals, b.message.ttl = 0 := by
  obtain ⟨id,hid⟩ := id_of_check hgood
  cases arrivals with
  | nil => simp [relays]
  | cons a arrivals =>
    have hfirst := relays_copies hgood hid (hnew id hid) hmax hcopies
      (List.pairwise_cons.mp htime).1
    have hzero (b : Arrival) : b.message.ttl > 0 ↔ b.message.ttl ≠ 0 := UInt8.pos_iff_ne_zero
    rw [ne_eq,hfirst]
    simp only [hzero,List.head?_cons,Option.some.injEq,forall_eq']
    constructor
    · intro hiff ha b hb
      by_contra hne
      exact (hiff.mpr ⟨b,hb,hne⟩) ha
    · intro hall
      constructor
      · intro hne
        exact ⟨a,List.mem_cons_self,hne⟩
      · intro ⟨b,hb,hne⟩ ha
        exact hne (hall ha b hb)

end

/-- A hint with its proof of work. -/
def sampleView : HintView where
  version := 1
  blindTag := [1,2,3,4]
  nonce := List.replicate 12 0
  powNonce := 1962
  ciphertext := List.replicate 48 0 ++ [1,2,3,4] ++ List.replicate 12 0

theorem sampleView_good : sampleView.check Sha256.sha256 hintPowDifficulty = .ok () := by
  decide +kernel

/-- `SeenCache::new(50_000, 900)` -/
def newHintSeen : SeenCache := { maxSize := 50000, ttl := 900000 }

theorem hint_relayed_sample :
    relays Sha256.sha256 newHintSeen [⟨0,"a",1,sampleView⟩,⟨10,"b",0,sampleView⟩] ≠ [] ↔
      ∃ a ∈ [(⟨0,"a",1,sampleView⟩ : Arrival),⟨10,"b",0,sampleView⟩], a.message.ttl > 0 := by
  refine (hint_relayed_iff sampleView_good (fun id _ => ⟨rfl,List.not_mem_nil⟩) (by decide) ?_ ?_).mpr ?_
  · simp
  · simp [newHintSeen]
  · simp

/-- A copy whose ttl is used up comes first, and the hint is not relayed. -/
theorem hint_not_relayed : ¬∀ arrivals : List Arrival,
    (∀ a ∈ arrivals, a.message.view = sampleView) →
    arrivals.Pairwise (fun a b => a.now ≤ b.now ∧ b.now < a.now+newHintSeen.ttl) →
    (relays Sha256.sha256 newHintSeen arrivals ≠ [] ↔ ∃ a ∈ arrivals, a.message.ttl > 0) := by
  intro h
  have h := h [⟨0,"a",0,sampleView⟩,⟨10,"b",7,sampleView⟩] (by simp) (by simp [newHintSeen])
  obtain ⟨id,hid⟩ := id_of_check sampleView_good
  have hnone : relays Sha256.sha256 newHintSeen [⟨0,"a",0,sampleView⟩,⟨10,"b",7,sampleView⟩] = [] :=
    (relays_copies sampleView_good hid ⟨rfl,List.not_mem_nil⟩ (by decide) (by simp)
      (by simp [newHintSeen])).mpr rfl
  exact h.mpr ⟨⟨10,"b",7,sampleView⟩,by simp,by decide⟩ hnone

end Cache
