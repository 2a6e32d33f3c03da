import AetherLite.Hint.HintCodec
import AetherLite.Hint.SchrodingerMailbox
import AetherLite.Network.JoinAuthentication

/-! What a neighbour is sent of the hints stored here, once it has connected. The store
is read while the handshake is still under way. -/
set_option autoImplicit false

namespace HintBacklog

open Js Hint Network Wire PeerManager SchrodingerMailbox

def backlogLimit : Nat := 200

/-- A hint as the message that carries it. -/
def hintPayload (h : HintPacket) : Val :=
  .obj [("version",.num (Number.ofNat hintVersion)),("ttl",.num (Number.ofNat h.ttl)),
    ("blind_tag",.bytes h.blindTag),("nonce",.bytes h.nonce),
    ("pow_nonce",.num (Number.ofNat h.powNonce)),("ciphertext",.bytes h.ciphertext)]

section
variable {ρ μ : Type}

/-- `HintRouter.sendTo` -/
def sendTo (pm : PeerManager.State ρ μ) (id : PeerId) (hint : HintPacket) : PeerManager.State ρ μ :=
  match pm.peer? id with
  | some (_,p) => if p.connected && p.verified then sendMessage pm id .hint (hintPayload hint) else pm
  | none => pm

/-- The inner loop of `sendBacklogTo`, with the number of hints it counts as sent. -/
def sendHints (id : PeerId) : List Bytes → PeerManager.State ρ μ × Nat → PeerManager.State ρ μ × Nat
  | [], r => r
  | entry :: entries, (pm,sent) =>
    if backlogLimit ≤ sent then (pm,sent)
    else match extractHint entry with
    | none => sendHints id entries (pm,sent)
    | some hint => sendHints id entries (sendTo pm id hint,sent+1)

end

/-- The store of the mailbox: what is held under each key. -/
abbrev Topics := JsMap String (List Bytes)

def hintsOf (entries : List Bytes) : List HintPacket := entries.filterMap extractHint

def hintsAt (topics : Topics) (key : String) : List HintPacket :=
  hintsOf ((JsMap.get topics key).getD [])

def heldHints (topics : Topics) : List HintPacket := (JsMap.keys topics).flatMap (hintsAt topics)

/-- A call of `sendBacklogTo` between two of its reads. -/
structure Backlog where
  conn : Nat
  peerId : PeerId
  /-- What `storedKeys` has returned. -/
  keys : Option (List String) := none
  read : List String := []
  todo : List String := []
  sent : Nat := 0
  returned : Option Nat := none
  /-- The hints that were handed to the connection. -/
  handed : List Val := []

/-- The head of the loop over the keys. -/
def Backlog.turn (b : Backlog) : Backlog :=
  if b.todo = [] ∨ backlogLimit ≤ b.sent then { b with returned := some b.sent } else b

/-- A read that fails counts as one that finds nothing. -/
def Backlog.keysRead (result : Option (List String)) (b : Backlog) : Backlog :=
  { b with keys := some (result.getD []), todo := result.getD [] }.turn

/-- The hints handed to a connection. -/
def handedTo (c : Nat) (events : List Event) : List Val :=
  events.filterMap fun e =>
    match e with
    | .sent d .hint payload => if d = c then some payload else none
    | _ => none

section
variable {ρ μ : Type}

def Backlog.entriesRead (pm : PeerManager.State ρ μ) (result : Option (List Bytes)) (b : Backlog) :
    PeerManager.State ρ μ × Backlog :=
  let r := sendHints b.peerId (result.getD []) (pm,b.sent)
  (r.1,{ b with
    read := b.read ++ b.todo.take 1
    todo := b.todo.tail
    sent := r.2
    handed := b.handed ++ handedTo b.conn (r.1.trace.drop pm.trace.length) }.turn)

structure State (ρ μ : Type) where
  pm : PeerManager.State ρ μ
  topics : Topics
  backlogs : List Backlog := []
  /-- What was stored when a connection was verified. -/
  held : Nat → Option Topics := fun _ => none

inductive Action (μ : Type) where
  | peer (a : PeerManager.Action μ)
  /-- Entries are stored or dropped. -/
  | store (topics : Topics)
  | keys (i : Nat) (result : Option (List String))
  | entries (i : Nat) (result : Option (List Bytes))

def isVerified (pm : PeerManager.State ρ μ) (c : Nat) : Bool := (pm.conns[c]?).any fun p => p.verified

/-- `onPeerConnect`: the listener runs before the challenge is drawn. -/
def begun (pm : PeerManager.State ρ μ) : PeerManager.Action μ → List Backlog
  | .opened c _ => (pm.conns[c]?).toList.map fun p => { conn := c, peerId := p.peerId }
  | _ => []

variable (cfg : Config ρ μ)

def step (s : State ρ μ) (a : Action μ) : Option (State ρ μ) :=
  match a with
  | .peer a => (PeerManager.step cfg s.pm a).map fun pm => { s with
      pm := pm
      backlogs := s.backlogs ++ begun s.pm a
      held := fun c => if isVerified pm c && !isVerified s.pm c then some s.topics else s.held c }
  | .store topics => some { s with topics := topics }
  | .keys i result => (s.backlogs[i]?).bind fun b =>
      if b.keys = none then some { s with backlogs := s.backlogs.set i (b.keysRead result) } else none
  | .entries i result => (s.backlogs[i]?).bind fun b =>
      if b.returned = none ∧ b.todo ≠ [] then
        some { s with
          pm := (b.entriesRead s.pm result).1
          backlogs := s.backlogs.set i (b.entriesRead s.pm result).2 }
      else none

/-- The connection is registered, verified and open. -/
def Ready (pm : PeerManager.State ρ μ) (id : PeerId) (c : Nat) : Prop :=
  ∃ p, pm.peer? id = some (c,p) ∧ p.connected = true ∧ p.verified = true ∧ p.channelOpen = true

/-- The connection is still the one that is registered. -/
def Stays (pm : PeerManager.State ρ μ) (c : Nat) : Prop :=
  ∃ p, pm.conns[c]? = some p ∧ p.connected = true ∧ JsMap.get pm.peers p.peerId = some c

/-- Each verified connection has its backlog; the number that is returned is the number
handed over, and it is as many of the hints held at the verification as the limit allows. -/
structure Delivered (s : State ρ μ) : Prop where
  begun : ∀ c, isVerified s.pm c = true → ∃ b ∈ s.backlogs, b.conn = c
  counted : ∀ b ∈ s.backlogs, ∀ n, b.returned = some n → n = b.handed.length
  sent : ∀ b ∈ s.backlogs, ∀ n topics, b.returned = some n → s.held b.conn = some topics →
    Stays s.pm b.conn → b.handed.length = min backlogLimit (heldHints topics).length ∧
      b.handed.Sublist ((heldHints topics).map hintPayload)

/-- A hint is read only once the connection is verified and open, and what is read is
what was held when it was verified. -/
def Prompt (s : State ρ μ) : Action μ → Prop
  | .peer a => ∀ pm c, PeerManager.step cfg s.pm a = some pm → isVerified pm c = true →
      isVerified s.pm c = false → ∀ b ∈ s.backlogs, b.conn = c → ∀ keys, b.keys = some keys →
        keys = JsMap.keys s.topics ∧ ∀ key ∈ b.read, hintsAt s.topics key = []
  | .store _ => True
  | .keys i result => ∀ b topics, s.backlogs[i]? = some b → s.held b.conn = some topics →
      result = some (JsMap.keys topics)
  | .entries i result => ∀ b, s.backlogs[i]? = some b →
      (Ready s.pm b.peerId b.conn ∨ hintsOf (result.getD []) = []) ∧
        ∀ topics key todo, s.held b.conn = some topics → b.todo = key :: todo →
          hintsOf (result.getD []) = hintsAt topics key

variable {cfg}

theorem sendTo_ready {pm : PeerManager.State ρ μ} {id : PeerId} {c : Nat} (h : Ready pm id c)
    (hint : HintPacket) : sendTo pm id hint = pm.emit (.sent c .hint (hintPayload hint)) := by
  obtain ⟨p,hp,hc,hv,ho⟩ := h
  simp [sendTo,sendMessage,hp,hc,hv,ho]

/-- With the connection open, what is counted is handed over. -/
theorem sendHints_ready {id : PeerId} {c : Nat} (entries : List Bytes) (pm : PeerManager.State ρ μ)
    (sent : Nat) (h : Ready pm id c ∨ hintsOf entries = []) :
    ∃ hints, hints = (hintsOf entries).take (backlogLimit-sent) ∧
      sendHints id entries (pm,sent) =
        ({ pm with trace := pm.trace ++ hints.map fun h => .sent c .hint (hintPayload h) },
          sent+hints.length) := by
  induction entries generalizing pm sent with
  | nil => exact ⟨[],by simp [hintsOf],by simp [sendHints]⟩
  | cons entry entries ih =>
    unfold sendHints
    by_cases hlim : backlogLimit ≤ sent
    · exact ⟨[],by simp [Nat.sub_eq_zero_of_le hlim],by simp [hlim]⟩
    rw [if_neg hlim]
    cases he : extractHint entry with
    | none =>
      have hsame : hintsOf (entry :: entries) = hintsOf entries := by simp [hintsOf,he]
      rw [hsame] at h ⊢
      exact ih pm sent h
    | some hint =>
      have hmore : hintsOf (entry :: entries) = hint :: hintsOf entries := by simp [hintsOf,he]
      rw [hmore] at h ⊢
      have hready : Ready pm id c := h.resolve_right (by simp)
      obtain ⟨hints,hh,hs⟩ := ih (sendTo pm id hint) (sent+1) (.inl (by rw [sendTo_ready hready]; exact hready))
      obtain ⟨k,hk⟩ : ∃ k, backlogLimit-sent = k+1 := ⟨backlogLimit-(sent+1),by omega⟩
      refine ⟨hint :: hints,?_,?_⟩
      · rw [hk,List.take_succ_cons,hh]
        congr 2
        omega
      · simp only
        rw [hs,sendTo_ready hready]
        simp [PeerManager.State.emit]
        omega

theorem handedTo_sent (c : Nat) (hints : List HintPacket) :
    handedTo c (hints.map fun h => .sent c .hint (hintPayload h)) = hints.map hintPayload := by
  simp [handedTo]

theorem entriesRead_ready {pm : PeerManager.State ρ μ} {b : Backlog} {result : Option (List Bytes)}
    {key : String} {todo : List String} (htodo : b.todo = key :: todo)
    (h : Ready pm b.peerId b.conn ∨ hintsOf (result.getD []) = []) :
    ∃ hints, hints = (hintsOf (result.getD [])).take (backlogLimit-b.sent) ∧
      (b.entriesRead pm result).1.conns = pm.conns ∧ (b.entriesRead pm result).2 = { b with
        read := b.read ++ [key]
        todo := todo
        sent := b.sent+hints.length
        handed := b.handed ++ hints.map hintPayload }.turn := by
  obtain ⟨hints,hh,hs⟩ := sendHints_ready (result.getD []) pm b.sent h
  refine ⟨hints,hh,?_,?_⟩
  · simp only [Backlog.entriesRead,hs]
  · simp only [Backlog.entriesRead,hs,htodo,List.drop_left,handedTo_sent]
    rfl

/-- A backlog whose counted hints have all been handed over; after the verification it
has read what was held then. -/
structure Backlog.Sound (held : Option Topics) (b : Backlog) : Prop where
  counted : b.sent = b.handed.length
  fresh : b.keys = none → b.read = [] ∧ b.todo = [] ∧ b.handed = [] ∧ b.returned = none
  split : ∀ keys, b.keys = some keys → keys = b.read ++ b.todo
  finished : ∀ n, b.returned = some n → n = b.sent ∧ (b.todo = [] ∨ backlogLimit ≤ b.sent)
  before : held = none → b.handed = []
  after : ∀ topics keys, held = some topics → b.keys = some keys → keys = JsMap.keys topics ∧
    b.handed = ((b.read.flatMap (hintsAt topics)).take backlogLimit).map hintPayload

variable {held : Option Topics} {b : Backlog}

theorem Backlog.Sound.turn (h : b.Sound held) (hk : b.keys ≠ none) : b.turn.Sound held := by
  unfold Backlog.turn
  split
  · next hend =>
    refine ⟨h.counted,fun hn => absurd hn hk,h.split,fun n hn => ?_,h.before,h.after⟩
    cases hn
    exact ⟨rfl,hend⟩
  · exact h

theorem Backlog.Sound.keysRead (h : b.Sound held) (hk : b.keys = none)
    {result : Option (List String)}
    (hr : ∀ topics, held = some topics → result = some (JsMap.keys topics)) :
    (b.keysRead result).Sound held := by
  obtain ⟨hread,htodo,hhanded,hret⟩ := h.fresh hk
  refine Backlog.Sound.turn ⟨h.counted,fun hn => absurd hn (by simp),fun keys hkeys => ?_,
    fun n hn => absurd (hret.symm.trans hn) (by simp),h.before,fun topics keys ht hkeys => ?_⟩ (by simp)
  · cases hkeys
    simp [hread]
  · cases hkeys
    simp [hr topics ht,hread,hhanded]

/-- What was handed over so far and what is read next make up the first hints that are held. -/
theorem take_append_hints {α : Type*} (limit : Nat) (xs ys : List α) :
    xs.take limit ++ ys.take (limit-(xs.take limit).length) = (xs ++ ys).take limit := by
  rw [List.take_append,List.length_take]
  congr 2
  omega

theorem Backlog.Sound.entriesRead (h : b.Sound held) {pm : PeerManager.State ρ μ}
    {result : Option (List Bytes)} {key : String} {todo : List String} (htodo : b.todo = key :: todo)
    (hret : b.returned = none) (hv : held = none → ¬Ready pm b.peerId b.conn)
    (hready : Ready pm b.peerId b.conn ∨ hintsOf (result.getD []) = [])
    (hheld : ∀ topics, held = some topics → hintsOf (result.getD []) = hintsAt topics key) :
    (b.entriesRead pm result).2.Sound held := by
  obtain ⟨hints,hh,-,he⟩ := entriesRead_ready htodo hready
  have hkeys : b.keys ≠ none := by
    intro hn
    have := (h.fresh hn).2.1
    rw [htodo] at this
    cases this
  rw [he]
  refine Backlog.Sound.turn ⟨?_,fun hn => absurd hn hkeys,fun keys hk => ?_,
    fun n hn => absurd (hret.symm.trans hn) (by simp),fun hn => ?_,fun topics keys ht hk => ?_⟩ hkeys
  · simp [h.counted]
  · rw [h.split keys hk,htodo]
    simp
  · have hnone : hintsOf (result.getD []) = [] := hready.resolve_left (hv hn)
    simp [h.before hn,hh,hnone]
  · obtain ⟨hkt,hhanded⟩ := h.after topics keys ht hk
    refine ⟨hkt,?_⟩
    rw [hhanded,hh,h.counted,hhanded,List.length_map,← List.map_append,take_append_hints,
      hheld topics ht,List.flatMap_append,List.flatMap_singleton]

/-- A finished backlog has handed over the first of the hints that were held. -/
theorem Backlog.Sound.handed_eq {topics : Topics} (h : b.Sound (some topics)) {n : Nat}
    (hn : b.returned = some n) :
    b.handed = ((heldHints topics).take backlogLimit).map hintPayload := by
  obtain ⟨keys,hk⟩ : ∃ keys, b.keys = some keys := by
    cases hk : b.keys with
    | some keys => exact ⟨keys,rfl⟩
    | none =>
      have := (h.fresh hk).2.2.2
      rw [hn] at this
      cases this
  obtain ⟨hkeys,hhanded⟩ := h.after topics keys rfl hk
  have hall : heldHints topics = b.read.flatMap (hintsAt topics) ++ b.todo.flatMap (hintsAt topics) := by
    rw [heldHints,← hkeys,h.split keys hk,List.flatMap_append]
  obtain ⟨-,htodo | hlimit⟩ := h.finished n hn
  · rw [hhanded,hall,htodo,List.flatMap_nil,List.append_nil]
  · have hlen : backlogLimit ≤ (b.read.flatMap (hintsAt topics)).length := by
      rw [h.counted,hhanded,List.length_map,List.length_take] at hlimit
      omega
    rw [hhanded,hall,List.take_append_of_le_length hlen]

/-- What was held is known of the connections that are verified; these have been
challenged, and a connection that has been challenged has a backlog. -/
structure Inv (s : State ρ μ) : Prop where
  held : ∀ c, (s.held c).isSome = isVerified s.pm c
  sound : ∀ b ∈ s.backlogs, b.Sound (s.held b.conn)
  challenged : ∀ (c : Nat) p, s.pm.conns[c]? = some p → p.challenge ≠ none → ∃ b ∈ s.backlogs, b.conn = c
  proved : ∀ (c : Nat) p, s.pm.conns[c]? = some p → p.verified = true → p.challenge ≠ none

variable {s t : State ρ μ}

theorem isVerified_iff {pm : PeerManager.State ρ μ} {c : Nat} :
    isVerified pm c = true ↔ ∃ p, pm.conns[c]? = some p ∧ p.verified = true :=
  Option.any_eq_true _ _

theorem Ready.isVerified {pm : PeerManager.State ρ μ} {id : PeerId} {c : Nat} (h : Ready pm id c) :
    isVerified pm c = true := by
  obtain ⟨p,hp,-,hv,-⟩ := h
  obtain ⟨d,-,hrest⟩ := Option.bind_eq_some_iff.mp hp
  obtain ⟨q,hq,hrest⟩ := Option.bind_eq_some_iff.mp hrest
  cases hrest
  exact isVerified_iff.mpr ⟨p,hq,hv⟩

theorem Inv.delivered (h : Inv s) : Delivered s where
  begun c hc := by
    obtain ⟨p,hp,hv⟩ := isVerified_iff.mp hc
    exact h.challenged c p hp (h.proved c p hp hv)
  counted b hb n hn := by
    have hs := h.sound b hb
    rw [(hs.finished n hn).1,hs.counted]
  sent b hb n topics hn ht _ := by
    have hs := h.sound b hb
    rw [ht] at hs
    rw [hs.handed_eq hn]
    exact ⟨by simp,(List.take_sublist _ _).map _⟩

theorem mem_set_backlogs {bs : List Backlog} {i : Nat} {b b' : Backlog} (h : b' ∈ bs.set i b) :
    b' ∈ bs ∨ b' = b := by
  rcases List.mem_or_eq_of_mem_set h with hm | he
  · exact .inl hm
  · exact .inr he

/-- A backlog takes a turn; the connections are as they were. -/
theorem Inv.turn (h : Inv s) {i : Nat} {b b' : Backlog} (hb : s.backlogs[i]? = some b)
    (hc : b'.conn = b.conn) (hs : b'.Sound (s.held b.conn)) {pm : PeerManager.State ρ μ}
    (hpm : pm.conns = s.pm.conns) : Inv { s with pm := pm, backlogs := s.backlogs.set i b' } where
  held c := by
    rw [h.held c]
    simp only [HintBacklog.isVerified,hpm]
  sound b'' hb'' := by
    rcases mem_set_backlogs hb'' with hm | rfl
    · exact h.sound b'' hm
    · rw [hc]
      exact hs
  challenged c p hp hch := by
    rw [hpm] at hp
    obtain ⟨b'',hm,rfl⟩ := h.challenged c p hp hch
    obtain ⟨j,hj⟩ := List.getElem?_of_mem hm
    by_cases hij : i = j
    · subst hij
      rw [hb] at hj
      cases hj
      exact ⟨b',List.mem_set (List.getElem?_eq_some_iff.mp hb).1 _,hc⟩
    · exact ⟨b'',List.mem_of_getElem? (by rw [List.getElem?_set_ne hij]; exact hj),rfl⟩
  proved c p hp := h.proved c p (hpm ▸ hp)

theorem turn_conn (b : Backlog) : b.turn.conn = b.conn := by
  unfold Backlog.turn
  split
  · rfl
  · rfl

theorem keysRead_conn (b : Backlog) (result : Option (List String)) :
    (b.keysRead result).conn = b.conn := turn_conn _

theorem entriesRead_conn (b : Backlog) (pm : PeerManager.State ρ μ) (result : Option (List Bytes)) :
    (b.entriesRead pm result).2.conn = b.conn := turn_conn _

/-- What is known of a backlog when its connection may have been verified. -/
theorem Backlog.Sound.verify {b : Backlog} (h : b.Sound none) {topics : Topics}
    (hp : ∀ keys, b.keys = some keys → keys = JsMap.keys topics ∧ ∀ key ∈ b.read, hintsAt topics key = []) :
    b.Sound (some topics) := by
  refine ⟨h.counted,h.fresh,h.split,h.finished,fun hn => absurd hn (by simp),
    fun topics' keys ht hk => ?_⟩
  cases ht
  obtain ⟨hkeys,hread⟩ := hp keys hk
  have hnone : b.read.flatMap (hintsAt topics) = [] := List.flatMap_eq_nil_iff.mpr hread
  exact ⟨hkeys,by rw [h.before rfl,hnone]; rfl⟩

theorem Backlog.Sound.begin (held : Option Topics) (c : Nat) (id : PeerId) :
    Backlog.Sound held { conn := c, peerId := id } :=
  ⟨rfl,fun _ => ⟨rfl,rfl,rfl,rfl⟩,fun _ hk => absurd hk (by simp),fun _ hn => absurd hn (by simp),
    fun _ => rfl,fun _ _ _ hk => absurd hk (by simp)⟩

theorem Inv.peer (h : Inv s) {a : PeerManager.Action μ} (hG : Prompt cfg s (.peer a))
    (hs : step cfg s (.peer a) = some t) : Inv t := by
  obtain ⟨pm,hpm,rfl⟩ := Option.map_eq_some_iff.mp hs
  refine ⟨fun c => ?_,fun b hb => ?_,fun c p hp hc => ?_,fun c p hp hv => ?_⟩
  · dsimp only
    by_cases hold : isVerified s.pm c = true
    · obtain ⟨p,hp,hv⟩ := isVerified_iff.mp hold
      obtain ⟨q,hq,hvq,-⟩ := standing_step hpm hp
      have hnew : isVerified pm c = true := isVerified_iff.mpr ⟨q,hq,hvq hv⟩
      simp [hold,hnew,h.held c]
    · have hnone : s.held c = none := by
        have := h.held c
        simpa [hold] using this
      by_cases hnew : isVerified pm c = true
      · simp [hold,hnew]
      · simp [hnew,hnone]
  · rcases List.mem_append.mp hb with hb | hb
    · have hsound := h.sound b hb
      dsimp only
      split
      · next hnew =>
        simp only [Bool.and_eq_true,Bool.not_eq_true'] at hnew
        have hnone : s.held b.conn = none := by
          have := h.held b.conn
          simpa [hnew.2] using this
        rw [hnone] at hsound
        exact hsound.verify fun keys hk => hG pm b.conn hpm hnew.1 hnew.2 b hb rfl keys hk
      · exact hsound
    · cases a with
      | opened c challenge =>
        obtain ⟨p,-,rfl⟩ := List.mem_map.mp hb
        exact .begin _ _ _
      | _ => cases hb
  · cases hch : p.challenge with
    | none => exact absurd hch hc
    | some challenge =>
      obtain ⟨p',hp',hch'⟩ | ⟨drawn,rfl,-⟩ := challenge_step hpm hp hch
      · obtain ⟨b,hb,rfl⟩ := h.challenged c p' hp' (by simp [hch'])
        exact ⟨b,List.mem_append_left _ hb,rfl⟩
      · obtain ⟨p',hp',-⟩ := Option.map_eq_some_iff.mp hpm
        exact ⟨_,List.mem_append_right _ (by simp [begun,hp']; rfl),rfl⟩
  · obtain ⟨p',hp',hpv⟩ := verified_step hpm hp hv
    have hch : p'.challenge ≠ none := by
      rcases hpv with hpv | ⟨d,data,r,claim,-,-,-,hacc⟩
      · exact h.proved c p' hp' hpv
      · obtain ⟨challenge,hch,-⟩ := hacc.answer
        simp [hch]
    obtain ⟨q,hq,-,hkeep⟩ := standing_step hpm hp'
    rw [hp] at hq
    cases hq
    exact hkeep hch

theorem Inv.step (h : Inv s) {a : Action μ} (hG : Prompt cfg s a) (hs : step cfg s a = some t) :
    Inv t := by
  cases a with
  | peer a => exact h.peer hG hs
  | store topics =>
    cases hs
    exact ⟨h.held,h.sound,h.challenged,h.proved⟩
  | keys i result =>
    obtain ⟨b,hb,hs⟩ := Option.bind_eq_some_iff.mp hs
    split at hs
    · next hk =>
      cases hs
      exact h.turn hb (keysRead_conn b result) ((h.sound b (List.mem_of_getElem? hb)).keysRead hk
        fun topics ht => hG b topics hb ht) rfl
    · cases hs
  | entries i result =>
    obtain ⟨b,hb,hs⟩ := Option.bind_eq_some_iff.mp hs
    split at hs
    · next hgo =>
      cases hs
      obtain ⟨hret,htodo⟩ := hgo
      obtain ⟨key,todo,htodo⟩ := List.exists_cons_of_ne_nil htodo
      obtain ⟨hready,hheld⟩ := hG b hb
      have hv : s.held b.conn = none → ¬Ready s.pm b.peerId b.conn := by
        intro hn hr
        have := h.held b.conn
        rw [hn,hr.isVerified] at this
        cases this
      have hsound := (h.sound b (List.mem_of_getElem? hb)).entriesRead htodo hret hv hready
        fun topics ht => hheld topics key todo ht htodo
      obtain ⟨hints,-,hconns,-⟩ := entriesRead_ready htodo hready
      exact h.turn hb (entriesRead_conn b s.pm result) hsound hconns
    · cases hs

end

/-- A manager that was just built, and a store. -/
def start {ρ μ : Type} (l : ρ) (m : μ) (topics : Topics) : State ρ μ where
  pm := initial l m
  topics := topics

/-- In every run in which hints are read promptly, the backlogs are delivered. -/
theorem backlog_delivered {ρ μ : Type} {cfg : Config ρ μ} {l : ρ} {m : μ} {topics : Topics}
    {as : List (Action μ)} {s : State ρ μ}
    (hG : Machine.Along (step cfg) (Prompt cfg) (start l m topics) as)
    (hr : Machine.run (step cfg) (start l m topics) as = some s) : Delivered s := by
  refine (Machine.invariant_run (fun _ _ _ h hG hs => h.step hG hs) (I := Inv) ?_ hG hr).delivered
  exact ⟨fun c => rfl,fun b hb => absurd hb List.not_mem_nil,fun c p hp => by simp [start,initial] at hp,
    fun c p hp => by simp [start,initial] at hp⟩

/-! One neighbour, and one slot. -/

def sampleHint : HintPacket := { zeroHint with powNonce := 0, powNonce_le := Nat.zero_le _ }

def sampleTopics : Topics := [("00",[encodeSlotBlob sampleHint []])]

def openRun : List (Action Unit) :=
  [.peer (.relay (sampleIdentity 2).peerId offer),.peer (.described 0 sampleSdp sampleSdp),
    .peer (.opened 0 (sampleChallenge 7)),.keys 0 (some ["00"])]

def readSlot : Action Unit := .entries 0 (some [encodeSlotBlob sampleHint []])

def joins : Action Unit := .peer (.data 0 (sampleJoin 2 (sampleChallenge 7)))

/-- The store is read before the JOIN arrives: a hint is counted that nobody was handed. -/
theorem backlog_lost_openRun : ¬∀ as s,
    Machine.run (step (sampleConfig 1)) (start () () sampleTopics) as = some s → Delivered s := by
  intro h
  have hrun : (Machine.run (step (sampleConfig 1)) (start () () sampleTopics)
      (openRun ++ [readSlot,joins])).any (fun s => isVerified s.pm 0 &&
        s.backlogs.any fun b => b.returned == some 1 && b.handed.isEmpty) = true := by decide +kernel
  obtain ⟨s,hs,hsum⟩ := (Option.any_eq_true _ _).mp hrun
  obtain ⟨b,hb,hsum⟩ := List.any_eq_true.mp (Bool.and_eq_true_iff.mp hsum).2
  simp only [Bool.and_eq_true,beq_iff_eq,List.isEmpty_iff] at hsum
  have hc := (h _ s hs).counted b hb 1 hsum.1
  rw [hsum.2] at hc
  cases hc

/-- `Prompt` where one connection is concerned -/
def isPrompt (s : State Unit Unit) : Action Unit → Bool
  | .peer _ => s.backlogs.all fun b => b.keys.all fun keys =>
      decide (keys = JsMap.keys s.topics) && b.read.all fun key => (hintsAt s.topics key).isEmpty
  | .store _ => true
  | .keys i result => (s.backlogs[i]?).all fun b => (s.held b.conn).all fun topics =>
      decide (result = some (JsMap.keys topics))
  | .entries i result => (s.backlogs[i]?).all fun b =>
      ((s.pm.peer? b.peerId).any fun e =>
        e.1 == b.conn && e.2.connected && e.2.verified && e.2.channelOpen) &&
      (s.held b.conn).all fun topics => b.todo.head?.all fun key =>
        decide (hintsOf (result.getD []) = hintsAt topics key)

theorem prompt_of_isPrompt (s : State Unit Unit) (a : Action Unit) (h : isPrompt s a = true) :
    Prompt (sampleConfig 1) s a := by
  cases a with
  | peer a =>
    intro pm c _ _ _ b hb _ keys hk
    have hb := List.all_eq_true.mp h b hb
    simpa [hk] using hb
  | store topics => trivial
  | keys i result =>
    intro b topics hb ht
    simpa [isPrompt,hb,ht] using h
  | entries i result =>
    intro b hb
    simp only [isPrompt,hb,Option.all_some,Bool.and_eq_true] at h
    refine ⟨.inl ?_,fun topics key todo ht htodo => by simpa [ht,htodo] using h.2⟩
    obtain ⟨e,he,hready⟩ := (Option.any_eq_true _ _).mp h.1
    simp only [Bool.and_eq_true,beq_iff_eq] at hready
    obtain ⟨⟨⟨hconn,hc⟩,hv⟩,ho⟩ := hready
    exact ⟨e.2,by rw [he,← hconn],hc,hv,ho⟩

theorem backlog_delivered_openRun : ∃ s,
    Machine.run (step (sampleConfig 1)) (start () () sampleTopics) (openRun ++ [joins,readSlot]) = some s ∧
      (s.backlogs.map fun b => (b.returned,b.handed.length)) = [(some 1,1)] ∧ Delivered s := by
  have hrun : (Machine.run (step (sampleConfig 1)) (start () () sampleTopics)
      (openRun ++ [joins,readSlot])).map (fun s => s.backlogs.map fun b => (b.returned,b.handed.length)) =
        some [(some 1,1)] := by decide +kernel
  obtain ⟨s,hs,hsum⟩ := Option.map_eq_some_iff.mp hrun
  refine ⟨s,hs,hsum,backlog_delivered (Machine.along_of_check prompt_of_isPrompt ?_) hs⟩
  decide +kernel

end HintBacklog
