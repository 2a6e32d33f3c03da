import AetherLite.Hint.SchrodingerMailbox
import AetherLite.Logic.ThreadOrchestrator
import AetherLite.Logic.BoardOrchestrator

/-! From a hint to the board it is for: the router that opens it, the mailbox that
fetches the body and the board that is handed the body. -/
set_option autoImplicit false

namespace HintDelivery

open Hint HintRouter SchrodingerMailbox BoardOrchestrator ZoneGossipRouter

structure State where
  router : HintRouter.State := {}
  board : BoardOrchestrator.State := {}
  /-- The calls of the mailbox's listener that are still fetching. -/
  fetches : List OpenedHint := []
  -- whose bodies the board was handed since it was switched to, and whose were not found
  handed : List HintPayload := []
  missed : List HintPayload := []

inductive Action where
  | hint (sender : PeerId) (hint : HintPacket) (peers : List Peer)
  | exitHint (bytes : Bytes) (peers : List Peer)
  | slotStored (entry : Bytes)
  | originate (hint : HintPacket)
  | addThreadKey (threadId : String) (k : Bytes)
  | removeThreadKey (threadId : String)
  | cleanupFlooded
  | cleanupReceived
  | cleanupDelivered
  | fetched (i : Nat) (stored : List Bytes) (fetched : Option (List Bytes))
  | board (a : BoardOrchestrator.Action)

def IsOpen (board : BoardOrchestrator.State) (boardId : String) (key : Bytes) : Prop :=
  board.currentBoardId = some boardId ∧ board.currentBoardKey = some key

instance (board : BoardOrchestrator.State) (boardId : String) (key : Bytes) :
    Decidable (IsOpen board boardId key) :=
  inferInstanceAs (Decidable (_ ∧ _))

/-- The listener is called with what was opened. -/
def listened (s : State) (r : HintRouter.State × List OpenedHint) : State :=
  { s with router := r.1, fetches := s.fetches ++ r.2 }

def dropBoardKey (router : HintRouter.State) (board : BoardOrchestrator.State) :
    HintRouter.State :=
  match board.currentBoardId with
  | some b => if b = "" then router else removeKey router (hintKeyId b)
  | none => router

/-- Whether `onHintBody` is called and lets the body through to the open board. -/
def handsOver (board : BoardOrchestrator.State) (keyId : String) : Bool :=
  0 < board.bodyListeners && match openBoard board with
    | some (b,_) => keyId == hintKeyId b
    | none => false

/-- Every registration of the board is called with the body. -/
def settleFetch (s : State) (o : OpenedHint) : Option Bytes → State
  | none => { s with missed := o.payload :: s.missed }
  | some body => { s with
      board := (fun board => onHintBody board body o.keyId)^[s.board.bodyListeners] s.board
      handed := if handsOver s.board o.keyId then o.payload :: s.handed else s.handed }

section
variable (sha256 : Bytes → Bytes) (c : Hint.Primitives) (p : PacketBuilder.Primitives)
  (myPeerId : PeerId)

def activate (s : State) (boardId : String) (key : Bytes) (now : Nat) : State :=
  let board := BoardOrchestrator.activate s.board boardId key
  let isListening := (switchBoard s.board boardId key).isListening
  let s := if IsOpen s.board boardId key then s
    else { s with router := dropBoardKey s.router s.board, handed := [] }
  let s := if isListening then s
    else listened s (addKey sha256 c s.router (hintKeyId boardId) key now)
  { s with board := board }

/-- A label is the time of the step and what happens. -/
def step (s : State) (a : Nat × Action) : Option State :=
  match a.2 with
  | .hint sender hint peers =>
    some (listened s (handleHint sha256 c s.router sender hint peers a.1))
  | .exitHint bytes peers =>
    some (listened s (handleExitHint sha256 c s.router myPeerId bytes peers a.1))
  | .slotStored entry =>
    match extractHint entry with
    | some hint => some (listened s (ingestLocal sha256 c s.router hint a.1))
    | none => some s
  | .originate hint =>
    some { s with router := HintRouter.originate s.router (hintId sha256 hint) a.1 }
  | .addThreadKey threadId k =>
    some (listened s
      (addKey sha256 c s.router (ThreadOrchestrator.hintKeyId threadId) k a.1))
  | .removeThreadKey threadId =>
    some { s with router := removeKey s.router (ThreadOrchestrator.hintKeyId threadId) }
  | .cleanupFlooded =>
    some { s with router := { s.router with flooded := s.router.flooded.cleanup a.1 } }
  | .cleanupReceived =>
    some { s with router := { s.router with received := s.router.received.cleanup a.1 } }
  | .cleanupDelivered =>
    some { s with router := { s.router with delivered := s.router.delivered.cleanup a.1 } }
  | .fetched i stored fetched =>
    (Machine.takeTask s.fetches i).map fun t =>
      settleFetch { s with fetches := t.2 } t.1 (fetchBody stored fetched)
  | .board (.activate boardId key) => some (activate sha256 c s boardId key a.1)
  | .board .clear =>
    some { s with router := dropBoardKey s.router s.board, board := clear s.board }
  -- bodies reach the board through the listener only
  | .board (.hintBody _ _) => none
  | .board a => (BoardOrchestrator.step p s.board a).map fun board => { s with board := board }

/-- A hint that is kept and opens under the key of the open board has been handed to it,
when its body has been found and nothing is being fetched for it. -/
def NotLost (s : State) : Prop :=
  ∀ b k, openBoard s.board = some (b,k) → ∀ hint ∈ s.router.recentHints,
    ∀ payload, openHint c k hint = some payload →
      (∀ o ∈ s.fetches, ¬(o.payload = payload ∧ o.keyId = hintKeyId b)) →
      payload ∉ s.missed → payload ∈ s.handed

/-- A body that a fetch for the board will bring, or that one could not find. -/
def Asked (s : State) (boardId : String) (payload : HintPayload) : Prop :=
  payload ∈ s.missed ∨ ∃ o ∈ s.fetches, o.payload = payload ∧ o.keyId = hintKeyId boardId

def Served (s : State) (boardId : String) (payload : HintPayload) : Prop :=
  payload ∈ s.handed ∨ Asked s boardId payload

/-- No other key opens the hint before that of the board. -/
def OpensFirst (keys : JsMap String Bytes) (boardId : String) (hint : HintPacket) : Prop :=
  ∀ o, firstOpened c keys hint = some o → o.keyId = hintKeyId boardId

/-- The hint that a step offers to the router. -/
def offered (router : HintRouter.State) : Action → Option HintPacket
  | .hint _ hint _ =>
    if verifyHintPow sha256 hint && !router.received.has (hintId sha256 hint) then some hint
    else none
  | .exitHint bytes _ => (decodeHint bytes).filter (verifyHintPow sha256)
  | .slotStored entry => (extractHint entry).filter (verifyHintPow sha256)
  | _ => none

/-- A hint of the open board that is new to the router: it has not been delivered yet
and the board's key opens it, or what it leads to is accounted for. -/
def Arrives (s : State) (hint : HintPacket) : Prop :=
  hintId sha256 hint ∉ s.router.recentIds → ∀ b k, openBoard s.board = some (b,k) →
    ∀ payload, openHint c k hint = some payload →
      if s.router.delivered.has (hintId sha256 hint) then Served s b payload
      else OpensFirst c s.router.keys b hint

/-- The only delivery of a hint is not used up before its board could have it: when a
board is switched to, and when a hint of the open board comes in. -/
def NotUsedUp (s : State) (a : Nat × Action) : Prop :=
  match a.2 with
  | .board (.activate b k) =>
    ¬IsOpen s.board b k → b ≠ "" → ∀ hint ∈ s.router.recentHints, ∀ payload,
      openHint c k hint = some payload →
        if s.router.delivered.has (hintId sha256 hint) then Asked s b payload
        else OpensFirst c (JsMap.set (dropBoardKey s.router s.board).keys (hintKeyId b) k) b hint
  | a => ∀ hint, offered sha256 s.router a = some hint → Arrives sha256 c s hint

structure Inv (s : State) : Prop where
  kept : Kept sha256 s.router
  listening : s.board.currentBoardId ≠ none →
    s.board.isListening = true ∧ 0 < s.board.bodyListeners
  boardKey : ∀ b k, openBoard s.board = some (b,k) →
    JsMap.get s.router.keys (hintKeyId b) = some k
  served : ∀ b k, openBoard s.board = some (b,k) → ∀ hint ∈ s.router.recentHints,
    ∀ payload, openHint c k hint = some payload → Served s b payload

end

section Proofs
variable {sha256 : Bytes → Bytes} {c : Hint.Primitives} {p : PacketBuilder.Primitives}
  {myPeerId : PeerId} {s : State}

theorem hintKeyId_ne (boardId threadId : String) :
    hintKeyId boardId ≠ ThreadOrchestrator.hintKeyId threadId := by
  intro h
  have hd := congrArg (fun k => k.toList.head?) h
  simp [BoardOrchestrator.hintKeyId,ThreadOrchestrator.hintKeyId] at hd

/-- A step that keeps the board and its key, and loses nothing that was served. -/
theorem Inv.mono {s' : State} (h : Inv sha256 c s) (hk : Kept sha256 s'.router)
    (hb : SameBoard s.board s'.board)
    (hkeys : ∀ b, JsMap.get s'.router.keys (hintKeyId b) =
      JsMap.get s.router.keys (hintKeyId b))
    (hr : ∀ hint ∈ s'.router.recentHints, hint ∈ s.router.recentHints)
    (hs : ∀ b k, openBoard s.board = some (b,k) → ∀ payload, Served s b payload →
      Served s' b payload) : Inv sha256 c s' := by
  refine ⟨hk,?_,?_,?_⟩
  · rw [hb.boardId,hb.listening,hb.bodyListeners]
    exact h.listening
  · intro b k ho
    rw [hkeys b]
    exact h.boardKey b k (hb.openBoard ▸ ho)
  · intro b k ho hint hm payload hp
    have ho' : openBoard s.board = some (b,k) := hb.openBoard ▸ ho
    exact hs b k ho' payload (h.served b k ho' hint (hr hint hm) payload hp)

theorem Served.listened {b : String} {payload : HintPayload} (h : Served s b payload)
    (r : HintRouter.State × List OpenedHint) : Served (listened s r) b payload := by
  rcases h with h | h | ⟨o,ho,he⟩
  · exact .inl h
  · exact .inr (.inl h)
  · exact .inr (.inr ⟨o,List.mem_append_left _ ho,he⟩)

/-- The board's own key opens a hint that no other opens before. -/
theorem opened_of_opensFirst {keys : JsMap String Bytes} {b : String} {k : Bytes}
    {hint : HintPacket} {payload : HintPayload} (hn : (JsMap.keys keys).Nodup)
    (hk : JsMap.get keys (hintKeyId b) = some k) (hp : openHint c k hint = some payload)
    (hf : OpensFirst c keys b hint) :
    ∃ o, firstOpened c keys hint = some o ∧ o.payload = payload ∧ o.keyId = hintKeyId b := by
  have hopen : openHint c k hint ≠ none := by simp [hp]
  obtain ⟨o,ho⟩ := firstOpened_isSome (JsMap.mem_of_get hk) hopen
  have hid := hf o ho
  have hpo := payload_of_firstOpened hn (hid ▸ hk) ho
  rw [hp] at hpo
  exact ⟨o,ho,(Option.some.inj hpo).symm,hid⟩

theorem Inv.take (h : Inv sha256 c s) {hint : HintPacket} (now : Nat)
    (hG : Arrives sha256 c s hint) :
    Inv sha256 c (listened s (take sha256 c s.router hint now)) := by
  have hsame : SameHints (remember sha256 s.router hint)
      (tryOpen sha256 c (remember sha256 s.router hint) hint now).1 := tryOpen_same hint now
  have hkeys : (HintRouter.take sha256 c s.router hint now).1.keys = s.router.keys := by
    exact hsame.1.trans (remember_keys hint)
  refine ⟨(h.kept.remember hint).same hsame,h.listening,?_,?_⟩
  · intro b k ho
    show JsMap.get (HintRouter.take sha256 c s.router hint now).1.keys _ = _
    rw [hkeys]
    exact h.boardKey b k ho
  · intro b k ho other hm payload hp
    have hm' : other ∈ (remember sha256 s.router hint).recentHints := hsame.2.1 ▸ hm
    rcases mem_remember hm' with hm' | ⟨rfl,hnew⟩
    · exact (h.served b k ho other hm' payload hp).listened _
    · have hc := hG hnew b k ho payload hp
      split at hc
      · exact hc.listened _
      · next hd =>
        obtain ⟨o,hf,he⟩ := opened_of_opensFirst h.kept.keys_nodup (h.boardKey b k ho) hp hc
        refine .inr (.inr ⟨o,List.mem_append_right _ ?_,he⟩)
        have hd' : (remember sha256 s.router other).delivered.has (hintId sha256 other) =
            false := by simpa using hd
        show o ∈ (tryOpen sha256 c (remember sha256 s.router other) other now).2
        rw [tryOpen_opened other now hd',remember_keys,hf]
        simp

/-- Marks and counters do not matter. -/
theorem Inv.sameHints (h : Inv sha256 c s) {router : HintRouter.State}
    (hr : SameHints s.router router) : Inv sha256 c { s with router := router } := by
  refine h.mono (h.kept.same hr) (SameBoard.refl _) (fun b => by rw [hr.1])
    (fun hint hm => ?_) (fun b k _ payload hs => hs)
  rw [← hr.2.1]
  exact hm

theorem Inv.flood (h : Inv sha256 c s) (hint : HintPacket) (sender : PeerId)
    (peers : List Peer) (now : Nat) :
    Inv sha256 c { s with router := HintRouter.flood sha256 s.router hint sender peers now } := by
  refine h.sameHints ?_
  unfold HintRouter.flood
  dsimp only
  split
  · exact ⟨rfl,rfl,rfl⟩
  · exact ⟨rfl,rfl,rfl⟩

theorem Inv.listened_nil (h : Inv sha256 c s) : Inv sha256 c (listened s (s.router,[])) := by
  unfold HintDelivery.listened
  rw [List.append_nil]
  exact h

theorem Inv.handleHint (h : Inv sha256 c s) {sender : PeerId} {hint : HintPacket}
    {peers : List Peer} {now : Nat}
    (hG : ∀ k, offered sha256 s.router (.hint sender hint peers) = some k → Arrives sha256 c s k) :
    Inv sha256 c (listened s (handleHint sha256 c s.router sender hint peers now)) := by
  unfold HintRouter.handleHint
  dsimp only
  split
  · exact h.listened_nil
  next hpow =>
  split
  · exact h.listened_nil
  next hrec =>
  have ha := hG hint (by simp [offered,hrec] at hpow ⊢; exact hpow)
  have hi : Inv sha256 c { s with router := { s.router with
      received := s.router.received.add (hintId sha256 hint) now
      anyHints := s.router.anyHints+1 } } := h.sameHints ⟨rfl,rfl,rfl⟩
  exact (hi.take now ha).flood hint sender peers now

theorem Inv.handleExitHint (h : Inv sha256 c s) {bytes : Bytes} {peers : List Peer} {now : Nat}
    (hG : ∀ k, offered sha256 s.router (.exitHint bytes peers) = some k → Arrives sha256 c s k) :
    Inv sha256 c (listened s (handleExitHint sha256 c s.router myPeerId bytes peers now)) := by
  unfold HintRouter.handleExitHint
  split
  · exact h.listened_nil
  next hint hdec =>
  dsimp only
  split
  · exact h.listened_nil
  next hpow =>
  have ha := hG hint (by simp [offered,hdec] at hpow ⊢; exact hpow)
  exact (h.take now ha).flood hint myPeerId peers now

theorem Inv.ingestLocal (h : Inv sha256 c s) {entry : Bytes} {hint : HintPacket} {now : Nat}
    (he : extractHint entry = some hint)
    (hG : ∀ k, offered sha256 s.router (.slotStored entry) = some k → Arrives sha256 c s k) :
    Inv sha256 c (listened s (ingestLocal sha256 c s.router hint now)) := by
  unfold HintRouter.ingestLocal
  split
  · exact h.listened_nil
  next hpow =>
  exact h.take _ (hG hint (by simp [offered,he] at hpow ⊢; exact hpow))

/-- A key of a thread opens what it can, and takes nothing from the board. -/
theorem Inv.addThreadKey (h : Inv sha256 c s) (threadId : String) (k : Bytes) (now : Nat) :
    Inv sha256 c (listened s
      (addKey sha256 c s.router (ThreadOrchestrator.hintKeyId threadId) k now)) := by
  have hsame : SameHints _ (reopen sha256 c now { s.router with
      keys := JsMap.set s.router.keys (ThreadOrchestrator.hintKeyId threadId) k }
      s.router.recentHints).1 := reopen_same now _
  have hk : Kept sha256 { s.router with
      keys := JsMap.set s.router.keys (ThreadOrchestrator.hintKeyId threadId) k } :=
    ⟨h.kept.ids,h.kept.ids_nodup,JsMap.nodup_keys_set h.kept.keys_nodup _ _⟩
  refine h.mono (hk.same hsame) (SameBoard.refl _) (fun b => ?_) (fun hint hm => ?_)
    (fun b k _ payload hs => hs.listened _)
  · show JsMap.get (addKey sha256 c s.router _ k now).1.keys _ = _
    unfold addKey
    rw [hsame.1]
    exact JsMap.get_set_ne _ (hintKeyId_ne b threadId) k
  · rw [← hsame.2.1]
    exact hm

theorem Inv.removeThreadKey (h : Inv sha256 c s) (threadId : String) :
    Inv sha256 c { s with
      router := removeKey s.router (ThreadOrchestrator.hintKeyId threadId) } :=
  h.mono ⟨h.kept.ids,h.kept.ids_nodup,JsMap.nodup_keys_delete h.kept.keys_nodup _⟩
    (SameBoard.refl _) (fun b => JsMap.get_delete_ne (hintKeyId_ne b threadId))
    (fun _ hm => hm) (fun _ _ _ _ hs => hs)

theorem kept_dropBoardKey {router : HintRouter.State} (h : Kept sha256 router)
    (board : BoardOrchestrator.State) : Kept sha256 (dropBoardKey router board) := by
  unfold dropBoardKey
  split
  · split
    · exact h
    · exact ⟨h.ids,h.ids_nodup,JsMap.nodup_keys_delete h.keys_nodup _⟩
  · exact h

theorem dropBoardKey_recentHints (router : HintRouter.State) (board : BoardOrchestrator.State) :
    (dropBoardKey router board).recentHints = router.recentHints ∧
      (dropBoardKey router board).delivered = router.delivered := by
  unfold dropBoardKey
  split
  · split
    · exact ⟨rfl,rfl⟩
    · exact ⟨rfl,rfl⟩
  · exact ⟨rfl,rfl⟩

theorem isOpen_of_openBoard {board : BoardOrchestrator.State} {b : String} {k : Bytes}
    (h : openBoard board = some (b,k)) : IsOpen board b k ∧ b ≠ "" := by
  obtain ⟨hb,hk,hne⟩ := openBoard_some h
  exact ⟨⟨hb,hk⟩,hne⟩

/-- The board is open already: nothing is registered again. -/
theorem Inv.activate_open (h : Inv sha256 c s) {b : String} {k : Bytes} {now : Nat}
    (ho : IsOpen s.board b k) : Inv sha256 c (activate sha256 c s b k now) := by
  have hsw : switchBoard s.board b k = s.board := if_pos ho
  have hl : s.board.isListening = true := (h.listening (by simp [ho.1])).1
  unfold HintDelivery.activate
  dsimp only
  rw [hsw,hl,if_pos ho,if_pos rfl]
  refine h.mono h.kept ?_ (fun _ => rfl) (fun _ hm => hm) (fun _ _ _ _ hs => hs)
  unfold BoardOrchestrator.activate BoardOrchestrator.listen
  rw [hsw,if_pos hl]
  exact ⟨rfl,rfl,rfl,rfl⟩

/-- A switch: the new key opens every hint of the board that it has not opened before. -/
theorem Inv.activate_switch (h : Inv sha256 c s) {b : String} {k : Bytes} {now : Nat}
    (hno : ¬IsOpen s.board b k) (hG : NotUsedUp sha256 c s (now,.board (.activate b k))) :
    Inv sha256 c (activate sha256 c s b k now) := by
  have hsw : switchBoard s.board b k = { clear s.board with
      currentBoardId := some b, currentBoardKey := some k, unwatchZone := some k } := if_neg hno
  have hl : (switchBoard s.board b k).isListening = false := by
    rw [hsw]
    rfl
  have hboard : BoardOrchestrator.activate s.board b k = suspend { switchBoard s.board b k with
      hintKeys := JsMap.set (switchBoard s.board b k).hintKeys (hintKeyId b) k
      bodyListeners := (switchBoard s.board b k).bodyListeners+1
      isListening := true } (.cacheRead b k) := by
    unfold BoardOrchestrator.activate BoardOrchestrator.listen
    rw [hl]
    rfl
  have hopen : ∀ b' k', openBoard (BoardOrchestrator.activate s.board b k) = some (b',k') →
      b' = b ∧ k' = k := by
    intro b' k' ho
    have hid := (isOpen_of_openBoard ho).1
    rw [hboard,hsw] at hid
    exact ⟨(Option.some.inj hid.1).symm,(Option.some.inj hid.2).symm⟩
  have hsame : SameHints _ (reopen sha256 c now { dropBoardKey s.router s.board with
      keys := JsMap.set (dropBoardKey s.router s.board).keys (hintKeyId b) k }
      (dropBoardKey s.router s.board).recentHints).1 := reopen_same now _
  have hkept := kept_dropBoardKey h.kept s.board
  have hk : Kept sha256 { dropBoardKey s.router s.board with
      keys := JsMap.set (dropBoardKey s.router s.board).keys (hintKeyId b) k } :=
    ⟨hkept.ids,hkept.ids_nodup,JsMap.nodup_keys_set hkept.keys_nodup _ _⟩
  obtain ⟨hrecent,hdelivered⟩ := dropBoardKey_recentHints s.router s.board
  unfold HintDelivery.activate
  dsimp only
  rw [hl,if_neg hno,if_neg Bool.false_ne_true]
  refine ⟨hk.same hsame,fun _ => ?_,?_,?_⟩
  · show (BoardOrchestrator.activate s.board b k).isListening = true ∧
      0 < (BoardOrchestrator.activate s.board b k).bodyListeners
    rw [hboard]
    exact ⟨rfl,Nat.succ_pos _⟩
  · intro b' k' ho
    obtain ⟨rfl,rfl⟩ := hopen b' k' ho
    show JsMap.get (addKey sha256 c (dropBoardKey s.router s.board) _ _ now).1.keys _ = _
    unfold addKey
    rw [hsame.1]
    exact JsMap.get_set_self _ _ _
  · intro b' k' ho hint hm payload hp
    obtain ⟨rfl,rfl⟩ := hopen b' k' ho
    have hm' : hint ∈ s.router.recentHints := by
      rw [← hrecent]
      exact hsame.2.1 ▸ hm
    have hc := hG hno (isOpen_of_openBoard ho).2 hint hm' payload hp
    split at hc
    · rcases hc with hc | ⟨o,ho,he⟩
      · exact .inr (.inl hc)
      · exact .inr (.inr ⟨o,List.mem_append_left _ ho,he⟩)
    · next hd =>
      obtain ⟨o,hf,he⟩ := opened_of_opensFirst hk.keys_nodup (JsMap.get_set_self _ _ _) hp hc
      refine .inr (.inr ⟨o,List.mem_append_right _ ?_,he⟩)
      refine reopen_opens ?_ (hrecent ▸ hm') ?_ hf
      · rw [← hkept.ids]
        exact hkept.ids_nodup
      · show (dropBoardKey s.router s.board).delivered.has _ = false
        rw [hdelivered]
        simpa using hd

theorem sameBoard_onHintBodies (board : BoardOrchestrator.State) (body : Bytes) (keyId : String)
    (n : Nat) : SameBoard board ((fun board => onHintBody board body keyId)^[n] board) := by
  induction n generalizing board with
  | zero => exact SameBoard.refl board
  | succ n ih => exact (quiet_onHintBody board body keyId).toSameBoard.trans (ih _)

/-- The body of a fetch goes to the board it was for, if that board is open. -/
theorem Inv.settleFetch (h : Inv sha256 c s) {i : Nat} {o : OpenedHint} {rest : List OpenedHint}
    (ht : Machine.takeTask s.fetches i = some (o,rest)) (body : Option Bytes) :
    Inv sha256 c (settleFetch { s with fetches := rest } o body) := by
  have hrest : ∀ q ∈ s.fetches, q = o ∨ q ∈ rest := by
    obtain ⟨q,hq,he⟩ := Option.map_eq_some_iff.mp ht
    cases he
    intro r hr
    obtain ⟨j,hj⟩ := List.mem_iff_getElem?.mp hr
    by_cases hij : j = i
    · rw [hij,hq] at hj
      exact .inl (Option.some.inj hj).symm
    · exact .inr (List.mem_eraseIdx_iff_getElem?.mpr ⟨j,hij,hj⟩)
  cases body with
  | none =>
    refine h.mono h.kept (SameBoard.refl _) (fun _ => rfl) (fun _ hm => hm)
      (fun b k _ payload hs => ?_)
    rcases hs with hs | hs | ⟨q,hq,he⟩
    · exact .inl hs
    · exact .inr (.inl (List.mem_cons_of_mem _ hs))
    · rcases hrest q hq with rfl | hq
      · exact .inr (.inl (he.1 ▸ List.mem_cons_self))
      · exact .inr (.inr ⟨q,hq,he⟩)
  | some body =>
    refine h.mono h.kept (sameBoard_onHintBodies _ _ _ _) (fun _ => rfl) (fun _ hm => hm)
      (fun b k ho payload hs => ?_)
    have hmono : ∀ q ∈ s.handed, q ∈ (HintDelivery.settleFetch { s with fetches := rest } o
        (some body)).handed := by
      intro q hq
      show q ∈ if handsOver s.board o.keyId then o.payload :: s.handed else s.handed
      split
      · exact List.mem_cons_of_mem _ hq
      · exact hq
    rcases hs with hs | hs | ⟨q,hq,he⟩
    · exact .inl (hmono _ hs)
    · exact .inr (.inl hs)
    · rcases hrest q hq with rfl | hq
      · left
        have hb : 0 < s.board.bodyListeners :=
          (h.listening (by simp [(isOpen_of_openBoard ho).1.1])).2
        have hh : handsOver s.board q.keyId = true := by simp [handsOver,ho,he.2,hb]
        show payload ∈ if handsOver s.board q.keyId then q.payload :: s.handed else s.handed
        rw [hh,if_pos rfl]
        exact he.1 ▸ List.mem_cons_self
      · exact .inr (.inr ⟨q,hq,he⟩)

theorem Inv.clear (h : Inv sha256 c s) : Inv sha256 c
    { s with router := dropBoardKey s.router s.board, board := clear s.board } := by
  have hnone : ∀ b k, openBoard (BoardOrchestrator.clear s.board) ≠ some (b,k) := by
    intro b k ho
    cases (isOpen_of_openBoard ho).1.1
  refine ⟨kept_dropBoardKey h.kept s.board,fun hc => absurd rfl hc,?_,?_⟩
  · intro b k ho
    exact absurd ho (hnone b k)
  · intro b k ho
    exact absurd ho (hnone b k)

theorem Inv.boardStep (h : Inv sha256 c s) {board : BoardOrchestrator.State}
    (hb : SameBoard s.board board) : Inv sha256 c { s with board := board } :=
  h.mono h.kept hb (fun _ => rfl) (fun _ hm => hm) (fun _ _ _ _ hs => hs)

theorem inv_step (s : State) (a : Nat × Action) (s' : State) (h : Inv sha256 c s)
    (hG : NotUsedUp sha256 c s a) (hs : step sha256 c p myPeerId s a = some s') :
    Inv sha256 c s' := by
  obtain ⟨now,a⟩ := a
  cases a with
  | hint sender hint peers =>
    cases hs
    exact h.handleHint hG
  | exitHint bytes peers =>
    cases hs
    exact h.handleExitHint hG
  | slotStored entry =>
    simp only [step] at hs
    split at hs
    · next hint he =>
      cases hs
      exact h.ingestLocal he hG
    · cases hs
      exact h
  | originate hint =>
    cases hs
    exact h.sameHints ⟨rfl,rfl,rfl⟩
  | addThreadKey threadId k =>
    cases hs
    exact h.addThreadKey threadId k now
  | removeThreadKey threadId =>
    cases hs
    exact h.removeThreadKey threadId
  | cleanupFlooded =>
    cases hs
    exact h.sameHints ⟨rfl,rfl,rfl⟩
  | cleanupReceived =>
    cases hs
    exact h.sameHints ⟨rfl,rfl,rfl⟩
  | cleanupDelivered =>
    cases hs
    exact h.sameHints ⟨rfl,rfl,rfl⟩
  | fetched i stored fetched =>
    obtain ⟨⟨o,rest⟩,ht,rfl⟩ := Option.map_eq_some_iff.mp hs
    exact h.settleFetch ht _
  | board a =>
    cases a with
    | activate b k =>
      cases hs
      by_cases ho : IsOpen s.board b k
      · exact h.activate_open ho
      · exact h.activate_switch ho hG
    | clear =>
      cases hs
      exact h.clear
    | hintBody body keyId => cases hs
    | _ =>
      unfold step at hs
      dsimp only at hs
      obtain ⟨board,hb,rfl⟩ := Option.map_eq_some_iff.mp hs
      exact h.boardStep (sameBoard_step rfl hb)

theorem notUsedUp_fetched (s : State) (i : Nat) (stored : List Bytes)
    (fetched : Option (List Bytes)) (now : Nat) :
    NotUsedUp sha256 c s (now,.fetched i stored fetched) := by
  intro hint ho
  cases ho

theorem hint_notLost {as : List (Nat × Action)}
    (hr : Machine.run (step sha256 c p myPeerId) {} as = some s)
    (hG : Machine.Along (step sha256 c p myPeerId) (NotUsedUp sha256 c) {} as) :
    NotLost c s := by
  have hinit : Inv sha256 c {} := by
    refine ⟨⟨rfl,List.nodup_nil,List.nodup_nil⟩,fun hc => absurd rfl hc,?_,?_⟩
    · intro b k ho
      cases ho
    · intro b k ho
      cases ho
  have hinv := Machine.invariant_run inv_step hinit hG hr
  intro b k ho hint hm payload hp hf hmiss
  rcases hinv.served b k ho hint hm payload hp with hs | hs | ⟨o,hq,he⟩
  · exact hs
  · exact absurd hs hmiss
  · exact absurd he (hf o hq)

end Proofs

/-- A hint for the key of four tens, and the slot it is stored in. -/
def sampleHint : HintPacket where
  ttl := 8
  blindTag := [10,10,10,10]
  nonce := List.replicate 12 0
  powNonce := 3086
  ciphertext := List.replicate 48 0 ++ [10,10,10,10] ++ List.replicate 12 0
  ttl_le := hintInitialTtl_le
  blindTag_length := rfl
  nonce_length := zeroNonce_length
  powNonce_le := by decide
  ciphertext_length := rfl

def sampleSlot : Bytes := encodeSlotBlob sampleHint [0x7b,0x7d]

abbrev sampleStep : State → Nat × Action → Option State :=
  step Sha256.sha256 Hint.sample PacketBuilder.sample "me"

/-- The board stays open while the body is fetched. -/
def fetchedRun : List (Nat × Action) := [
  (0,.board (.activate "A" [10,10,10,10])),
  (1,.hint "neighbour" sampleHint []),
  (2,.fetched 0 [sampleSlot] none)]

theorem hint_notLost_fetchedRun : ∃ s, Machine.run sampleStep {} fetchedRun = some s ∧
    s.router.recentHints = [sampleHint] ∧ s.handed.length = 1 ∧ NotLost Hint.sample s := by
  have hsum : (Machine.run sampleStep {} fetchedRun).map (fun s =>
      decide (s.router.recentHints = [sampleHint] ∧ s.handed.length = 1)) = some true := by
    decide +kernel
  obtain ⟨s,hr,hs⟩ := Option.map_eq_some_iff.mp hsum
  obtain ⟨hkept,hhanded⟩ := of_decide_eq_true hs
  have hG : Machine.Along sampleStep (NotUsedUp Sha256.sha256 Hint.sample) {} fetchedRun := by
    refine ⟨fun _ _ hint hm => (by cases hm),fun t ht => ?_⟩
    cases ht
    refine ⟨fun hint ho _ b k hb payload _ => ?_,fun t ht => ?_⟩
    · have he : offered Sha256.sha256 {} (.hint "neighbour" sampleHint []) =
          some sampleHint := by decide +kernel
      cases ho.symm.trans he
      have hopen : openBoard (activate Sha256.sha256 Hint.sample {} "A" [10,10,10,10] 0).board =
          some ("A",[10,10,10,10]) := by decide +kernel
      cases hb.symm.trans hopen
      have hd : (activate Sha256.sha256 Hint.sample {} "A" [10,10,10,10] 0).router.delivered.has
          (hintId Sha256.sha256 sampleHint) = false := rfl
      rw [hd,if_neg Bool.false_ne_true]
      intro o hf
      have hfirst : (firstOpened Hint.sample [("board:A",[10,10,10,10])] sampleHint).map
          OpenedHint.keyId = some "board:A" := by decide +kernel
      have hf' : firstOpened Hint.sample [("board:A",[10,10,10,10])] sampleHint = some o := hf
      rw [hf'] at hfirst
      exact Option.some.inj hfirst
    · exact ⟨notUsedUp_fetched t 0 _ _ 2,fun _ _ => trivial⟩
  exact ⟨s,hr,hkept,hhanded,hint_notLost hr hG⟩

/-- Another board is open when the body of the hint arrives, and the hint counts as
delivered from then on. -/
def switchedRun : List (Nat × Action) := [
  (0,.board (.activate "A" [10,10,10,10])),
  (1,.hint "neighbour" sampleHint []),
  (2,.board (.activate "B" [20,20,20,20])),
  (3,.fetched 0 [sampleSlot] none),
  (4,.board (.activate "A" [10,10,10,10]))]

theorem hint_lost_switchedRun : ¬∀ (as : List (Nat × Action)) (s : State),
    Machine.run sampleStep {} as = some s → NotLost Hint.sample s := by
  intro h
  have hsum : (Machine.run sampleStep {} switchedRun).map (fun s =>
      decide (openBoard s.board = some ("A",[10,10,10,10]) ∧
        s.router.recentHints = [sampleHint] ∧ s.fetches = [] ∧ s.missed = [] ∧
          s.handed = [])) = some true := by decide +kernel
  obtain ⟨s,hr,hs⟩ := Option.map_eq_some_iff.mp hsum
  obtain ⟨hopen,hkept,hfetches,hmissed,hhanded⟩ := of_decide_eq_true hs
  obtain ⟨payload,hp⟩ : ∃ payload, openHint Hint.sample [10,10,10,10] sampleHint =
      some payload := Option.isSome_iff_exists.mp (by decide +kernel)
  have hm := h switchedRun s hr "A" _ hopen sampleHint (by simp [hkept]) payload hp
    (by simp [hfetches]) (by simp [hmissed])
  simp [hhanded] at hm

end HintDelivery
