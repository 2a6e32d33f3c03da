import AetherLite.Logic.BoardOrchestrator

/-! The packets delivered to the open board, whether its reads of the statistics work or not. -/
set_option autoImplicit false

namespace BoardDelivery

open Js PacketBuilder Logic BoardOrchestrator

/-- The board, and two lists the code does not keep: the packets handed to
`handlePacketObject`, without those being handled when a read failed, and the packets whose
read failed and that were not handed over since. -/
structure State where
  board : BoardOrchestrator.State
  handed : List Val := []
  failed : List Val := []

def firstParsed : List PostRow → Option Val
  | [] => none
  | row :: rest =>
    match parsePacket row.payload with
    | .error _ => firstParsed rest
    | .ok packet => some packet

/-- The packet a step calls `handlePacketObject` with. -/
def delivered (s : BoardOrchestrator.State) (a : Action) : Option Val :=
  match a with
  | .gossip packet => (openBoard s).map fun _ => packet
  | .hintBody body keyId =>
    match openBoard s with
    | none => none
    | some (b,_) => if keyId ≠ hintKeyId b then none else (parsePacket body).toOption
  | .resume i result _ =>
    match s.pending[i]?,result with
    | some (.cacheRead boardId _),.postRows stored =>
      firstParsed (getPosts stored boardId boardMetaThreadId)
    | some (.cacheNext _ _ rest),.done => firstParsed rest
    | _,_ => none
  | _ => none

/-- The packet whose read of the statistics fails in a step. -/
def readFailed (s : BoardOrchestrator.State) (a : Action) : Option Val :=
  match a with
  | .resume i .failed _ =>
    match s.pending[i]? with
    | some (.statsRead c _ _ _) => some c.packet
    | _ => none
  | _ => none

def packetOf : Cont → Option Val
  | .decrypted c | .statsRead c _ _ _ => some c.packet
  | _ => none

/-- The packet, or another with its id, is being handled. -/
def isHandled (pending : List Cont) (x : Val) : Bool :=
  pending.any fun c => (packetOf c).any fun y => y.field "packet_id" == x.field "packet_id"

def isMarked (s : BoardOrchestrator.State) (x : Val) : Bool :=
  s.seenPacketIds.any (· == x.field "packet_id")

def step (p : Primitives) (s : State) (a : Action) : Option State :=
  (BoardOrchestrator.step p s.board a).map fun board =>
    match readFailed s.board a,delivered s.board a with
    | some packet,_ => {
        board := board
        handed := s.handed.filter fun x => !isHandled s.board.pending x
        failed := packet :: s.failed }
    | none,some packet => {
        board := board
        handed := packet :: s.handed
        failed := s.failed.filter fun x => !(x.field "packet_id" == packet.field "packet_id") }
    | none,none => { s with board := board }

section
variable (p : Primitives) (contents : String → Val × Val) (b : String) (k : Bytes)

/-- The id of a packet is of the header, which commits to the payload and the nonce. -/
def Genuine (x : Val) : Prop :=
  ∃ id, x.field "packet_id" = .str id ∧ contents id = (x.field "payload",x.field "nonce")

/-- The packet creates a thread: it opens to a post of the first type with a time and a weight. -/
structure Creates (x : Val) (post : Post) : Prop where
  opens : verifyAndDecrypt p x k = .ok (some post)
  postType : post.postType.strictEq (.num (.fin 1)) = true
  createdAt : ∃ n, post.createdAt.number = .ok n
  weight : ∃ w, basePow post = .ok w

/-- The steps of a board that stays active and to which packets are delivered. -/
def StaysActive : Action → Prop
  | .activate boardId key => boardId = b ∧ key = k
  | .clear | .submitThread _ _ _ _ => False
  | _ => True

/-- The board stays active, and what is delivered to it is genuine. -/
def Delivers (s : State) (a : Action) : Prop :=
  StaysActive b k a ∧ ∀ x, delivered s.board a = some x → Genuine contents x

def ReadsWork (s : State) (a : Action) : Prop := readFailed s.board a = none

/-- The thread of every packet that was handed over is listed, unless it is still handled; a
packet whose read failed can be handed over again. -/
structure Kept (s : State) : Prop where
  listed : ∀ x ∈ s.handed, ∀ post, Creates p k x post →
    isHandled s.board.pending x = true ∨ post.threadId ∈ JsMap.keys s.board.threads
  unmarked : ∀ x ∈ s.failed, isMarked s.board x = false

/-- The board has just been opened: no packet of it was seen, and no call is under way but for
the reading of its cache. -/
structure Opened (s : BoardOrchestrator.State) : Prop where
  board : openBoard s = some (b,k)
  seen : s.seenPacketIds = []
  pending : ∀ c ∈ s.pending, c = .cacheRead b k ∨ c = .syncFinally ∨ ∃ b', c = .statsTick b'

end

/-! What a step does to the packets in hand, for any property of the list that says that a
packet is done, and any kind of packets whose ids tell them apart. -/

section
variable (p : Primitives) (Packet : Val → Prop) (Done : JsMap Val ThreadMeta → Post → Prop)
  (b : String) (k : Bytes)

/-- The packets have ids, and those with one id are opened alike. -/
structure Named : Prop where
  id : ∀ x, Packet x → ∃ id, x.field "packet_id" = .str id
  alike : ∀ x y, Packet x → Packet y → x.field "packet_id" = y.field "packet_id" →
    verifyAndDecrypt p x k = verifyAndDecrypt p y k

/-- A suspended call is one for the board, about such a packet. -/
def Own : Cont → Prop
  | .decrypted c => c.boardId = b ∧ c.key = k ∧ Packet c.packet
  | .statsRead c post createdAt base => c.boardId = b ∧ c.key = k ∧ Packet c.packet ∧
      verifyAndDecrypt p c.packet k = .ok (some post) ∧
      (∃ now, normalizeTimestamp post.createdAt now = .ok createdAt) ∧ basePow post = .ok base
  | .persisted c => c.boardId = b ∧ c.key = k
  | .cacheRead boardId key | .cacheNext boardId key _ => boardId = b ∧ key = k
  | .built _ _ _ _ => False
  | _ => True

/-- A call of `db.save` is for such a packet. -/
def Saved (e : PostSave) : Prop :=
  ∃ x post, Packet x ∧ verifyAndDecrypt p x k = .ok (some post) ∧ e.boardId = b ∧
    e.threadRoot = post.threadId ∧ e.cumulativePow = orElse post.cumulativePow (.num (.fin 0))

/-- No packet is seen, and nothing of a packet is begun. -/
structure Onward (s s' : BoardOrchestrator.State) : Prop where
  board : openBoard s' = openBoard s
  seen : s'.seenPacketIds = s.seenPacketIds
  saves : ∀ e ∈ s'.saves, e ∈ s.saves ∨ Saved p Packet b k e
  kept : ∀ c ∈ s.pending, c ∈ s'.pending
  new : ∀ c ∈ s'.pending, c ∈ s.pending ∨ Own p Packet b k c ∧ packetOf c = none

/-- The packet with the id is done, or it is being handled. -/
def Cared (s : BoardOrchestrator.State) (id : String) : Prop :=
  ∀ x, Packet x → x.field "packet_id" = .str id → ∀ post, Creates p k x post →
    isHandled s.pending x = true ∨ Done s.threads post

/-- What holds of the board while the packet with an id, if one is given, is in hand. -/
structure Good (s : BoardOrchestrator.State) (inHand : Option String) : Prop where
  board : openBoard s = some (b,k)
  own : ∀ c ∈ s.pending, Own p Packet b k c
  marked : ∀ c ∈ s.pending, ∀ x, packetOf c = some x → isMarked s x = true
  cared : ∀ id, .str id ∈ s.seenPacketIds → inHand ≠ some id → Cared p Packet Done k s id

/-- What a step does with the packet it calls `handlePacketObject` with, if it does. -/
structure Took (s s' : BoardOrchestrator.State) (x : Option Val) : Prop where
  good : Good p Packet Done b k s' none
  marked : ∀ y, x = some y → isMarked s' y = true
  seen : ∀ id ∈ s.seenPacketIds, id ∈ s'.seenPacketIds
  saves : ∀ e ∈ s'.saves, e ∈ s.saves ∨ Saved p Packet b k e

end

section
variable {p : Primitives} {Packet : Val → Prop} {Done : JsMap Val ThreadMeta → Post → Prop}
  {b : String} {k : Bytes}

theorem Creates.of_named (hp : Named p Packet k) {x y : Val} {post : Post} {id : String}
    (h : Creates p k x post) (hx : Packet x) (hy : Packet y)
    (hxid : x.field "packet_id" = .str id) (hyid : y.field "packet_id" = .str id) :
    Creates p k y post where
  opens := (hp.alike x y hx hy (hxid.trans hyid.symm)).symm.trans h.opens
  postType := h.postType
  createdAt := h.createdAt
  weight := h.weight

theorem str_beq (s : String) : (Val.str s == .str s) = true := beq_self_eq_true s

theorem isMarked_iff {s : BoardOrchestrator.State} {x : Val} {id : String}
    (h : x.field "packet_id" = .str id) : isMarked s x = true ↔ .str id ∈ s.seenPacketIds := by
  unfold isMarked
  rw [h,List.any_eq_true]
  constructor
  · intro ⟨y,hy,heq⟩
    exact Val.eq_of_beq heq ▸ hy
  · intro hmem
    exact ⟨_,hmem,str_beq id⟩

theorem isMarked_mono {s s' : BoardOrchestrator.State}
    (h : ∀ id ∈ s.seenPacketIds, id ∈ s'.seenPacketIds) {x : Val} (hx : isMarked s x = true) :
    isMarked s' x = true := by
  unfold isMarked at hx ⊢
  obtain ⟨id,hid,hbeq⟩ := List.any_eq_true.mp hx
  exact List.any_eq_true.mpr ⟨id,h id hid,hbeq⟩

theorem isHandled_of_mem {pending : List Cont} {c : Cont} {x y : Val} {id : String}
    (hc : c ∈ pending) (hy : packetOf c = some y) (hyid : y.field "packet_id" = .str id)
    (hxid : x.field "packet_id" = .str id) : isHandled pending x = true := by
  unfold isHandled
  rw [List.any_eq_true]
  refine ⟨c,hc,?_⟩
  rw [hy,Option.any_some,hyid,hxid]
  exact str_beq id

theorem isHandled_mono {pending pending' : List Cont} (h : ∀ c ∈ pending, c ∈ pending') {x : Val}
    (hx : isHandled pending x = true) : isHandled pending' x = true := by
  unfold isHandled at hx ⊢
  obtain ⟨c,hc,hid⟩ := List.any_eq_true.mp hx
  exact List.any_eq_true.mpr ⟨c,h c hc,hid⟩

theorem Onward.refl (s : BoardOrchestrator.State) : Onward p Packet b k s s :=
  ⟨rfl,rfl,fun _ he => .inl he,fun _ hc => hc,fun _ hc => .inl hc⟩

theorem Onward.trans {s₁ s₂ s₃ : BoardOrchestrator.State} (h : Onward p Packet b k s₁ s₂)
    (h' : Onward p Packet b k s₂ s₃) : Onward p Packet b k s₁ s₃ where
  board := h'.board.trans h.board
  seen := h'.seen.trans h.seen
  saves e he := by
    obtain he | he := h'.saves e he
    · exact h.saves e he
    · exact .inr he
  kept c hc := h'.kept c (h.kept c hc)
  new c hc := by
    obtain hc | hc := h'.new c hc
    · exact h.new c hc
    · exact .inr hc

theorem onward_suspend (s : BoardOrchestrator.State) {c : Cont} (ho : Own p Packet b k c)
    (hc : packetOf c = none) : Onward p Packet b k s (suspend s c) where
  board := rfl
  seen := rfl
  saves _ he := .inl he
  kept _ hd := List.mem_append_left _ hd
  new d hd := by
    obtain hd | hd := List.mem_append.mp hd
    · exact .inl hd
    · exact .inr (List.mem_singleton.mp hd ▸ ⟨ho,hc⟩)

/-- A change of what the board keeps besides. -/
theorem onward_of_eq {s s' : BoardOrchestrator.State} (hb : openBoard s' = openBoard s)
    (hs : s'.seenPacketIds = s.seenPacketIds) (hp : s'.pending = s.pending)
    (hsaves : ∀ e ∈ s'.saves, e ∈ s.saves ∨ Saved p Packet b k e) : Onward p Packet b k s s' := by
  refine ⟨hb,hs,hsaves,?_,?_⟩
  · rw [hp]
    exact fun _ hc => hc
  · rw [hp]
    exact fun _ hc => .inl hc

theorem onward_settle (s : BoardOrchestrator.State) {c : PacketCall} (hb : c.boardId = b)
    (hk : c.key = k) : Onward p Packet b k s (settle s c) := by
  unfold settle
  split
  · exact onward_suspend s ⟨hb,hk⟩ rfl
  · exact .refl s

theorem onward_fullSync (s : BoardOrchestrator.State) (boardId : String) (env : Env) :
    Onward p Packet b k s (fullSync s boardId env) := by
  unfold fullSync
  split
  · exact .refl s
  have hown : Own p Packet b k .syncFinally := trivial
  dsimp only
  split
  · have hq : Onward p Packet b k s { s with syncInFlight := true } := onward_of_eq rfl rfl rfl fun _ he => .inl he
    exact hq.trans (onward_suspend _ hown rfl)
  · have hq : Onward p Packet b k s { startStatsSync s boardId with syncInFlight := true } :=
      onward_of_eq rfl rfl rfl fun _ he => .inl he
    exact hq.trans (onward_suspend _ hown rfl)

theorem onward_mergeAndNotify (s : BoardOrchestrator.State) (post : Post) (packetId : Val)
    (maxPow createdAt : Number) (origins : List Origin) :
    Onward p Packet b k s (mergeAndNotify s post packetId maxPow createdAt origins) := by
  unfold mergeAndNotify mergeThread
  cases merged (JsMap.get s.threads post.threadId) post packetId maxPow createdAt origins with
  | some t => exact onward_of_eq rfl rfl rfl fun _ he => .inl he
  | none => exact .refl s

theorem onward_resumeStatsTick (s : BoardOrchestrator.State) (boardId : String)
    (stored : List ThreadRow) (env : Env) :
    Onward p Packet b k s (resumeStatsTick s boardId stored env) := by
  unfold resumeStatsTick
  dsimp only
  split
  · exact onward_of_eq rfl rfl rfl fun _ he => .inl he
  · exact onward_of_eq rfl rfl rfl fun _ he => .inl he

theorem onward_activate {s : BoardOrchestrator.State} (h : openBoard s = some (b,k)) :
    Onward p Packet b k s (BoardOrchestrator.activate s b k) := by
  obtain ⟨hb,hk,-⟩ := openBoard_some h
  have hown : Own p Packet b k (.cacheRead b k) := ⟨rfl,rfl⟩
  have hswitch : switchBoard s b k = s := if_pos ⟨hb,hk⟩
  have hlisten : Onward p Packet b k s (BoardOrchestrator.listen s b k) := by
    unfold BoardOrchestrator.listen
    split
    · exact .refl s
    · exact onward_of_eq rfl rfl rfl fun _ he => .inl he
  unfold BoardOrchestrator.activate
  rw [hswitch]
  exact hlisten.trans (onward_suspend _ hown rfl)

theorem Cared.mono {s s' : BoardOrchestrator.State} {id : String}
    (h : Cared p Packet Done k s id) (hp : ∀ c ∈ s.pending, c ∈ s'.pending)
    (hd : ∀ q, Done s.threads q → Done s'.threads q) : Cared p Packet Done k s' id :=
  fun x hx hid post hpost => (h x hx hid post hpost).imp (isHandled_mono hp) (hd post)

theorem Good.onward {s s' : BoardOrchestrator.State} {inHand : Option String}
    (h : Good p Packet Done b k s inHand) (ho : Onward p Packet b k s s')
    (hd : ∀ q, Done s.threads q → Done s'.threads q) : Good p Packet Done b k s' inHand where
  board := ho.board.trans h.board
  own c hc := by
    obtain hc | hc := ho.new c hc
    · exact h.own c hc
    · exact hc.1
  marked c hc x hx := by
    unfold isMarked
    rw [ho.seen]
    obtain hc | hc := ho.new c hc
    · exact h.marked c hc x hx
    · rw [hc.2] at hx
      cases hx
  cared id hid hne := by
    rw [ho.seen] at hid
    exact (h.cared id hid hne).mono ho.kept hd

/-- A call that is taken up again, with the id of its packet. -/
theorem Good.take {s : BoardOrchestrator.State} {i : Nat} {c : Cont} {rest : List Cont}
    (h : Good p Packet Done b k s none) (ht : Machine.takeTask s.pending i = some (c,rest))
    {inHand : Option String}
    (hc : ∀ x id, packetOf c = some x → x.field "packet_id" = .str id → inHand = some id) :
    Good p Packet Done b k { s with pending := rest } inHand where
  board := h.board
  own d hd := h.own d ((Machine.takeTask_mem ht).2 d hd)
  marked d hd x hx := h.marked d ((Machine.takeTask_mem ht).2 d hd) x hx
  cared id hid hne := by
    intro x hx hxid post hpost
    obtain hhandled | hdone := h.cared id hid (by simp) x hx hxid post hpost
    · left
      unfold isHandled at hhandled ⊢
      obtain ⟨d,hd,hany⟩ := List.any_eq_true.mp hhandled
      obtain rfl | hd := Machine.takeTask_cases ht hd
      · obtain ⟨y,hy,hbeq⟩ := (Option.any_eq_true _ _).mp hany
        exact absurd (hc y id hy ((Val.eq_of_beq hbeq).trans hxid)) hne
      · exact List.any_eq_true.mpr ⟨d,hd,hany⟩
    · exact .inr hdone

/-- The call in hand ends, and its packet is cared for. -/
theorem Good.close {s : BoardOrchestrator.State} {id : String}
    (h : Good p Packet Done b k s (some id)) (hc : Cared p Packet Done k s id) :
    Good p Packet Done b k s none where
  board := h.board
  own := h.own
  marked := h.marked
  cared i hi _ := by
    by_cases heq : id = i
    · exact heq ▸ hc
    · exact h.cared i hi (by simpa using heq)

/-- The call in hand is suspended again. -/
theorem Good.suspend {s : BoardOrchestrator.State} {id : String} {c : Cont} {x : Val}
    (h : Good p Packet Done b k s (some id)) (ho : Own p Packet b k c) (hx : packetOf c = some x)
    (hid : x.field "packet_id" = .str id) (hm : .str id ∈ s.seenPacketIds) :
    Good p Packet Done b k (BoardOrchestrator.suspend s c) none where
  board := h.board
  own d hd := by
    obtain hd | hd := List.mem_append.mp hd
    · exact h.own d hd
    · exact List.mem_singleton.mp hd ▸ ho
  marked d hd y hy := by
    obtain hd | hd := List.mem_append.mp hd
    · exact h.marked d hd y hy
    · rw [List.mem_singleton.mp hd,hx] at hy
      cases hy
      exact (isMarked_iff hid).mpr hm
  cared i hi _ := by
    by_cases heq : id = i
    · subst heq
      intro y _ hyid _ _
      exact .inl (isHandled_of_mem (List.mem_append_right _ (List.mem_singleton_self c)) hx hid hyid)
    · exact (h.cared i hi (by simpa using heq)).mono (fun d hd => List.mem_append_left _ hd)
        fun _ hq => hq

theorem Good.took {s s' : BoardOrchestrator.State} (h : Good p Packet Done b k s none)
    (ho : Onward p Packet b k s s') (hd : ∀ q, Done s.threads q → Done s'.threads q) :
    Took p Packet Done b k s s' none where
  good := h.onward ho hd
  marked _ hx := by cases hx
  seen id hid := by
    rw [ho.seen]
    exact hid
  saves := ho.saves

/-- A call that has no packet is taken up again. -/
theorem Good.took_take {s s' : BoardOrchestrator.State} {i : Nat} {c : Cont} {rest : List Cont}
    (h : Good p Packet Done b k s none) (ht : Machine.takeTask s.pending i = some (c,rest))
    (hc : packetOf c = none) (ho : Onward p Packet b k { s with pending := rest } s')
    (hd : ∀ q, Done s.threads q → Done s'.threads q) : Took p Packet Done b k s s' none := by
  have htaken : Good p Packet Done b k { s with pending := rest } none :=
    h.take ht fun x id hx => by rw [hc] at hx; cases hx
  have htook := htaken.took ho hd
  exact ⟨htook.good,htook.marked,htook.seen,htook.saves⟩

theorem Good.enterPacket (hp : Named p Packet k) {s : BoardOrchestrator.State}
    (h : Good p Packet Done b k s none) {c : PacketCall} (hb : c.boardId = b) (hk : c.key = k)
    (hx : Packet c.packet)
    (hd : ∀ q, Done s.threads q → Done (enterPacket s c).threads q) :
    Took p Packet Done b k s (enterPacket s c) (some c.packet) := by
  obtain ⟨id,hid⟩ := hp.id c.packet hx
  have hnull : c.packet.isNullish = false := by
    cases hpacket : c.packet with
    | _ => first | rfl | (rw [hpacket] at hid; cases hid)
  unfold BoardOrchestrator.enterPacket at hd ⊢
  rw [if_neg (by simp [hnull])] at hd ⊢
  dsimp only at hd ⊢
  split at hd
  · next hseen =>
    rw [if_pos hseen]
    have ho : Onward p Packet b k s (settle s c) := onward_settle s hb hk
    refine ⟨h.onward ho hd,fun y hy => ?_,fun i hi => by rw [ho.seen]; exact hi,ho.saves⟩
    cases hy
    unfold isMarked
    rw [ho.seen]
    exact hseen
  · next hseen =>
    rw [if_neg hseen]
    have hgood : Good p Packet Done b k
        { s with seenPacketIds := c.packet.field "packet_id" :: s.seenPacketIds } (some id) := by
      refine ⟨h.board,h.own,fun d hd y hy => ?_,fun i hi hne => ?_⟩
      · have hmarked := h.marked d hd y hy
        unfold isMarked at hmarked ⊢
        rw [List.any_cons,hmarked,Bool.or_true]
      · rw [hid] at hi
        obtain heq | hi := List.mem_cons.mp hi
        · cases heq
          exact absurd rfl hne
        · exact h.cared i hi (by simp)
    have hmem : Val.str id ∈ c.packet.field "packet_id" :: s.seenPacketIds := by simp [hid]
    refine ⟨hgood.suspend ⟨hb,hk,hx⟩ rfl hid hmem,fun y hy => ?_,
      fun i hi => List.mem_cons_of_mem _ hi,fun _ he => .inl he⟩
    cases hy
    exact (isMarked_iff hid).mpr hmem

theorem Good.cacheLoop (hp : Named p Packet k) {s : BoardOrchestrator.State}
    (h : Good p Packet Done b k s none) (env : Env) {rows : List PostRow}
    (hx : ∀ x, firstParsed rows = some x → Packet x)
    (hd : ∀ q, Done s.threads q → Done (cacheLoop s b k env rows).threads q) :
    Took p Packet Done b k s (cacheLoop s b k env rows) (firstParsed rows) := by
  induction rows with
  | nil => exact h.took (onward_fullSync s b env) hd
  | cons row rest ih =>
    cases hparse : parsePacket row.payload with
    | error e =>
      simp only [BoardOrchestrator.cacheLoop,firstParsed,hparse] at hx hd ⊢
      exact ih hx hd
    | ok packet =>
      simp only [BoardOrchestrator.cacheLoop,firstParsed,hparse] at hx hd ⊢
      have hpacket := hx packet rfl
      exact h.enterPacket hp rfl rfl hpacket hd

/-- The reading of the cache is taken up again. -/
theorem Good.took_cacheLoop (hp : Named p Packet k) {s : BoardOrchestrator.State} {i : Nat}
    {c : Cont} {rest : List Cont} (h : Good p Packet Done b k s none)
    (ht : Machine.takeTask s.pending i = some (c,rest)) (hc : packetOf c = none) (env : Env)
    {rows : List PostRow} (hx : ∀ x, firstParsed rows = some x → Packet x)
    (hd : ∀ q, Done s.threads q →
      Done (BoardOrchestrator.cacheLoop { s with pending := rest } b k env rows).threads q) :
    Took p Packet Done b k s (BoardOrchestrator.cacheLoop { s with pending := rest } b k env rows)
      (firstParsed rows) := by
  have htaken : Good p Packet Done b k { s with pending := rest } none :=
    h.take ht fun x id hx => by rw [hc] at hx; cases hx
  have htook := htaken.cacheLoop hp env hx hd
  exact ⟨htook.good,htook.marked,htook.seen,htook.saves⟩

/-- The decryption of a packet in hand, and what comes after it. -/
theorem Good.resumeDecrypted (hp : Named p Packet k) {s : BoardOrchestrator.State}
    {c : PacketCall} {id : String} (h : Good p Packet Done b k s (some id))
    (hown : Own p Packet b k (.decrypted c)) (hid : c.packet.field "packet_id" = .str id)
    (hm : .str id ∈ s.seenPacketIds) (env : Env) :
    Took p Packet Done b k s (resumeDecrypted p s c env) none := by
  obtain ⟨hb,hk,hpacket⟩ := hown
  have hthreads : (settle s c).threads = s.threads := (quiet_settle s c).threads
  have hends (hnone : ∀ post, ¬Creates p k c.packet post) :
      Took p Packet Done b k s (settle s c) none := by
    refine (h.close fun x hx hxid post hpost => ?_).took (onward_settle s hb hk)
      fun q hq => hthreads ▸ hq
    exact absurd (hpost.of_named hp hx hpacket hxid hid) (hnone post)
  unfold BoardOrchestrator.resumeDecrypted
  rw [hk]
  split
  · next hopens => exact hends fun post hpost => by simp [hpost.opens] at hopens
  · next hopens => exact hends fun post hpost => by simp [hpost.opens] at hopens
  · next post hopens =>
    split
    · next htype =>
      refine hends fun post' hpost => ?_
      have heq := hpost.opens
      rw [hopens] at heq
      cases heq
      simp [hpost.postType] at htype
    · split
      · next createdAt base hcreatedAt hbase =>
        have hown : Own p Packet b k (.statsRead c post createdAt base) :=
          ⟨hb,hk,hpacket,hopens,⟨env.now,hcreatedAt⟩,hbase⟩
        exact ⟨h.suspend hown rfl hid hm,(fun _ hx => nomatch hx),fun _ hi => hi,fun _ he => .inl he⟩
      · next hfails =>
        refine hends fun post' hpost => ?_
        have heq := hpost.opens
        rw [hopens] at heq
        cases heq
        obtain ⟨n,hn⟩ := hpost.createdAt
        obtain ⟨w,hw⟩ := hpost.weight
        exact hfails _ w (by rw [normalizeTimestamp,hn]; rfl) hw

/-- The merge of a packet in hand, and what comes after it. -/
theorem Good.resumeStatsRead (hp : Named p Packet k) {s : BoardOrchestrator.State}
    {c : PacketCall} {id : String} {post : Post} {createdAt base : Number}
    (h : Good p Packet Done b k s (some id))
    (hown : Own p Packet b k (.statsRead c post createdAt base))
    (hid : c.packet.field "packet_id" = .str id) (stored : List ThreadRow)
    (hd : ∀ q, Done s.threads q → Done (resumeStatsRead s c post createdAt base stored).threads q)
    (hdone : Done (resumeStatsRead s c post createdAt base stored).threads post) :
    Took p Packet Done b k s (resumeStatsRead s c post createdAt base stored) none := by
  obtain ⟨hb,hk,hpacket,hopens,-,-⟩ := hown
  have ho : Onward p Packet b k s
      (BoardOrchestrator.resumeStatsRead s c post createdAt base stored) := by
    unfold BoardOrchestrator.resumeStatsRead
    dsimp only
    generalize hmerged : mergeAndNotify s post _ _ _ _ = t
    have honward : Onward p Packet b k s t := hmerged ▸ onward_mergeAndNotify s post _ _ _ _
    split
    · exact honward.trans (onward_settle t hb hk)
    · have hown : Own p Packet b k (.persisted c) := ⟨hb,hk⟩
      have hsaves (e : PostSave) (he : Saved p Packet b k e) :
          Onward p Packet b k t { t with saves := e :: t.saves } := by
        refine onward_of_eq rfl rfl rfl fun e' he' => ?_
        obtain rfl | he' := List.mem_cons.mp he'
        · exact .inr he
        · exact .inl he'
      refine honward.trans ((hsaves _ ?_).trans (onward_suspend _ hown rfl))
      exact ⟨c.packet,post,hpacket,hopens,hb,rfl,rfl⟩
  have hgood := (h.onward ho hd).close fun x hx hxid post' hpost => by
    have heq := hpost.opens
    rw [hp.alike x c.packet hx hpacket (hxid.trans hid.symm),hopens] at heq
    cases heq
    exact .inr hdone
  exact ⟨hgood,(fun _ hx => nomatch hx),fun i hi => by rw [ho.seen]; exact hi,ho.saves⟩

/-- One step of the board while its reads work. -/
theorem Good.resume (hp : Named p Packet k) {s s' : BoardOrchestrator.State} {i : Nat} {c : Cont}
    {rest : List Cont} {result : Awaited} {env : Env} (h : Good p Packet Done b k s none)
    (ht : Machine.takeTask s.pending i = some (c,rest))
    (hs : BoardOrchestrator.resume p { s with pending := rest } c result env = some s')
    (hread : readFailed s (.resume i result env) = none)
    (hx : ∀ x, delivered s (.resume i result env) = some x → Packet x)
    (hd : ∀ q, Done s.threads q → Done s'.threads q)
    (hdone : ∀ call post createdAt base stored, c = .statsRead call post createdAt base →
      result = .threadRows stored → Done s'.threads post) :
    Took p Packet Done b k s s' (delivered s (.resume i result env)) := by
  have hget := Machine.takeTask_get ht
  have hown := h.own c (Machine.takeTask_mem ht).1
  have hmarked := h.marked c (Machine.takeTask_mem ht).1
  have htake (y : Val) (hy : packetOf c = some y) (id : String)
      (hid : y.field "packet_id" = .str id) :
      Good p Packet Done b k { s with pending := rest } (some id) := by
    refine h.take ht fun z j hz hj => ?_
    rw [hy] at hz
    cases hz
    rw [hid] at hj
    cases hj
    rfl
  unfold delivered at hx ⊢
  simp only [hget] at hx ⊢
  unfold BoardOrchestrator.resume at hs
  split at hs
  · next c =>
    cases hs
    obtain ⟨id,hid⟩ := hp.id c.packet hown.2.2
    have hm := (isMarked_iff hid).mp (hmarked c.packet rfl)
    have htook := (htake c.packet rfl id hid).resumeDecrypted hp hown hid hm env
    exact ⟨htook.good,htook.marked,htook.seen,htook.saves⟩
  · next c post createdAt base stored =>
    cases hs
    obtain ⟨id,hid⟩ := hp.id c.packet hown.2.2.1
    have htook := (htake c.packet rfl id hid).resumeStatsRead hp hown hid stored hd
      (hdone c post createdAt base stored rfl rfl)
    exact ⟨htook.good,htook.marked,htook.seen,htook.saves⟩
  · simp [readFailed,hget] at hread
  · cases hs
    exact h.took_take ht rfl (onward_settle _ hown.1 hown.2) hd
  · cases hs
    exact h.took_take ht rfl (onward_settle _ hown.1 hown.2) hd
  · obtain ⟨rfl,rfl⟩ := hown
    cases hs
    exact h.took_cacheLoop hp ht rfl env hx hd
  · obtain ⟨rfl,rfl⟩ := hown
    cases hs
    have hnone : ∀ x, firstParsed [] = some x → Packet x := fun x hx => nomatch hx
    exact h.took_cacheLoop hp ht rfl env hnone hd
  · obtain ⟨rfl,rfl⟩ := hown
    cases hs
    exact h.took_cacheLoop hp ht rfl env hx hd
  · cases hs
    exact h.took_take ht rfl (onward_resumeStatsTick _ _ _ _) hd
  · cases hs
    exact h.took_take ht rfl (.refl _) hd
  · cases hown
  · cases hown
  · cases hs
    exact h.took_take ht rfl (onward_of_eq rfl rfl rfl fun _ he => .inl he) hd
  · cases hs
    exact h.took_take ht rfl (onward_of_eq rfl rfl rfl fun _ he => .inl he) hd
  · cases hs
    exact h.took_take ht rfl (onward_of_eq rfl rfl rfl fun _ he => .inl he) hd
  · cases hs

theorem Good.boardStep (hp : Named p Packet k) {s s' : BoardOrchestrator.State} {a : Action}
    (h : Good p Packet Done b k s none) (hs : BoardOrchestrator.step p s a = some s')
    (ha : StaysActive b k a) (hread : readFailed s a = none)
    (hx : ∀ x, delivered s a = some x → Packet x)
    (hd : ∀ q, Done s.threads q → Done s'.threads q)
    (hdone : ∀ i c post createdAt base stored env, a = .resume i (.threadRows stored) env →
      s.pending[i]? = some (.statsRead c post createdAt base) → Done s'.threads post) :
    Took p Packet Done b k s s' (delivered s a) := by
  cases a with
  | activate boardId key =>
    obtain ⟨rfl,rfl⟩ := ha
    cases hs
    exact h.took (onward_activate h.board) hd
  | clear => cases ha
  | gossip packet =>
    cases hs
    have hdelivered : delivered s (.gossip packet) = some packet := by
      simp [delivered,h.board]
    unfold onGossipPacket at hd ⊢
    rw [h.board] at hd ⊢
    rw [hdelivered]
    exact h.enterPacket hp rfl rfl (hx packet hdelivered) hd
  | hintBody body keyId =>
    cases hs
    unfold onHintBody at hd ⊢
    unfold delivered at hx ⊢
    simp only [h.board] at hx hd ⊢
    by_cases hkey : keyId = hintKeyId b
    · simp only [hkey,ne_eq,not_true_eq_false,if_false] at hx hd ⊢
      cases hparse : parsePacket body with
      | error e => exact h.took (.refl s) fun _ hq => hq
      | ok packet =>
        rw [hparse] at hx hd
        exact h.enterPacket hp rfl rfl (hx packet rfl) hd
    · simp only [ne_eq,hkey,not_false_eq_true,if_true]
      exact h.took (.refl s) fun _ hq => hq
  | submitThread boardId key title threadId => cases ha
  | statsTimer =>
    obtain ⟨b',-,rfl⟩ := Option.map_eq_some_iff.mp hs
    have hown : Own p Packet b k (.statsTick b') := trivial
    exact h.took (onward_suspend s hown rfl) hd
  | peerConnect =>
    cases hs
    exact h.took (onward_of_eq rfl rfl rfl fun _ he => .inl he) hd
  | debounceFired env =>
    simp only [BoardOrchestrator.step] at hs
    split at hs
    · cases hs
      have hq : Onward p Packet b k s { s with syncDebounce := false } := onward_of_eq rfl rfl rfl fun _ he => .inl he
      split at hd
      · exact h.took (hq.trans (onward_fullSync _ _ env)) hd
      · exact h.took hq hd
    · cases hs
  | resume i result env =>
    obtain ⟨⟨c,rest⟩,ht,hs⟩ := Option.bind_eq_some_iff.mp hs
    refine h.resume hp ht hs hread hx hd fun call post createdAt base stored hc hr => ?_
    subst hc hr
    exact hdone i call post createdAt base stored env rfl (Machine.takeTask_get ht)

/-- A failed read leaves the packet marked. -/
theorem Good.marked_of_readFailed {s s' : BoardOrchestrator.State} {a : Action} {packet : Val}
    (h : Good p Packet Done b k s none) (hs : BoardOrchestrator.step p s a = some s')
    (hread : readFailed s a = some packet) : isMarked s' packet = true := by
  unfold readFailed at hread
  split at hread
  · next i env =>
    obtain ⟨⟨c,rest⟩,ht,hs⟩ := Option.bind_eq_some_iff.mp hs
    have hget := Machine.takeTask_get ht
    rw [hget] at hread
    split at hread
    · next c post createdAt base hc =>
      cases hc
      cases hread
      cases hs
      have hown := h.own _ (Machine.takeTask_mem ht).1
      have hmarked := h.marked _ (Machine.takeTask_mem ht).1 c.packet rfl
      have ho : Onward p Packet b k { s with pending := rest }
          (settle { s with pending := rest } c) := onward_settle _ hown.1 hown.2.1
      unfold isMarked at hmarked ⊢
      rw [ho.seen]
      exact hmarked
    · cases hread
  · cases hread

theorem step_of_readFailed {s : BoardOrchestrator.State} {a : Action} {packet : Val}
    (h : readFailed s a = some packet) : ∃ s', BoardOrchestrator.step p s a = some s' := by
  unfold readFailed at h
  split at h
  · next i env =>
    split at h
    · next c post createdAt base hc =>
      refine ⟨settle { s with pending := s.pending.eraseIdx i } c,?_⟩
      simp [BoardOrchestrator.step,Machine.takeTask,hc,BoardOrchestrator.resume]
    · cases h
  · cases h

/-- The list after a merge. -/
def mergeInto (threads : JsMap Val ThreadMeta) (post : Post) (packetId : Val)
    (maxPow createdAt : Number) (origins : List Origin) : JsMap Val ThreadMeta :=
  match merged (JsMap.get threads post.threadId) post packetId maxPow createdAt origins with
  | some t => JsMap.set threads post.threadId t
  | none => threads

/-- The weight of a packet, with that of the row that was read. -/
def resolvedPow (base : Number) : Option ThreadRow → Number
  | some r => Number.max base r.maxPow.orZero
  | none => base

/-- How a step changes the list of a board that stays active. -/
inductive ListChange (s : BoardOrchestrator.State) : Action → JsMap Val ThreadMeta → Prop where
  | same {a : Action} : ListChange s a s.threads
  | merged {i : Nat} {env : Env} {c : PacketCall} {post : Post} {createdAt base : Number}
      {stored : List ThreadRow} (origins : List Origin) :
    s.pending[i]? = some (.statsRead c post createdAt base) →
    ListChange s (.resume i (.threadRows stored) env)
      (mergeInto s.threads post (c.packet.field "packet_id")
        (resolvedPow base (statsOf stored c.boardId post.threadId)) createdAt origins)
  | ticked {i : Nat} {env : Env} {boardId : String} {stored : List ThreadRow} :
    s.pending[i]? = some (.statsTick boardId) →
    ListChange s (.resume i (.threadRows stored) env)
      (tickRows env.now s.threads (getThreads stored boardId)).1

theorem mergeAndNotify_threads (s : BoardOrchestrator.State) (post : Post) (packetId : Val)
    (maxPow createdAt : Number) (origins : List Origin) :
    (mergeAndNotify s post packetId maxPow createdAt origins).threads =
      mergeInto s.threads post packetId maxPow createdAt origins := by
  unfold mergeAndNotify mergeThread mergeInto
  cases merged (JsMap.get s.threads post.threadId) post packetId maxPow createdAt origins with
  | some t => rfl
  | none => rfl

theorem resumeStatsRead_threads (s : BoardOrchestrator.State) (c : PacketCall) (post : Post)
    (createdAt base : Number) (stored : List ThreadRow) :
    ∃ origins, (resumeStatsRead s c post createdAt base stored).threads =
      mergeInto s.threads post (c.packet.field "packet_id")
        (resolvedPow base (statsOf stored c.boardId post.threadId)) createdAt origins := by
  unfold resumeStatsRead
  dsimp only
  split
  · exact ⟨_,(quiet_settle _ c).threads.trans (mergeAndNotify_threads _ _ _ _ _ _)⟩
  · exact ⟨_,(quiet_persistThread _ c post).threads.trans (mergeAndNotify_threads _ _ _ _ _ _)⟩

theorem step_statsRead {s s' : BoardOrchestrator.State} {i : Nat} {env : Env} {c : PacketCall}
    {post : Post} {createdAt base : Number} {stored : List ThreadRow}
    (hs : BoardOrchestrator.step p s (.resume i (.threadRows stored) env) = some s')
    (ht : s.pending[i]? = some (.statsRead c post createdAt base)) :
    ∃ origins, s'.threads = mergeInto s.threads post (c.packet.field "packet_id")
      (resolvedPow base (statsOf stored c.boardId post.threadId)) createdAt origins := by
  obtain ⟨⟨d,rest⟩,htake,hs⟩ := Option.bind_eq_some_iff.mp hs
  have hget := Machine.takeTask_get htake
  rw [ht] at hget
  cases hget
  cases hs
  exact resumeStatsRead_threads { s with pending := rest } c post createdAt base stored

theorem Good.listChange {s s' : BoardOrchestrator.State} {a : Action}
    (h : Good p Packet Done b k s none) (hs : BoardOrchestrator.step p s a = some s')
    (ha : StaysActive b k a) : ListChange s a s'.threads := by
  cases change_step hs with
  | quiet hq => exact hq.threads ▸ .same
  | decrypted ht _ _ _ => exact .same
  | @merged i env c rest post createdAt base stored ht =>
    obtain ⟨origins,hthreads⟩ := resumeStatsRead_threads { s with pending := rest } c post
      createdAt base stored
    exact hthreads ▸ .merged origins (Machine.takeTask_get ht)
  | @ticked i env boardId rest stored ht =>
    have hthreads : (resumeStatsTick { s with pending := rest } boardId stored env).threads =
        (tickRows env.now s.threads (getThreads stored boardId)).1 := by
      unfold resumeStatsTick
      dsimp only
      split
      · rfl
      · rfl
    exact hthreads ▸ .ticked (Machine.takeTask_get ht)
  | built ht => cases h.own _ (Machine.takeTask_mem ht).1
  | cleared => cases ha
  | activated boardId key =>
    obtain ⟨rfl,rfl⟩ := ha
    obtain ⟨hb,hk,-⟩ := openBoard_some h.board
    have hthreads : (activate s boardId key).threads = s.threads := by
      unfold activate BoardOrchestrator.listen
      rw [show switchBoard s boardId key = s from if_pos ⟨hb,hk⟩]
      split
      · rfl
      · rfl
    exact hthreads ▸ .same

end

section
variable {p : Primitives} {contents : String → Val × Val} {b : String} {k : Bytes}

/-- Packets with one id are opened alike. -/
theorem named_genuine : Named p (Genuine contents) k where
  id x hx := ⟨hx.choose,hx.choose_spec.1⟩
  alike x y hx hy hid := by
    obtain ⟨i,hi,hxc⟩ := hx
    obtain ⟨j,hj,hyc⟩ := hy
    rw [hi,hj] at hid
    cases hid
    obtain ⟨hpayload,hnonce⟩ := Prod.mk.inj (hxc.symm.trans hyc)
    unfold verifyAndDecrypt layers
    rw [hpayload,hnonce]

/-- The thread of a packet is listed. -/
def Listed (threads : JsMap Val ThreadMeta) (post : Post) : Prop :=
  post.threadId ∈ JsMap.keys threads

theorem mem_keys_set {m : JsMap Val ThreadMeta} {threadId : Val} {t : ThreadMeta} :
    (∀ u ∈ JsMap.keys m, u ∈ JsMap.keys (JsMap.set m threadId t)) ∧
      threadId ∈ JsMap.keys (JsMap.set m threadId t) := by
  induction m with
  | nil => simp [JsMap.set,JsMap.keys]
  | cons e m ih =>
    unfold JsMap.set
    split
    · next he =>
      have heq := Val.eq_of_beq he
      simp only [JsMap.keys,List.map_cons,List.mem_cons] at ih ⊢
      exact ⟨fun u hu => hu,.inl heq.symm⟩
    · simp only [JsMap.keys,List.map_cons,List.mem_cons] at ih ⊢
      exact ⟨fun u hu => hu.imp id (ih.1 u),.inr ih.2⟩

/-- After a merge the thread is listed, and no other is gone. -/
theorem listed_mergeInto (threads : JsMap Val ThreadMeta) (post : Post) (packetId : Val)
    (maxPow createdAt : Number) (origins : List Origin) :
    (∀ t ∈ JsMap.keys threads,
        t ∈ JsMap.keys (mergeInto threads post packetId maxPow createdAt origins)) ∧
      Listed (mergeInto threads post packetId maxPow createdAt origins) post := by
  unfold mergeInto
  cases hm : merged (JsMap.get threads post.threadId) post packetId maxPow createdAt origins with
  | some t => exact mem_keys_set
  | none =>
    refine ⟨fun _ ht => ht,?_⟩
    cases hg : JsMap.get threads post.threadId with
    | none => simp [hg,merged] at hm
    | some t =>
      obtain ⟨u,hu,hbeq⟩ := JsMap.get_mem hg
      have hkey := Val.eq_of_beq hbeq
      subst hkey
      exact List.mem_map_of_mem hu

theorem listed_tickRows (now : Number) (threads : JsMap Val ThreadMeta) (rows : List ThreadRow) :
    ∀ t ∈ JsMap.keys threads, t ∈ JsMap.keys (tickRows now threads rows).1 := by
  induction rows generalizing threads with
  | nil => exact fun _ ht => ht
  | cons r rows ih =>
    intro t ht
    unfold tickRows
    cases htick : tickRow threads now r with
    | none => exact ih threads t ht
    | some next =>
      refine ih next t ?_
      unfold tickRow at htick
      split at htick
      · cases htick
      · obtain ⟨-,hnext⟩ := Option.ite_none_left_eq_some.mp htick
        cases hnext
        exact mem_keys_set.1 t ht

theorem ListChange.listed {s : BoardOrchestrator.State} {a : Action}
    {threads : JsMap Val ThreadMeta} (h : ListChange s a threads) :
    ∀ q, Listed s.threads q → Listed threads q := by
  intro q hq
  cases h with
  | same => exact hq
  | merged origins ht => exact (listed_mergeInto _ _ _ _ _ origins).1 _ hq
  | ticked ht => exact listed_tickRows _ _ _ _ hq

variable (p contents b k) in
/-- The board while its reads work, and the packets handed to it. -/
structure Inv (s : State) : Prop where
  good : Good p (Genuine contents) Listed b k s.board none
  handed : ∀ x ∈ s.handed, Genuine contents x ∧ isMarked s.board x = true
  failed : s.failed = []

theorem Inv.kept {s : State} (h : Inv p contents b k s) : Kept p k s where
  listed x hx post hpost := by
    obtain ⟨hgenuine,hmarked⟩ := h.handed x hx
    have hx' := hgenuine
    obtain ⟨id,hid,-⟩ := hx'
    exact h.good.cared id ((isMarked_iff hid).mp hmarked) (by simp) x hgenuine hid post hpost
  unmarked x hx := by
    rw [h.failed] at hx
    cases hx

theorem inv_step (s : State) (a : Action) (s' : State) (h : Inv p contents b k s)
    (hd : Delivers contents b k s a) (hread : ReadsWork s a) (hs : step p s a = some s') :
    Inv p contents b k s' := by
  obtain ⟨board,hboard,hs⟩ := Option.map_eq_some_iff.mp hs
  have hchange := h.good.listChange hboard hd.1
  have htook := h.good.boardStep named_genuine hboard hd.1 hread hd.2 hchange.listed
    fun i c post createdAt base stored env ha ht => by
      subst ha
      obtain ⟨origins,hthreads⟩ := step_statsRead hboard ht
      rw [hthreads]
      exact (listed_mergeInto _ post _ _ _ origins).2
  have hold : ∀ x ∈ s.handed, Genuine contents x ∧ isMarked board x = true := fun x hx =>
    ⟨(h.handed x hx).1,isMarked_mono htook.seen (h.handed x hx).2⟩
  rw [hread] at hs
  cases hdelivered : delivered s.board a with
  | none =>
    rw [hdelivered] at hs
    cases hs
    exact ⟨htook.good,hold,h.failed⟩
  | some packet =>
    rw [hdelivered] at hs
    cases hs
    refine ⟨htook.good,List.forall_mem_cons.mpr ⟨?_,hold⟩,by simp [h.failed]⟩
    exact ⟨hd.2 packet hdelivered,htook.marked packet hdelivered⟩

theorem inv_opened {s : BoardOrchestrator.State} (h : Opened b k s) :
    Inv p contents b k { board := s } := by
  have hpending : ∀ c ∈ s.pending, Own p (Genuine contents) b k c ∧ packetOf c = none := by
    intro c hc
    obtain rfl | rfl | ⟨b',rfl⟩ := h.pending c hc
    · exact ⟨⟨rfl,rfl⟩,rfl⟩
    · exact ⟨trivial,rfl⟩
    · exact ⟨trivial,rfl⟩
  refine ⟨⟨h.board,fun c hc => (hpending c hc).1,fun c hc x hx => ?_,fun id hid => ?_⟩,?_,rfl⟩
  · rw [(hpending c hc).2] at hx
    cases hx
  · rw [h.seen] at hid
    cases hid
  · exact fun x hx => nomatch hx

/-- Every thread whose creation is delivered is listed, and a delivery that failed leaves no
mark, in every state of a run exactly if no read of the statistics fails for a packet. -/
theorem delivered_listed_iff {s : BoardOrchestrator.State} (ho : Opened b k s) {as : List Action}
    (hd : Machine.Along (step p) (Delivers contents b k) { board := s } as) :
    (∀ bs t, bs <+: as → Machine.run (step p) { board := s } bs = some t → Kept p k t) ↔
      Machine.Along (step p) ReadsWork { board := s } as := by
  refine (Machine.along_iff_kept inv_step (fun _ h => h.kept) (fun t a h hd hkept => ?_)
    (inv_opened ho) hd).symm
  cases hread : readFailed t.board a with
  | none => exact hread
  | some packet =>
    obtain ⟨board,hboard⟩ := step_of_readFailed (p := p) hread
    have hstep : step p t a = some {
        board := board
        handed := t.handed.filter fun x => !isHandled t.board.pending x
        failed := packet :: t.failed } := by
      simp [step,hboard,hread]
    have hunmarked := (hkept _ hstep).unmarked packet List.mem_cons_self
    rw [(h.good.marked_of_readFailed hboard hread)] at hunmarked
    cases hunmarked

end

def sampleContents (_ : String) : Val × Val := (.bytes ([10] ++ magic ++ [1]),.bytes [])

theorem genuine_samplePacket (packetId : String) :
    Genuine sampleContents (samplePacket [10] packetId 1) := ⟨packetId,rfl,rfl⟩

def sampleBoard : BoardOrchestrator.State := activate {} "A" [10]

theorem opened_sampleBoard : Opened "A" [10] sampleBoard :=
  ⟨rfl,rfl,fun _ hc => .inl (List.mem_singleton.mp hc)⟩

/-- A packet whose read works. -/
def readRun : List Action := [
  .gossip (samplePacket [10] "p" 1),
  .resume 1 .done {},
  .resume 1 (.threadRows []) {}]

theorem delivers_readRun :
    Machine.Along (step sample) (Delivers sampleContents "A" [10]) { board := sampleBoard }
      readRun := by
  refine ⟨⟨trivial,fun x hx => ?_⟩,fun t ht => ?_⟩
  · cases hx
    exact genuine_samplePacket "p"
  cases ht
  refine ⟨⟨trivial,fun x hx => nomatch hx⟩,fun t ht => ?_⟩
  cases ht
  exact ⟨⟨trivial,fun x hx => nomatch hx⟩,fun t _ => trivial⟩

theorem delivered_listed_readRun : ∃ t,
    Machine.run (step sample) { board := sampleBoard } readRun = some t ∧ Kept sample [10] t := by
  refine ⟨_,rfl,(delivered_listed_iff opened_sampleBoard delivers_readRun).mpr ?_ _ _
    List.prefix_rfl rfl⟩
  refine ⟨rfl,fun t ht => ?_⟩
  cases ht
  refine ⟨rfl,fun t ht => ?_⟩
  cases ht
  exact ⟨rfl,fun t _ => trivial⟩

/-- The read for a packet fails, and the packet is delivered again. -/
def retriedRun : List Action := [
  .gossip (samplePacket [10] "p" 1),
  .resume 1 .done {},
  .resume 1 .failed {},
  .gossip (samplePacket [10] "p" 1)]

theorem delivered_lost_retriedRun : ¬∀ (as : List Action) (t : State),
    Machine.Along (step sample) (Delivers sampleContents "A" [10]) { board := sampleBoard } as →
      Machine.run (step sample) { board := sampleBoard } as = some t → Kept sample [10] t := by
  intro h
  have hd : Machine.Along (step sample) (Delivers sampleContents "A" [10])
      { board := sampleBoard } retriedRun := by
    refine ⟨⟨trivial,fun x hx => ?_⟩,fun t ht => ?_⟩
    · cases hx
      exact genuine_samplePacket "p"
    cases ht
    refine ⟨⟨trivial,fun x hx => nomatch hx⟩,fun t ht => ?_⟩
    cases ht
    refine ⟨⟨trivial,fun x hx => nomatch hx⟩,fun t ht => ?_⟩
    cases ht
    refine ⟨⟨trivial,fun x hx => ?_⟩,fun t _ => trivial⟩
    cases hx
    exact genuine_samplePacket "p"
  have hkept := h retriedRun _ hd rfl
  have hcreates : Creates sample [10] (samplePacket [10] "p" 1) _ :=
    ⟨rfl,rfl,⟨.fin 60000,rfl⟩,⟨.fin 12,rfl⟩⟩
  obtain hhandled | hlisted := hkept.listed _ List.mem_cons_self _ hcreates
  · cases hhandled
  · cases hlisted

end BoardDelivery
