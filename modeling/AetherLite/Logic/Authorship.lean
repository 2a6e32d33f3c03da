import Mathlib.Data.List.Pairwise
import AetherLite.Logic.BoardOrchestrator
import AetherLite.Logic.ThreadOrchestrator

/-! Who wrote what is shown. Both orchestrators take packets from anybody who holds the
key of a board; what such a packet shows under a trip key is compared with what the
holder of that key has signed. -/
set_option autoImplicit false

namespace Authorship

open Js PacketBuilder ThreadDAGManager Logic

inductive Kind where
  | reply
  | thread
  deriving DecidableEq

/-- A signature with a trip key: the record it is over, and what it was made for. -/
structure Signing where
  publicKey : Bytes
  record : Val
  kind : Kind

structure State where
  board : BoardOrchestrator.State := {}
  thread : ThreadOrchestrator.State := {}
  signed : List Signing := []

inductive Action where
  | sign (e : Signing)
  | board (a : BoardOrchestrator.Action)
  | thread (a : ThreadOrchestrator.Action)

section
variable (p : Primitives) (loc : JsLocale) (deriveThreadKey : Bytes → String → Bytes)

def step (s : State) (a : Action) : Option State :=
  match a with
  | .sign e => some { s with signed := e :: s.signed }
  | .board a => (BoardOrchestrator.step p s.board a).map fun board => { s with board := board }
  | .thread a =>
    (ThreadOrchestrator.step p loc deriveThreadKey s.thread a).map fun thread =>
      { s with thread := thread }

/-- The signing covers what a post shows. Absent parents are none, an absent weight is 0. -/
structure Signing.Covers (e : Signing) (post : Post) (boardId : String) (threadId : Val) : Prop where
  content : (e.record.field "content").Same post.content
  createdAt : (e.record.field "created_at").Same post.createdAt
  board : (e.record.field "board_id").Same (.str boardId)
  thread : (e.record.field "thread_id").Same threadId
  parents : (orElse (e.record.field "parents") (.arr [])).Same (orElse post.parents (.arr []))
  weight : (orElse (e.record.field "cumulative_pow") (.num (.fin 0))).Same
    (orElse post.cumulativePow (.num (.fin 0)))

/-- The signatures a listed thread stems from: those of the packet it was made from. -/
def threadSignatures (t : BoardOrchestrator.ThreadMeta) : List (Bytes × Bytes) :=
  match t.origins.head? with
  | some (.packet _ post) => signatures p post
  | some (.submitted _ key packet) => packetSignatures p packet key
  | _ => []

def postSignatures (n : DAGPost ThreadOrchestrator.Origin) : List (Bytes × Bytes) :=
  match n.origin with
  | .packet _ post => signatures p post
  | .reply built packet => packetSignatures p packet built.key

def ListedAuthentic (s : State) (t : BoardOrchestrator.ThreadMeta) : Prop :=
  ∀ pubkey, t.post.tripPubkey = .bytes pubkey →
    ∃ b, s.board.currentBoardId = some b ∧ ∃ e ∈ s.signed, e.publicKey = pubkey ∧
      e.kind = .thread ∧ e.Covers t.post b t.post.threadId ∧
        t.post.createdAt.number = .ok t.createdAt ∧ t.createdAt.finitePositive = true

def ShownAuthentic (s : State) (n : DAGPost ThreadOrchestrator.Origin) : Prop :=
  ∀ pubkey, n.post.tripPubkey = .bytes pubkey →
    ∃ b t, s.thread.currentBoardId = some b ∧ s.thread.currentThreadId = some t ∧
      ∃ e ∈ s.signed, e.publicKey = pubkey ∧ e.kind = .reply ∧ e.Covers n.post b (.str t)

/-- What is shown with a trip key was signed with it, for the place it is shown in, and
no two entries stem from one signature. -/
structure Authentic (s : State) : Prop where
  listed : ∀ t ∈ s.board.snapshot, ListedAuthentic s t
  shown : ∀ n ∈ s.thread.snapshot, ShownAuthentic s n
  once : (s.board.snapshot.map (threadSignatures p) ++
    s.thread.snapshot.map (postSignatures p)).Pairwise List.Disjoint

/-- The signatures of the entries that are kept. -/
def entries (s : State) : List (List (Bytes × Bytes)) :=
  (JsMap.values s.board.threads).map (threadSignatures p) ++
    (JsMap.values s.thread.dag.nodes).map (postSignatures p)

def Fresh (s : State) (gs : List (Bytes × Bytes)) : Prop := ∀ l ∈ entries p s, List.Disjoint l gs

/-- What the wrapping of a post says and the check of its signature leaves open: its kind
is one it was signed for, it was signed for the open board, its weight was signed with its
parents, and no entry stems from its signatures. -/
structure Fits (signed : List Signing) (held : List (List (Bytes × Bytes))) (kind : Kind)
    (boardId : Option String) (post : Post) : Prop where
  kind : ∀ e ∈ signed, post.tripPubkey = .bytes e.publicKey →
    p.encode e.record = p.encode post.signedRecord →
      ∃ e' ∈ signed, e'.publicKey = e.publicKey ∧
        p.encode e'.record = p.encode post.signedRecord ∧ e'.kind = kind
  board : ∀ pubkey, post.tripPubkey = .bytes pubkey →
    ∃ b, boardId = some b ∧ post.boardId = .str b
  weight : ∀ pubkey, post.tripPubkey = .bytes pubkey → post.parents = .undefined →
    post.cumulativePow.truthy = false
  fresh : ∀ l ∈ held, List.Disjoint l (signatures p post)

/-- The signed time of a post is one that can be shown. -/
def Dated (post : Post) : Prop := ∀ pubkey, post.tripPubkey = .bytes pubkey →
  ∃ n, post.createdAt.number = .ok n ∧ n.finitePositive = true

/-- Whether the thread takes the post of a packet. -/
def accepts (s : ThreadOrchestrator.State) (c : ThreadOrchestrator.PacketCall) (post : Post) :
    Bool :=
  post.threadId.strictEq (.str c.target.threadId) && post.postType.strictEq (.num (.fin 0)) &&
    (addPost s.dag (ThreadOrchestrator.dagPostOf c post)).isSome

/-- Every post that is about to be added fits, and a post of one's own is new. -/
def WellWrapped (s : State) (a : Action) : Prop :=
  match a with
  | .board (.resume i (.threadRows _) _) =>
    match s.board.pending[i]? with
    | some (.statsRead _ post _ _) => JsMap.get s.board.threads post.threadId = none →
        Fits p s.signed (entries p s) .thread s.board.currentBoardId post ∧ Dated post
    | _ => True
  | .board (.resume i (.packet packet) _) =>
    match s.board.pending[i]? with
    | some (.built _ key _ threadId) => JsMap.get s.board.threads (.str threadId) = none →
        Fresh p s (packetSignatures p packet key)
    | _ => True
  | .thread (.resume i .done _) =>
    match s.thread.pending[i]? with
    | some (.decrypted c) => ∀ post, verifyAndDecrypt p c.packet c.target.key = .ok (some post) →
        accepts s.thread c post = true →
          Fits p s.signed (entries p s) .reply s.thread.currentBoardId post
    | _ => True
  | .thread (.resume i (.packet packet) _) =>
    match s.thread.pending[i]? with
    | some (.built target text tips nextWeight) =>
        addPost s.thread.dag
          (ThreadOrchestrator.replyPost s.thread target text tips nextWeight packet) ≠ none →
        Fresh p s (packetSignatures p packet target.key)
    | _ => True
  | _ => True

/-- The packet and the key of the decryption that a step goes on from. -/
def decrypting (s : State) : Action → Option (Val × Bytes)
  | .board (.resume i .done _) =>
    match s.board.pending[i]? with
    | some (.decrypted c) => some (c.packet,c.key)
    | _ => none
  | .thread (.resume i .done _) =>
    match s.thread.pending[i]? with
    | some (.decrypted c) => some (c.packet,c.target.key)
    | _ => none
  | _ => none

/-- A trip signature that verifies in a packet was made before, by the holder of the key. -/
def Unforgeable (s : State) (a : Action) : Prop :=
  ∀ packet key, decrypting s a = some (packet,key) →
    ∀ encPayload inner, layers p packet key = .ok (some (encPayload,inner)) →
      ∀ message pubkey sig, p.encode (signedFields inner) = .ok message →
        PowPolicy.toBytes (inner.field "trip_pubkey") = .ok pubkey →
        PowPolicy.toBytes (inner.field "trip_sig") = .ok sig →
        p.verifyDetached sig message pubkey = some true →
          ∃ e ∈ s.signed, e.publicKey = pubkey ∧ p.encode e.record = .ok message

/-- A trip key signed the record of the post. -/
def Traced (s : State) (post : Post) : Prop := ∀ pubkey, post.tripPubkey = .bytes pubkey →
  ∃ e ∈ s.signed, e.publicKey = pubkey ∧
    ∃ message, p.encode e.record = .ok message ∧ p.encode post.signedRecord = .ok message

def Sound (s : State) : BoardOrchestrator.Cont → Prop
  | .statsRead _ post createdAt _ => Traced p s post ∧
      ∀ n, post.createdAt.number = .ok n → n.finitePositive = true → createdAt = n
  | _ => True

structure Inv (s : State) : Prop where
  snapshot : s.board.snapshot = JsMap.values s.board.threads
  listed : ∀ t ∈ JsMap.values s.board.threads, t.origins ≠ [] ∧ ListedAuthentic s t
  pending : ∀ c ∈ s.board.pending, Sound p s c
  shownIn : ∀ n ∈ s.thread.snapshot, n ∈ JsMap.values s.thread.dag.nodes
  nodup : s.thread.snapshot.Nodup
  keyed : Keyed s.thread.dag
  openThread : ∀ b, s.thread.currentBoardId = some b →
    s.thread.currentThreadId = some s.thread.dag.threadId
  shown : ∀ n ∈ JsMap.values s.thread.dag.nodes, ShownAuthentic s n
  once : (entries p s).Pairwise List.Disjoint

end

section Proofs
variable {p : Primitives} {loc : JsLocale} {deriveThreadKey : Bytes → String → Bytes} {s : State}

theorem Same.orElse {v w : Val} (h : v.Same w) (d : Val) : (orElse v d).Same (orElse w d) := by
  have ht : v.truthy = w.truthy := by
    rw [← Val.truthy_nullify v,h,Val.truthy_nullify]
  unfold Logic.orElse
  rw [ht]
  split
  · exact h
  · rfl

theorem signedRecord_parents (post : Post) :
    post.signedRecord.field "parents" = post.parents := by
  by_cases h : post.parents.strictEq .undefined = true
  · have hu := Val.eq_of_strictEq h
    simp [Post.signedRecord,hu,Val.strictEq,Val.field,JsMap.get]
  · simp [Post.signedRecord,h,Val.field,JsMap.get]

theorem signedRecord_weight {post : Post}
    (hw : post.parents = .undefined → post.cumulativePow.truthy = false) :
    orElse (post.signedRecord.field "cumulative_pow") (.num (.fin 0)) =
      orElse post.cumulativePow (.num (.fin 0)) := by
  by_cases h : post.parents.strictEq .undefined = true
  · have hu := hw (Val.eq_of_strictEq h)
    have hz : Val.undefined.truthy = false := rfl
    simp [Post.signedRecord,h,hu,hz,Val.field,JsMap.get,orElse]
  · simp [Post.signedRecord,h,Val.field,JsMap.get]

/-- A record that is encoded as the signed fields of a post are covers the post. -/
theorem covers_of_same {e : Signing} {post : Post} {b : String}
    (h : e.record.Same post.signedRecord) (hb : post.boardId = .str b)
    (hw : post.parents = .undefined → post.cumulativePow.truthy = false) :
    e.Covers post b post.threadId where
  content := h.field "content"
  createdAt := h.field "created_at"
  board := hb ▸ h.field "board_id"
  thread := h.field "thread_id"
  parents := Same.orElse (signedRecord_parents post ▸ h.field "parents") _
  weight := signedRecord_weight hw ▸ Same.orElse (h.field "cumulative_pow") _

/-- The signing behind a post that fits was made for the kind it is shown as. -/
theorem Fits.covered (hinj : ∀ v w m, p.encode v = .ok m → p.encode w = .ok m → v.Same w)
    {kind : Kind} {boardId : Option String} {post : Post}
    (h : Fits p s.signed (entries p s) kind boardId post)
    (ht : Traced p s post) {pubkey : Bytes} (hp : post.tripPubkey = .bytes pubkey) :
    ∃ b, boardId = some b ∧ ∃ e ∈ s.signed, e.publicKey = pubkey ∧ e.kind = kind ∧
      e.Covers post b post.threadId := by
  obtain ⟨e,he,hkey,m,hem,hpm⟩ := ht pubkey hp
  obtain ⟨e',he',hkey',hrec,hkind⟩ := h.kind e he (by rw [hkey]; exact hp) (hem.trans hpm.symm)
  obtain ⟨b,hb,hpb⟩ := h.board pubkey hp
  have hsame := hinj _ _ m (hrec.trans hpm) hpm
  exact ⟨b,hb,e',he',hkey'.trans hkey,hkind,covers_of_same hsame hpb (h.weight pubkey hp)⟩

/-- What a packet decrypts to has been signed, when signatures cannot be forged. -/
theorem traced_of_unforgeable {a : Action} {packet : Val} {key : Bytes} {post : Post}
    (hU : Unforgeable p s a) (hd : decrypting s a = some (packet,key))
    (hv : verifyAndDecrypt p packet key = .ok (some post)) : Traced p s post := by
  intro pubkey hp
  obtain ⟨encPayload,inner,hl,hi⟩ := verifyAndDecrypt_some hv
  obtain ⟨m,hm,hrec,htrip⟩ := verifyInner_some hi
  obtain ⟨sig,hk,hs,hver⟩ := htrip pubkey hp
  obtain ⟨e,he,hkey,hem⟩ := hU packet key hd encPayload inner hl m pubkey sig hm hk hs hver
  exact ⟨e,he,hkey,m,hem,by rw [hrec]; exact hm⟩

/-- The thread shows the post of a packet with its parents and its weight, or none. -/
theorem covers_dagPost {e : Signing} {c : ThreadOrchestrator.PacketCall} {post : Post}
    {b : String} {t : Val} (h : e.Covers post b t) :
    e.Covers (ThreadOrchestrator.dagPostOf c post).post b t where
  content := h.content
  createdAt := h.createdAt
  board := h.board
  thread := h.thread
  parents := by
    show Val.Same _ (orElse (orElse post.parents _) _)
    rw [orElse_idem]
    exact h.parents
  weight := by
    show Val.Same _ (orElse (orElse post.cumulativePow _) _)
    rw [orElse_idem]
    exact h.weight

/-- More may have been signed since. -/
theorem Traced.mono {s' : State} {post : Post} (h : Traced p s post)
    (hs : ∀ e ∈ s.signed, e ∈ s'.signed) : Traced p s' post := by
  intro pubkey hp
  obtain ⟨e,he,h⟩ := h pubkey hp
  exact ⟨e,hs e he,h⟩

theorem ListedAuthentic.mono {s' : State} {t : BoardOrchestrator.ThreadMeta}
    (h : ListedAuthentic s t) (hb : s'.board.currentBoardId = s.board.currentBoardId)
    (hs : ∀ e ∈ s.signed, e ∈ s'.signed) : ListedAuthentic s' t := by
  intro pubkey hp
  obtain ⟨b,hbo,e,he,h⟩ := h pubkey hp
  exact ⟨b,hb.trans hbo,e,hs e he,h⟩

theorem ShownAuthentic.mono {s' : State} {n : DAGPost ThreadOrchestrator.Origin}
    (h : ShownAuthentic s n) (hb : s'.thread.currentBoardId = s.thread.currentBoardId)
    (ht : s'.thread.currentThreadId = s.thread.currentThreadId)
    (hs : ∀ e ∈ s.signed, e ∈ s'.signed) : ShownAuthentic s' n := by
  intro pubkey hp
  obtain ⟨b,t,hbo,hto,e,he,h⟩ := h pubkey hp
  exact ⟨b,t,hb.trans hbo,ht.trans hto,e,hs e he,h⟩

theorem Sound.mono {s' : State} {c : BoardOrchestrator.Cont} (h : Sound p s c)
    (hs : ∀ e ∈ s.signed, e ∈ s'.signed) : Sound p s' c := by
  cases c with
  | statsRead c post createdAt base => exact ⟨h.1.mono hs,h.2⟩
  | _ => trivial

theorem Inv.sign (h : Inv p s) (e : Signing) : Inv p { s with signed := e :: s.signed } := by
  have hs : ∀ f ∈ s.signed, f ∈ e :: s.signed := fun f hf => List.mem_cons_of_mem e hf
  exact {
    snapshot := h.snapshot
    listed := fun t ht => ⟨(h.listed t ht).1,(h.listed t ht).2.mono rfl hs⟩
    pending := fun c hc => (h.pending c hc).mono hs
    shownIn := h.shownIn
    nodup := h.nodup
    keyed := h.keyed
    openThread := h.openThread
    shown := fun n hn => (h.shown n hn).mono rfl rfl hs
    once := h.once }

/-- A changed entry of the list: the same post of the same origin at the same time. -/
structure Restated (t t' : BoardOrchestrator.ThreadMeta) : Prop where
  post : t'.post = t.post
  origins : t.origins ≠ [] → t'.origins ≠ [] ∧ t'.origins.head? = t.origins.head?
  createdAt : t.createdAt.finitePositive = true → t'.createdAt = t.createdAt

/-- The entries of a list are authentic and stem from the given signatures. -/
structure Listing (p : Primitives) (s : State) (sigs : List (List (Bytes × Bytes)))
    (threads : JsMap Val BoardOrchestrator.ThreadMeta) : Prop where
  listed : ∀ t ∈ JsMap.values threads, t.origins ≠ [] ∧ ListedAuthentic s t
  signatures : (JsMap.values threads).map (threadSignatures p) = sigs

theorem Listing.restate {sigs : List (List (Bytes × Bytes))}
    {threads : JsMap Val BoardOrchestrator.ThreadMeta} (h : Listing p s sigs threads) {k : Val}
    {t t' : BoardOrchestrator.ThreadMeta} (hg : JsMap.get threads k = some t)
    (hr : Restated t t') : Listing p s sigs (JsMap.set threads k t') := by
  obtain ⟨hne,hauth⟩ := h.listed t (JsMap.get_mem_values hg)
  obtain ⟨hne',hhead⟩ := hr.origins hne
  refine ⟨fun u hu => ?_,?_⟩
  · rcases JsMap.mem_values_set hu with rfl | hu
    · refine ⟨hne',fun pubkey hp => ?_⟩
      rw [hr.post] at hp ⊢
      obtain ⟨b,hb,e,he,hk,hkind,hcov,hnum,hpos⟩ := hauth pubkey hp
      rw [hr.createdAt hpos]
      exact ⟨b,hb,e,he,hk,hkind,hcov,hnum,hpos⟩
    · exact h.listed u hu
  · rw [← h.signatures]
    refine JsMap.map_values_set hg ?_
    unfold threadSignatures
    rw [hhead]

theorem restated_merged {t t' : BoardOrchestrator.ThreadMeta} {post : Post} {packetId : Val}
    {maxPow createdAt : Number} {os : List BoardOrchestrator.Origin}
    (h : BoardOrchestrator.merged (some t) post packetId maxPow createdAt os = some t') :
    Restated t t' := by
  unfold BoardOrchestrator.merged at h
  dsimp only at h
  obtain ⟨-,ht⟩ := Option.ite_none_left_eq_some.mp h
  rw [← Option.some.inj ht]
  refine ⟨rfl,fun hne => ⟨List.append_ne_nil_of_left_ne_nil hne os,?_⟩,fun hpos => if_pos hpos⟩
  exact List.head?_append_of_ne_nil _ hne

theorem restated_tickRow {threads next : JsMap Val BoardOrchestrator.ThreadMeta} {now : Number}
    {r : ThreadRow} (h : BoardOrchestrator.tickRow threads now r = some next) :
    ∃ t t', JsMap.get threads r.threadId = some t ∧ Restated t t' ∧
      next = JsMap.set threads r.threadId t' := by
  unfold BoardOrchestrator.tickRow at h
  cases hg : JsMap.get threads r.threadId with
  | none => simp [hg] at h
  | some t =>
    simp only [hg] at h
    obtain ⟨-,ht⟩ := Option.ite_none_left_eq_some.mp h
    refine ⟨t,_,rfl,?_,(Option.some.inj ht).symm⟩
    exact ⟨rfl,fun hne => ⟨List.append_ne_nil_of_left_ne_nil hne _,
      List.head?_append_of_ne_nil _ hne⟩,fun hpos => by simp [hpos]⟩

theorem Listing.tickRows {sigs : List (List (Bytes × Bytes))}
    {threads : JsMap Val BoardOrchestrator.ThreadMeta} (h : Listing p s sigs threads) (now : Number)
    (rows : List ThreadRow) :
    Listing p s sigs (BoardOrchestrator.tickRows now threads rows).1 := by
  induction rows generalizing threads with
  | nil => exact h
  | cons r rows ih =>
    unfold BoardOrchestrator.tickRows
    cases ht : BoardOrchestrator.tickRow threads now r with
    | none => exact ih h
    | some next =>
      obtain ⟨t,t',hg,hr,rfl⟩ := restated_tickRow ht
      exact ih (h.restate hg hr)

theorem Inv.listing (h : Inv p s) :
    Listing p s ((JsMap.values s.board.threads).map (threadSignatures p)) s.board.threads :=
  ⟨h.listed,rfl⟩

/-- A list with the same signatures takes the place of the old one. -/
theorem Inv.relist (h : Inv p s) {board : BoardOrchestrator.State}
    (hl : Listing p s ((JsMap.values s.board.threads).map (threadSignatures p)) board.threads)
    (hb : board.currentBoardId = s.board.currentBoardId)
    (hs : board.snapshot = JsMap.values board.threads)
    (hp : ∀ c ∈ board.pending, Sound p s c) : Inv p { s with board := board } := by
  refine ⟨hs,fun t ht => ?_,fun c hc => (hp c hc).mono fun _ he => he,h.shownIn,h.nodup,h.keyed,
    h.openThread,fun n hn => (h.shown n hn).mono rfl rfl fun _ he => he,?_⟩
  · exact ⟨(hl.listed t ht).1,(hl.listed t ht).2.mono hb fun _ he => he⟩
  · show ((JsMap.values board.threads).map (threadSignatures p) ++ _).Pairwise _
    rw [hl.signatures]
    exact h.once

theorem Inv.quietBoard (h : Inv p s) {board : BoardOrchestrator.State}
    (q : BoardOrchestrator.Quiet s.board board) : Inv p { s with board := board } := by
  refine h.relist ?_ q.boardId ?_ fun c hc => ?_
  · rw [q.threads]
    exact h.listing
  · rw [q.snapshot,q.threads]
    exact h.snapshot
  · rcases q.pending c hc with hc | hc
    · exact h.pending c hc
    · cases c with
      | statsRead c post createdAt base => cases hc
      | _ => trivial

/-- A thread that is new to the list. -/
theorem Inv.addThread (h : Inv p s) {t : BoardOrchestrator.ThreadMeta} {k : Val}
    (hg : JsMap.get s.board.threads k = none) (hne : t.origins ≠ []) (ht : ListedAuthentic s t)
    (hf : Fresh p s (threadSignatures p t)) :
    Inv p { s with board := { s.board with
      threads := JsMap.set s.board.threads k t
      snapshot := JsMap.values (JsMap.set s.board.threads k t) } } := by
  have hv := JsMap.values_set_of_get_none t hg
  refine ⟨rfl,fun u hu => ?_,h.pending,h.shownIn,h.nodup,h.keyed,h.openThread,h.shown,?_⟩
  · have hu' : u ∈ JsMap.values (JsMap.set s.board.threads k t) := hu
    rw [hv] at hu'
    rcases List.mem_append.mp hu' with hu' | hu'
    · exact h.listed u hu'
    · rw [List.mem_singleton.mp hu']
      exact ⟨hne,ht⟩
  · unfold entries
    dsimp only
    rw [hv,List.map_append,List.append_assoc]
    have hd := h.once
    unfold entries at hd
    obtain ⟨h1,h2,h12⟩ := List.pairwise_append.mp hd
    refine List.pairwise_append.mpr ⟨h1,List.pairwise_cons.mpr ⟨fun l hl => ?_,h2⟩,?_⟩
    · exact fun g hg hg' => hf l (List.mem_append_right _ hl) hg' hg
    · intro l hl l' hl'
      rcases List.mem_cons.mp hl' with rfl | hl'
      · exact hf l (List.mem_append_left _ hl)
      · exact h12 l hl l' hl'

theorem Inv.notifyMerged (h : Inv p s) {post : Post} {packetId : Val} {maxPow createdAt : Number}
    {os : List BoardOrchestrator.Origin} (hne : os ≠ [])
    (hnew : JsMap.get s.board.threads post.threadId = none →
      ListedAuthentic s ⟨post,packetId,maxPow,createdAt,os⟩ ∧
        Fresh p s (threadSignatures p ⟨post,packetId,maxPow,createdAt,os⟩)) :
    Inv p { s with
      board := BoardOrchestrator.notify
        (BoardOrchestrator.mergeThread s.board post packetId maxPow createdAt os).1 } := by
  unfold BoardOrchestrator.mergeThread
  split
  · next t' hm =>
    cases hg : JsMap.get s.board.threads post.threadId with
    | some t =>
      rw [hg] at hm
      exact h.relist (h.listing.restate hg (restated_merged hm)) rfl rfl h.pending
    | none =>
      rw [hg] at hm
      obtain ⟨hauth,hfresh⟩ := hnew hg
      cases hm
      exact h.addThread hg hne hauth hfresh
  · exact h.relist h.listing rfl rfl h.pending

theorem mergeThread_unchanged {board : BoardOrchestrator.State} {post : Post} {packetId : Val}
    {maxPow createdAt : Number} {os : List BoardOrchestrator.Origin}
    (h : (BoardOrchestrator.mergeThread board post packetId maxPow createdAt os).2 = false) :
    (BoardOrchestrator.mergeThread board post packetId maxPow createdAt os).1 = board := by
  unfold BoardOrchestrator.mergeThread at h ⊢
  split at h
  · cases h
  · rfl

theorem Inv.mergeAndNotify (h : Inv p s) {post : Post} {packetId : Val}
    {maxPow createdAt : Number} {os : List BoardOrchestrator.Origin} (hne : os ≠ [])
    (hnew : JsMap.get s.board.threads post.threadId = none →
      ListedAuthentic s ⟨post,packetId,maxPow,createdAt,os⟩ ∧
        Fresh p s (threadSignatures p ⟨post,packetId,maxPow,createdAt,os⟩)) :
    Inv p { s with board :=
      BoardOrchestrator.mergeAndNotify s.board post packetId maxPow createdAt os } := by
  unfold BoardOrchestrator.mergeAndNotify
  dsimp only
  split
  · exact h.notifyMerged hne hnew
  · next hc =>
    rw [mergeThread_unchanged (by simpa using hc)]
    exact h

theorem tickRows_unchanged {threads : JsMap Val BoardOrchestrator.ThreadMeta} {now : Number}
    {rows : List ThreadRow} (h : (BoardOrchestrator.tickRows now threads rows).2 = false) :
    (BoardOrchestrator.tickRows now threads rows).1 = threads := by
  induction rows with
  | nil => rfl
  | cons r rows ih =>
    unfold BoardOrchestrator.tickRows at h ⊢
    cases ht : BoardOrchestrator.tickRow threads now r with
    | none =>
      simp only [ht] at h
      exact ih h
    | some next => simp [ht] at h

theorem Inv.resumeStatsTick (h : Inv p s) (boardId : String) (stored : List ThreadRow)
    (env : Env) :
    Inv p { s with board := BoardOrchestrator.resumeStatsTick s.board boardId stored env } := by
  have hl := h.listing.tickRows env.now (getThreads stored boardId)
  unfold BoardOrchestrator.resumeStatsTick
  dsimp only
  split
  · exact h.relist hl rfl rfl h.pending
  · next hc =>
    have hsame := tickRows_unchanged (by simpa using hc)
    refine h.relist hl rfl ?_ h.pending
    rw [hsame]
    exact h.snapshot

theorem Inv.clearBoard (h : Inv p s) :
    Inv p { s with board := BoardOrchestrator.clear s.board } := by
  refine ⟨rfl,(fun t ht => by cases ht),h.pending,h.shownIn,h.nodup,h.keyed,h.openThread,h.shown,?_⟩
  exact (List.pairwise_append.mp h.once).2.1

theorem Inv.activateBoard (h : Inv p s) (boardId : String) (key : Bytes) :
    Inv p { s with board := BoardOrchestrator.activate s.board boardId key } := by
  have hswitch : Inv p { s with board := BoardOrchestrator.switchBoard s.board boardId key } := by
    unfold BoardOrchestrator.switchBoard
    split
    · exact h
    · have hc := h.clearBoard
      exact ⟨rfl,(fun t ht => by cases ht),hc.pending,hc.shownIn,hc.nodup,hc.keyed,hc.openThread,
        hc.shown,hc.once⟩
  have hlisten : Inv p { s with
      board := BoardOrchestrator.listen
        (BoardOrchestrator.switchBoard s.board boardId key) boardId key } := by
    unfold BoardOrchestrator.listen
    split
    · exact hswitch
    · exact hswitch.relist hswitch.listing rfl hswitch.snapshot hswitch.pending
  exact hlisten.quietBoard (BoardOrchestrator.quiet_suspend _ rfl)

theorem Inv.decryptedBoard (h : Inv p s) {c : BoardOrchestrator.PacketCall} {post : Post}
    {createdAt base now : Number} {rest : List BoardOrchestrator.Cont}
    (hrest : ∀ d ∈ rest, d ∈ s.board.pending) (ht : Traced p s post)
    (hat : BoardOrchestrator.normalizeTimestamp post.createdAt now = .ok createdAt) :
    Inv p { s with
      board := BoardOrchestrator.suspend { s.board with pending := rest }
        (.statsRead c post createdAt base) } := by
  refine h.relist h.listing rfl h.snapshot fun d hd => ?_
  rcases List.mem_append.mp hd with hd | hd
  · exact h.pending d (hrest d hd)
  · rw [List.mem_singleton.mp hd]
    refine ⟨ht,fun n hn hpos => ?_⟩
    unfold BoardOrchestrator.normalizeTimestamp at hat
    rw [hn] at hat
    simpa [bind,Except.bind,hpos] using hat.symm

theorem Inv.board_step (hinj : ∀ v w m, p.encode v = .ok m → p.encode w = .ok m → v.Same w)
    (h : Inv p s) {a : BoardOrchestrator.Action} {board : BoardOrchestrator.State}
    (hG : WellWrapped p s (.board a)) (hU : Unforgeable p s (.board a))
    (hs : BoardOrchestrator.step p s.board a = some board) :
    Inv p { s with board := board } := by
  cases BoardOrchestrator.change_step hs with
  | quiet q => exact h.quietBoard q
  | @decrypted i env c rest post createdAt base ht hv _ hat =>
    have hd : decrypting s (.board (.resume i .done env)) = some (c.packet,c.key) := by
      simp [decrypting,Machine.takeTask_get ht]
    exact h.decryptedBoard (Machine.takeTask_mem ht).2 (traced_of_unforgeable hU hd hv) hat
  | @merged i env c rest post createdAt base stored ht =>
    have hc := h.pending _ (Machine.takeTask_mem ht).1
    simp only [WellWrapped,Machine.takeTask_get ht] at hG
    have h' : Inv p { s with board := { s.board with pending := rest } } :=
      h.quietBoard (BoardOrchestrator.quiet_take ht)
    obtain ⟨maxPow,hq⟩ := BoardOrchestrator.quiet_resumeStatsRead
      { s.board with pending := rest } c post createdAt base stored
    refine Inv.quietBoard (h'.mergeAndNotify (List.cons_ne_nil _ _) fun hg => ?_) hq
    obtain ⟨hfits,hdated⟩ := hG hg
    refine ⟨fun pubkey hp => ?_,hfits.fresh⟩
    obtain ⟨b,hb,e,he,hkey,hkind,hcov⟩ := hfits.covered hinj hc.1 hp
    obtain ⟨n,hn,hpos⟩ := hdated pubkey hp
    have hat := hc.2 n hn hpos
    exact ⟨b,hb,e,he,hkey,hkind,hcov,hat ▸ hn,hat ▸ hpos⟩
  | @ticked i env boardId rest stored ht =>
    have h' : Inv p { s with board := { s.board with pending := rest } } :=
      h.quietBoard (BoardOrchestrator.quiet_take ht)
    exact h'.resumeStatsTick boardId stored env
  | @built i env boardId title threadId key rest packet ht =>
    simp only [WellWrapped,Machine.takeTask_get ht] at hG
    have h' : Inv p { s with board := { s.board with pending := rest } } :=
      h.quietBoard (BoardOrchestrator.quiet_take ht)
    have hq := BoardOrchestrator.quiet_resumeBuilt { s.board with pending := rest } boardId key
      title threadId packet
    refine Inv.quietBoard (h'.notifyMerged (List.cons_ne_nil _ _) fun hg => ?_) hq
    -- one's own thread is listed without a trip key
    exact ⟨fun pubkey hp => (by cases hp),hG hg⟩
  | cleared => exact h.clearBoard
  | activated boardId key => exact h.activateBoard boardId key

/-- The same posts of the same thread are shown. -/
theorem Inv.sameThread (h : Inv p s) {thread : ThreadOrchestrator.State}
    (v : ThreadOrchestrator.SameShown s.thread thread) : Inv p { s with thread := thread } := by
  refine ⟨h.snapshot,fun t ht => ⟨(h.listed t ht).1,(h.listed t ht).2.mono rfl fun _ he => he⟩,
    fun c hc => (h.pending c hc).mono fun _ he => he,?_,?_,?_,?_,?_,?_⟩
  · rw [v.snapshot,v.dag]
    exact h.shownIn
  · rw [v.snapshot]
    exact h.nodup
  · rw [v.dag]
    exact h.keyed
  · rw [v.boardId,v.threadId,v.dag]
    exact h.openThread
  · rw [v.dag]
    exact fun n hn => (h.shown n hn).mono v.boardId v.threadId fun _ he => he
  · unfold entries
    rw [v.dag]
    exact h.once

/-- A post that is new to the DAG. -/
theorem Inv.addPost (h : Inv p s) {n : DAGPost ThreadOrchestrator.Origin}
    {dag : DAG ThreadOrchestrator.Origin} (ha : addPost s.thread.dag n = some dag)
    (hn : ShownAuthentic s n) (hf : Fresh p s (postSignatures p n)) (seen : List Val) :
    Inv p { s with thread := { s.thread with dag := dag, seenPacketIds := seen } } := by
  have hv := values_of_addPost ha
  refine ⟨h.snapshot,h.listed,h.pending,fun m hm => ?_,h.nodup,h.keyed.addPost ha,fun b hb => ?_,
    fun m hm => ?_,?_⟩
  · rw [hv]
    exact List.mem_append_left _ (h.shownIn m hm)
  · rw [(addPost_threadId ha).1]
    exact h.openThread b hb
  · rcases mem_of_addPost ha hm with rfl | hm
    · exact hn
    · exact h.shown m hm
  · unfold entries
    dsimp only
    rw [hv,List.map_append,← List.append_assoc]
    refine List.pairwise_append.mpr ⟨h.once,List.pairwise_singleton _ _,fun l hl l' hl' => ?_⟩
    rw [List.mem_singleton.mp hl']
    exact hf l hl

theorem Inv.notifyThread (h : Inv p s) {thread : ThreadOrchestrator.State}
    (hs : ThreadOrchestrator.notify loc s.thread = some thread) :
    Inv p { s with thread := thread } := by
  unfold ThreadOrchestrator.notify at hs
  split at hs
  · next posts hp =>
    cases hs
    exact { h with
      shownIn := fun n hn => mem_of_getSortedPosts hp n hn
      nodup := getSortedPosts_nodup h.keyed hp }
  · cases hs

theorem Inv.resumeDecrypted (hinj : ∀ v w m, p.encode v = .ok m → p.encode w = .ok m → v.Same w)
    (h : Inv p s) {c : ThreadOrchestrator.PacketCall}
    (hG : ∀ post, verifyAndDecrypt p c.packet c.target.key = .ok (some post) →
      accepts s.thread c post = true →
        Fits p s.signed (entries p s) .reply s.thread.currentBoardId post)
    (hT : ∀ post, verifyAndDecrypt p c.packet c.target.key = .ok (some post) → Traced p s post) :
    Inv p { s with thread := ThreadOrchestrator.resumeDecrypted p loc s.thread c } := by
  have hsettle : Inv p { s with thread := ThreadOrchestrator.settle s.thread c } :=
    h.sameThread (ThreadOrchestrator.sameView_settle s.thread c).toSameShown
  unfold ThreadOrchestrator.resumeDecrypted
  cases hv : verifyAndDecrypt p c.packet c.target.key with
  | error e => exact hsettle
  | ok o =>
    cases o with
    | none => exact hsettle
    | some post =>
      dsimp only
      split
      · exact hsettle
      next hpost =>
      cases ha : ThreadDAGManager.addPost s.thread.dag (ThreadOrchestrator.dagPostOf c post) with
      | none => exact hsettle
      | some dag =>
        dsimp only
        have hacc : accepts s.thread c post = true := by
          simp only [Bool.not_eq_true,Bool.not_eq_false'] at hpost
          simp [accepts,ha,hpost]
        have hfits := hG post hv hacc
        have hid := Val.eq_of_strictEq (addPost_threadId ha).2
        have hauth : ShownAuthentic s (ThreadOrchestrator.dagPostOf c post) := by
          intro pubkey hp
          obtain ⟨b,hb,e,he,hkey,hkind,hcov⟩ := hfits.covered hinj (hT post hv) hp
          refine ⟨b,_,hb,h.openThread b hb,e,he,hkey,hkind,?_⟩
          exact covers_dagPost (hid ▸ hcov)
        have hd := h.addPost ha hauth hfits.fresh s.thread.seenPacketIds
        cases hn : ThreadOrchestrator.notify loc { s.thread with dag := dag } with
        | none => exact hd.sameThread (ThreadOrchestrator.sameView_settle _ c).toSameShown
        | some thread =>
          dsimp only
          have hs' := hd.notifyThread hn
          split
          · exact hs'.sameThread (ThreadOrchestrator.sameView_settle _ c).toSameShown
          · exact hs'.sameThread ⟨rfl,rfl,rfl,rfl,rfl⟩

theorem sameShown_sendAnonymously (thread : ThreadOrchestrator.State)
    (target : ThreadOrchestrator.Target) :
    ThreadOrchestrator.SameShown thread (ThreadOrchestrator.sendAnonymously thread target) := by
  unfold ThreadOrchestrator.sendAnonymously
  split
  · exact ⟨rfl,rfl,rfl,rfl,rfl⟩
  · exact .refl thread

/-- One's own reply is shown without a trip key. -/
theorem Inv.resumeBuilt (h : Inv p s) {target : ThreadOrchestrator.Target} {text : String}
    {tips : List Val} {nextWeight packet : Val}
    (hG : ThreadDAGManager.addPost s.thread.dag
        (ThreadOrchestrator.replyPost s.thread target text tips nextWeight packet) ≠ none →
      Fresh p s (packetSignatures p packet target.key)) :
    Inv p { s with
      thread := ThreadOrchestrator.resumeBuilt loc s.thread target text tips nextWeight packet } := by
  unfold ThreadOrchestrator.resumeBuilt
  dsimp only
  cases ha : ThreadDAGManager.addPost s.thread.dag
      (ThreadOrchestrator.replyPost s.thread target text tips nextWeight packet) with
  | none => exact h.sameThread (sameShown_sendAnonymously _ _)
  | some dag =>
    dsimp only
    have hd := h.addPost ha (fun pubkey hp => by cases hp) (hG (by simp [ha]))
      (packet.field "packet_id" :: s.thread.seenPacketIds)
    cases hn : ThreadOrchestrator.notify loc _ with
    | none => exact hd
    | some thread => exact (hd.notifyThread hn).sameThread ⟨rfl,rfl,rfl,rfl,rfl⟩

/-- An empty DAG for a thread that is opened, or for none. -/
theorem Inv.fresh (h : Inv p s) {thread : ThreadOrchestrator.State}
    (hdag : thread.dag.nodes = []) (hsnap : thread.snapshot = [])
    (hopen : ∀ b, thread.currentBoardId = some b →
      thread.currentThreadId = some thread.dag.threadId) :
    Inv p { s with thread := thread } := by
  refine ⟨h.snapshot,h.listed,h.pending,?_,?_,?_,hopen,?_,?_⟩
  · intro n hn
    rw [hsnap] at hn
    cases hn
  · rw [hsnap]
    exact List.nodup_nil
  · exact ⟨by simp [hdag],by simp [hdag,JsMap.keys]⟩
  · intro n hn
    rw [hdag] at hn
    cases hn
  · unfold entries
    rw [hdag]
    simpa [JsMap.values] using (List.pairwise_append.mp h.once).1

theorem Inv.activateThread (h : Inv p s) (boardId threadId : String) (boardKey : Bytes) :
    Inv p { s with
      thread := ThreadOrchestrator.activate deriveThreadKey s.thread boardId threadId boardKey } := by
  have hswitch : Inv p { s with
      thread := ThreadOrchestrator.switchThread deriveThreadKey s.thread boardId threadId
        boardKey } := by
    unfold ThreadOrchestrator.switchThread
    split
    · exact h
    · exact h.fresh rfl rfl fun b _ => rfl
  unfold ThreadOrchestrator.activate
  dsimp only
  split
  · exact hswitch.sameThread ⟨rfl,rfl,rfl,rfl,rfl⟩
  · unfold ThreadOrchestrator.listen
    split
    · exact hswitch.sameThread ⟨rfl,rfl,rfl,rfl,rfl⟩
    · exact hswitch.sameThread ⟨rfl,rfl,rfl,rfl,rfl⟩

theorem Inv.thread_step (hinj : ∀ v w m, p.encode v = .ok m → p.encode w = .ok m → v.Same w)
    (h : Inv p s) {a : ThreadOrchestrator.Action} {thread : ThreadOrchestrator.State}
    (hG : WellWrapped p s (.thread a)) (hU : Unforgeable p s (.thread a))
    (hs : ThreadOrchestrator.step p loc deriveThreadKey s.thread a = some thread) :
    Inv p { s with thread := thread } := by
  have htake : ∀ rest, Inv p { s with thread := { s.thread with pending := rest } } :=
    fun rest => h.sameThread ⟨rfl,rfl,rfl,rfl,rfl⟩
  cases ThreadOrchestrator.change_step hs with
  | quiet q => exact h.sameThread q.toSameShown
  | @decrypted i env c rest ht =>
    simp only [WellWrapped,Machine.takeTask_get ht] at hG
    have hd : decrypting s (.thread (.resume i .done env)) = some (c.packet,c.target.key) := by
      simp [decrypting,Machine.takeTask_get ht]
    have hT : ∀ post, verifyAndDecrypt p c.packet c.target.key = .ok (some post) →
        Traced p s post := fun post hv => traced_of_unforgeable hU hd hv
    exact (htake rest).resumeDecrypted hinj hG hT
  | @built i env target text tips nextWeight packet rest ht =>
    simp only [WellWrapped,Machine.takeTask_get ht] at hG
    exact (htake rest).resumeBuilt hG
  | @sent i result env target packet rest ht =>
    exact (htake rest).sameThread (sameShown_sendAnonymously _ _)
  | cleared => exact h.fresh rfl rfl fun b hb => by cases hb
  | activated boardId threadId boardKey => exact h.activateThread boardId threadId boardKey

theorem inv_step (hinj : ∀ v w m, p.encode v = .ok m → p.encode w = .ok m → v.Same w)
    (s : State) (a : Action) (s' : State) (h : Inv p s)
    (hG : WellWrapped p s a ∧ Unforgeable p s a)
    (hs : step p loc deriveThreadKey s a = some s') : Inv p s' := by
  cases a with
  | sign e =>
    cases hs
    exact h.sign e
  | board a =>
    obtain ⟨board,hb,rfl⟩ := Option.map_eq_some_iff.mp hs
    exact h.board_step hinj hG.1 hG.2 hb
  | thread a =>
    obtain ⟨thread,ht,rfl⟩ := Option.map_eq_some_iff.mp hs
    exact h.thread_step hinj hG.1 hG.2 ht

/-- The entries of the snapshots are entries that are kept, each once. -/
theorem Inv.authentic (h : Inv p s) : Authentic p s := by
  refine ⟨?_,fun n hn => h.shown n (h.shownIn n hn),?_⟩
  · rw [h.snapshot]
    exact fun t ht => (h.listed t ht).2
  · obtain ⟨h1,h2,h12⟩ := List.pairwise_append.mp h.once
    rw [h.snapshot]
    refine List.pairwise_append.mpr ⟨h1,?_,fun l hl l' hl' => h12 l hl l' ?_⟩
    · have hd := List.pairwise_map.mp h2
      refine List.pairwise_map.mpr (h.nodup.imp_of_mem fun {a b} ha hb hab => ?_)
      have hsymm : Std.Symm fun x y => List.Disjoint (postSignatures p x) (postSignatures p y) :=
        ⟨fun x y hxy g hg hg' => hxy hg' hg⟩
      exact hd.forall (h.shownIn a ha) (h.shownIn b hb) hab
    · obtain ⟨n,hn,rfl⟩ := List.mem_map.mp hl'
      exact List.mem_map_of_mem (h.shownIn n hn)

theorem shown_authentic (hinj : ∀ v w m, p.encode v = .ok m → p.encode w = .ok m → v.Same w)
    {as : List Action} (hr : Machine.run (step p loc deriveThreadKey) {} as = some s)
    (hG : Machine.Along (step p loc deriveThreadKey) (WellWrapped p) {} as)
    (hU : Machine.Along (step p loc deriveThreadKey) (Unforgeable p) {} as) :
    Authentic p s := by
  have hinit : Inv p {} := by
    refine ⟨rfl,?_,?_,?_,List.nodup_nil,⟨by simp,List.Pairwise.nil⟩,?_,?_,List.Pairwise.nil⟩
    · intro t ht
      cases ht
    · intro c hc
      cases hc
    · intro n hn
      cases hn
    · intro b hb
      cases hb
    · intro n hn
      cases hn
  exact (Machine.invariant_run (inv_step hinj) hinit (hG.and hU) hr).authentic

end Proofs

/-- A trip key, a session key, and their signatures over the record below. -/
def tripKey : Bytes := List.replicate 32 7
def sessionKey : Bytes := List.replicate 32 9
def tripSig : Bytes := List.replicate 64 7
def sessionSig : Bytes := List.replicate 64 9

def signedText : List (String × Val) := [
  ("content",.str "text"),("post_number",.num (.fin 0)),("reply_to",.null),
  ("created_at",.num (.fin 60000)),("board_id",.str "A"),("thread_id",.str "T"),
  ("parents",.arr []),("cumulative_pow",.num (.fin 12)),("thread_root",.str "T")]

/-- The record in msgpack. -/
def signedMessage : Bytes :=
  Bytes.bigEndian 57 0x89a7636f6e74656e74a474657874ab706f73745f6e756d62657200a87265706c795f746fc0aa637265617465645f6174cdea60a8626f617264 ++
  Bytes.bigEndian 56 0x5f6964a141a97468726561645f6964a154a7706172656e747390ae63756d756c61746976655f706f770cab7468726561645f726f6f74a154

/-- The encoding of one record, which is all that is signed here. -/
def sampleEncode : Val → Except Thrown Bytes
  | .obj [("content",.str c),("post_number",.num n),("reply_to",.null),("created_at",.num t),
      ("board_id",.str b),("thread_id",.str i),("parents",.arr []),("cumulative_pow",.num w),
      ("thread_root",.str r)] =>
    if c = "text" ∧ n = .fin 0 ∧ t = .fin 60000 ∧ b = "A" ∧ i = "T" ∧ w = .fin 12 ∧ r = "T" then
      .ok signedMessage
    else .error (.error "not encoded")
  | _ => .error (.error "not encoded")

theorem sampleEncode_injective (v w : Val) (m : Bytes) (hv : sampleEncode v = .ok m)
    (hw : sampleEncode w = .ok m) : v.Same w := by
  have key : ∀ u, sampleEncode u = .ok m → u = .obj signedText := by
    intro u hu
    unfold sampleEncode at hu
    split at hu
    · split at hu
      · next h =>
        obtain ⟨rfl,rfl,rfl,rfl,rfl,rfl,rfl⟩ := h
        rfl
      · cases hu
    · cases hu
  rw [key v hv,key w hw]
  rfl


/-- The record with the session's signature and the author's. -/
def signedInner : Val := .obj (signedText ++ [
  ("session_pubkey",.bytes sessionKey),("session_sig",.bytes sessionSig),
  ("trip_pubkey",.bytes tripKey),("trip_sig",.bytes tripSig)])

/-- A stand-in for the libraries, under which one record can be signed with two keys. -/
def sampleSigned : Primitives where
  keystream _ _ := none
  aeadEncrypt key _ plaintext := key ++ plaintext
  aeadDecrypt key _ ciphertext :=
    if ciphertext.take key.length = key then some (ciphertext.drop key.length) else none
  verifyDetached sig message pubkey :=
    some (decide (message = signedMessage ∧
      (pubkey = tripKey ∧ sig = tripSig ∨ pubkey = sessionKey ∧ sig = sessionSig)))
  encode := sampleEncode
  decode
    | .bytes [1] => some (.obj [("post_type",.num (.fin 1)),("inner_payload",.bytes [3])])
    | .bytes [2] => some (.obj [("post_type",.num (.fin 0)),("inner_payload",.bytes [3])])
    | .bytes [3] => some signedInner
    | _ => none

theorem unforgeable_sampleSigned {s : State} {a : Action} {kind : Kind}
    (he : ⟨tripKey,.obj signedText,kind⟩ ∈ s.signed)
    (hd : ∀ packet key, decrypting s a = some (packet,key) →
      ∃ encPayload, layers sampleSigned packet key = .ok (some (encPayload,signedInner))) :
    Unforgeable sampleSigned s a := by
  intro packet key hpk encPayload inner hl message pubkey sig hm hk hs hv
  obtain ⟨encPayload',hl'⟩ := hd packet key hpk
  rw [hl'] at hl
  cases hl
  have hkey : PowPolicy.toBytes (signedInner.field "trip_pubkey") = .ok tripKey := rfl
  have hrec : sampleSigned.encode (signedFields signedInner) = .ok signedMessage := rfl
  cases hkey.symm.trans hk
  cases hrec.symm.trans hm
  exact ⟨_,he,rfl,rfl⟩

abbrev sampleStep : State → Action → Option State :=
  step sampleSigned sampleLocale ThreadOrchestrator.sampleThreadKey

/-- The author signs a reply, and the thread it was written for is open when it comes. -/
def signedRun : List Action := [
  .sign ⟨tripKey,.obj signedText,.reply⟩,
  .thread (.activate "A" "T" [10]),
  .thread (.gossip (samplePacket [10,1] "p" 2)),
  .thread (.resume 1 .done {})]

/-- The same reply, wrapped as the creation of a thread by somebody with the board's key. -/
def rewrappedRun : List Action := [
  .sign ⟨tripKey,.obj signedText,.reply⟩,
  .board (.activate "A" [10]),
  .board (.gossip (samplePacket [10] "p" 1)),
  .board (.resume 1 .done {}),
  .board (.resume 1 (.threadRows []) {})]

theorem shown_authentic_signedRun : ∃ s, Machine.run sampleStep {} signedRun = some s ∧
    s.thread.snapshot.length = 1 ∧ Authentic sampleSigned s := by
  have hG : Machine.Along sampleStep (WellWrapped sampleSigned) {} signedRun := by
    refine ⟨trivial,fun t ht => ?_⟩
    cases ht
    refine ⟨trivial,fun t ht => ?_⟩
    cases ht
    refine ⟨trivial,fun t ht => ?_⟩
    cases ht
    refine ⟨fun post hv _ => ?_,fun t _ => trivial⟩
    cases hv
    refine ⟨fun e he _ _ => ⟨e,he,rfl,?_,?_⟩,fun pubkey _ => ⟨"A",rfl,rfl⟩,?_,?_⟩
    · cases List.mem_singleton.mp he
      rfl
    · cases List.mem_singleton.mp he
      rfl
    · intro pubkey _ hp
      cases hp
    · intro l hl
      cases hl
  have hU : Machine.Along sampleStep (Unforgeable sampleSigned) {} signedRun := by
    refine ⟨nofun,fun t ht => ?_⟩
    cases ht
    refine ⟨nofun,fun t ht => ?_⟩
    cases ht
    refine ⟨nofun,fun t ht => ?_⟩
    cases ht
    refine ⟨unforgeable_sampleSigned List.mem_cons_self fun packet key hd => ?_,fun t _ => trivial⟩
    cases hd
    exact ⟨_,rfl⟩
  exact ⟨_,rfl,rfl,shown_authentic sampleEncode_injective (by rfl) hG hU⟩

set_option maxRecDepth 4000 in
theorem shown_forged_rewrappedRun : ¬∀ (as : List Action) (s : State),
    Machine.run sampleStep {} as = some s →
      Machine.Along sampleStep (Unforgeable sampleSigned) {} as → Authentic sampleSigned s := by
  intro h
  have hU : Machine.Along sampleStep (Unforgeable sampleSigned) {} rewrappedRun := by
    refine ⟨nofun,fun t ht => ?_⟩
    cases ht
    refine ⟨nofun,fun t ht => ?_⟩
    cases ht
    refine ⟨nofun,fun t ht => ?_⟩
    cases ht
    refine ⟨unforgeable_sampleSigned List.mem_cons_self fun packet key hd => ?_,fun t ht => ?_⟩
    · cases hd
      exact ⟨_,rfl⟩
    · exact ⟨nofun,fun t _ => trivial⟩
  have ha := h rewrappedRun _ rfl hU
  obtain ⟨b,-,e,he,-,hkind,-⟩ := ha.listed _ List.mem_cons_self tripKey rfl
  cases List.mem_singleton.mp he
  cases hkind

end Authorship
