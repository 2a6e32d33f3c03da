import AetherLite.Logic.ThreadWeight

/-! Weights that are paid for stay so. -/
set_option autoImplicit false

namespace ThreadWeight

open Js Js.Val PacketBuilder Logic

/-- The weight that a save hands over is paid for, in the thread it is merged into. -/
def SaveEarned (ledger : List Built) (e : PostSave) : Prop :=
  Earned ledger (orElse e.cumulativePow (.num (.fin 0))) (orElse e.threadRoot (.str e.threadId))

section Board
open BoardOrchestrator

/-- A suspended merge has a weight that is paid for, and will save one. -/
def BoardCont (ledger : List Built) : Cont → Prop
  | .statsRead _ post _ base =>
    Worth ledger base post.threadId ∧ Earned ledger (weightOf post)
      (orElse post.threadId (.str boardMetaThreadId))
  | .built _ _ _ threadId => threadId ≠ ""
  | _ => True

def isPlain : Cont → Bool
  | .statsRead _ _ _ _ | .built _ _ _ _ => false
  | _ => true

theorem boardCont_of_isPlain {c : Cont} (h : isPlain c = true) (ledger : List Built) :
    BoardCont ledger c := by
  cases c with
  | statsRead | built => cases h
  | _ => trivial

structure BoardInv (ledger : List Built) (b : BoardOrchestrator.State) : Prop where
  threads : ∀ e ∈ b.threads, e.1 = e.2.post.threadId ∧ Worth ledger e.2.maxPow e.1
  snapshot : ∀ t ∈ b.snapshot, Worth ledger t.maxPow t.post.threadId
  pending : ∀ c ∈ b.pending, BoardCont ledger c
  saves : ∀ e ∈ b.saves, SaveEarned ledger e

/-- Neither the list nor the saves change, and only plain continuations are suspended. -/
structure Calm (b b' : BoardOrchestrator.State) : Prop where
  threads : b'.threads = b.threads
  snapshot : b'.snapshot = b.snapshot
  pending : ∀ c ∈ b'.pending, c ∈ b.pending ∨ isPlain c = true
  saves : b'.saves = b.saves

theorem Calm.refl (b : BoardOrchestrator.State) : Calm b b := ⟨rfl,rfl,fun _ hc => .inl hc,rfl⟩

theorem Calm.trans {b₁ b₂ b₃ : BoardOrchestrator.State} (h : Calm b₁ b₂) (h' : Calm b₂ b₃) :
    Calm b₁ b₃ := by
  refine ⟨h'.threads.trans h.threads,h'.snapshot.trans h.snapshot,fun c hc => ?_,
    h'.saves.trans h.saves⟩
  rcases h'.pending c hc with hc | hc
  · exact h.pending c hc
  · exact .inr hc

theorem calm_suspend (b : BoardOrchestrator.State) {c : Cont} (hc : isPlain c = true) :
    Calm b (suspend b c) := by
  refine ⟨rfl,rfl,fun d hd => ?_,rfl⟩
  rcases List.mem_append.mp hd with hd | hd
  · exact .inl hd
  · exact .inr (List.mem_singleton.mp hd ▸ hc)

theorem calm_settle (b : BoardOrchestrator.State) (c : PacketCall) : Calm b (settle b c) := by
  unfold settle
  split
  · exact calm_suspend b rfl
  · exact .refl b

theorem calm_enterPacket (b : BoardOrchestrator.State) (c : PacketCall) :
    Calm b (enterPacket b c) := by
  unfold enterPacket
  split
  · exact calm_settle b c
  dsimp only
  split
  · exact calm_settle b c
  · refine Calm.trans ?_ (calm_suspend _ rfl)
    exact ⟨rfl,rfl,fun _ hc => .inl hc,rfl⟩

theorem calm_fullSync (b : BoardOrchestrator.State) (boardId : String) (env : Env) :
    Calm b (fullSync b boardId env) := by
  unfold fullSync
  split
  · exact .refl b
  dsimp only
  split
  · refine Calm.trans ?_ (calm_suspend _ rfl)
    exact ⟨rfl,rfl,fun _ hc => .inl hc,rfl⟩
  · refine Calm.trans ?_ (calm_suspend _ rfl)
    exact ⟨rfl,rfl,fun _ hc => .inl hc,rfl⟩

theorem calm_cacheLoop (b : BoardOrchestrator.State) (boardId : String) (key : Bytes) (env : Env)
    (rows : List PostRow) : Calm b (cacheLoop b boardId key env rows) := by
  induction rows with
  | nil => exact calm_fullSync b boardId env
  | cons row rest ih =>
    unfold cacheLoop
    split
    · exact ih
    · exact calm_enterPacket b _

theorem calm_onHintBody (b : BoardOrchestrator.State) (body : Bytes) (keyId : String) :
    Calm b (onHintBody b body keyId) := by
  unfold onHintBody
  split
  · exact .refl b
  split
  · exact .refl b
  split
  · exact .refl b
  · exact calm_enterPacket b _

variable {ledger ledger' : List Built} {b b' : BoardOrchestrator.State}

theorem BoardInv.calm (h : BoardInv ledger b) (hc : Calm b b') : BoardInv ledger b' := by
  refine ⟨hc.threads ▸ h.threads,hc.snapshot ▸ h.snapshot,fun c hm => ?_,hc.saves ▸ h.saves⟩
  rcases hc.pending c hm with hm | hplain
  · exact h.pending c hm
  · exact boardCont_of_isPlain hplain ledger

theorem BoardInv.grows (h : BoardInv ledger b) (hg : Grows ledger ledger') :
    BoardInv ledger' b := by
  refine ⟨fun e he => ⟨(h.threads e he).1,(h.threads e he).2.grows hg⟩,
    fun t ht => (h.snapshot t ht).grows hg,fun c hc => ?_,fun e he => (h.saves e he).grows hg⟩
  have hcont := h.pending c hc
  cases c with
  | statsRead => exact ⟨hcont.1.grows hg,hcont.2.grows hg⟩
  | _ => exact hcont

theorem BoardInv.take (h : BoardInv ledger b) {i : Nat} {c : Cont} {rest : List Cont}
    (ht : Machine.takeTask b.pending i = some (c,rest)) :
    BoardInv ledger { b with pending := rest } ∧ BoardCont ledger c := by
  have hmem := Machine.takeTask_mem ht
  exact ⟨⟨h.threads,h.snapshot,fun d hd => h.pending d (hmem.2 d hd),h.saves⟩,h.pending c hmem.1⟩

theorem BoardInv.suspend (h : BoardInv ledger b) {c : Cont} (hc : BoardCont ledger c) :
    BoardInv ledger (suspend b c) := by
  refine ⟨h.threads,h.snapshot,fun d hd => ?_,h.saves⟩
  rcases List.mem_append.mp hd with hd | hd
  · exact h.pending d hd
  · exact List.mem_singleton.mp hd ▸ hc

theorem BoardInv.notify (h : BoardInv ledger b) : BoardInv ledger (notify b) := by
  refine ⟨h.threads,fun t ht => ?_,h.pending,h.saves⟩
  obtain ⟨e,he,rfl⟩ := List.mem_map.mp ht
  obtain ⟨hkey,hworth⟩ := h.threads e he
  exact hkey ▸ hworth

theorem BoardInv.save (h : BoardInv ledger b) {e : PostSave} (he : SaveEarned ledger e) :
    BoardInv ledger { b with saves := e :: b.saves } := by
  refine ⟨h.threads,h.snapshot,h.pending,fun f hf => ?_⟩
  rcases List.mem_cons.mp hf with rfl | hf
  · exact he
  · exact h.saves f hf

/-- A listed thread is under its own id. -/
theorem BoardInv.get (h : BoardInv ledger b) {threadId : Val} {t : ThreadMeta}
    (ht : JsMap.get b.threads threadId = some t) :
    t.post.threadId = threadId ∧ Worth ledger t.maxPow threadId := by
  obtain ⟨k,hm,hk⟩ := JsMap.get_mem ht
  obtain ⟨hkey,hworth⟩ := h.threads _ hm
  have hid : k = threadId := eq_of_beq hk
  exact ⟨hkey.symm.trans hid,hid ▸ hworth⟩

theorem BoardInv.set (h : BoardInv ledger b) {threadId : Val} {t : ThreadMeta}
    (hid : t.post.threadId = threadId) (hworth : Worth ledger t.maxPow threadId) :
    BoardInv ledger { b with threads := JsMap.set b.threads threadId t } := by
  refine ⟨fun e he => ?_,h.snapshot,h.pending,h.saves⟩
  rcases JsMap.mem_set_or he with he | ⟨ht,hk⟩
  · exact h.threads e he
  · have hkey : e.1 = threadId := hk.elim id eq_of_beq
    rw [hkey,ht]
    exact ⟨hid.symm,hworth⟩

theorem merged_eq {existing : Option ThreadMeta} {post : Post} {packetId : Val}
    {maxPow createdAt : Number} {os : List Origin} {t : ThreadMeta}
    (h : merged existing post packetId maxPow createdAt os = some t) :
    (existing = none ∧ t.post = post ∧ t.maxPow = maxPow) ∨
      ∃ old, existing = some old ∧ t.post = old.post ∧ t.maxPow = old.maxPow.orZero.max maxPow := by
  cases existing with
  | none =>
    cases h
    exact .inl ⟨rfl,rfl,rfl⟩
  | some old =>
    obtain ⟨-,ht⟩ := Option.ite_none_left_eq_some.mp h
    rw [← Option.some.inj ht]
    exact .inr ⟨old,rfl,rfl,rfl⟩

theorem BoardInv.mergeThread (h : BoardInv ledger b) (post : Post) (packetId : Val)
    {maxPow : Number} (createdAt : Number) (os : List Origin)
    (hworth : Worth ledger maxPow post.threadId) :
    BoardInv ledger (mergeThread b post packetId maxPow createdAt os).1 := by
  unfold BoardOrchestrator.mergeThread
  split
  · next t ht =>
    rcases merged_eq ht with ⟨-,hpost,hpow⟩ | ⟨old,hg,hpost,hpow⟩
    · exact h.set (by rw [hpost]) (hpow ▸ hworth)
    · obtain ⟨hid,hold⟩ := h.get hg
      exact h.set (hpost ▸ hid) (hpow ▸ hold.orZero.max hworth)
  · exact h

theorem BoardInv.mergeAndNotify (h : BoardInv ledger b) (post : Post) (packetId : Val)
    {maxPow : Number} (createdAt : Number) (os : List Origin)
    (hworth : Worth ledger maxPow post.threadId) :
    BoardInv ledger (mergeAndNotify b post packetId maxPow createdAt os) := by
  have hm := h.mergeThread post packetId createdAt os hworth
  unfold BoardOrchestrator.mergeAndNotify
  dsimp only
  split
  · exact hm.notify
  · exact hm

theorem BoardInv.persistThread (h : BoardInv ledger b) (c : PacketCall) {post : Post}
    (he : Earned ledger (weightOf post) (orElse post.threadId (.str boardMetaThreadId))) :
    BoardInv ledger (persistThread b c post) := by
  have hsave : ∀ payload, SaveEarned ledger {
      boardId := c.boardId
      threadId := boardMetaThreadId
      payload := payload
      parents := orElse post.parents (.arr [])
      cumulativePow := orElse post.cumulativePow (.num (.fin 0))
      threadRoot := post.threadId
      createdAt := post.createdAt } := by
    intro payload
    unfold SaveEarned
    rw [orElse_idem]
    exact he
  exact (h.save (hsave _)).suspend trivial

/-- A row of the statistics whose weight is paid for. -/
def RowWorth (ledger : List Built) (r : ThreadRow) : Prop := Worth ledger r.maxPow r.threadId

theorem BoardInv.resumeStatsRead (h : BoardInv ledger b) (c : PacketCall) {post : Post}
    {createdAt base : Number} (hc : BoardCont ledger (.statsRead c post createdAt base))
    {stored : List ThreadRow} (hrows : ∀ r ∈ stored, RowWorth ledger r) :
    BoardInv ledger (resumeStatsRead b c post createdAt base stored) := by
  have hmax : ∀ r, statsOf stored c.boardId post.threadId = some r →
      Worth ledger (Number.max base r.maxPow.orZero) post.threadId := by
    intro r hs
    have hmem := List.mem_of_find?_eq_some hs
    have hid : r.threadId = post.threadId := by
      have hfind := List.find?_some (show List.find? _ _ = some r from hs)
      exact eq_of_strictEq hfind
    have hrow := hrows r (List.mem_filter.mp hmem).1
    rw [RowWorth,hid] at hrow
    exact hc.1.max hrow.orZero
  unfold BoardOrchestrator.resumeStatsRead
  cases hs : statsOf stored c.boardId post.threadId with
  | none =>
    dsimp only
    split
    · exact (h.mergeAndNotify _ _ _ _ hc.1).calm (calm_settle _ c)
    · exact (h.mergeAndNotify _ _ _ _ hc.1).persistThread c hc.2
  | some r =>
    dsimp only
    split
    · exact (h.mergeAndNotify _ _ _ _ (hmax r hs)).calm (calm_settle _ c)
    · exact (h.mergeAndNotify _ _ _ _ (hmax r hs)).persistThread c hc.2

theorem BoardInv.tickRow (h : BoardInv ledger b) (now : Number) {r : ThreadRow}
    (hr : RowWorth ledger r) {next : JsMap Val ThreadMeta}
    (ht : tickRow b.threads now r = some next) : BoardInv ledger { b with threads := next } := by
  unfold BoardOrchestrator.tickRow at ht
  cases hg : JsMap.get b.threads r.threadId with
  | none =>
    rw [hg] at ht
    cases ht
  | some t =>
    rw [hg] at ht
    dsimp only at ht
    obtain ⟨-,ht⟩ := Option.ite_none_left_eq_some.mp ht
    obtain ⟨hid,hworth⟩ := h.get hg
    rw [← Option.some.inj ht]
    exact h.set hid (hr.orZero.max hworth.orZero)

theorem BoardInv.tickRows (h : BoardInv ledger b) (now : Number) {rows : List ThreadRow}
    (hrows : ∀ r ∈ rows, RowWorth ledger r) :
    BoardInv ledger { b with threads := (tickRows now b.threads rows).1 } := by
  induction rows generalizing b with
  | nil => exact h
  | cons r rows ih =>
    obtain ⟨hr,hrest⟩ := List.forall_mem_cons.mp hrows
    unfold BoardOrchestrator.tickRows
    split
    · next next ht => exact ih (h.tickRow now hr ht) hrest
    · exact ih h hrest

theorem BoardInv.resumeStatsTick (h : BoardInv ledger b) (boardId : String) (env : Env)
    {stored : List ThreadRow} (hrows : ∀ r ∈ stored, RowWorth ledger r) :
    BoardInv ledger (resumeStatsTick b boardId stored env) := by
  have hown : ∀ r ∈ getThreads stored boardId, RowWorth ledger r :=
    fun r hr => hrows r (List.mem_filter.mp hr).1
  have ht := h.tickRows env.now hown
  unfold BoardOrchestrator.resumeStatsTick
  dsimp only
  split
  · exact ht.notify
  · exact ht

/-- A thread created here has the work of its first packet. -/
theorem BoardInv.resumeBuilt (h : BoardInv ledger b) (boardId : String) (key : Bytes)
    (title : String) {threadId : String} (packet : Val) (hid : threadId ≠ "")
    (hworth : Worth ledger (Number.ofNat PowPolicy.networkDifficulty) (.str threadId)) :
    BoardInv ledger (resumeBuilt b boardId key title threadId packet) := by
  have hm := h.mergeThread (submittedPost boardId title threadId packet) (packet.field "packet_id")
    (packetTimestamp packet) [.submitted boardId key packet] hworth
  have hseen : ∀ b' : BoardOrchestrator.State, BoardInv ledger b' →
      BoardInv ledger { b' with seenPacketIds := packet.field "packet_id" :: b'.seenPacketIds } :=
    fun _ hb => ⟨hb.threads,hb.snapshot,hb.pending,hb.saves⟩
  refine ((hseen _ hm).notify.save ?_).suspend trivial
  refine ⟨threadId,Number.ofNat PowPolicy.networkDifficulty,?_,?_,?_⟩
  · simp [orElse,truthy,hid]
  · simp [orElse,truthy,Number.truthy,Number.ofNat,PowPolicy.networkDifficulty]
  · have htarget : orElse (.str threadId) (.str boardMetaThreadId) = .str threadId := by
      simp [orElse,truthy,hid]
    rw [htarget]
    exact hworth

theorem basePow_earned {post : Post} {base : Number} (h : basePow post = .ok base)
    (he : Earned ledger (weightOf post) post.threadId) : Worth ledger base post.threadId := by
  obtain ⟨t,n,-,hn,hworth⟩ := he
  have hbase : basePow post = .ok n := by
    unfold basePow
    rw [show orElse post.cumulativePow (.num (.fin 0)) = .num n from hn]
    rfl
  cases h.symm.trans hbase
  exact hworth

section
variable {p : Primitives}

/-- What a decrypted packet would write to the list and to the store is paid for. -/
def PacketEarned (p : Primitives) (ledger : List Built) (c : PacketCall) : Prop :=
  ∀ post, verifyAndDecrypt p c.packet c.key = .ok (some post) →
    post.postType.strictEq (.num (.fin 1)) = true →
      Earned ledger (weightOf post) post.threadId ∧
        Earned ledger (weightOf post) (orElse post.threadId (.str boardMetaThreadId))

theorem BoardInv.resumeDecrypted (h : BoardInv ledger b) {c : PacketCall} (env : Env)
    (he : PacketEarned p ledger c) : BoardInv ledger (resumeDecrypted p b c env) := by
  have hsettle := h.calm (calm_settle b c)
  unfold BoardOrchestrator.resumeDecrypted
  split
  · exact hsettle
  · exact hsettle
  · next post hpost =>
    split
    · exact hsettle
    next htype =>
    obtain ⟨hown,htarget⟩ := he post hpost (by simpa using htype)
    split
    · next createdAt base _ hbase => exact h.suspend ⟨basePow_earned hbase hown,htarget⟩
    · exact hsettle

/-- What the step of the board gets from outside is paid for. -/
structure BoardInput (p : Primitives) (ledger : List Built) (b : BoardOrchestrator.State)
    (a : BoardOrchestrator.Action) : Prop where
  decrypted : ∀ i env c, a = .resume i .done env → b.pending[i]? = some (.decrypted c) →
    PacketEarned p ledger c
  rows : ∀ i stored env, a = .resume i (.threadRows stored) env → ∀ r ∈ stored, RowWorth ledger r
  built : ∀ i packet env boardId key title threadId, a = .resume i (.packet packet) env →
    b.pending[i]? = some (.built boardId key title threadId) →
      PowPolicy.networkDifficulty ≤ total ledger (.str threadId)
  submit : ∀ boardId key title threadId, a = .submitThread boardId key title threadId → threadId ≠ ""

theorem worth_of_le {n : Nat} {threadId : Val} (h : n ≤ total ledger threadId) :
    Worth ledger (Number.ofNat n) threadId := ⟨n,rfl,by exact_mod_cast h⟩

theorem BoardInv.resume (h : BoardInv ledger b) {i : Nat} {c : Cont} {rest : List Cont}
    {result : Awaited} {env : Env} (hin : BoardInput p ledger b (.resume i result env))
    (ht : Machine.takeTask b.pending i = some (c,rest))
    (hs : resume p { b with pending := rest } c result env = some b') : BoardInv ledger b' := by
  obtain ⟨hrest,hc⟩ := h.take ht
  have hget := Machine.takeTask_get ht
  unfold BoardOrchestrator.resume at hs
  split at hs
  · cases hs
    exact hrest.resumeDecrypted env (hin.decrypted _ _ _ rfl hget)
  · cases hs
    exact hrest.resumeStatsRead _ hc (hin.rows _ _ _ rfl)
  · cases hs
    exact hrest.calm (calm_settle _ _)
  · cases hs
    exact hrest.calm (calm_settle _ _)
  · cases hs
    exact hrest.calm (calm_settle _ _)
  · cases hs
    exact hrest.calm (calm_cacheLoop _ _ _ _ _)
  · cases hs
    exact hrest.calm (calm_cacheLoop _ _ _ _ _)
  · cases hs
    exact hrest.calm (calm_cacheLoop _ _ _ _ _)
  · cases hs
    exact hrest.resumeStatsTick _ env (hin.rows _ _ _ rfl)
  · cases hs
    exact hrest
  · cases hs
    exact hrest.resumeBuilt _ _ _ _ hc (worth_of_le (hin.built _ _ _ _ _ _ _ rfl hget))
  · cases hs
    exact hrest
  · cases hs
    exact hrest.calm ⟨rfl,rfl,fun _ hm => .inl hm,rfl⟩
  · cases hs
    exact hrest.calm ⟨rfl,rfl,fun _ hm => .inl hm,rfl⟩
  · cases hs
    exact hrest.calm ⟨rfl,rfl,fun _ hm => .inl hm,rfl⟩
  · cases hs

theorem BoardInv.clear (h : BoardInv ledger b) : BoardInv ledger (clear b) := by
  refine ⟨fun e he => ?_,fun t ht => ?_,h.pending,h.saves⟩
  · cases he
  · cases ht

theorem BoardInv.activate (h : BoardInv ledger b) (boardId : String) (key : Bytes) :
    BoardInv ledger (activate b boardId key) := by
  have hswitch : BoardInv ledger (switchBoard b boardId key) := by
    unfold switchBoard
    split
    · exact h
    · exact h.clear.calm ⟨rfl,rfl,fun _ hm => .inl hm,rfl⟩
  have hlisten : Calm (switchBoard b boardId key) (listen (switchBoard b boardId key) boardId key) := by
    unfold BoardOrchestrator.listen
    split
    · exact .refl _
    · exact ⟨rfl,rfl,fun _ hm => .inl hm,rfl⟩
  exact (hswitch.calm hlisten).calm (calm_suspend _ rfl)

theorem BoardInv.step (h : BoardInv ledger b) {a : BoardOrchestrator.Action}
    (hin : BoardInput p ledger b a) (hs : BoardOrchestrator.step p b a = some b') :
    BoardInv ledger b' := by
  cases a with
  | activate boardId key =>
    cases hs
    exact h.activate boardId key
  | clear =>
    cases hs
    exact h.clear
  | gossip packet =>
    cases hs
    unfold onGossipPacket
    split
    · exact h.calm (calm_enterPacket b _)
    · exact h
  | hintBody body keyId =>
    cases hs
    exact h.calm (calm_onHintBody b body keyId)
  | submitThread boardId key title threadId =>
    cases hs
    split
    · exact h
    · exact h.suspend (hin.submit _ _ _ _ rfl)
  | statsTimer =>
    obtain ⟨_,-,rfl⟩ := Option.map_eq_some_iff.mp hs
    exact h.calm (calm_suspend b rfl)
  | peerConnect =>
    cases hs
    exact h.calm ⟨rfl,rfl,fun _ hm => .inl hm,rfl⟩
  | debounceFired env =>
    simp only [BoardOrchestrator.step] at hs
    split at hs
    · cases hs
      have hfired : BoardInv ledger { b with syncDebounce := false } :=
        h.calm ⟨rfl,rfl,fun _ hm => .inl hm,rfl⟩
      split
      · exact hfired.calm (calm_fullSync _ _ env)
      · exact hfired
    · cases hs
  | resume i result env =>
    obtain ⟨⟨c,rest⟩,ht,hs⟩ := Option.bind_eq_some_iff.mp hs
    exact h.resume hin ht hs

end

end Board

end ThreadWeight
