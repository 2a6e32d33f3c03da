import AetherLite.Logic.ThreadBacking

/-! Over whole runs of the two orchestrators and the store, no weight is shown or stored
that is not paid for, while every step is honest. -/
set_option autoImplicit false

namespace ThreadWeight

open Js Js.Val PacketBuilder Logic

section Store
open Storage Storage.IndexedDBStore

/-- A row whose weight is paid for, in the thread its key is made from. -/
def PaidRow (q : Storage.Primitives) (vault : DataVault) (ledger : List Built) (k : String)
    (blob : Val) : Prop :=
  ∃ id stats n, vault.index q "thread" id = .ok k ∧
    DataVault.Sealed q vault blob (threadPlace k) stats ∧ stats.field "threadId" = .str id ∧
      stats.field "max_pow" = .num n ∧ Worth ledger n (.str id)

structure StoreInv (q : Storage.Primitives) (vault : DataVault) (ledger : List Built)
    (s : Session) : Prop where
  unlocked : s.vault = some vault
  isOpen : vault.isOpen = true
  rows : ∀ e ∈ s.db.ethreads, PaidRow q vault ledger e.1 e.2.blob

variable {q : Storage.Primitives} {w : World} {fmt : Format} {vault : DataVault}
  {ledger ledger' : List Built} {s s' : Session}

theorem PaidRow.grows {k : String} {blob : Val} (h : PaidRow q vault ledger k blob)
    (hg : Grows ledger ledger') : PaidRow q vault ledger' k blob := by
  obtain ⟨id,stats,n,hk,hsealed,hid,hn,hworth⟩ := h
  exact ⟨id,stats,n,hk,hsealed,hid,hn,hworth.grows hg⟩

theorem StoreInv.grows (h : StoreInv q vault ledger s) (hg : Grows ledger ledger') :
    StoreInv q vault ledger' s := ⟨h.unlocked,h.isOpen,fun e he => (h.rows e he).grows hg⟩

theorem num_of_same {v : Val} {n : Number} (h : v.Same (.num n)) : v = .num n := by
  cases v with
  | num m => simpa [Val.Same,Val.nullify] using h
  | _ => simp [Val.Same,Val.nullify] at h

theorem PaidRow.opened (hq : q.Ideal) {k : String} {blob opened : Val}
    (h : PaidRow q vault ledger k blob)
    (ho : vault.openRecord q blob (threadPlace k) = .ok (some opened)) :
    ∃ id n, vault.index q "thread" id = .ok k ∧ opened.field "threadId" = .str id ∧
      opened.field "max_pow" = .num n ∧ Worth ledger n (.str id) := by
  obtain ⟨id,stats,n,hk,hsealed,hid,hn,hworth⟩ := h
  obtain ⟨found,hfound,hsame⟩ := hsealed.holds hq
  cases ho.symm.trans hfound
  refine ⟨id,n,hk,?_,?_,hworth⟩
  · exact str_of_same (hid ▸ hsame.field "threadId")
  · exact num_of_same (hn ▸ hsame.field "max_pow")

theorem toNumber_worth {v threadId : Val} {n : Number}
    (hv : v = .undefined ∨ ∃ m, v = .num m ∧ Worth ledger m threadId)
    (h : (orElse v (.num (.fin 0))).toNumber = .ok n) : Worth ledger n threadId := by
  rcases hv with rfl | ⟨m,rfl,hm⟩
  · cases h
    exact worth_zero ledger threadId
  · by_cases ht : (Val.num m).truthy = true
    · rw [show orElse (.num m) (.num (.fin 0)) = .num m by simp [orElse,ht]] at h
      cases h
      exact hm
    · rw [show orElse (.num m) (.num (.fin 0)) = .num (.fin 0) by simp [orElse,ht]] at h
      cases h
      exact worth_zero ledger threadId

/-- What is in the place of the statistics, if anything is. -/
theorem existing_worth (hq : q.Ideal) (h : StoreInv q vault ledger s) {k id : String}
    (hk : vault.index q "thread" id = .ok k) {existing : Val}
    (he : existingStats q vault k (JsMap.get s.db.ethreads k) = .ok existing) :
    existingField existing "max_pow" .undefined = .undefined ∨
      ∃ m, existingField existing "max_pow" .undefined = .num m ∧ Worth ledger m (.str id) := by
  unfold existingField
  split
  · next ht =>
    cases hg : JsMap.get s.db.ethreads k with
    | none =>
      rw [hg] at he
      cases he
      cases ht
    | some row =>
      rw [hg] at he
      obtain ⟨opened,hopened,he⟩ := bind_ok he
      cases he
      cases opened with
      | none => cases ht
      | some stats =>
        have hpaid := h.rows _ (JsMap.mem_of_get hg)
        obtain ⟨id',n,hk',-,hn,hworth⟩ := hpaid.opened hq hopened
        obtain rfl : id' = id := DataVault.index_inj hq hk' hk
        exact .inr ⟨n,hn,hworth⟩
  · exact .inl rfl

/-- A save whose weight is paid for writes a row that is. -/
theorem StoreInv.save (hq : q.Ideal) {stringify : Val → Bytes} {e : PostSave}
    (h : StoreInv q vault ledger s) (he : SaveEarned ledger e)
    (hs : saveStep q w fmt s (savedPost stringify e) = some s') :
    StoreInv q vault ledger s' := by
  cases hs
  have hspec : Program.Ensures s (IndexedDBStore.save q w fmt (savedPost stringify e))
      (fun _ => StoreInv q vault ledger) (StoreInv q vault ledger) := by
    refine (ensures_save h.unlocked (savedPost stringify e)).mono ?_ ?_
    · intro _ t ⟨hv,_,hrow⟩
      refine ⟨hv.trans h.unlocked,h.isOpen,?_⟩
      split at hrow
      · obtain ⟨k,row,hwrote⟩ := hrow
        obtain ⟨id,n,hid,hn,hworth⟩ := he
        have htarget : targetThreadId (savedPost stringify e) = .str id := hid
        have hk : vault.index q "thread" id = .ok k := by
          have hkey := hwrote.key
          unfold statsKey at hkey
          rw [htarget] at hkey
          exact hkey
        obtain ⟨existing,maxPow,createdAt,lastUpdated,hexisting,hmax,hsealed⟩ := hwrote.sealed
        obtain ⟨current,hcurrent,hmax⟩ := bind_ok hmax
        obtain ⟨incoming,hincoming,hmax⟩ := bind_ok hmax
        cases hmax
        have hold := toNumber_worth (existing_worth hq h hk hexisting) hcurrent
        have hnew : incoming = n := by
          have hweight : (Val.num n).toNumber = .ok incoming := hn ▸ hincoming
          exact (Except.ok.inj hweight).symm
        intro e' he'
        rw [hwrote.ethreads] at he'
        rcases JsMap.mem_set he' with rfl | he'
        · refine ⟨id,_,_,hk,hsealed,htarget,rfl,?_⟩
          exact hold.max (hnew ▸ hid ▸ hworth)
        · exact h.rows e' he'
      · rw [hrow]
        exact h.rows
    · intro t hk
      exact ⟨hk.vault.trans h.unlocked,h.isOpen,hk.ethreads ▸ h.rows⟩
  exact hspec.state rfl

theorem mem_mapM_ok {α β : Type} {f : α → Except Thrown β} {xs : List α} {ys : List β}
    (h : xs.mapM f = .ok ys) : ∀ y ∈ ys, ∃ x ∈ xs, f x = .ok y := by
  induction xs generalizing ys with
  | nil =>
    cases h
    intro y hy
    cases hy
  | cons x xs ih =>
    rw [List.mapM_cons] at h
    obtain ⟨z,hz,h⟩ := bind_ok h
    obtain ⟨zs,hzs,h⟩ := bind_ok h
    cases h
    intro y hy
    rcases List.mem_cons.mp hy with rfl | hy
    · exact ⟨x,List.mem_cons_self,hz⟩
    · obtain ⟨x',hx',hy'⟩ := ih hzs y hy
      exact ⟨x',List.mem_cons_of_mem x hx',hy'⟩

/-- What a board reads was opened from a row. -/
theorem shownThreads_mem (h : StoreInv q vault ledger s) {boardId : String} {rows : List Val}
    (hr : shownThreads q s boardId = .ok rows) :
    ∀ r ∈ rows, ∃ e ∈ s.db.ethreads,
      vault.openRecord q e.2.blob (threadPlace e.1) = .ok (some r) := by
  cases ho : s.opened with
  | false =>
    rw [shownThreads_closed ho] at hr
    cases hr
    intro r hmem
    cases hmem
  | true =>
    obtain ⟨b,hb⟩ := DataVault.index_ok h.isOpen "board" boardId
    rw [shownThreads_eq h.unlocked h.isOpen ho hb] at hr
    obtain ⟨opened,hm,hr⟩ := bind_ok hr
    cases hr
    intro r hmem
    obtain ⟨o,hopened,hsome⟩ := List.mem_filterMap.mp (List.mem_filter.mp hmem).1
    obtain ⟨e,he,hopen⟩ := mem_mapM_ok hm o hopened
    cases hsome
    have hrow := (List.mergeSort_perm _ _).subset he
    exact ⟨e,(List.mem_filter.mp hrow).1,hopen⟩

theorem rowWorth_rowOf (hq : q.Ideal) (h : StoreInv q vault ledger s) {boardId : String}
    {rows : List Val} (hr : shownThreads q s boardId = .ok rows) :
    ∀ r ∈ rows.map rowOf, RowWorth ledger r := by
  intro r hr'
  obtain ⟨stats,hstats,rfl⟩ := List.mem_map.mp hr'
  obtain ⟨e,he,hopen⟩ := shownThreads_mem h hr stats hstats
  obtain ⟨id,n,-,hid,hn,hworth⟩ := (h.rows e he).opened hq hopen
  simpa [RowWorth,rowOf,numberOr,hid,hn] using hworth

end Store

structure Inv (q : Storage.Primitives) (vault : Storage.DataVault) (s : State) : Prop where
  board : BoardInv s.ledger s.board
  thread : ThreadInv s.ledger s.thread
  stores : ∀ store ∈ s.store :: s.past, StoreInv q vault s.ledger store

section Runs
variable {sha256 : Bytes → Bytes} {p : Primitives} {loc : ThreadDAGManager.JsLocale}
  {deriveThreadKey : Bytes → String → Bytes} {q : Storage.Primitives} {w : Storage.World}
  {stringify : Val → Bytes} {vault : Storage.DataVault} {s s' : State}

theorem boardInv_empty (ledger : List Built) : BoardInv ledger {} := by
  refine ⟨fun e he => ?_,fun e he => ?_,fun e he => ?_,fun e he => ?_⟩ <;> cases he

theorem threadInv_empty (ledger : List Built) : ThreadInv ledger {} := by
  refine ⟨rfl,fun e he => ?_,fun e he => ?_,fun e he => ?_⟩ <;> cases he

/-- More work backs everything it did before. -/
theorem Inv.grows (h : Inv q vault s) {ledger : List Built} (hg : Grows s.ledger ledger) :
    Inv q vault { s with ledger := ledger } :=
  ⟨h.board.grows hg,h.thread.grows hg,fun store hm => (h.stores store hm).grows hg⟩

theorem PacketEarned.grows {ledger ledger' : List Built} {c : BoardOrchestrator.PacketCall}
    (h : PacketEarned p ledger c) (hg : Grows ledger ledger') : PacketEarned p ledger' c := by
  intro post hpost htype
  obtain ⟨hown,htarget⟩ := h post hpost htype
  exact ⟨hown.grows hg,htarget.grows hg⟩

theorem PostEarned.grows {ledger ledger' : List Built} {dag : ThreadDAGManager.DAG _}
    {c : ThreadOrchestrator.PacketCall} (h : PostEarned p ledger dag c)
    (hg : Grows ledger ledger') : PostEarned p ledger' dag c := by
  intro post hpost hown hnew
  obtain ⟨hthread,hroot⟩ := h post hpost hown hnew
  exact ⟨hthread.grows hg,hroot.grows hg⟩

theorem boardInput_of_honest {a : BoardOrchestrator.Action} (hopen : isOpen a = true)
    (hG : Honest p s (.board a)) {ledger : List Built}
    (hl : enterOwn s.ledger (boardBuilt s.board a) = some ledger) :
    BoardInput p ledger s.board a := by
  obtain ⟨hg,hown⟩ := enterOwn_cases hl
  refine ⟨?_,?_,?_,?_⟩
  · intro i env c ha hc
    subst ha
    have hearned : PacketEarned p s.ledger c := by
      simp only [Honest,hc] at hG
      exact hG
    exact hearned.grows hg
  · intro i stored env ha
    subst ha
    cases hopen
  · intro i packet env boardId key title threadId ha hc
    subst ha
    have hbuilt : boardBuilt s.board (.resume i (.packet packet) env) =
        some ⟨packet,.str threadId⟩ := by simp [boardBuilt,hc]
    have htotal := hown _ hbuilt _ rfl
    omega
  · intro boardId key title threadId ha
    subst ha
    exact of_decide_eq_true hopen

theorem threadInput_of_honest {a : ThreadOrchestrator.Action} (h : Inv q vault s)
    (hG : Honest p s (.thread a)) {ledger : List Built}
    (hl : enterOwn s.ledger (threadBuilt s.thread a) = some ledger) :
    ThreadInput p ledger s.thread a := by
  obtain ⟨hg,hown⟩ := enterOwn_cases hl
  refine ⟨?_,?_,?_⟩
  · intro i env c ha hc
    subst ha
    have hearned : PostEarned p s.ledger s.thread.dag c := by
      simp only [Honest,hc] at hG
      exact hG
    exact hearned.grows hg
  · intro text id ha hid
    subst ha
    cases hl
    exact hG id hid
  · intro i packet env target text tips weight ha hc
    subst ha
    have hbuilt : threadBuilt s.thread (.resume i (.packet packet) env) =
        some ⟨packet,.str target.threadId⟩ := by simp [threadBuilt,hc]
    have htotal := hown _ hbuilt _ rfl
    have hcont := h.thread.pending _ (List.mem_of_getElem? hc)
    refine ⟨?_,hcont.earned (by omega)⟩
    simp only [Honest,hc] at hG
    exact hG

theorem saveEarned_of_saveCall (h : Inv q vault s) {fromThread : Bool} {i : Nat} {e : PostSave}
    (he : saveCall s fromThread i = some e) : SaveEarned s.ledger e := by
  unfold saveCall at he
  split at he
  · obtain ⟨e',he',rfl⟩ := Option.map_eq_some_iff.mp he
    exact h.thread.saves e' (List.mem_of_getElem? he')
  · exact h.board.saves e (List.mem_of_getElem? he)

theorem Inv.step (hq : q.Ideal) (s : State) (a : Action) (s' : State) (h : Inv q vault s)
    (hG : Honest p s a)
    (hs : step sha256 p loc deriveThreadKey q w stringify s a = some s') : Inv q vault s' := by
  cases a with
  | build packet key now =>
    obtain ⟨b,-,hs⟩ := Option.bind_eq_some_iff.mp hs
    obtain ⟨-,hs⟩ := Option.ite_none_right_eq_some.mp hs
    cases hs
    exact h.grows (grows_cons b s.ledger)
  | board a =>
    obtain ⟨hopen,hs⟩ := Option.ite_none_right_eq_some.mp hs
    obtain ⟨ledger,hl,hs⟩ := Option.bind_eq_some_iff.mp hs
    obtain ⟨board,hboard,hs⟩ := Option.bind_eq_some_iff.mp hs
    cases hs
    have hnext := h.grows (enterOwn_cases hl).1
    exact ⟨hnext.board.step (boardInput_of_honest hopen hG hl) hboard,hnext.thread,hnext.stores⟩
  | thread a =>
    obtain ⟨ledger,hl,hs⟩ := Option.bind_eq_some_iff.mp hs
    obtain ⟨thread,hthread,hs⟩ := Option.bind_eq_some_iff.mp hs
    cases hs
    have hnext := h.grows (enterOwn_cases hl).1
    exact ⟨hnext.board,hnext.thread.step (threadInput_of_honest h hG hl) hthread,hnext.stores⟩
  | readStats i k boardId env =>
    obtain ⟨store,hstore,hs⟩ := Option.bind_eq_some_iff.mp hs
    obtain ⟨rows,hrows,hs⟩ := Option.bind_eq_some_iff.mp hs
    obtain ⟨board,hboard,hs⟩ := Option.bind_eq_some_iff.mp hs
    cases hs
    have hshown : Storage.IndexedDBStore.shownThreads q store boardId = .ok rows := by
      cases hr : Storage.IndexedDBStore.shownThreads q store boardId with
      | ok rows' =>
        rw [hr] at hrows
        cases hrows
        rfl
      | error e =>
        rw [hr] at hrows
        cases hrows
    have hinput : BoardInput p s.ledger s.board (.resume i (.threadRows (rows.map rowOf)) env) := by
      refine ⟨fun _ _ _ ha => ?_,fun _ _ _ ha => ?_,fun _ _ _ _ _ _ _ ha => ?_,
        fun _ _ _ _ ha => ?_⟩
      · cases ha
      · cases ha
        exact rowWorth_rowOf hq (h.stores store (List.mem_of_getElem? hstore)) hshown
      · cases ha
      · cases ha
    exact ⟨h.board.step hinput hboard,h.thread,h.stores⟩
  | save fromThread i =>
    obtain ⟨e,he,hs⟩ := Option.bind_eq_some_iff.mp hs
    obtain ⟨store,hstore,hs⟩ := Option.bind_eq_some_iff.mp hs
    cases hs
    have hsaved := (h.stores s.store List.mem_cons_self).save hq (saveEarned_of_saveCall h he) hstore
    exact ⟨h.board,h.thread,List.forall_mem_cons.mpr ⟨hsaved,h.stores⟩⟩
  | restart =>
    cases hs
    exact ⟨boardInv_empty s.ledger,threadInv_empty s.ledger,h.stores⟩

theorem Inv.backed (hq : q.Ideal) (h : Inv q vault s) : Backed q vault s := by
  refine ⟨h.board.snapshot,fun e he stats hstats => ?_⟩
  obtain ⟨id,n,-,hid,hn,hworth⟩ := ((h.stores s.store List.mem_cons_self).rows e he).opened hq hstats
  exact ⟨n,hn,hid ▸ hworth⟩

/-- Before the first packet. -/
def opened (store : Storage.Session) : State := { store := store }

/-- While every step is honest, all weights that are shown or stored are paid for. -/
theorem weights_backed (hq : q.Ideal) {store : Storage.Session}
    (hv : store.vault = some vault) (hopen : vault.isOpen = true)
    (hempty : store.db.ethreads = []) {as : List Action}
    (hr : Machine.run (step sha256 p loc deriveThreadKey q w stringify) (opened store) as = some s)
    (hG : Machine.Along (step sha256 p loc deriveThreadKey q w stringify) (Honest p)
      (opened store) as) : Backed q vault s := by
  have hstart : Inv q vault (opened store) := by
    refine ⟨boardInv_empty _,threadInv_empty _,fun st hst => ?_⟩
    rw [List.mem_singleton.mp hst]
    refine ⟨hv,hopen,fun e he => ?_⟩
    have hnone : e ∈ ([] : JsMap String Storage.ThreadRow) := hempty ▸ he
    cases hnone
  exact (Machine.invariant_run (Inv.step hq) hstart hG hr).backed hq

end Runs

section Samples

def isEarned (ledger : List Built) : Val → Val → Bool
  | .num (.fin r),.str t => decide (r ≤ total ledger (.str t))
  | _,_ => false

theorem earned_of_isEarned {ledger : List Built} {weight threadId : Val}
    (h : isEarned ledger weight threadId = true) : Earned ledger weight threadId := by
  unfold isEarned at h
  split at h
  · next r t => exact ⟨t,.fin r,rfl,rfl,r,rfl,of_decide_eq_true h⟩
  · cases h

/-- `Honest` where no reply is written, for every packet that opens. -/
def isHonest (p : Primitives) (s : State) : Action → Bool
  | .board (.resume i .done _) =>
    match s.board.pending[i]? with
    | some (.decrypted c) =>
      match verifyAndDecrypt p c.packet c.key with
      | .ok (some post) => isEarned s.ledger (weightOf post) post.threadId &&
          isEarned s.ledger (weightOf post) (orElse post.threadId (.str boardMetaThreadId))
      | _ => true
    | _ => true
  | .thread (.resume i .done _) =>
    match s.thread.pending[i]? with
    | some (.decrypted c) =>
      match verifyAndDecrypt p c.packet c.target.key with
      | .ok (some post) => isEarned s.ledger (weightOf post) post.threadId &&
          isEarned s.ledger (weightOf post) (orElse post.threadRoot (.str c.target.threadId))
      | _ => true
    | _ => true
  | .thread (.submitReply _) | .thread (.resume _ (.packet _) _) => false
  | _ => true

theorem honest_of_isHonest {p : Primitives} (s : State) (a : Action)
    (h : isHonest p s a = true) : Honest p s a := by
  unfold isHonest at h
  split at h
  · next i env =>
    simp only [Honest]
    split
    · next c hc =>
      intro post hpost _
      rw [hc] at h
      simp only [hpost,Bool.and_eq_true] at h
      exact ⟨earned_of_isEarned h.1,earned_of_isEarned h.2⟩
    · trivial
  · next i env =>
    simp only [Honest]
    split
    · next c hc =>
      intro post hpost _ _
      rw [hc] at h
      simp only [hpost,Bool.and_eq_true] at h
      exact ⟨earned_of_isEarned h.1,earned_of_isEarned h.2⟩
    · trivial
  · cases h
  · cases h
  · next hboard hthread hreply hbuilt =>
    unfold Honest
    split
    · next i env => exact absurd rfl (hboard i env)
    · next i env => exact absurd rfl (hthread i env)
    · next text => exact absurd rfl (hreply text)
    · next i packet env => exact absurd rfl (hbuilt i packet env)
    · trivial

/-- `sample`, with a thread that the sample store has a row for, and a weight. -/
def weighing (weight : Rat) : Primitives :=
  { sample with decode := fun v => match v with
    | .bytes [3] => some (.obj [
        ("content",.str "text"),("thread_id",.str "T"),("created_at",.num (.fin 60000)),
        ("parents",.arr []),("cumulative_pow",.num (.fin weight))])
    | v => sample.decode v }

/-- A packet with the work that the network asks for. -/
def minedPacket (packetId : String) (powNonce : Nat) (payload : Bytes) : Val := .obj [
  ("packet_id",.str packetId),
  ("hop_count",.num (Number.ofNat 0)),
  ("pow_nonce",.num (Number.ofNat powNonce)),
  ("pow_difficulty",.num (Number.ofNat 12)),
  ("timestamp",.num (Number.ofNat 60000)),
  ("zone_id",.num (Number.ofNat 0)),
  ("nonce",.bytes (List.replicate 12 0)),
  ("payload",.bytes payload)]

/-- The creation of the thread, under the key of the board. -/
def creation : Val :=
  minedPacket "514b8c9511d864d43dbdb5e6b8d2d16af6659ec22700d1ad35c29c6483ecc8ed" 208
    ([10] ++ magic ++ [1])

/-- A post in the thread, under its key. -/
def posted : Val :=
  minedPacket "0e355493cc9844c48d1d017f6aa9a2b8d1d033935c22d8faed0343dcb444460a" 3979 ([10,1] ++ magic ++ [2])

def sampleStep (p : Primitives) : State → Action → Option State :=
  step Sha256.sha256 p ThreadDAGManager.sampleLocale ThreadOrchestrator.sampleThreadKey
    Storage.IndexedDBStore.StatsSample.primitives Storage.sampleWorld fun _ => []

/-- The post is saved, and the board lists the thread with what its row has. -/
def savedRun : List Action := [
  .build creation [10] 60000,
  .build posted [10,1] 60000,
  .thread (.activate "A" "T" [10]),
  .thread (.gossip posted),
  .thread (.resume 1 .done {}),
  .save true 0,
  .board (.activate "A" [10]),
  .board (.gossip creation),
  .board (.resume 1 .done {}),
  .readStats 1 0 "A" {}]

theorem weights_backed_savedRun : ∃ s,
    Machine.run (sampleStep (weighing 12)) (opened Storage.IndexedDBStore.StatsSample.start)
      savedRun = some s ∧
      (s.board.snapshot.length = 1 ∧ s.store.db.ethreads.length = 1) ∧
      Backed Storage.IndexedDBStore.StatsSample.primitives
        Storage.IndexedDBStore.StatsSample.vault s := by
  have hlengths : (Machine.run (sampleStep (weighing 12))
      (opened Storage.IndexedDBStore.StatsSample.start) savedRun).map
        (fun s => decide (s.board.snapshot.length = 1 ∧ s.store.db.ethreads.length = 1)) =
          some true := by decide +kernel
  have hG : Machine.Along (sampleStep (weighing 12)) (Honest (weighing 12))
      (opened Storage.IndexedDBStore.StatsSample.start) savedRun :=
    Machine.along_of_check honest_of_isHonest (by decide +kernel)
  obtain ⟨s,hr,hs⟩ := Option.map_eq_some_iff.mp hlengths
  exact ⟨s,hr,of_decide_eq_true hs,
    weights_backed Storage.IndexedDBStore.StatsSample.ideal rfl rfl rfl hr hG⟩

/-- One packet, with the work that the network asks for and any weight. -/
def boastfulRun : List Action := [
  .build creation [10] 60000,
  .board (.activate "A" [10]),
  .board (.gossip creation),
  .board (.resume 1 .done {}),
  .readStats 1 0 "A" {}]

theorem weights_not_backed : ¬∀ (as : List Action) (s : State),
    Machine.run (sampleStep (weighing 1000000))
      (opened Storage.IndexedDBStore.StatsSample.start) as = some s →
    Backed Storage.IndexedDBStore.StatsSample.primitives
      Storage.IndexedDBStore.StatsSample.vault s := by
  intro h
  have hrun : (Machine.run (sampleStep (weighing 1000000))
      (opened Storage.IndexedDBStore.StatsSample.start) boastfulRun).map
        (fun s => (s.board.snapshot.map fun t => (t.maxPow,total s.ledger t.post.threadId))) =
          some [(.fin 1000000,12)] := by decide +kernel
  obtain ⟨s,hr,hs⟩ := Option.map_eq_some_iff.mp hrun
  have hshown := (h boastfulRun s hr).shown
  obtain ⟨t,ht,hpair⟩ := List.map_eq_singleton_iff.mp hs
  obtain ⟨hpow,htotal⟩ := Prod.ext_iff.mp hpair
  obtain ⟨r,hr,hle⟩ := hshown t (by simp [ht])
  cases hpow.symm.trans hr
  rw [show total s.ledger t.post.threadId = 12 from htotal] at hle
  norm_num at hle

end Samples

end ThreadWeight
