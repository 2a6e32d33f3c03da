import AetherLite.Logic.BoardBacking

/-! The weights of the open thread, which a reply adds to. -/
set_option autoImplicit false

namespace ThreadWeight

open Js Js.Val PacketBuilder Logic

section Thread
open ThreadOrchestrator ThreadDAGManager

/-- The weight that a reply was built with counts its own packet. -/
def ReplyCont (ledger : List Built) : Cont → Prop
  | .built target _ _ weight =>
    ∃ q : Rat, weight = .num (.fin q) ∧
      q ≤ (total ledger (.str target.threadId)+PowPolicy.networkDifficulty : Nat)
  | _ => True

def isReply : Cont → Bool
  | .built _ _ _ _ => true
  | _ => false

theorem replyCont_of_not_isReply {c : Cont} (h : isReply c = false) (ledger : List Built) :
    ReplyCont ledger c := by
  cases c with
  | built => cases h
  | _ => trivial

/-- The weights in the DAG are paid for in its thread, and so is what was saved. -/
structure ThreadInv (ledger : List Built) (t : ThreadOrchestrator.State) : Prop where
  thread : t.dag.threadId = t.currentThreadId.getD ""
  nodes : ∀ n ∈ JsMap.values t.dag.nodes,
    Earned ledger n.post.cumulativePow (.str t.dag.threadId)
  pending : ∀ c ∈ t.pending, ReplyCont ledger c
  saves : ∀ e ∈ t.saves, SaveEarned ledger e.2

/-- No reply was suspended. -/
def NoReply (t t' : ThreadOrchestrator.State) : Prop :=
  ∀ c ∈ t'.pending, c ∈ t.pending ∨ isReply c = false

theorem NoReply.refl (t : ThreadOrchestrator.State) : NoReply t t := fun _ hc => .inl hc

theorem noReply_suspend (t : ThreadOrchestrator.State) {c : Cont} (hc : isReply c = false) :
    NoReply t (suspend t c) := by
  intro d hd
  rcases List.mem_append.mp hd with hd | hd
  · exact .inl hd
  · exact .inr (List.mem_singleton.mp hd ▸ hc)

theorem noReply_settle (t : ThreadOrchestrator.State) (c : PacketCall) :
    NoReply t (settle t c) := by
  unfold settle
  split
  · exact noReply_suspend t rfl
  · exact .refl t

theorem noReply_enterPacket (t : ThreadOrchestrator.State) (c : PacketCall) :
    NoReply t (enterPacket t c) := by
  unfold enterPacket
  split
  · exact noReply_settle t c
  dsimp only
  split
  · exact noReply_settle t c
  · exact noReply_suspend _ rfl

theorem noReply_cacheLoop (t : ThreadOrchestrator.State) (target : Target) (env : Env)
    (rows : List PostRow) : NoReply t (cacheLoop t target env rows) := by
  induction rows with
  | nil =>
    unfold cacheLoop triggerInitialSync
    split
    · exact fun _ hc => .inl hc
    · exact .refl t
  | cons row rest ih =>
    unfold cacheLoop
    split
    · exact ih
    · exact noReply_enterPacket t _

theorem noReply_onHintBody (t : ThreadOrchestrator.State) (body : Bytes) (keyId : String) :
    NoReply t (onHintBody t body keyId) := by
  unfold onHintBody
  split
  · exact .refl t
  split
  · exact .refl t
  split
  · exact .refl t
  · exact noReply_enterPacket t _

theorem sameView_onHintBody (t : ThreadOrchestrator.State) (body : Bytes) (keyId : String) :
    SameView t (onHintBody t body keyId) := by
  unfold onHintBody
  split
  · exact .refl t
  split
  · exact .refl t
  split
  · exact .refl t
  · exact sameView_enterPacket t _

variable {ledger ledger' : List Built} {t t' : ThreadOrchestrator.State}

theorem ThreadInv.frame (h : ThreadInv ledger t) (hv : SameView t t') (hn : NoReply t t') :
    ThreadInv ledger t' := by
  refine ⟨by rw [hv.dag,hv.threadId,h.thread],fun n hm => ?_,fun c hc => ?_,hv.saves ▸ h.saves⟩
  · rw [hv.dag] at hm ⊢
    exact h.nodes n hm
  · rcases hn c hc with hc | hc
    · exact h.pending c hc
    · exact replyCont_of_not_isReply hc ledger

theorem ThreadInv.settle (h : ThreadInv ledger t) (c : PacketCall) : ThreadInv ledger (settle t c) :=
  h.frame (sameView_settle t c) (noReply_settle t c)

theorem ThreadInv.enterPacket (h : ThreadInv ledger t) (c : PacketCall) :
    ThreadInv ledger (enterPacket t c) :=
  h.frame (sameView_enterPacket t c) (noReply_enterPacket t c)

theorem ThreadInv.cacheLoop (h : ThreadInv ledger t) (target : Target) (env : Env)
    (rows : List PostRow) : ThreadInv ledger (cacheLoop t target env rows) :=
  h.frame (sameView_cacheLoop t target env rows) (noReply_cacheLoop t target env rows)

theorem ThreadInv.grows (h : ThreadInv ledger t) (hg : Grows ledger ledger') :
    ThreadInv ledger' t := by
  refine ⟨h.thread,fun n hn => (h.nodes n hn).grows hg,fun c hc => ?_,
    fun e he => (h.saves e he).grows hg⟩
  have hcont := h.pending c hc
  cases c with
  | built target text tips weight =>
    obtain ⟨r,hr,hle⟩ := hcont
    have hnat : total ledger (.str target.threadId)+PowPolicy.networkDifficulty ≤
        total ledger' (.str target.threadId)+PowPolicy.networkDifficulty := by
      have := hg (.str target.threadId)
      omega
    have hcast : ((total ledger (.str target.threadId)+PowPolicy.networkDifficulty : Nat) : Rat) ≤
        (total ledger' (.str target.threadId)+PowPolicy.networkDifficulty : Nat) := by
      exact_mod_cast hnat
    exact ⟨r,hr,hle.trans hcast⟩
  | _ => trivial

theorem ThreadInv.take (h : ThreadInv ledger t) {i : Nat} {c : Cont} {rest : List Cont}
    (ht : Machine.takeTask t.pending i = some (c,rest)) :
    ThreadInv ledger { t with pending := rest } ∧ ReplyCont ledger c := by
  have hmem := Machine.takeTask_mem ht
  exact ⟨⟨h.thread,h.nodes,fun d hd => h.pending d (hmem.2 d hd),h.saves⟩,h.pending c hmem.1⟩

theorem ThreadInv.suspend (h : ThreadInv ledger t) {c : Cont} (hc : ReplyCont ledger c) :
    ThreadInv ledger (suspend t c) := by
  refine ⟨h.thread,h.nodes,fun d hd => ?_,h.saves⟩
  rcases List.mem_append.mp hd with hd | hd
  · exact h.pending d hd
  · exact List.mem_singleton.mp hd ▸ hc

theorem ThreadInv.save (h : ThreadInv ledger t) {e : Origin × PostSave}
    (he : SaveEarned ledger e.2) : ThreadInv ledger { t with saves := e :: t.saves } := by
  refine ⟨h.thread,h.nodes,h.pending,fun f hf => ?_⟩
  rcases List.mem_cons.mp hf with rfl | hf
  · exact he
  · exact h.saves f hf

theorem ThreadInv.addPost (h : ThreadInv ledger t) {dag : DAG Origin} {n : DAGPost Origin}
    (ha : addPost t.dag n = some dag)
    (hn : Earned ledger n.post.cumulativePow (.str t.dag.threadId)) :
    ThreadInv ledger { t with dag := dag } := by
  have hid := (addPost_threadId ha).1
  refine ⟨hid.trans h.thread,fun m hm => ?_,h.pending,h.saves⟩
  change Earned ledger m.post.cumulativePow (.str dag.threadId)
  rw [hid]
  rcases mem_of_addPost ha hm with rfl | hm
  · exact hn
  · exact h.nodes m hm

theorem ThreadInv.notify {loc : JsLocale} (h : ThreadInv ledger t)
    (hn : notify loc t = some t') : ThreadInv ledger t' := by
  unfold ThreadOrchestrator.notify at hn
  split at hn
  · cases hn
    exact ⟨h.thread,h.nodes,h.pending,h.saves⟩
  · cases hn

theorem earned_orElse {weight threadId : Val} (h : Earned ledger weight threadId) :
    Earned ledger (orElse weight (.num (.fin 0))) threadId := by
  obtain ⟨id,n,hid,rfl,hworth⟩ := h
  by_cases hn : (Val.num n).truthy = true
  · exact ⟨id,n,hid,by simp [orElse,hn],hworth⟩
  · exact ⟨id,.fin 0,hid,by simp [orElse,hn],worth_zero ledger threadId⟩

section
variable {p : Primitives} {loc : JsLocale} {deriveThreadKey : Bytes → String → Bytes}

/-- What a decrypted packet would add to the DAG and to the store is paid for. -/
def PostEarned (p : Primitives) (ledger : List Built) (dag : DAG Origin) (c : PacketCall) : Prop :=
  ∀ post, verifyAndDecrypt p c.packet c.target.key = .ok (some post) → IsPostOf c.target post →
    IsNew dag (dagPostOf c post) →
      Earned ledger (weightOf post) post.threadId ∧
        Earned ledger (weightOf post) (orElse post.threadRoot (.str c.target.threadId))

theorem ThreadInv.resumeDecrypted (h : ThreadInv ledger t) {c : PacketCall}
    (he : PostEarned p ledger t.dag c) : ThreadInv ledger (resumeDecrypted p loc t c) := by
  unfold ThreadOrchestrator.resumeDecrypted
  cases hv : verifyAndDecrypt p c.packet c.target.key with
  | error e => exact h.settle c
  | ok o =>
    cases o with
    | none => exact h.settle c
    | some post =>
      dsimp only
      split
      · exact h.settle c
      next hpost =>
      have hown : IsPostOf c.target post := by simpa [IsPostOf] using hpost
      cases ha : ThreadDAGManager.addPost t.dag (dagPostOf c post) with
      | none => exact h.settle c
      | some dag =>
        obtain ⟨hthread,hroot⟩ := he post hv hown (isNew_of_addPost ha)
        have hid : post.threadId = .str t.dag.threadId := eq_of_strictEq (addPost_threadId ha).2
        have hadd := h.addPost ha (hid ▸ hthread)
        dsimp only
        cases hn : ThreadOrchestrator.notify loc { t with dag := dag } with
        | none => exact hadd.settle c
        | some t' =>
          dsimp only
          split
          · exact (hadd.notify hn).settle c
          · refine ((hadd.notify hn).save ?_).suspend trivial
            have hsave := earned_orElse hroot
            unfold SaveEarned
            rw [← orElse_idem post.threadRoot] at hsave
            exact hsave

/-- A reply is paid for when its own packet is. -/
theorem ReplyCont.earned {target : Target} {text : String} {tips : List Val} {weight : Val}
    (h : ReplyCont ledger (.built target text tips weight))
    (hg : total ledger (.str target.threadId)+PowPolicy.networkDifficulty ≤
      total ledger' (.str target.threadId)) :
    Earned ledger' weight (.str target.threadId) := by
  obtain ⟨q,hq,hle⟩ := h
  have hcast : ((total ledger (.str target.threadId)+PowPolicy.networkDifficulty : Nat) : Rat) ≤
      (total ledger' (.str target.threadId) : Nat) := by exact_mod_cast hg
  exact ⟨target.threadId,.fin q,rfl,hq,q,rfl,hle.trans hcast⟩

theorem ThreadInv.sendAnonymously (h : ThreadInv ledger t) (target : Target) :
    ThreadInv ledger (sendAnonymously t target) := by
  unfold ThreadOrchestrator.sendAnonymously
  split
  · exact ⟨h.thread,h.nodes,h.pending,h.saves⟩
  · exact h

theorem ThreadInv.resumeBuilt (h : ThreadInv ledger t) {target : Target} {text : String}
    {tips : List Val} {weight packet : Val}
    (ht : t.currentThreadId = none ∨ t.currentThreadId = some target.threadId)
    (hw : Earned ledger weight (.str target.threadId)) :
    ThreadInv ledger (resumeBuilt loc t target text tips weight packet) := by
  unfold ThreadOrchestrator.resumeBuilt
  dsimp only
  cases ha : ThreadDAGManager.addPost t.dag (replyPost t target text tips weight packet) with
  | none => exact h.sendAnonymously target
  | some dag =>
    have hid := eq_of_strictEq (addPost_threadId ha).2
    rcases ht with ht | ht
    · simp [replyPost,ht,optStr] at hid
    have hdag : target.threadId = t.dag.threadId := by simpa [replyPost,ht,optStr] using hid
    have hadd := h.addPost ha (hdag ▸ hw)
    have hseen : ThreadInv ledger { t with
        dag := dag, seenPacketIds := packet.field "packet_id" :: t.seenPacketIds } :=
      ⟨hadd.thread,hadd.nodes,hadd.pending,hadd.saves⟩
    dsimp only
    cases hn : ThreadOrchestrator.notify loc { t with
        dag := dag, seenPacketIds := packet.field "packet_id" :: t.seenPacketIds } with
    | none => exact hseen
    | some t' =>
      refine ((hseen.notify hn).save ?_).suspend trivial
      have hsame : t'.currentThreadId = some target.threadId := by
        unfold ThreadOrchestrator.notify at hn
        split at hn
        · cases hn
          exact ht
        · cases hn
      have hroot : orElse (.str target.threadId) (.str target.threadId) = .str target.threadId := by
        by_cases hne : (Val.str target.threadId).truthy = true <;> simp [orElse,hne]
      have hsave := earned_orElse hw
      rw [← hroot] at hsave
      simpa [SaveEarned,saveOf,replyPost,ht,hsame,optStr] using hsave

/-- The greatest weight of the DAG is paid for too. -/
theorem maxPowFrom_earned {threadId : Val} {posts : List (DAGPost Origin)}
    (h : ∀ n ∈ posts, Earned ledger n.post.cumulativePow threadId) {m : Rat} (h0 : 0 ≤ m)
    (hm : m ≤ total ledger threadId) :
    ∃ r : Rat, maxPowFrom loc (.num (.fin m)) posts = .ok (.num (.fin r)) ∧ 0 ≤ r ∧
      r ≤ total ledger threadId := by
  induction posts generalizing m with
  | nil => exact ⟨m,rfl,h0,hm⟩
  | cons n posts ih =>
    obtain ⟨hn,hposts⟩ := List.forall_mem_cons.mp h
    obtain ⟨_,_,_,hweight,w,rfl,hw⟩ := hn
    have hless : Val.lessThan loc.format (.num (.fin m)) (.num (.fin w)) =
        .ok ((Number.fin m).lt (.fin w)) := rfl
    unfold maxPowFrom
    rw [hweight,hless]
    by_cases hlt : m < w
    · simpa [bind,Except.bind,Number.lt,hlt] using ih hposts (h0.trans hlt.le) hw
    · simpa [bind,Except.bind,Number.lt,hlt] using ih hposts h0 hm

theorem ThreadInv.submitReply (h : ThreadInv ledger t) (text : String)
    (hb : ∀ id, t.currentThreadId = some id →
      total ledger (.str id)+PowPolicy.networkDifficulty ≤ 2^53) :
    ThreadInv ledger (submitReply loc t text) := by
  unfold ThreadOrchestrator.submitReply
  split
  · exact h
  next target htarget =>
  split
  · exact h
  have hid : t.currentThreadId = some target.threadId := by
    unfold openThread at htarget
    split at htarget
    · next c hc =>
      split at htarget
      · cases htarget
      cases htarget
      unfold current at hc
      split at hc
      · next hthread _ =>
        cases hc
        exact hthread
      · cases hc
    · cases htarget
  have hdag : t.dag.threadId = target.threadId := by rw [h.thread,hid,Option.getD_some]
  dsimp only
  split
  · next tips weight _ hweight =>
    refine h.suspend ?_
    obtain ⟨r,hr,h0,hle⟩ : ∃ r : Rat, getMaxCumulativePow loc t.dag = .ok (.num (.fin r)) ∧
        0 ≤ r ∧ r ≤ total ledger (.str t.dag.threadId) :=
      maxPowFrom_earned h.nodes le_rfl (by exact_mod_cast Nat.zero_le _)
    rw [hdag] at hle
    have hsum : r+PowPolicy.networkDifficulty ≤
        (total ledger (.str target.threadId)+PowPolicy.networkDifficulty : Nat) := by
      push_cast
      linarith
    obtain ⟨d,hd,-,hdle⟩ := Number.ofRat_le_nat (hb _ hid)
      (add_nonneg h0 (by exact_mod_cast Nat.zero_le _)) hsum
    refine ⟨d,?_,hdle⟩
    have hplus : Val.plus loc.format (.num (.fin r))
        (.num (Number.ofNat PowPolicy.networkDifficulty)) =
          .ok (.num (Number.ofRat (r+PowPolicy.networkDifficulty))) := rfl
    rw [hr] at hweight
    simp only [bind,Except.bind] at hweight
    rw [hplus,hd] at hweight
    exact (Except.ok.inj hweight).symm
  · exact h

/-- What the step of the thread gets from outside is paid for. -/
structure ThreadInput (p : Primitives) (ledger : List Built) (t : ThreadOrchestrator.State)
    (a : ThreadOrchestrator.Action) : Prop where
  decrypted : ∀ i env c, a = .resume i .done env → t.pending[i]? = some (.decrypted c) →
    PostEarned p ledger t.dag c
  reply : ∀ text id, a = .submitReply text → t.currentThreadId = some id →
    total ledger (.str id)+PowPolicy.networkDifficulty ≤ 2^53
  built : ∀ i packet env target text tips weight, a = .resume i (.packet packet) env →
    t.pending[i]? = some (.built target text tips weight) →
      (t.currentThreadId = none ∨ t.currentThreadId = some target.threadId) ∧
        Earned ledger weight (.str target.threadId)

theorem ThreadInv.resume (h : ThreadInv ledger t) {i : Nat} {c : Cont} {rest : List Cont}
    {result : Awaited} {env : Env} (hin : ThreadInput p ledger t (.resume i result env))
    (ht : Machine.takeTask t.pending i = some (c,rest))
    (hs : resume p loc { t with pending := rest } c result env = some t') :
    ThreadInv ledger t' := by
  obtain ⟨hrest,-⟩ := h.take ht
  have hget := Machine.takeTask_get ht
  unfold ThreadOrchestrator.resume at hs
  split at hs
  · cases hs
    exact hrest.resumeDecrypted (hin.decrypted _ _ _ rfl hget)
  · cases hs
    exact hrest.settle _
  · cases hs
    exact hrest.settle _
  · cases hs
    exact hrest.cacheLoop _ _ _
  · cases hs
    exact hrest.cacheLoop _ _ _
  · cases hs
    exact hrest.cacheLoop _ _ _
  · cases hs
    obtain ⟨hopen,hweight⟩ := hin.built _ _ _ _ _ _ _ rfl hget
    exact hrest.resumeBuilt hopen hweight
  · cases hs
    exact hrest
  · cases hs
    exact hrest.sendAnonymously _
  · cases hs
    exact hrest.sendAnonymously _
  · cases hs

theorem ThreadInv.clear (h : ThreadInv ledger t) : ThreadInv ledger (clear t) := by
  refine ⟨rfl,fun n hn => ?_,h.pending,h.saves⟩
  cases hn

theorem ThreadInv.activate (h : ThreadInv ledger t) (boardId threadId : String) (boardKey : Bytes) :
    ThreadInv ledger (activate deriveThreadKey t boardId threadId boardKey) := by
  have hswitch : ThreadInv ledger (switchThread deriveThreadKey t boardId threadId boardKey) := by
    unfold switchThread
    split
    · exact h
    · refine ⟨rfl,fun n hn => ?_,h.pending,h.saves⟩
      cases hn
  have hlisten : ∀ t' : ThreadOrchestrator.State, ThreadInv ledger t' → ∀ key,
      ThreadInv ledger (listen t' threadId key) := by
    intro t' ht' key
    unfold ThreadOrchestrator.listen
    split
    · exact ht'
    · exact ⟨ht'.thread,ht'.nodes,ht'.pending,ht'.saves⟩
  unfold ThreadOrchestrator.activate
  dsimp only
  split
  · exact ⟨hswitch.thread,hswitch.nodes,hswitch.pending,hswitch.saves⟩
  · refine (hlisten _ ?_ _).suspend trivial
    exact ⟨hswitch.thread,hswitch.nodes,hswitch.pending,hswitch.saves⟩

theorem ThreadInv.step (h : ThreadInv ledger t) {a : ThreadOrchestrator.Action}
    (hin : ThreadInput p ledger t a)
    (hs : ThreadOrchestrator.step p loc deriveThreadKey t a = some t') : ThreadInv ledger t' := by
  cases a with
  | activate boardId threadId boardKey =>
    cases hs
    exact h.activate boardId threadId boardKey
  | clear =>
    cases hs
    exact h.clear
  | gossip packet =>
    cases hs
    unfold onGossipPacket
    split
    · exact h.enterPacket _
    · exact h
  | hintBody body keyId =>
    cases hs
    exact h.frame (sameView_onHintBody t body keyId) (noReply_onHintBody t body keyId)
  | submitReply text =>
    cases hs
    exact h.submitReply text fun id hid => hin.reply text id rfl hid
  | peerConnect =>
    cases hs
    exact ⟨h.thread,h.nodes,h.pending,h.saves⟩
  | waitTimeout =>
    obtain ⟨-,hs⟩ := Option.ite_none_right_eq_some.mp hs
    rw [← Option.some.inj hs]
    exact ⟨h.thread,h.nodes,h.pending,h.saves⟩
  | resume i result env =>
    obtain ⟨⟨c,rest⟩,ht,hs⟩ := Option.bind_eq_some_iff.mp hs
    exact h.resume hin ht hs

end

end Thread

end ThreadWeight
