import AetherLite.Logic.ThreadOrchestrator
import AetherLite.Logic.ThreadOrder

/-! The snapshot of the open thread, when every post that entered it can be ordered. -/
set_option autoImplicit false

namespace ThreadDAGManager

open Js Js.Val

section
variable {ω : Type}

/-- A post of the list names another value as its parent. -/
def Names (posts : List (DAGPost ω)) (parent child : Val) : Prop :=
  ∃ n ∈ posts, n.packetId = child ∧ ∃ ps, elementsOf n.post.parents = .ok ps ∧ parent ∈ ps

def NoCycle (posts : List (DAGPost ω)) : Prop := ∀ id, ¬Relation.TransGen (Names posts) id id

theorem noCycle_of_rank {posts : List (DAGPost ω)} (rank : Val → Nat)
    (h : ∀ parent child, Names posts parent child → rank parent < rank child) : NoCycle posts := by
  have hlt : ∀ a b, Relation.TransGen (Names posts) a b → rank a < rank b := by
    intro a b hab
    induction hab with
    | single hab => exact h _ _ hab
    | tail _ hbc ih => exact ih.trans (h _ _ hbc)
  exact fun id hid => absurd (hlt id id hid) (lt_irrefl _)

/-- The posts that the DAG does not have, of its thread. -/
def IsNew (d : DAG ω) (n : DAGPost ω) : Prop :=
  JsMap.has d.nodes n.packetId = false ∧ n.post.threadId.strictEq (.str d.threadId) = true

theorem isNew_of_addPost {d d' : DAG ω} {n : DAGPost ω} (h : addPost d n = some d') :
    IsNew d n := by
  unfold addPost at h
  split at h
  · cases h
  next hhas =>
  split at h
  · cases h
  next hthread =>
  exact ⟨by simpa using hhas,by simpa using hthread⟩

theorem acyclic_of_noCycle {d : DAG ω} (hd : Keyed d) (h : NoCycle (JsMap.values d.nodes)) :
    Acyclic d := by
  have hnames : ∀ p c, c ∈ ids d ∧ p ∈ parentsOf d c → Names (JsMap.values d.nodes) p c := by
    intro p c ⟨_,hp⟩
    unfold parentsOf at hp
    split at hp
    · cases hp
    next n hn =>
    cases hv : validParents d n with
    | error e =>
      rw [hv] at hp
      cases hp
    | ok held =>
      rw [hv] at hp
      obtain ⟨ps,hps,hf⟩ := bind_ok hv
      rw [← Except.ok.inj hf] at hp
      exact ⟨n,JsMap.get_mem_values hn,(packetId_of_get hd hn).1,ps,hps,(List.mem_filter.mp hp).1⟩
  exact fun id hid => h id (Relation.TransGen.mono hnames id id hid)

theorem Sound.addPost {loc : JsLocale} {d d' : DAG ω} {n : DAGPost ω} (h : Sound loc d)
    (ha : ThreadDAGManager.addPost d n = some d') (hn : Sortable loc n)
    (hc : NoCycle (JsMap.values d.nodes ++ [n])) : Sound loc d' := by
  have hkeyed := h.toKeyed.addPost ha
  refine ⟨hkeyed,fun m hm => ?_,acyclic_of_noCycle hkeyed ?_⟩
  · rcases mem_of_addPost ha hm with rfl | hm
    · exact hn
    · exact h.sortable m hm
  · rw [values_of_addPost ha]
    exact hc

theorem sound_empty (loc : JsLocale) (threadId : String) :
    Sound loc ({ threadId := threadId } : DAG ω) := by
  have hkeyed : Keyed ({ threadId := threadId } : DAG ω) := by
    refine ⟨fun e he => ?_,List.Pairwise.nil⟩
    cases he
  refine ⟨hkeyed,fun n hn => ?_,acyclic_of_noCycle hkeyed ?_⟩
  · cases hn
  · refine noCycle_of_rank (fun _ => 0) fun parent child hnames => ?_
    obtain ⟨n,hn,-⟩ := hnames
    cases hn

end

end ThreadDAGManager

namespace ThreadOrchestrator

open Js PacketBuilder ThreadDAGManager Logic

/-- The fields have the types they are declared with. -/
structure WellFormed (n : DAGPost Origin) : Prop where
  packetId : ∃ id, n.packetId = .str id
  content : ∃ text, n.post.content = .str text
  createdAt : ∃ time, n.post.createdAt = .num (.fin time)
  parents : ∃ ps : List String, n.post.parents = .arr (ps.map .str)

section
variable (p : Primitives) (loc : JsLocale)

/-- The order exists, and what is shown has every well-formed post that was taken. -/
structure Intact (s : State) : Prop where
  sorts : throws (getSortedPosts loc s.dag) = false
  shown : ∀ n ∈ JsMap.values s.dag.nodes, WellFormed n → n ∈ s.snapshot

/-- If the DAG takes the post, it can be ordered with the others. -/
def Orderly (s : State) (n : DAGPost Origin) : Prop :=
  IsNew s.dag n → Sortable loc n ∧ NoCycle (JsMap.values s.dag.nodes ++ [n])

def IsPostOf (target : Target) (post : Post) : Prop :=
  post.threadId.strictEq (.str target.threadId) = true ∧
    post.postType.strictEq (.num (.fin 0)) = true

/-- The post that a continuation is about to add, decrypted or written here, is orderly. -/
def Wholesome (s : State) (a : Action) : Prop :=
  match a with
  | .resume i result _ =>
    match s.pending[i]?,result with
    | some (.decrypted c),.done =>
      ∀ post, verifyAndDecrypt p c.packet c.target.key = .ok (some post) →
        IsPostOf c.target post → Orderly loc s (dagPostOf c post)
    | some (.built target text tips nextWeight),.packet packet =>
      Orderly loc s (replyPost s target text tips nextWeight packet)
    | _,_ => True
  | _ => True

/-- The snapshot is the order of a DAG that has one. -/
structure Settled (s : State) : Prop where
  sound : Sound loc s.dag
  snapshot : getSortedPosts loc s.dag = .ok s.snapshot

end

section
variable {p : Primitives} {loc : JsLocale} {deriveThreadKey : Bytes → String → Bytes}
  {s s' : State}

theorem Settled.intact (h : Settled loc s) : Intact loc s := by
  obtain ⟨posts,hposts,hall⟩ := getSortedPosts_complete h.sound
  have hshown : posts = s.snapshot := Except.ok.inj (hposts.symm.trans h.snapshot)
  exact ⟨by simp [hposts],fun n hn _ => hshown ▸ hall n hn⟩

theorem Settled.frame (h : Settled loc s) (hd : s'.dag = s.dag)
    (hs : s'.snapshot = s.snapshot) : Settled loc s' := by
  refine ⟨hd ▸ h.sound,?_⟩
  rw [hd,hs]
  exact h.snapshot

theorem Settled.empty {threadId : String} (hd : s.dag = { threadId := threadId })
    (hs : s.snapshot = []) : Settled loc s := by
  refine ⟨hd ▸ sound_empty loc threadId,?_⟩
  rw [hd,hs]
  rfl

theorem Settled.settle (h : Settled loc s) (c : PacketCall) : Settled loc (settle s c) := by
  have hv := sameView_settle s c
  exact h.frame hv.dag hv.snapshot

/-- After a post has entered a sound DAG, `notify` does not throw. -/
theorem Settled.notify {dag : DAG Origin} (hd : Sound loc dag) (hs : s.dag = dag) :
    ∃ s', notify loc s = some s' ∧ Settled loc s' := by
  obtain ⟨posts,hposts,-⟩ := getSortedPosts_complete hd
  rw [← hs] at hposts hd
  refine ⟨{ s with snapshot := posts },?_,hd,hposts⟩
  simp [ThreadOrchestrator.notify,hposts]

theorem Settled.resumeDecrypted (h : Settled loc s) {c : PacketCall}
    (hG : ∀ post, verifyAndDecrypt p c.packet c.target.key = .ok (some post) →
      IsPostOf c.target post → Orderly loc s (dagPostOf c post)) :
    Settled loc (resumeDecrypted p loc s c) := by
  unfold ThreadOrchestrator.resumeDecrypted
  cases hv : verifyAndDecrypt p c.packet c.target.key with
  | error e => exact h.settle c
  | ok o =>
    cases o with
    | none => exact h.settle c
    | some post =>
      dsimp only
      split
      · exact h.settle c
      next hpost =>
      have hown : IsPostOf c.target post := by simpa [IsPostOf] using hpost
      cases ha : ThreadDAGManager.addPost s.dag (dagPostOf c post) with
      | none => exact h.settle c
      | some dag =>
        obtain ⟨hn,hc⟩ := hG post hv hown (isNew_of_addPost ha)
        obtain ⟨t,ht,hsettled⟩ : ∃ t, ThreadOrchestrator.notify loc { s with dag := dag } = some t ∧
            Settled loc t := Settled.notify (h.sound.addPost ha hn hc) rfl
        simp only [ht]
        split
        · exact hsettled.settle c
        · exact hsettled.frame rfl rfl

theorem Settled.resumeBuilt (h : Settled loc s) {target : Target} {text : String}
    {tips : List Val} {nextWeight packet : Val}
    (hG : Orderly loc s (replyPost s target text tips nextWeight packet)) :
    Settled loc (resumeBuilt loc s target text tips nextWeight packet) := by
  unfold ThreadOrchestrator.resumeBuilt
  dsimp only
  cases ha : ThreadDAGManager.addPost s.dag (replyPost s target text tips nextWeight packet) with
  | none =>
    dsimp only
    unfold sendAnonymously
    split
    · exact h.frame rfl rfl
    · exact h
  | some dag =>
    obtain ⟨hn,hc⟩ := hG (isNew_of_addPost ha)
    obtain ⟨t,ht,hsettled⟩ : ∃ t, ThreadOrchestrator.notify loc { s with
        dag := dag, seenPacketIds := packet.field "packet_id" :: s.seenPacketIds } = some t ∧
          Settled loc t := Settled.notify (h.sound.addPost ha hn hc) rfl
    simp only [ht]
    exact hsettled.frame rfl rfl

theorem Settled.activate (h : Settled loc s) (boardId threadId : String) (boardKey : Bytes) :
    Settled loc (activate deriveThreadKey s boardId threadId boardKey) := by
  have hswitch : Settled loc (switchThread deriveThreadKey s boardId threadId boardKey) := by
    unfold switchThread
    split
    · exact h
    · exact .empty rfl rfl
  unfold ThreadOrchestrator.activate
  dsimp only
  split
  · exact hswitch.frame rfl rfl
  · refine hswitch.frame ?_ ?_
    · unfold listen
      split <;> rfl
    · unfold listen
      split <;> rfl

theorem settled_step (s : State) (a : Action) (s' : State) (h : Settled loc s)
    (hG : Wholesome p loc s a) (hs : step p loc deriveThreadKey s a = some s') :
    Settled loc s' := by
  have htake : ∀ rest, Settled loc { s with pending := rest } := fun rest => h.frame rfl rfl
  cases change_step hs with
  | quiet hq => exact h.frame hq.dag hq.snapshot
  | @decrypted _ _ _ rest ht =>
    simp only [Wholesome,Machine.takeTask_get ht] at hG
    exact (htake rest).resumeDecrypted hG
  | @built _ _ _ _ _ _ _ rest ht =>
    simp only [Wholesome,Machine.takeTask_get ht] at hG
    exact (htake rest).resumeBuilt hG
  | @sent _ _ _ _ _ rest ht =>
    unfold sendAnonymously
    split
    · exact h.frame rfl rfl
    · exact htake rest
  | cleared => exact .empty rfl rfl
  | activated boardId threadId boardKey => exact h.activate boardId threadId boardKey

/-- While only orderly posts enter the DAG, every post that has is shown. -/
theorem thread_intact {as : List Action}
    (hr : Machine.run (step p loc deriveThreadKey) {} as = some s)
    (hG : Machine.Along (step p loc deriveThreadKey) (Wholesome p loc) {} as) : Intact loc s :=
  (Machine.invariant_run settled_step (.empty rfl rfl) hG hr).intact

end

/-- `sample`, with a post whose time is null. -/
def poisonSample : Primitives :=
  { sample with decode := fun v => match v with
    | .bytes [4] => some (.obj [("post_type",.num (.fin 0)),("inner_payload",.bytes [5])])
    | .bytes [5] => some (.obj [
        ("content",.str "text"),("thread_id",.str "thread"),("created_at",.null),
        ("parents",.arr [])])
    | v => sample.decode v }

def orderedRun : List Action := [
  .activate "A" "thread" [10],
  .gossip (samplePacket [10,1] "p" 2),
  .resume 1 .done {},
  .submitReply "text",
  .resume 2 (.packet (samplePacket [10,1] "q" 2)) {}]

theorem thread_intact_orderedRun : ∃ s,
    Machine.run (step sample sampleLocale sampleThreadKey) {} orderedRun = some s ∧
      s.snapshot.length = 2 ∧ Intact sampleLocale s := by
  have hG : Machine.Along (step sample sampleLocale sampleThreadKey)
      (Wholesome sample sampleLocale) {} orderedRun := by
    refine ⟨trivial,fun t ht => ?_⟩
    cases ht
    refine ⟨trivial,fun t ht => ?_⟩
    cases ht
    refine ⟨fun post hpost _ _ => ?_,fun t ht => ?_⟩
    · cases hpost
      refine ⟨⟨rfl,rfl,rfl⟩,noCycle_of_rank (fun _ => 0) fun parent child hnames => ?_⟩
      obtain ⟨n,hn,-,ps,hps,hmem⟩ := hnames
      cases List.mem_singleton.mp hn
      cases hps
      cases hmem
    cases ht
    refine ⟨trivial,fun t ht => ?_⟩
    cases ht
    refine ⟨fun _ => ?_,fun t ht => trivial⟩
    -- the reply has the id "q" and names "p"
    refine ⟨⟨rfl,rfl,rfl⟩,noCycle_of_rank (fun v => if v == .str "q" then 1 else 0) ?_⟩
    intro parent child hnames
    obtain ⟨n,hn,rfl,ps,hps,hmem⟩ := hnames
    rcases List.mem_cons.mp hn with rfl | hn
    · cases hps
      cases hmem
    · cases List.mem_singleton.mp hn
      cases hps
      cases List.mem_singleton.mp hmem
      decide
  exact ⟨_,rfl,rfl,thread_intact (by rfl) hG⟩

/-- The post that was taken first cannot be compared with the next one. -/
def poisonedRun : List Action := [
  .activate "A" "thread" [10],
  .gossip (samplePacket [10,1] "poison" 4),
  .resume 1 .done {},
  .gossip (samplePacket [10,1] "p" 2),
  .resume 2 .done {}]

theorem thread_not_intact_poisonedRun : ¬∀ (as : List Action) (s : State),
    Machine.run (step poisonSample sampleLocale sampleThreadKey) {} as = some s →
      Intact sampleLocale s := by
  intro h
  have hs := (h poisonedRun _ rfl).sorts
  cases hs

end ThreadOrchestrator
