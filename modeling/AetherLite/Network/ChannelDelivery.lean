import AetherLite.Network.DataChannel

/-! What is sent comes out in the end, as long as few long messages are under way at once and the
chunks of each come in time. -/
set_option autoImplicit false

namespace DataChannel

open Js Wire ChunkedStream

/-- The long messages that have not arrived in full. -/
def underway (s : State) : List Outgoing := s.started.filter fun m => !done s m

/-- The receiver has a place for every long message, and gives none up. -/
def Kept (f : MsgPack.Float64) (s : State) : Action → Prop
  | .send type payload => ∀ data, WireCodec.encode f type payload = some data →
      data.length ≤ ChunkedReceiver.maxMessageBytes ∧ (data.length ≤ chunkSize ∨
        (underway s).length < ChunkedReceiver.maxPendingMessages)
  | .cleanup now => ∀ e ∈ s.pending, now-e.2.createdAt ≤ ChunkedReceiver.reassemblyTimeout
  | _ => True

/-- Nothing has been lost. -/
structure Full (f : MsgPack.Float64) (s : State) : Prop where
  inv : Inv f s
  upper : ∀ m ∈ s.started, m.data.length ≤ ChunkedReceiver.maxMessageBytes
  room : (underway s).length ≤ ChunkedReceiver.maxPendingMessages
  unfinished : ∀ id pm, JsMap.get s.pending id = some pm → ∀ m ∈ s.started, m.msgId = id →
    done s m = false
  held : ∀ m ∈ s.started, done s m = false → ∀ i < m.total, i ∉ left s m →
    ∃ pm, JsMap.get s.pending m.msgId = some pm ∧ i ∈ JsMap.keys pm.chunks
  handed : ∃ raws, s.handed = raws.map (WireCodec.decode (MsgPack.decode f)) ∧
    Accounts List.Perm s raws

section
variable {f : MsgPack.Float64} {s t : State} {m m' : Outgoing} {data : Bytes} {p : Parcel}
  {seq now : Nat}

theorem full_initial : Full f {} where
  inv := inv_initial
  upper m hm := by cases hm
  room := Nat.zero_le _
  unfinished _ _ h := by cases h
  held m hm := by cases hm
  handed := ⟨[],rfl,List.Perm.refl _⟩

theorem Full.long (h : Full f s) (hm : m ∈ s.started) : m.Long :=
  ⟨(h.inv.long m hm).1,h.upper m hm⟩

theorem Moved.full (hm : Moved s t) (h : Full f s) : Full f t where
  inv := hm.inv h.inv
  upper := hm.started ▸ h.upper
  room := by
    have heq : underway t = underway s := by
      rw [underway,underway,hm.started]
      exact List.filter_congr fun m _ => by rw [done_congr (hm.left m)]
    rw [heq]
    exact h.room
  unfinished id pm hget m hmem hid := by
    rw [hm.pending] at hget
    rw [done_congr (hm.left m)]
    exact h.unfinished id pm hget m (hm.started ▸ hmem) hid
  held m hmem hopen i hi hl := by
    rw [done_congr (hm.left m)] at hopen
    rw [hm.pending]
    exact h.held m (hm.started ▸ hmem) hopen i hi fun hl' => hl ((hm.left m).symm.subset hl')
  handed := by
    obtain ⟨raws,hraws,hperm⟩ := h.handed
    refine ⟨raws,hm.handed.trans hraws,?_⟩
    unfold Accounts at hperm ⊢
    rwa [hm.wholes,hm.shorts,hm.started,List.filter_congr fun m _ => done_congr (hm.left m)]

theorem full_short (h : Full f s) (hmark : data.head? ≠ some 0x00) : Full f (short s data) where
  inv := inv_short h.inv hmark
  upper := h.upper
  room := by
    rw [underway,done_short]
    exact h.room
  unfinished := by
    rw [done_short]
    exact h.unfinished
  held m hm := by
    rw [done_short,left_short]
    exact h.held m hm
  handed := by
    obtain ⟨raws,hraws,hperm⟩ := h.handed
    refine ⟨raws,hraws,?_⟩
    unfold Accounts at hperm ⊢
    rw [wholes_short,done_short,← List.append_assoc]
    exact (hperm.append_right [data]).trans (shorts_perm s data _).symm

theorem underway_start (h : Inv f s) (hm : m = ⟨s.msgCounter,data⟩) :
    (underway (State.pump m 0 m.total (start s data))).length ≤ (underway s).length+1 := by
  have hold : s.started.filter (fun m' => !done (State.pump m 0 m.total (start s data)) m') =
      underway s :=
    List.filter_congr fun m' hm' => by rw [done_congr ((left_start h hm).1 m' hm')]
  rw [underway,started_start hm,List.filter_append,List.length_append,hold]
  exact Nat.add_le_add_left (List.length_filter_le _ _) _

theorem full_start (h : Full f s) (hfew : s.msgCounter < 2^32) (hm : m = ⟨s.msgCounter,data⟩)
    (hlower : chunkSize < m.data.length) (hupper : m.data.length ≤ ChunkedReceiver.maxMessageBytes)
    (hroom : (underway s).length < ChunkedReceiver.maxPendingMessages) :
    Full f (State.pump m 0 m.total (start s data)) := by
  obtain ⟨hother,hown⟩ := left_start h.inv hm
  have hstarted := started_start hm
  have hcases : ∀ m' ∈ s.started ++ [m], m' ∈ s.started ∨ m' = m := by simp
  have hlt : m.total < 256^2 :=
    lt_of_le_of_lt (Outgoing.Long.total_le ⟨hlower,hupper⟩) (by decide)
  have hinv := inv_start h.inv hfew hm hlower hlt
  obtain ⟨b,k,-,-,heq⟩ := pump_eq m 0 m.total (start s data)
  have hpending : (State.pump m 0 m.total (start s data)).pending = s.pending := by
    rw [heq]
    rfl
  refine ⟨hinv,?_,(underway_start h.inv hm).trans hroom,fun id pm hget m' hm' hid => ?_,
    fun m' hm' hopen i hi hl => ?_,?_⟩
  · rw [hstarted]
    intro m' hm'
    rcases hcases m' hm' with hm' | rfl
    · exact h.upper m' hm'
    · exact hupper
  · rw [hpending] at hget
    obtain ⟨m'',hm'',hid',-⟩ := h.inv.entries id pm hget
    have hmem : m'' ∈ (State.pump m 0 m.total (start s data)).started := by
      rw [hstarted]
      exact List.mem_append_left _ hm''
    obtain rfl := List.inj_on_of_nodup_map hinv.ids hm' hmem (hid.trans hid'.symm)
    rw [done_congr (hother m' hm'')]
    exact h.unfinished id pm hget m' hm'' hid
  · rw [hpending]
    rcases hcases m' (hstarted ▸ hm') with hm' | rfl
    · rw [done_congr (hother m' hm')] at hopen
      exact h.held m' hm' hopen i hi fun hl' => hl ((hother m' hm').symm.subset hl')
    · refine absurd (hown.symm.subset ?_) hl
      simpa using hi
  · obtain ⟨raws,hraws,hperm⟩ := h.handed
    refine ⟨raws,by rw [heq]; exact hraws,?_⟩
    unfold Accounts at hperm ⊢
    rw [filter_done_start h.inv hm hlower,wholes,wholes_pump,heq]
    exact hperm

section Arrived

theorem Arrived.done_other (ha : Arrived s t p) (hne : p.chunkOf m = none) :
    DataChannel.done t m = DataChannel.done s m := by
  rw [DataChannel.done,DataChannel.done,ha.left m,hne]
  rfl

theorem Arrived.underway_le (ha : Arrived s t p) : (underway t).length ≤ (underway s).length := by
  rw [underway,underway,ha.started]
  refine (List.monotone_filter_right _ fun m hm => ?_).length_le
  cases hs : DataChannel.done s m with
  | false => rfl
  | true =>
    rw [ha.done hs] at hm
    cases hm

theorem full_arrive_whole {ps : List Parcel} (h : Full f s) (hf : s.flight = .whole data :: ps) :
    Full f (arrive f s (.whole data) ps now) := by
  have hinv : Inv f (arrive f s (.whole data) ps now) := inv_arrive_whole h.inv hf
  rw [arrive_eq (receive_frame_whole h.inv hf)] at hinv ⊢
  have ha := arrived_of (f := f) hf s.pending (some data)
  have hdone (m : Outgoing) := ha.done_other (m := m) rfl
  refine ⟨hinv,h.upper,ha.underway_le.trans h.room,fun id pm hget m hm hid => ?_,
    fun m hm hopen i hi hl => ?_,?_⟩
  · exact (hdone m).trans (h.unfinished id pm hget m hm hid)
  · rw [hdone m] at hopen
    refine h.held m hm hopen i hi ?_
    rw [ha.left m]
    exact hl
  · obtain ⟨raws,hraws,hperm⟩ := h.handed
    refine ⟨raws ++ [data],handed_arrived hraws ps _ _,?_⟩
    unfold Accounts at hperm ⊢
    rw [ha.wholes] at hperm
    rw [List.append_assoc,List.filter_congr fun m _ => hdone m]
    exact hperm

/-- The entry that a chunk comes to holds all that has arrived. -/
theorem Full.entry (h : Full f s) (hm : m ∈ s.started) (hopen : done s m = false) (now : Nat) :
    Holds m ((JsMap.get s.pending m.msgId).getD { totalChunks := m.total, createdAt := now }) ∧
      ∀ i < m.total, i ∈ JsMap.keys ((JsMap.get s.pending m.msgId).getD
        { totalChunks := m.total, createdAt := now }).chunks ↔ i ∉ left s m := by
  cases hget : JsMap.get s.pending m.msgId with
  | some pm =>
    obtain ⟨hholds,hkeys⟩ := h.inv.holds hm hget
    refine ⟨hholds,fun i hi => ⟨hkeys i,fun hl => ?_⟩⟩
    obtain ⟨pm',hget',hmem⟩ := h.held m hm hopen i hi hl
    obtain rfl := Option.some.inj (hget.symm.trans hget')
    exact hmem
  | none =>
    refine ⟨fresh_holds m now,fun i hi => ⟨fun hmem => (by cases hmem),fun hl => ?_⟩⟩
    obtain ⟨pm',hget',-⟩ := h.held m hm hopen i hi hl
    rw [hget] at hget'
    cases hget'

/-- There is a place for a message of which nothing has arrived. -/
theorem Full.room_new (h : Full f s) (hm : m ∈ s.started) (hopen : done s m = false)
    (hnone : JsMap.get s.pending m.msgId = none) :
    s.pending.length < ChunkedReceiver.maxPendingMessages := by
  have hnodup : (m.msgId :: JsMap.keys s.pending).Nodup :=
    List.nodup_cons.mpr ⟨(JsMap.get_eq_none_iff _ _).mp hnone,h.inv.keys⟩
  have hsub : m.msgId :: JsMap.keys s.pending ⊆ (underway s).map Outgoing.msgId := by
    intro id hid
    rcases List.mem_cons.mp hid with rfl | hid
    · exact List.mem_map_of_mem (List.mem_filter.mpr ⟨hm,by simp [hopen]⟩)
    · obtain ⟨x,hx,rfl⟩ := List.mem_map.mp hid
      have hget := JsMap.get_of_mem h.inv.keys hx
      obtain ⟨m',hm',hid',-⟩ := h.inv.entries x.1 x.2 hget
      have hopen' := h.unfinished x.1 x.2 hget m' hm' hid'
      rw [← hid']
      exact List.mem_map_of_mem (List.mem_filter.mpr ⟨hm',by simp [hopen']⟩)
  have hlen := (List.subperm_of_subset hnodup hsub).length_le
  have hroom := h.room
  simp only [List.length_cons,JsMap.keys,List.length_map] at hlen
  omega

/-- A message that is done counts from now on, and no other changes. -/
theorem Full.filter_done (h : Full f s) (ha : Arrived s t (.chunk m seq)) (hm : m ∈ s.started)
    (hdone : done t m = true) :
    (t.started.filter (done t)).Perm (m :: s.started.filter (done s)) := by
  refine List.Subperm.antisymm ?_ (h.inv.filter_done_cons ha hm hdone)
  refine List.subperm_of_subset ((ha.started ▸ h.inv.nodup_started).filter _) fun m' hm' => ?_
  obtain ⟨hmem,hd⟩ := List.mem_filter.mp hm'
  by_cases hne : m' = m
  · exact hne ▸ List.mem_cons_self
  · rw [ha.done_other (by simp [Parcel.chunkOf,Ne.symm hne])] at hd
    exact List.mem_cons_of_mem m (List.mem_filter.mpr ⟨ha.started ▸ hmem,hd⟩)

theorem chunkOf_other (hne : m' ≠ m) : Parcel.chunkOf m' (.chunk m seq) = none := by
  simp [Parcel.chunkOf,Ne.symm hne]

theorem Full.msgId_ne (h : Full f s) (hm' : m' ∈ s.started) (hm : m ∈ s.started) (hne : m' ≠ m) :
    m'.msgId ≠ m.msgId :=
  fun heq => hne (List.inj_on_of_nodup_map h.inv.ids hm' hm heq)

section Chunk
variable {ps : List Parcel} {pm : PendingMessage}

/-- The chunk that was missing: the entry goes, and the message is handed on. -/
theorem full_last (h : Full f s) (hf : s.flight = .chunk m seq :: ps) (hm : m ∈ s.started)
    (hinv : Inv f (arrived f s ps (JsMap.delete s.pending m.msgId) (some m.data)))
    (hdone : done (arrived f s ps (JsMap.delete s.pending m.msgId) (some m.data)) m = true) :
    Full f (arrived f s ps (JsMap.delete s.pending m.msgId) (some m.data)) := by
  have ha := arrived_of (f := f) hf (JsMap.delete s.pending m.msgId) (some m.data)
  obtain ⟨raws,hraws,hperm⟩ := h.handed
  refine ⟨hinv,h.upper,ha.underway_le.trans h.room,fun id x hget m' hm' hid => ?_,
    fun m' hm' hopen i hi hl => ?_,raws ++ [m.data],handed_arrived hraws ps _ _,?_⟩
  · rw [arrived_pending] at hget
    have hne : m' ≠ m := by
      rintro rfl
      rw [← hid,JsMap.get_delete_self] at hget
      cases hget
    rw [JsMap.get_delete_ne (hid ▸ h.msgId_ne hm' hm hne)] at hget
    rw [ha.done_other (chunkOf_other hne)]
    exact h.unfinished id x hget m' hm' hid
  · have hne : m' ≠ m := by
      rintro rfl
      rw [hdone] at hopen
      cases hopen
    rw [ha.done_other (chunkOf_other hne)] at hopen
    rw [arrived_pending,JsMap.get_delete_ne (h.msgId_ne hm' hm hne)]
    refine h.held m' hm' hopen i hi ?_
    rw [ha.left m',chunkOf_other hne]
    exact hl
  · have hwhole := ha.wholes
    unfold Accounts at hperm ⊢
    rw [hwhole] at hperm
    have hmore := ((h.filter_done ha hm hdone).map Outgoing.data).append_left s.shorts
    refine List.Perm.trans ?_ (hmore.trans List.perm_middle).symm
    rw [List.append_assoc]
    exact List.perm_middle.trans (hperm.cons m.data)

/-- A chunk after which others are missing: it goes into the entry. -/
theorem full_more (h : Full f s) (hf : s.flight = .chunk m seq :: ps) (hm : m ∈ s.started)
    (hopen : done s m = false)
    (hinv : Inv f (arrived f s ps (JsMap.set s.pending m.msgId pm) none))
    (hopen' : done (arrived f s ps (JsMap.set s.pending m.msgId pm) none) m = false)
    (hkeys : ∀ i < m.total, i ∉ left (arrived f s ps (JsMap.set s.pending m.msgId pm) none) m →
      i ∈ JsMap.keys pm.chunks) :
    Full f (arrived f s ps (JsMap.set s.pending m.msgId pm) none) := by
  have ha := arrived_of (f := f) hf (JsMap.set s.pending m.msgId pm) none
  have hsame (m' : Outgoing) :
      done (arrived f s ps (JsMap.set s.pending m.msgId pm) none) m' = done s m' := by
    by_cases hne : m' = m
    · rw [hne,hopen',hopen]
    · exact ha.done_other (chunkOf_other hne)
  obtain ⟨raws,hraws,hperm⟩ := h.handed
  refine ⟨hinv,h.upper,ha.underway_le.trans h.room,fun id x hget m' hm' hid => ?_,
    fun m' hm' hd i hi hl => ?_,raws,by simp [handed_arrived hraws],?_⟩
  · rw [hsame m']
    by_cases hne : id = m.msgId
    · obtain rfl := List.inj_on_of_nodup_map h.inv.ids hm' hm (hid.trans hne)
      exact hopen
    · rw [arrived_pending,JsMap.get_set_ne _ hne] at hget
      exact h.unfinished id x hget m' hm' hid
  · rw [hsame m'] at hd
    rw [arrived_pending]
    by_cases hne : m' = m
    · subst hne
      exact ⟨_,JsMap.get_set_self _ _ _,hkeys i hi hl⟩
    · rw [JsMap.get_set_ne _ (h.msgId_ne hm' hm hne)]
      refine h.held m' hm' hd i hi ?_
      rw [ha.left m',chunkOf_other hne]
      exact hl
  · have hwhole := ha.wholes
    unfold Accounts at hperm ⊢
    rw [hwhole] at hperm
    rw [List.filter_congr fun m' _ => hsame m']
    exact hperm

theorem full_arrive_chunk (h : Full f s) (hf : s.flight = .chunk m seq :: ps) :
    Full f (arrive f s (.chunk m seq) ps now) := by
  have hinv : Inv f (arrive f s (.chunk m seq) ps now) := inv_arrive_chunk h.inv hf
  have hm : m ∈ s.started := h.inv.inFlight m seq (by rw [hf]; exact List.mem_cons_self)
  have hseq : seq ∈ left s m := by
    rw [left,hf]
    simp [Parcel.chunkOf]
  have hopen : done s m = false := by
    rw [done,List.isEmpty_eq_false_iff]
    exact List.ne_nil_of_mem hseq
  have hbound := h.inv.bound m hm seq hseq
  obtain ⟨hholds,hkeys⟩ := h.entry hm hopen now
  have hreceive : ChunkedReceiver.receive s.pending (Parcel.chunk m seq).frame now = _ :=
    receive_frame (h.long hm) hbound (fun pm hget => (h.inv.holds hm hget).1)
      fun hnone => h.room_new hm hopen hnone
  generalize (JsMap.get s.pending m.msgId).getD
    { totalChunks := m.total, createdAt := now } = pm at hholds hkeys hreceive
  have hnew : JsMap.has pm.chunks seq = false := by
    rw [Bool.eq_false_iff,ne_eq,JsMap.has_iff]
    exact fun hmem => (hkeys seq hbound).mp hmem hseq
  rw [deliver,if_neg (by simp [hnew])] at hreceive
  split at hreceive
  · next hlen =>
    rw [arrive_eq hreceive] at hinv ⊢
    have ha := arrived_of (f := f) hf (JsMap.delete s.pending m.msgId) (some m.data)
    exact full_last h hf hm hinv (done_of_complete h.inv ha hm hholds
      (fun i hi hl => (hkeys i (hholds.lt i hi)).mp hi hl) hlen)
  · next hlen =>
    rw [arrive_eq hreceive] at hinv ⊢
    have ha := arrived_of (f := f) hf (JsMap.set s.pending m.msgId (pm.add seq (m.piece seq))) none
    have hadd := hholds.add hnew hbound
    have hall : ∀ i < m.total, i ∉ left (arrived f s ps
        (JsMap.set s.pending m.msgId (pm.add seq (m.piece seq))) none) m →
        i ∈ JsMap.keys (pm.add seq (m.piece seq)).chunks := by
      intro i hi hl
      rw [keys_add hnew,List.mem_append,List.mem_singleton]
      by_cases heq : i = seq
      · exact .inr heq
      · refine .inl ((hkeys i hi).mpr fun hl' => hl ?_)
        rw [left_chunk ha] at hl'
        exact (List.mem_cons.mp hl').resolve_left heq
    refine full_more h hf hm hopen hinv ?_ hall
    -- if nothing were left, the entry would be complete
    rw [Bool.eq_false_iff,done,ne_eq,List.isEmpty_iff]
    intro hnil
    refine hlen ((length_add hnew (m.piece seq)).symm.trans (hadd.length_eq_iff.mpr ?_))
    exact fun i hi => hall i hi (by rw [hnil]; exact List.not_mem_nil)

end Chunk

end Arrived

theorem full_step (h : Full f s) {a : Action} (hs : step f s a = some t)
    (hsend : ∀ type payload, a = .send type payload →
      Sendable f type payload ∧ s.msgCounter < 2^32) (hk : Kept f s a) : Full f t := by
  cases a with
  | send type payload =>
    obtain ⟨data,he,rfl⟩ := Option.map_eq_some_iff.mp hs
    obtain ⟨hok,hfew⟩ := hsend type payload rfl
    obtain ⟨hupper,hroom⟩ := hk data he
    by_cases hlen : data.length ≤ chunkSize
    · rw [send_short s hlen]
      exact full_short h (Sendable.mark he)
    · rw [send_long s hlen]
      exact full_start h hfew rfl (not_le.mp hlen) hupper (hroom.resolve_left hlen)
  | drain n =>
    cases hs
    exact { h with inv := { h.inv with } }
  | wake i =>
    obtain ⟨x,hx,rfl⟩ := Option.map_eq_some_iff.mp hs
    exact (moved_wake h.inv hx).full h
  | arrive now =>
    rw [step] at hs
    split at hs
    · cases hs
    · next p ps hf =>
      cases hs
      cases p with
      | whole data => exact full_arrive_whole h hf
      | chunk m seq => exact full_arrive_chunk h hf
  | cleanup now =>
    cases hs
    rw [cleanup_eq fun x hx => hk x hx]
    exact h

theorem full_run {as : List Action} (hr : Machine.run (step f) {} as = some s)
    (hok : ∀ type payload, .send type payload ∈ as → Sendable f type payload)
    (hfew : (sent as).length ≤ 2^32) (hk : Machine.Along (step f) (Kept f) {} as) : Full f s := by
  refine Machine.run_induction (P := fun as s =>
    (∀ type payload, .send type payload ∈ as → Sendable f type payload) →
      (sent as).length ≤ 2^32 → Machine.Along (step f) (Kept f) {} as → Full f s)
        ?_ ?_ hr hok hfew hk
  · exact fun _ _ _ => full_initial
  · intro as s a t hr ih hs hok hfew hk
    have hold : ∀ type payload, .send type payload ∈ as → Sendable f type payload :=
      fun type payload h => hok type payload (List.mem_append_left _ h)
    rw [sent_append,List.length_append] at hfew
    obtain ⟨hkas,hka⟩ := (Machine.along_append _ _ [a]).mp hk
    have hfull := ih hold (by omega) hkas
    have hcounter := (inv_run hr hold (by omega)).2.counter
    refine full_step hfull hs (fun type payload h => ⟨hok type payload (by simp [h]),?_⟩)
      (hka s hr).1
    have hone : (sent [a]).length = 1 := by rw [h]; rfl
    omega

/-- When nothing waits and nothing is in flight, everything has been handed on. -/
theorem Full.all_handed (h : Full f s) {as : List Action} (hrec : Record f as s)
    (hsending : s.sending = []) (hflight : s.flight = []) : s.handed.Perm (sent as) := by
  have hdone : s.started.filter (done s) = s.started :=
    List.filter_eq_self.mpr fun m _ => by simp [done,left,hsending,hflight]
  have hwholes : wholes s = [] := by simp [wholes,hflight]
  obtain ⟨raws,hraws,hperm⟩ := h.handed
  rw [Accounts,hwholes,hdone,List.append_nil] at hperm
  rw [hraws]
  exact (hperm.map _).trans hrec.sent

/-! The buffer drains, the timers run and the parcels come. -/

def Quiet : Action → Prop
  | .send _ _ | .cleanup _ => False
  | _ => True

theorem sent_quiet {bs : List Action} (h : ∀ a ∈ bs, Quiet a) : sent bs = [] := by
  refine List.filterMap_eq_nil_iff.mpr fun a ha => ?_
  have hq := h a ha
  cases a with
  | send type payload => exact hq.elim
  | _ => rfl

theorem kept_quiet {bs : List Action} (h : ∀ a ∈ bs, Quiet a) (s : State) :
    Machine.Along (step f) (Kept f) s bs := by
  refine (Machine.along_of_forall s h).imp fun s a hq => ?_
  cases a with
  | send type payload => exact hq.elim
  | cleanup now => exact hq.elim
  | _ => trivial

/-- How much is left to do for what waits. -/
def work (xs : List Sending) : Nat := (xs.map fun x => x.msg.total-x.seq+1).sum

theorem work_wake (s : State) (x : Sending) (rest : List Sending) (hbuffered : s.buffered = 0) :
    work (State.pump x.msg x.seq (x.msg.total-x.seq) { s with sending := rest }).sending <
      work (x :: rest) := by
  obtain ⟨b,k,hk,hpos,heq⟩ := pump_eq x.msg x.seq (x.msg.total-x.seq) { s with sending := rest }
  have hfirst : 0 < x.msg.total-x.seq → 0 < k := hpos (hbuffered ▸ Nat.zero_le _)
  rw [heq]
  simp only [work,List.map_append,List.sum_append,List.map_cons,List.sum_cons]
  split
  · simp
  · next hkn =>
    simp
    omega

theorem exists_pumped (f : MsgPack.Float64) (s : State) : ∃ bs t, (∀ a ∈ bs, Quiet a) ∧
    Machine.run (step f) s bs = some t ∧ t.sending = [] := by
  generalize hn : work s.sending = n
  induction n using Nat.strong_induction_on generalizing s with
  | _ n ih =>
    cases hs : s.sending with
    | nil => exact ⟨[],s,List.forall_mem_nil _,rfl,hs⟩
    | cons x rest =>
      have hdrain : step f s (.drain s.buffered) =
          some { s with buffered := s.buffered-s.buffered } := rfl
      have hwake : step f { s with buffered := s.buffered-s.buffered } (.wake 0) =
          some (State.pump x.msg x.seq (x.msg.total-x.seq)
            { { s with buffered := s.buffered-s.buffered } with sending := rest }) := by
        simp [step,Machine.takeTask,hs]
      have hless := work_wake { s with buffered := s.buffered-s.buffered } x rest (Nat.sub_self _)
      rw [← hs,hn] at hless
      obtain ⟨bs,t,hquiet,hrun,ht⟩ := ih _ hless _ rfl
      refine ⟨.drain s.buffered :: .wake 0 :: bs,t,fun a ha => ?_,
        Machine.run_cons hdrain (Machine.run_cons hwake hrun),ht⟩
      rcases List.mem_cons.mp ha with rfl | ha
      · trivial
      rcases List.mem_cons.mp ha with rfl | ha
      · trivial
      exact hquiet a ha

theorem exists_arrived (f : MsgPack.Float64) {s : State} (hs : s.sending = []) :
    ∃ bs t, (∀ a ∈ bs, Quiet a) ∧ Machine.run (step f) s bs = some t ∧ t.sending = [] ∧
      t.flight = [] := by
  generalize hps : s.flight = ps
  induction ps generalizing s with
  | nil => exact ⟨[],s,List.forall_mem_nil _,rfl,hs,hps⟩
  | cons p ps ih =>
    have hstep : step f s (.arrive 0) = some (arrive f s p ps 0) := by simp [step,hps]
    have hafter : (arrive f s p ps 0).sending = [] ∧ (arrive f s p ps 0).flight = ps := by
      rw [arrive]
      split
      · exact ⟨hs,rfl⟩
      · exact ⟨hs,rfl⟩
    obtain ⟨bs,t,hquiet,hrun,ht⟩ := ih hafter.1 hafter.2
    refine ⟨.arrive 0 :: bs,t,fun a ha => ?_,Machine.run_cons hstep hrun,ht⟩
    rcases List.mem_cons.mp ha with rfl | ha
    · trivial
    exact hquiet a ha

theorem kept_answerRun : Machine.Along (step sampleFloat64) (Kept sampleFloat64) {} answerRun := by
  refine ⟨fun data hdata => ?_,fun t _ => ⟨fun data hdata => ?_,fun u _ => ?_⟩⟩
  · rw [length_answer hdata]
    exact ⟨by decide,.inr (by decide)⟩
  · rw [length_beat hdata]
    exact ⟨by decide,.inl (by decide)⟩
  · exact ⟨trivial,fun _ _ => ⟨trivial,fun _ _ => ⟨trivial,fun _ _ => trivial⟩⟩⟩

end

end DataChannel
