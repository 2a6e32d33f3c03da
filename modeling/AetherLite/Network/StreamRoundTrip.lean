import AetherLite.Network.StreamExchange
import Mathlib.Data.List.Nodup

/-! Every message arrives once and as it was sent, between any two of the implementations. -/
set_option autoImplicit false

namespace ChunkedStream

/-- The entry is the one of the message after the history. -/
structure Held (h : List Event) (m : Outgoing) (pm : PendingMessage) : Prop where
  unfinished : inFlight h m = true
  holds : Holds m pm
  keys_iff : ∀ i, i ∈ JsMap.keys pm.chunks ↔ i ∈ arrived h m
  created : ∃ e ∈ h, ∃ i, e.arrival = .chunk m i ∧ pm.createdAt = e.now

/-- The entries are those of the messages in flight. -/
structure Tracks (sent : List Outgoing) (h : List Event) (pending : Pending) : Prop where
  nodup : (JsMap.keys pending).Nodup
  held : ∀ id pm, JsMap.get pending id = some pm → ∃ m ∈ sent, m.msgId = id ∧ Held h m pm
  kept : ∀ m ∈ sent, inFlight h m = true → ∃ pm, JsMap.get pending m.msgId = some pm

section Tracks
variable {sent : List Outgoing} {h : List Event} {pending pending' : Pending} {e : Event}
  {m m' : Outgoing} {pm : PendingMessage} {seq : Nat}

theorem tracks_nil (sent : List Outgoing) : Tracks sent [] [] where
  nodup := List.nodup_nil
  held id pm hget := by cases hget
  kept m _ hin := by simp [inFlight,arrived] at hin

theorem Held.snoc_other (hh : Held h m pm) (hne : e.chunkOf m = none) : Held (h ++ [e]) m pm where
  unfinished := (inFlight_of_other hne).trans hh.unfinished
  holds := hh.holds
  keys_iff i := by rw [hh.keys_iff,arrived_of_other hne]
  created := by
    obtain ⟨e',he',i,hi⟩ := hh.created
    exact ⟨e',List.mem_append_left [e] he',i,hi⟩

/-- An event that brings no chunk. -/
theorem Tracks.snoc (ht : Tracks sent h pending) (hne : ∀ m, e.chunkOf m = none) :
    Tracks sent (h ++ [e]) pending where
  nodup := ht.nodup
  held id pm hget := by
    obtain ⟨m,hm,hid,hheld⟩ := ht.held id pm hget
    exact ⟨m,hm,hid,hheld.snoc_other (hne m)⟩
  kept m hm hin := ht.kept m hm (by rwa [inFlight_of_other (hne m)] at hin)

/-- An event that changes the entry of its own message. -/
theorem Tracks.update (ht : Tracks sent h pending) (hids : (sent.map Outgoing.msgId).Nodup)
    (hm : m ∈ sent) (he : e.arrival = .chunk m seq) (hnodup : (JsMap.keys pending').Nodup)
    (hother : ∀ id, id ≠ m.msgId → JsMap.get pending' id = JsMap.get pending id)
    (hown : JsMap.get pending' m.msgId = none ∧ inFlight (h ++ [e]) m = false ∨
      ∃ pm, JsMap.get pending' m.msgId = some pm ∧ Held (h ++ [e]) m pm) :
    Tracks sent (h ++ [e]) pending' where
  nodup := hnodup
  held id pm hget := by
    by_cases hid : id = m.msgId
    · rcases hown with ⟨hnone,-⟩ | ⟨pm',hsome,hheld⟩
      · rw [hid,hnone] at hget
        cases hget
      · rw [hid,hsome] at hget
        cases hget
        exact ⟨m,hm,hid.symm,hheld⟩
    · rw [hother id hid] at hget
      obtain ⟨m',hm',rfl,hheld⟩ := ht.held id pm hget
      have hne : m' ≠ m := fun heq => hid (heq ▸ rfl)
      exact ⟨m',hm',rfl,hheld.snoc_other (chunkOf_ne he hne)⟩
  kept m' hm' hin := by
    by_cases hmm : m' = m
    · subst hmm
      rcases hown with ⟨-,hout⟩ | ⟨pm,hsome,-⟩
      · rw [hout] at hin
        cases hin
      · exact ⟨pm,hsome⟩
    · have hid : m'.msgId ≠ m.msgId := fun hid =>
        hmm (List.inj_on_of_nodup_map hids hm' hm hid)
      rw [hother _ hid]
      rw [inFlight_of_other (chunkOf_ne he hmm)] at hin
      exact ht.kept m' hm' hin

/-- The entry of a message of which some chunk is still to come, or a new one. -/
theorem Tracks.entry (ht : Tracks sent h pending) (hids : (sent.map Outgoing.msgId).Nodup)
    (hm : m ∈ sent) (hopen : complete h m = false) :
    (∃ pm, JsMap.get pending m.msgId = some pm ∧ Held h m pm) ∨
      JsMap.get pending m.msgId = none ∧ arrived h m = [] := by
  cases hget : JsMap.get pending m.msgId with
  | some pm =>
    obtain ⟨m',hm',hid,hheld⟩ := ht.held m.msgId pm hget
    obtain rfl := List.inj_on_of_nodup_map hids hm' hm hid
    exact .inl ⟨pm,rfl,hheld⟩
  | none =>
    refine .inr ⟨rfl,?_⟩
    by_contra hne
    have hin : inFlight h m = true := by simp [inFlight,hopen,hne]
    obtain ⟨pm,hsome⟩ := ht.kept m hm hin
    rw [hget] at hsome
    cases hsome

theorem Held.length_ne (hh : Held h m pm) : pm.chunks.length ≠ m.total := by
  intro hlen
  have hall := hh.holds.length_eq_iff.mp hlen
  have hdone : complete h m = true := complete_iff.mpr fun i hi => (hh.keys_iff i).mp (hall i hi)
  have hin := hh.unfinished
  simp [inFlight,hdone] at hin

/-- One chunk: the message is handed on when it is the last that was missing. -/
theorem Tracks.deliver (ht : Tracks sent h pending) (hids : (sent.map Outgoing.msgId).Nodup)
    (hm : m ∈ sent) (he : e.arrival = .chunk m seq) (hseq : seq < m.total)
    (hopen : complete h m = false) :
    ∃ pending', deliver m pending ((JsMap.get pending m.msgId).getD
        { totalChunks := m.total, createdAt := e.now }) seq =
          (pending',if complete (h ++ [e]) m then some m.data else none) ∧
      Tracks sent (h ++ [e]) pending' := by
  -- the entry, found or new, before the chunk is put into it
  generalize hentry : (JsMap.get pending m.msgId).getD
    { totalChunks := m.total, createdAt := e.now } = pm
  have hpm : Holds m pm ∧ (∀ i, i ∈ JsMap.keys pm.chunks ↔ i ∈ arrived h m) ∧
      (∃ e' ∈ h ++ [e], ∃ i, e'.arrival = .chunk m i ∧ pm.createdAt = e'.now) ∧
      (pm.chunks ≠ [] → JsMap.get pending m.msgId = some pm) := by
    rcases ht.entry hids hm hopen with ⟨pm',hget,hheld⟩ | ⟨hget,hnil⟩
    · obtain rfl : pm' = pm := by simpa [hget] using hentry
      obtain ⟨e',he',hi⟩ := hheld.created
      exact ⟨hheld.holds,hheld.keys_iff,⟨e',List.mem_append_left [e] he',hi⟩,fun _ => hget⟩
    · obtain rfl : { totalChunks := m.total, createdAt := e.now } = pm := by
        simpa [hget] using hentry
      refine ⟨fresh_holds m e.now,?_,⟨e,by simp,seq,he,rfl⟩,fun hne => absurd rfl hne⟩
      simp [hnil,JsMap.keys]
  obtain ⟨hholds,hkeys,hcreated,hget⟩ := hpm
  have harrived : arrived (h ++ [e]) m ≠ [] := by
    intro hnil
    have hmem := (mem_arrived_append (h := h) he (i := seq)).mpr (.inr rfl)
    rw [hnil] at hmem
    cases hmem
  unfold ChunkedStream.deliver
  by_cases hnew : JsMap.has pm.chunks seq = true
  · have hmem : seq ∈ arrived h m := (hkeys seq).mp ((JsMap.has_iff _ _).mp hnew)
    have hsame : ∀ i, i ∈ arrived (h ++ [e]) m ↔ i ∈ arrived h m := by
      intro i
      rw [mem_arrived_append he]
      exact or_iff_left_of_imp fun hi => hi ▸ hmem
    have hopen' : complete (h ++ [e]) m = false := by
      rw [Bool.eq_false_iff,ne_eq,complete_iff] at hopen ⊢
      simpa only [hsame] using hopen
    rw [if_pos hnew,hopen']
    refine ⟨pending,rfl,ht.update hids hm he ht.nodup (fun _ _ => rfl) (.inr ⟨pm,?_,?_⟩)⟩
    · refine hget ?_
      intro hnil
      simp [hnil,JsMap.has,JsMap.get] at hnew
    · exact ⟨by simp [inFlight,harrived,hopen'],hholds,fun i => (hkeys i).trans (hsame i).symm,
        hcreated⟩
  have hnew : JsMap.has pm.chunks seq = false := by simpa using hnew
  have hadd := hholds.add hnew hseq
  have hkeys' : ∀ i, i ∈ JsMap.keys (pm.add seq (m.piece seq)).chunks ↔
      i ∈ arrived (h ++ [e]) m := by
    intro i
    rw [keys_add hnew,mem_arrived_append he,List.mem_append,hkeys i,List.mem_singleton]
  have hdone : complete (h ++ [e]) m = true ↔ pm.chunks.length+1 = m.total := by
    rw [complete_iff,← length_add hnew (m.piece seq),hadd.length_eq_iff]
    simp only [hkeys']
  rw [if_neg (by simp [hnew])]
  by_cases hlast : pm.chunks.length+1 = m.total
  · rw [if_pos hlast,if_pos (hdone.mpr hlast)]
    refine ⟨_,rfl,ht.update hids hm he (JsMap.nodup_keys_delete ht.nodup _)
      (fun id hid => JsMap.get_delete_ne hid) (.inl ⟨JsMap.get_delete_self _ _,?_⟩)⟩
    simp [inFlight,hdone.mpr hlast]
  · rw [if_neg hlast,if_neg (fun hc => hlast (hdone.mp hc))]
    refine ⟨_,rfl,ht.update hids hm he (JsMap.nodup_keys_set ht.nodup _ _)
      (fun id hid => JsMap.get_set_ne _ hid _) (.inr ⟨_,JsMap.get_set_self _ _ _,?_⟩)⟩
    have hopen' : complete (h ++ [e]) m = false :=
      Bool.eq_false_iff.mpr fun hc => hlast (hdone.mp hc)
    exact ⟨by simp [inFlight,harrived,hopen'],hadd,hkeys',hcreated⟩

end Tracks

/-- The two ends of a channel. -/
inductive Side where
  | browser
  | node
  deriving DecidableEq

namespace Side

/-- What the side sends for the message. -/
def frames (s : Side) (m : Outgoing) : List Bytes :=
  match s with
  | browser => (ChunkedSender.send m.counter m.data).1
  | node => (Cache.ChunkedSender.encode (UInt32.ofNat m.counter) m.data).1

/-- What comes out of the channel. -/
def wire (s : Side) : Arrival → Option Bytes
  | .chunk m seq => some ((s.frames m).getD seq [])
  | .whole data => some ((s.frames ⟨0,data⟩).getD 0 [])
  | .tick => none

def handle (s : Side) (pending : Pending) (now : Nat) (input : Option Bytes) :
    Option (Pending × Option Bytes) :=
  match s,input with
  | browser,some raw => ChunkedReceiver.receive pending raw now
  | browser,none => some (ChunkedReceiver.cleanup pending now,none)
  | node,some raw => Cache.ChunkedReceiver.receive pending raw now
  | node,none => some (pending,none)

/-- What the receiver hands on, in order; none when it fails. -/
def run (s : Side) : Pending → List (Nat × Option Bytes) → Option (List Bytes)
  | _,[] => some []
  | pending,(now,input) :: rest => do
    let (pending,output) ← s.handle pending now input
    let outputs ← s.run pending rest
    some (output.toList ++ outputs)

/-- An entry of this age is kept. -/
def inTime (s : Side) (elapsed : Nat) : Prop :=
  match s with
  | browser => elapsed ≤ ChunkedReceiver.reassemblyTimeout
  | node => elapsed < Cache.ChunkedReceiver.reassemblyTimeout

end Side

/-- The chunks of the messages reach the receiver in any order, none of them after its message
is complete, and other data in between. At no time are more than 64 messages in flight. -/
structure Exchange (receiver : Side) (sent : List Outgoing) (es : List Event) : Prop where
  ids : (sent.map Outgoing.msgId).Nodup
  long : ∀ m ∈ sent, m.Long
  chunks : ∀ e ∈ es, ∀ m i, e.arrival = .chunk m i → m ∈ sent ∧ i < m.total
  wholes : ∀ e ∈ es, ∀ data, e.arrival = .whole data →
    data.length ≤ chunkSize ∧ data.head? ≠ some 0x00
  window : ∀ h t, es = h ++ t → (sent.filter (inFlight h)).length ≤ 64
  early : ∀ h e t m i, es = h ++ e :: t → e.arrival = .chunk m i → complete h m = false
  all : ∀ m ∈ sent, complete es m = true
  ordered : es.Pairwise fun a b => a.now ≤ b.now
  inTime : ∀ a ∈ es, ∀ b ∈ es, ∀ m i j, a.arrival = .chunk m i → b.arrival = .chunk m j →
    receiver.inTime (b.now-a.now)

section RoundTrip
variable {sender receiver : Side} {sent : List Outgoing} {es h t : List Event} {e : Event}
  {m : Outgoing} {pending : Pending} {seq : Nat}

theorem frames_getD (sender : Side) (hm : m.Long) (hseq : seq < m.total) :
    (sender.frames m).getD seq [] = m.frame seq := by
  have hframes : sender.frames m = (List.range m.total).map m.frame := by
    cases sender with
    | browser => exact Outgoing.send_eq hm
    | node => exact Outgoing.encode_eq hm
  simp [hframes,hseq]

theorem frames_short (sender : Side) {data : Bytes} (hd : data.length ≤ chunkSize) :
    (sender.frames ⟨0,data⟩).getD 0 [] = data := by
  cases sender with
  | browser => simp [Side.frames,ChunkedSender.send,hd]
  | node => simp [Side.frames,Cache.ChunkedSender.encode,hd]

/-- What the receiver hands on at an event. -/
def expected (h : List Event) (e : Event) : Option Bytes :=
  match e.arrival with
  | .chunk m _ => if complete (h ++ [e]) m then some m.data else none
  | .whole data => some data
  | .tick => none

/-- A message in flight has a chunk that is still to come, so its entry is not too old. -/
theorem Tracks.entries_inTime (ht : Tracks sent h pending) (hx : Exchange receiver sent es)
    (hes : es = h ++ e :: t) : ∀ x ∈ pending, receiver.inTime (e.now-x.2.createdAt) := by
  intro x hx'
  obtain ⟨m,hm,-,hheld⟩ := ht.held x.1 x.2 (JsMap.get_of_mem ht.nodup hx')
  obtain ⟨a,ha,i,harr,hcreated⟩ := hheld.created
  have hopen : complete h m ≠ true := by
    intro hc
    have hin := hheld.unfinished
    simp [inFlight,hc] at hin
  rw [ne_eq,complete_iff] at hopen
  push Not at hopen
  obtain ⟨j,hj,hmissing⟩ := hopen
  have hlater : j ∈ arrived (e :: t) m := by
    have hall := complete_iff.mp (hx.all m hm) j hj
    rw [hes,arrived,List.filterMap_append,List.mem_append] at hall
    exact hall.resolve_left hmissing
  obtain ⟨b,hb,hbarr⟩ := arrived_mem hlater
  have hle : e.now ≤ b.now := by
    rcases List.mem_cons.mp hb with rfl | hb
    · exact le_rfl
    · have hord := hx.ordered
      rw [hes] at hord
      exact List.rel_of_pairwise_cons (List.pairwise_append.mp hord).2.1 hb
  have hin := hx.inTime a (by rw [hes]; exact List.mem_append_left _ ha) b
    (by rw [hes]; exact List.mem_append_right _ hb) m i j harr hbarr
  rw [hcreated]
  have hsub : e.now-a.now ≤ b.now-a.now := Nat.sub_le_sub_right hle _
  cases receiver with
  | browser => exact hsub.trans hin
  | node => exact hsub.trans_lt hin

/-- There is room for one more message. -/
theorem Tracks.room (ht : Tracks sent h pending) (hx : Exchange receiver sent es)
    (hes : es = h ++ e :: t) (hm : m ∈ sent) (he : e.arrival = .chunk m seq)
    (hnone : JsMap.get pending m.msgId = none) :
    pending.length < ChunkedReceiver.maxPendingMessages := by
  have hopen := hx.early h e t m seq hes he
  have hnil : arrived h m = [] := by
    rcases ht.entry hx.ids hm hopen with ⟨pm,hsome,-⟩ | ⟨-,hnil⟩
    · rw [hnone] at hsome
      cases hsome
    · exact hnil
  have harrived : arrived (h ++ [e]) m = [seq] := by
    simp [arrived_append,hnil,chunkOf_some he]
  have hopen' : complete (h ++ [e]) m = false := by
    rw [Bool.eq_false_iff,ne_eq,complete_iff,harrived]
    intro hall
    have hone := (hx.long m hm).one_lt_total
    have h0 := List.mem_singleton.mp (hall 0 (by omega))
    have h1 := List.mem_singleton.mp (hall 1 hone)
    omega
  have hin : inFlight (h ++ [e]) m = true := by simp [inFlight,harrived,hopen']
  have hnodup : (m.msgId :: JsMap.keys pending).Nodup :=
    List.nodup_cons.mpr ⟨(JsMap.get_eq_none_iff _ _).mp hnone,ht.nodup⟩
  have hsub : m.msgId :: JsMap.keys pending ⊆
      (sent.filter (inFlight (h ++ [e]))).map Outgoing.msgId := by
    intro id hid
    rcases List.mem_cons.mp hid with rfl | hid
    · exact List.mem_map_of_mem (List.mem_filter.mpr ⟨hm,hin⟩)
    · obtain ⟨x,hx',rfl⟩ := List.mem_map.mp hid
      obtain ⟨m',hm',hid',hheld⟩ := ht.held x.1 x.2 (JsMap.get_of_mem ht.nodup hx')
      have hne : m' ≠ m := by
        rintro rfl
        rw [hid',JsMap.get_of_mem ht.nodup hx'] at hnone
        cases hnone
      rw [← hid']
      refine List.mem_map_of_mem (List.mem_filter.mpr ⟨hm',?_⟩)
      rw [inFlight_of_other (chunkOf_ne he hne)]
      exact hheld.unfinished
  have hlen := (List.subperm_of_subset hnodup hsub).length_le
  have hwindow := hx.window (h ++ [e]) t (by rw [hes,List.append_assoc]; rfl)
  rw [List.length_map] at hlen
  simp only [List.length_cons,JsMap.keys,List.length_map] at hlen
  have hmax : ChunkedReceiver.maxPendingMessages = 64 := rfl
  omega

theorem cleanup_eq {now : Nat} (h : ∀ x ∈ pending, Side.browser.inTime (now-x.2.createdAt)) :
    ChunkedReceiver.cleanup pending now = pending := by
  refine List.filter_eq_self.mpr fun x hx => ?_
  simpa [Side.inTime] using h x hx

theorem cache_cleanup_eq {now : Nat} (h : ∀ x ∈ pending, Side.node.inTime (now-x.2.createdAt)) :
    Cache.ChunkedReceiver.cleanup pending now = pending := by
  refine List.filter_eq_self.mpr fun x hx => ?_
  simpa [Side.inTime] using h x hx

/-- Data without the marker are handed on as they are. -/
theorem receive_whole {data : Bytes} {now : Nat} (hmark : data.head? ≠ some 0x00) :
    ChunkedReceiver.receive pending data now = some (pending,some data) ∧
      Cache.ChunkedReceiver.receive pending data now =
        some (Cache.ChunkedReceiver.cleanup pending now,some data) := by
  unfold ChunkedReceiver.receive Cache.ChunkedReceiver.receive
  by_cases hlen : data.length < headerSize
  · simp [hlen]
  · have hfirst : data.getD 0 0 ≠ 0x00 := by
      cases data with
      | nil => simp [headerSize] at hlen
      | cons b bs => simpa using hmark
    simp only [if_neg hlen,if_pos hfirst,and_self]

theorem handle_eq (ht : Tracks sent h pending) (hx : Exchange receiver sent es)
    (hes : es = h ++ e :: t) :
    ∃ pending', receiver.handle pending e.now (sender.wire e.arrival) =
      some (pending',expected h e) ∧ Tracks sent (h ++ [e]) pending' := by
  have hmem : e ∈ es := by
    rw [hes]
    exact List.mem_append_right h List.mem_cons_self
  have htime := ht.entries_inTime hx hes
  cases he : e.arrival with
  | chunk m seq =>
    obtain ⟨hm,hseq⟩ := hx.chunks e hmem m seq he
    have hlong := hx.long m hm
    have hopen := hx.early h e t m seq hes he
    obtain ⟨pending',hdeliver,htracks⟩ := ht.deliver hx.ids hm he hseq hopen
    have hheld : ∀ pm, JsMap.get pending m.msgId = some pm → Held h m pm := by
      intro pm hget
      rcases ht.entry hx.ids hm hopen with ⟨pm',hsome,hheld⟩ | ⟨hnone,-⟩
      · rw [hget] at hsome
        cases hsome
        exact hheld
      · rw [hget] at hnone
        cases hnone
    refine ⟨pending',?_,htracks⟩
    have hexp : expected h e = if complete (h ++ [e]) m then some m.data else none := by
      simp [expected,he]
    rw [hexp,← hdeliver]
    simp only [Side.wire,frames_getD sender hlong hseq]
    cases receiver with
    | browser =>
      have hholds : ∀ pm, JsMap.get pending m.msgId = some pm → Holds m pm :=
        fun pm hget => (hheld pm hget).holds
      exact receive_frame hlong hseq hholds (ht.room hx hes hm he)
    | node =>
      have hholds : ∀ pm, JsMap.get pending m.msgId = some pm →
          Holds m pm ∧ pm.chunks.length ≠ m.total :=
        fun pm hget => ⟨(hheld pm hget).holds,(hheld pm hget).length_ne⟩
      exact cache_receive_frame hlong hseq hholds (cache_cleanup_eq htime)
  | whole data =>
    obtain ⟨hshort,hmark⟩ := hx.wholes e hmem data he
    have hwhole : ChunkedReceiver.receive pending data e.now = some (pending,some data) ∧
        Cache.ChunkedReceiver.receive pending data e.now =
          some (Cache.ChunkedReceiver.cleanup pending e.now,some data) := receive_whole hmark
    refine ⟨pending,?_,ht.snoc fun m => by simp [Event.chunkOf,he]⟩
    simp only [Side.wire,frames_short sender hshort,expected,he]
    cases receiver with
    | browser => exact hwhole.1
    | node =>
      rw [cache_cleanup_eq htime] at hwhole
      exact hwhole.2
  | tick =>
    refine ⟨pending,?_,ht.snoc fun m => by simp [Event.chunkOf,he]⟩
    simp only [Side.wire,expected,he]
    cases receiver with
    | browser =>
      rw [Side.handle,cleanup_eq htime]
    | node => rfl

def outputs : List Event → List Event → List Bytes
  | _,[] => []
  | h,e :: t => (expected h e).toList ++ outputs (h ++ [e]) t

theorem run_eq (hx : Exchange receiver sent es) (ht : Tracks sent h pending) (hes : es = h ++ t) :
    receiver.run pending (t.map fun e => (e.now,sender.wire e.arrival)) = some (outputs h t) := by
  induction t generalizing h pending with
  | nil => rfl
  | cons e t ih =>
    obtain ⟨pending',hhandle,htracks⟩ := handle_eq ht hx hes
    have hrest := ih htracks (by rw [hes,List.append_assoc]; rfl)
    rw [List.map_cons,Side.run,hhandle]
    simp [hrest,outputs]

/-- A message that becomes complete leaves the list of the open ones. -/
theorem filter_open_perm (hids : (sent.map Outgoing.msgId).Nodup) (hm : m ∈ sent)
    (he : e.arrival = .chunk m seq) (hopen : complete h m = false)
    (hdone : complete (h ++ [e]) m = true) :
    (sent.filter fun m => !complete h m).Perm
      (m :: sent.filter fun m => !complete (h ++ [e]) m) := by
  have hnodup : sent.Nodup := hids.of_map
  have hout : m ∉ sent.filter fun m => !complete (h ++ [e]) m := by simp [hdone]
  rw [List.perm_ext_iff_of_nodup (hnodup.filter _)
    (List.nodup_cons.mpr ⟨hout,hnodup.filter _⟩)]
  intro x
  by_cases hx : x = m
  · simp [hx,hm,hopen]
  · simp [hx,complete_of_other (chunkOf_ne he hx)]

theorem outputs_perm (hx : Exchange receiver sent es) (hes : es = h ++ t) :
    (outputs h t).Perm ((sent.filter fun m => !complete h m).map Outgoing.data ++
      t.filterMap Event.wholeData) := by
  induction t generalizing h with
  | nil =>
    have hall : (sent.filter fun m => !complete h m) = [] := by
      refine List.filter_eq_nil_iff.mpr fun m hm => ?_
      have hc := hx.all m hm
      rw [hes,List.append_nil] at hc
      simp [hc]
    simp [hall,outputs]
  | cons e t ih =>
    have hes' : es = (h ++ [e]) ++ t := by
      rw [hes,List.append_assoc]
      rfl
    have hrest := ih hes'
    have hmem : e ∈ es := by
      rw [hes]
      exact List.mem_append_right h List.mem_cons_self
    have hother : ∀ m, e.chunkOf m = none → complete h m = complete (h ++ [e]) m :=
      fun m hne => (complete_of_other hne).symm
    cases he : e.arrival with
    | chunk m seq =>
      obtain ⟨hm,-⟩ := hx.chunks e hmem m seq he
      have hopen := hx.early h e t m seq hes he
      have hwhole : (e :: t).filterMap Event.wholeData = t.filterMap Event.wholeData := by
        simp [Event.wholeData,he]
      rw [hwhole,outputs,expected,he]
      dsimp only
      split
      · next hdone =>
        have hperm := (filter_open_perm hx.ids hm he hopen hdone).map Outgoing.data
        exact (hrest.cons m.data).trans (hperm.append_right _).symm
      · next hdone =>
        have hsame : (sent.filter fun m => !complete h m) =
            sent.filter fun m => !complete (h ++ [e]) m := by
          refine List.filter_congr fun x _ => ?_
          by_cases hxm : x = m
          · simp [hxm,hopen,hdone]
          · rw [hother x (chunkOf_ne he hxm)]
        rw [hsame]
        exact hrest
    | whole data =>
      have hsame : (sent.filter fun m => !complete h m) =
          sent.filter fun m => !complete (h ++ [e]) m :=
        List.filter_congr fun x _ => by rw [hother x (by simp [Event.chunkOf,he])]
      have hwhole : (e :: t).filterMap Event.wholeData = data :: t.filterMap Event.wholeData := by
        simp [Event.wholeData,he]
      rw [hwhole,hsame,outputs,expected,he]
      exact (hrest.cons data).trans List.perm_middle.symm
    | tick =>
      have hsame : (sent.filter fun m => !complete h m) =
          sent.filter fun m => !complete (h ++ [e]) m :=
        List.filter_congr fun x _ => by rw [hother x (by simp [Event.chunkOf,he])]
      have hwhole : (e :: t).filterMap Event.wholeData = t.filterMap Event.wholeData := by
        simp [Event.wholeData,he]
      rw [hwhole,hsame,outputs,expected,he]
      exact hrest

/-- Every message is handed on once and as it was sent, and so are the data that went in one
piece. -/
theorem stream_round_trip (sender receiver : Side) {sent : List Outgoing} {es : List Event}
    (h : Exchange receiver sent es) :
    ∃ outputs, receiver.run [] (es.map fun e => (e.now,sender.wire e.arrival)) = some outputs ∧
      outputs.Perm (sent.map Outgoing.data ++ es.filterMap Event.wholeData) := by
  refine ⟨_,run_eq h (tracks_nil sent) rfl,?_⟩
  have hperm := outputs_perm h (List.nil_append es).symm
  have hopen : (sent.filter fun m => !complete [] m) = sent := by
    refine List.filter_eq_self.mpr fun m hm => ?_
    have hone := (h.long m hm).one_lt_total
    have hc : complete [] m ≠ true := fun hc => by
      have h0 := complete_iff.mp hc 0 (by omega)
      cases h0
    simpa using hc
  rwa [hopen] at hperm

/-- The second of two chunks comes first. -/
def reordered (m : Outgoing) : List Event :=
  [⟨0,.chunk m 1⟩,⟨5,.whole [0x01]⟩,⟨9,.chunk m 0⟩]

theorem reordered_exchange (hlong : m.Long) (htwo : m.total = 2) :
    Exchange .node [m] (reordered m) where
  ids := List.nodup_singleton _
  long m' hm := List.mem_singleton.mp hm ▸ hlong
  chunks e he m' i harr := by
    rcases List.mem_cons.mp he with rfl | he
    · cases harr
      exact ⟨List.mem_singleton.mpr rfl,by simp [htwo]⟩
    rcases List.mem_cons.mp he with rfl | he
    · cases harr
    · rw [List.mem_singleton.mp he] at harr
      cases harr
      exact ⟨List.mem_singleton.mpr rfl,by simp [htwo]⟩
  wholes e he data harr := by
    rcases List.mem_cons.mp he with rfl | he
    · cases harr
    rcases List.mem_cons.mp he with rfl | he
    · cases harr
      exact ⟨by decide,by decide⟩
    · rw [List.mem_singleton.mp he] at harr
      cases harr
  window h t _ := (List.length_filter_le _ _).trans (by simp)
  early h e t m' i hes harr := by
    have hm : m' = m := by
      have he : e ∈ reordered m := hes ▸ List.mem_append_right h List.mem_cons_self
      rcases List.mem_cons.mp he with rfl | he
      · cases harr
        rfl
      rcases List.mem_cons.mp he with rfl | he
      · cases harr
      · rw [List.mem_singleton.mp he] at harr
        cases harr
        rfl
    subst hm
    -- the first chunk comes at the end, so nothing before it completes the message
    have h0 : 0 ∉ arrived h m' := by
      intro hmem
      obtain ⟨a,ha,harr'⟩ := arrived_mem hmem
      obtain ⟨l,r,rfl⟩ := List.append_of_mem ha
      have hlen := congrArg List.length hes
      match l,r,t with
      | [],[],_ =>
        cases hes
        cases harr'
      | [_],[],[] =>
        cases hes
        cases harr'
      | [],[_],[] =>
        cases hes
        cases harr'
      | _ :: _ :: _,_,_ => simp [reordered] at hlen; omega
      | [_],_ :: _,_ => simp [reordered] at hlen
      | [_],[],_ :: _ => simp [reordered] at hlen
      | [],_ :: _ :: _,_ => simp [reordered] at hlen
      | [],[_],_ :: _ => simp [reordered] at hlen
    rw [Bool.eq_false_iff,ne_eq,complete_iff]
    intro hall
    exact h0 (hall 0 (by simp [htwo]))
  all m' hm := by
    rw [List.mem_singleton.mp hm,complete_iff,htwo]
    intro i hi
    have harrived : arrived (reordered m) m = [1,0] := by
      simp [arrived,reordered,Event.chunkOf,List.filterMap_cons]
    rw [harrived]
    simp
    omega
  ordered := by simp [reordered]
  inTime a ha b hb m' i j _ _ := by
    have hb9 : b.now ≤ 9 := by
      simp only [reordered,List.mem_cons,List.not_mem_nil,or_false] at hb
      rcases hb with rfl | rfl | rfl <;> simp
    have hlt : b.now-a.now < 10*1000*1000*1000 := by omega
    exact hlt

theorem sevens_length (n : Nat) :
    (Outgoing.mk 0 (List.replicate n 0x07)).data.length = n := List.length_replicate

theorem reordered_round_trip :
    ∃ outputs, Side.node.run [] ((reordered ⟨0,List.replicate 4097 0x07⟩).map fun e =>
      (e.now,Side.browser.wire e.arrival)) = some outputs ∧
        outputs.Perm ([List.replicate 4097 0x07] ++ [[0x01]]) :=
  stream_round_trip .browser .node (reordered_exchange
    ⟨by rw [sevens_length]; decide,by rw [sevens_length]; decide⟩
    (by rw [Outgoing.total,sevens_length]; rfl))

end RoundTrip

end ChunkedStream
