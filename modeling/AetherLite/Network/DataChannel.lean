import AetherLite.Lib.Machine
import AetherLite.Network.StreamRoundTrip
import AetherLite.Wire.WireRoundTrip
import Mathlib.Data.List.Nodup

/-! One direction of a connection. The channel keeps the order of what it is given, but the chunks
of several messages mix in it, since a long message waits when the buffer is full. -/
set_option autoImplicit false

namespace DataChannel

open Js Wire ChunkedStream

def maxBuffered : Nat := 64*1024

/-- What the channel was given: data in one piece, or a chunk of a message. -/
inductive Parcel where
  | whole (data : Bytes)
  | chunk (m : Outgoing) (seq : Nat)

namespace Parcel

def frame : Parcel → Bytes
  | whole data => data
  | chunk m seq => m.frame seq

def whole? : Parcel → Option Bytes
  | whole data => some data
  | chunk _ _ => none

def chunkOf (m : Outgoing) : Parcel → Option Nat
  | whole _ => none
  | chunk m' seq => if m' = m then some seq else none

end Parcel

/-- A message that waits for the buffer with this chunk. -/
structure Sending where
  msg : Outgoing
  seq : Nat

structure State where
  msgCounter : Nat := 0
  /-- `dc.bufferedAmount` -/
  buffered : Nat := 0
  sending : List Sending := []
  /-- What has not arrived yet, the oldest first. -/
  flight : List Parcel := []
  pending : Pending := []
  /-- What `onData` decodes. -/
  handed : List DecodedWireMessage := []
  /-- An exception has left the receiver. -/
  threw : Bool := false
  /-- All that was sent in chunks, and all that was sent in one piece. -/
  started : List Outgoing := []
  shorts : List Bytes := []

inductive Action where
  | send (type : WireType) (payload : Val)
  /-- so many bytes leave the buffer -/
  | drain (n : Nat)
  /-- the timer of a message that waits -/
  | wake (i : Nat)
  | arrive (now : Nat)
  | cleanup (now : Nat)

namespace State

def push (s : State) (p : Parcel) : State :=
  { s with buffered := s.buffered+p.frame.length, flight := s.flight ++ [p] }

/-- The loop of `send` over the chunks that are left. -/
def pump (m : Outgoing) : Nat → Nat → State → State
  | _, 0, s => s
  | seq, n+1, s =>
    if s.buffered > maxBuffered then { s with sending := s.sending ++ [⟨m,seq⟩] }
    else pump m (seq+1) n (s.push (.chunk m seq))

def send (s : State) (data : Bytes) : State :=
  if data.length ≤ chunkSize then { s.push (.whole data) with shorts := s.shorts ++ [data] }
  else
    let m : Outgoing := ⟨s.msgCounter,data⟩
    pump m 0 m.total { s with msgCounter := s.msgCounter+1, started := s.started ++ [m] }

end State

section
variable (f : MsgPack.Float64)

/-- The receiver has taken a parcel and called `onMessage` with what it handed on. -/
def arrived (s : State) (flight : List Parcel) (pending : Pending) (out : Option Bytes) : State :=
  { s with
    flight := flight
    pending := pending
    handed := s.handed ++ out.toList.map (WireCodec.decode (MsgPack.decode f)) }

def arrive (s : State) (p : Parcel) (flight : List Parcel) (now : Nat) : State :=
  match ChunkedReceiver.receive s.pending p.frame now with
  | none => { s with flight := flight, threw := true }
  | some (pending,out) => arrived f s flight pending out

def step (s : State) : Action → Option State
  | .send type payload => (WireCodec.encode f type payload).map s.send
  | .drain n => some { s with buffered := s.buffered-n }
  | .wake i =>
    (Machine.takeTask s.sending i).map fun x =>
      State.pump x.1.msg x.1.seq (x.1.msg.total-x.1.seq) { s with sending := x.2 }
  | .arrive now =>
    match s.flight with
    | [] => none
    | p :: ps => some (arrive f s p ps now)
  | .cleanup now => some { s with pending := ChunkedReceiver.cleanup s.pending now }

/-- The messages of a run. -/
def sent (as : List Action) : List DecodedWireMessage :=
  as.filterMap fun
    | .send type payload => some (WireCodec.received type payload)
    | _ => none

end

/-- The numbers of the chunks that are still to arrive. -/
def left (s : State) (m : Outgoing) : List Nat :=
  s.flight.filterMap (Parcel.chunkOf m) ++
    s.sending.flatMap fun x => if x.msg = m then List.range' x.seq (m.total-x.seq) else []

section Pump
variable {m m' : Outgoing} {seq n : Nat} {s : State}

/-- A number of chunks are handed to the channel and the rest waits. -/
theorem pump_eq (m : Outgoing) (seq n : Nat) (s : State) : ∃ b k, k ≤ n ∧
    (s.buffered ≤ maxBuffered → 0 < n → 0 < k) ∧
      State.pump m seq n s = { s with
        buffered := b
        flight := s.flight ++ (List.range' seq k).map (Parcel.chunk m)
        sending := s.sending ++ if k = n then [] else [⟨m,seq+k⟩] } := by
  induction n generalizing seq s with
  | zero => exact ⟨s.buffered,0,le_rfl,fun _ h => h,by simp [State.pump]⟩
  | succ n ih =>
    rw [State.pump]
    split
    · next hfull =>
      exact ⟨s.buffered,0,Nat.zero_le _,fun h => absurd hfull (not_lt.mpr h),by simp⟩
    · obtain ⟨b,k,hk,-,heq⟩ := ih (seq+1) (s.push (.chunk m seq))
      refine ⟨b,k+1,Nat.succ_le_succ hk,fun _ _ => Nat.succ_pos k,?_⟩
      rw [heq]
      have hnext : seq+1+k = seq+(k+1) := by omega
      simp [State.push,List.range'_succ,hnext]

theorem chunkOf_map_chunk (m m' : Outgoing) (is : List Nat) :
    (is.map (Parcel.chunk m)).filterMap (Parcel.chunkOf m') = if m = m' then is else [] := by
  induction is with
  | nil => simp
  | cons i is ih =>
    by_cases h : m = m'
    · simp_all [Parcel.chunkOf]
    · simp_all [Parcel.chunkOf]

theorem left_pump (hn : seq+n = m.total) (m' : Outgoing) :
    (left (State.pump m seq n s) m').Perm
      (left s m' ++ if m = m' then List.range' seq n else []) := by
  obtain ⟨b,k,hk,-,heq⟩ := pump_eq m seq n s
  have hsplit : List.range' seq k ++ List.range' (seq+k) (n-k) = List.range' seq n := by
    rw [List.range'_append_1,Nat.add_sub_cancel' hk]
  have hwait : ((if k = n then [] else [⟨m,seq+k⟩] : List Sending).flatMap fun x =>
      if x.msg = m' then List.range' x.seq (m'.total-x.seq) else []) =
        if m = m' then List.range' (seq+k) (n-k) else [] := by
    by_cases hkn : k = n
    · simp [hkn]
    · by_cases hmm : m = m'
      · subst hmm
        simp [hkn,show m.total-(seq+k) = n-k by omega]
      · simp [hkn,hmm]
  rw [heq]
  unfold left
  dsimp only
  rw [List.filterMap_append,chunkOf_map_chunk,List.flatMap_append,hwait]
  by_cases hmm : m = m'
  · simp only [if_pos hmm,← hsplit]
    rw [List.append_assoc,List.append_assoc]
    refine List.Perm.append_left _ ?_
    rw [← List.append_assoc,← List.append_assoc]
    exact List.perm_append_comm.append_right _
  · simp [hmm]

theorem mem_flight_pump {p : Parcel} (h : p ∈ (State.pump m seq n s).flight) :
    p ∈ s.flight ∨ ∃ i, p = .chunk m i := by
  obtain ⟨b,k,-,-,heq⟩ := pump_eq m seq n s
  rw [heq] at h
  rcases List.mem_append.mp h with h | h
  · exact .inl h
  · obtain ⟨i,-,rfl⟩ := List.mem_map.mp h
    exact .inr ⟨i,rfl⟩

theorem mem_sending_pump {x : Sending} (h : x ∈ (State.pump m seq n s).sending) :
    x ∈ s.sending ∨ x.msg = m ∧ x.seq ≤ seq+n := by
  obtain ⟨b,k,hk,-,heq⟩ := pump_eq m seq n s
  rw [heq] at h
  rcases List.mem_append.mp h with h | h
  · exact .inl h
  · split at h
    · cases h
    · rw [List.mem_singleton.mp h]
      exact .inr ⟨rfl,Nat.add_le_add_left hk seq⟩

theorem wholes_pump : (State.pump m seq n s).flight.filterMap Parcel.whole? =
    s.flight.filterMap Parcel.whole? := by
  obtain ⟨b,k,-,-,heq⟩ := pump_eq m seq n s
  have hnone : ((List.range' seq k).map (Parcel.chunk m)).filterMap Parcel.whole? = [] := by
    simp [Parcel.whole?]
  rw [heq]
  simp [hnone]

end Pump

section Receive
variable {m : Outgoing} {pending : Pending} {seq : Nat}

/-- A chunk comes to the entry of its message, or to a new one for which another may be given up. -/
theorem receive_frame_some (now : Nat) (hm : m.Long) (hseq : seq < m.total)
    (hnodup : (JsMap.keys pending).Nodup)
    (hholds : ∀ pm, JsMap.get pending m.msgId = some pm → Holds m pm) :
    ∃ base pm, ChunkedReceiver.receive pending (m.frame seq) now = some (deliver m base pm seq) ∧
      Holds m pm ∧ (JsMap.keys base).Nodup ∧
      (∀ id x, id ≠ m.msgId → JsMap.get base id = some x → JsMap.get pending id = some x) ∧
      ∀ i ∈ JsMap.keys pm.chunks, ∃ pm', JsMap.get pending m.msgId = some pm' ∧
        i ∈ JsMap.keys pm'.chunks := by
  have htotal : ¬(m.total = 0 || seq ≥ m.total) = true := by
    simp
    omega
  have hmax : ¬m.total > ChunkedReceiver.maxChunks := not_lt.mpr hm.total_le
  unfold ChunkedReceiver.receive
  rw [if_neg (by rw [m.frame_length]; omega),if_neg (not_not.mpr (m.frame_marker seq)),
    Outgoing.readHeader_frame hm hseq]
  dsimp only
  rw [if_neg htotal,if_neg hmax,if_neg (by rw [m.frame_length]; omega),m.frame_payload seq]
  cases hget : JsMap.get pending m.msgId with
  | some pm =>
    exact ⟨pending,pm,accept_eq hm (hholds pm hget) hseq,hholds pm hget,hnodup,
      fun _ _ _ h => h,fun i hi => ⟨pm,rfl,hi⟩⟩
  | none =>
    dsimp only
    generalize hkept : (if pending.length ≥ ChunkedReceiver.maxPendingMessages then
      ChunkedReceiver.evictOldest pending else pending) = kept
    have hsub : kept.Sublist pending := by
      rw [← hkept]
      split
      · unfold ChunkedReceiver.evictOldest
        split
        · exact List.Sublist.refl _
        · exact JsMap.delete_sublist _ _
      · exact List.Sublist.refl _
    have hkeys : (JsMap.keys kept).Nodup := hnodup.sublist (hsub.map _)
    refine ⟨_,_,accept_eq hm (fresh_holds m now) hseq,fresh_holds m now,
      JsMap.nodup_keys_set hkeys _ _,fun id x hid hx => ?_,fun i hi => by cases hi⟩
    rw [JsMap.get_set_ne _ hid] at hx
    exact JsMap.get_sublist hnodup hsub hx

/-- A message that is too long is dropped chunk by chunk. -/
theorem receive_frame_oversize (now : Nat) (hlt : m.total < 256^2) (hseq : seq < m.total)
    (hover : ChunkedReceiver.maxChunks < m.total) :
    ChunkedReceiver.receive pending (m.frame seq) now = some (pending,none) := by
  have htotal : ¬(m.total = 0 || seq ≥ m.total) = true := by
    simp
    omega
  unfold ChunkedReceiver.receive
  rw [if_neg (by rw [m.frame_length]; omega),if_neg (not_not.mpr (m.frame_marker seq)),
    Outgoing.readHeader_frame_of_lt hlt hseq]
  dsimp only
  rw [if_neg htotal,if_pos hover]

end Receive

/-- All of the message has arrived. -/
def done (s : State) (m : Outgoing) : Bool := (left s m).isEmpty

def wholes (s : State) : List Bytes := s.flight.filterMap Parcel.whole?

/-- What has been handed on or is in flight in one piece, against what there is to hand on. -/
def Accounts (R : List Bytes → List Bytes → Prop) (s : State) (raws : List Bytes) : Prop :=
  R (raws ++ wholes s) (s.shorts ++ (s.started.filter (done s)).map Outgoing.data)

/-- What holds in every state, whatever is evicted or times out. -/
structure Inv (f : MsgPack.Float64) (s : State) : Prop where
  threw : s.threw = false
  counters : s.started.map Outgoing.counter = List.range s.msgCounter
  few : s.msgCounter ≤ 2^32
  long : ∀ m ∈ s.started, chunkSize < m.data.length ∧ m.total < 256^2
  marks : ∀ data, Parcel.whole data ∈ s.flight → data.head? ≠ some 0x00
  inFlight : ∀ m i, Parcel.chunk m i ∈ s.flight → m ∈ s.started
  waiting : ∀ x ∈ s.sending, x.msg ∈ s.started ∧ x.seq ≤ x.msg.total
  nodup : ∀ m ∈ s.started, (left s m).Nodup
  bound : ∀ m ∈ s.started, ∀ i ∈ left s m, i < m.total
  keys : (JsMap.keys s.pending).Nodup
  entries : ∀ id pm, JsMap.get s.pending id = some pm → ∃ m ∈ s.started, m.msgId = id ∧
    Holds m pm ∧ ∀ i ∈ JsMap.keys pm.chunks, i ∉ left s m
  handed : ∃ raws, s.handed = raws.map (WireCodec.decode (MsgPack.decode f)) ∧
    Accounts List.Subperm s raws

section Inv
variable {f : MsgPack.Float64} {s t : State} {m m' : Outgoing} {data : Bytes}

theorem inv_initial : Inv f {} where
  threw := rfl
  counters := rfl
  few := Nat.zero_le _
  long m hm := by cases hm
  marks _ h := by cases h
  inFlight _ _ h := by cases h
  waiting _ h := by cases h
  nodup m hm := by cases hm
  bound m hm := by cases hm
  keys := List.nodup_nil
  entries id pm h := by cases h
  handed := ⟨[],rfl,List.Subperm.refl _⟩

theorem Inv.ids (h : Inv f s) : (s.started.map Outgoing.msgId).Nodup := by
  have hid : s.started.map Outgoing.msgId = List.range s.msgCounter := by
    rw [← h.counters]
    refine List.map_congr_left fun m hm => ?_
    have hlt : m.counter ∈ List.range s.msgCounter := by
      rw [← h.counters]
      exact List.mem_map_of_mem hm
    exact Nat.mod_eq_of_lt (lt_of_lt_of_le (List.mem_range.mp hlt) h.few)
  rw [hid]
  exact List.nodup_range

theorem Inv.nodup_started (h : Inv f s) : s.started.Nodup := h.ids.of_map

theorem Inv.holds (h : Inv f s) (hm : m ∈ s.started) {pm : PendingMessage}
    (hget : JsMap.get s.pending m.msgId = some pm) :
    Holds m pm ∧ ∀ i ∈ JsMap.keys pm.chunks, i ∉ left s m := by
  obtain ⟨m',hm',hid,hheld⟩ := h.entries m.msgId pm hget
  obtain rfl := List.inj_on_of_nodup_map h.ids hm' hm hid
  exact hheld

/-- What has not been sent has left nothing. -/
theorem Inv.left_new (h : Inv f s) (hm : m ∉ s.started) : left s m = [] := by
  unfold left
  rw [List.append_eq_nil_iff,List.filterMap_eq_nil_iff,List.flatMap_eq_nil_iff]
  refine ⟨fun p hp => ?_,fun x hx => ?_⟩
  · cases p with
    | whole data => rfl
    | chunk m' i =>
      have hne : m' ≠ m := fun heq => hm (heq ▸ h.inFlight m' i hp)
      simp [Parcel.chunkOf,hne]
  · have hne : x.msg ≠ m := fun heq => hm (heq ▸ (h.waiting x hx).1)
    simp [hne]

/-- Chunks go from the waiting messages to the channel, and nothing else happens. -/
structure Moved (s t : State) : Prop where
  threw : t.threw = s.threw
  msgCounter : t.msgCounter = s.msgCounter
  started : t.started = s.started
  shorts : t.shorts = s.shorts
  pending : t.pending = s.pending
  handed : t.handed = s.handed
  wholes : wholes t = wholes s
  left : ∀ m, (left t m).Perm (left s m)
  inFlight : ∀ p ∈ t.flight, p ∈ s.flight ∨ ∃ m ∈ s.started, ∃ i, p = .chunk m i
  waiting : ∀ x ∈ t.sending, x.msg ∈ s.started ∧ x.seq ≤ x.msg.total

theorem done_congr (h : (left t m').Perm (left s m)) : done t m' = done s m := by
  unfold done
  rw [Bool.eq_iff_iff,List.isEmpty_iff,List.isEmpty_iff]
  refine ⟨fun hnil => ?_,fun hnil => ?_⟩
  · rw [hnil] at h
    exact List.nil_perm.mp h
  · rw [hnil] at h
    exact List.perm_nil.mp h

theorem Moved.inv (hm : Moved s t) (h : Inv f s) : Inv f t where
  threw := hm.threw.trans h.threw
  counters := by rw [hm.started,hm.msgCounter,h.counters]
  few := hm.msgCounter ▸ h.few
  long := hm.started ▸ h.long
  marks data hd := by
    rcases hm.inFlight _ hd with hd | ⟨m,-,i,hd⟩
    · exact h.marks data hd
    · cases hd
  inFlight m i hp := by
    rw [hm.started]
    rcases hm.inFlight _ hp with hp | ⟨m',hm',j,hp⟩
    · exact h.inFlight m i hp
    · cases hp
      exact hm'
  waiting x hx := hm.started ▸ hm.waiting x hx
  nodup m hmem := (hm.left m).nodup_iff.mpr (h.nodup m (hm.started ▸ hmem))
  bound m hmem i hi := h.bound m (hm.started ▸ hmem) i ((hm.left m).subset hi)
  keys := hm.pending ▸ h.keys
  entries id pm hget := by
    rw [hm.pending] at hget
    obtain ⟨m,hmem,hid,hholds,hkeys⟩ := h.entries id pm hget
    exact ⟨m,hm.started ▸ hmem,hid,hholds,fun i hi hleft => hkeys i hi ((hm.left m).subset hleft)⟩
  handed := by
    obtain ⟨raws,hraws,hsub⟩ := h.handed
    refine ⟨raws,hm.handed.trans hraws,?_⟩
    unfold Accounts at hsub ⊢
    rwa [hm.wholes,hm.shorts,hm.started,List.filter_congr fun m _ => done_congr (hm.left m)]

theorem left_task {i : Nat} {x : Sending} {rest : List Sending}
    (ht : Machine.takeTask s.sending i = some (x,rest)) (m : Outgoing) :
    (left { s with sending := rest } m ++
      if x.msg = m then List.range' x.seq (m.total-x.seq) else []).Perm (left s m) := by
  unfold left
  dsimp only
  rw [List.append_assoc]
  refine List.Perm.append_left _ ?_
  refine List.perm_append_comm.trans ?_
  have hperm := (Machine.takeTask_perm ht).flatMap_right fun y =>
    if y.msg = m then List.range' y.seq (m.total-y.seq) else []
  rwa [List.flatMap_cons] at hperm

theorem moved_wake (h : Inv f s) {i : Nat} {x : Sending} {rest : List Sending}
    (ht : Machine.takeTask s.sending i = some (x,rest)) :
    Moved s (State.pump x.msg x.seq (x.msg.total-x.seq) { s with sending := rest }) := by
  obtain ⟨hx,hrest⟩ := Machine.takeTask_mem ht
  obtain ⟨hstarted,hle⟩ := h.waiting x hx
  have htotal : x.seq+(x.msg.total-x.seq) = x.msg.total := Nat.add_sub_cancel' hle
  obtain ⟨b,k,-,-,heq⟩ := pump_eq x.msg x.seq (x.msg.total-x.seq) { s with sending := rest }
  refine ⟨?_,?_,?_,?_,?_,?_,wholes_pump,fun m => ?_,fun p hp => ?_,fun y hy => ?_⟩
  iterate 6 rw [heq]
  · refine (left_pump htotal m).trans ?_
    have htask := left_task ht m
    by_cases hm : x.msg = m
    · subst hm
      exact htask
    · simpa [hm] using htask
  · rcases mem_flight_pump hp with hp | ⟨j,hp⟩
    · exact .inl hp
    · exact .inr ⟨x.msg,hstarted,j,hp⟩
  · rcases mem_sending_pump hy with hy | ⟨hmsg,hseq⟩
    · exact h.waiting y (hrest y hy)
    · rw [hmsg]
      exact ⟨hstarted,htotal ▸ hseq⟩

/-- Data in one piece go to the channel at once. -/
def short (s : State) (data : Bytes) : State :=
  { s.push (.whole data) with shorts := s.shorts ++ [data] }

theorem left_short (s : State) (data : Bytes) (m : Outgoing) :
    left (short s data) m = left s m := by
  simp [left,short,State.push,Parcel.chunkOf]

theorem done_short (s : State) (data : Bytes) : done (short s data) = done s := by
  funext m
  rw [done,done,left_short]

theorem wholes_short (s : State) (data : Bytes) : wholes (short s data) = wholes s ++ [data] := by
  simp [wholes,short,State.push,Parcel.whole?]

theorem shorts_perm (s : State) (data : Bytes) (ds : List Bytes) :
    ((short s data).shorts ++ ds).Perm (s.shorts ++ ds ++ [data]) := by
  simp only [short,List.append_assoc]
  exact List.perm_append_comm.append_left _

theorem inv_short (h : Inv f s) (hmark : data.head? ≠ some 0x00) : Inv f (short s data) := by
  refine ⟨h.threw,h.counters,h.few,h.long,fun d hd => ?_,fun m i hp => ?_,h.waiting,
    fun m hm => left_short s data m ▸ h.nodup m hm,fun m hm => left_short s data m ▸ h.bound m hm,
    h.keys,fun id pm hget => ?_,?_⟩
  · rcases List.mem_append.mp hd with hd | hd
    · exact h.marks d hd
    · cases List.mem_singleton.mp hd
      exact hmark
  · rcases List.mem_append.mp hp with hp | hp
    · exact h.inFlight m i hp
    · cases List.mem_singleton.mp hp
  · obtain ⟨m,hm,hid,hholds,hkeys⟩ := h.entries id pm hget
    exact ⟨m,hm,hid,hholds,fun i hi => left_short s data m ▸ hkeys i hi⟩
  · obtain ⟨raws,hraws,hsub⟩ := h.handed
    refine ⟨raws,hraws,?_⟩
    unfold Accounts at hsub ⊢
    rw [wholes_short,done_short,← List.append_assoc]
    exact ((List.subperm_append_right [data]).mpr hsub).trans (shorts_perm s data _).symm.subperm

/-- A long message gets the next number. -/
def start (s : State) (data : Bytes) : State :=
  { s with msgCounter := s.msgCounter+1, started := s.started ++ [⟨s.msgCounter,data⟩] }

theorem Inv.new (h : Inv f s) (data : Bytes) : ⟨s.msgCounter,data⟩ ∉ s.started := by
  intro hmem
  have hlt : s.msgCounter ∈ s.started.map Outgoing.counter := List.mem_map_of_mem hmem
  rw [h.counters] at hlt
  exact lt_irrefl _ (List.mem_range.mp hlt)

/-- All its chunks are to come, and those of the others as before. -/
theorem left_start (h : Inv f s) (hm : m = ⟨s.msgCounter,data⟩) :
    (∀ m' ∈ s.started, (left (State.pump m 0 m.total (start s data)) m').Perm (left s m')) ∧
      (left (State.pump m 0 m.total (start s data)) m).Perm (List.range' 0 m.total) := by
  have hnew : m ∉ s.started := hm ▸ h.new data
  have hleft : ∀ m', (left (State.pump m 0 m.total (start s data)) m').Perm
      (left s m' ++ if m = m' then List.range' 0 m.total else []) := fun m' =>
    left_pump (Nat.zero_add _) m'
  refine ⟨fun m' hm' => ?_,?_⟩
  · have hne : m ≠ m' := fun heq => hnew (heq ▸ hm')
    simpa [hne] using hleft m'
  · simpa [h.left_new hnew] using hleft m

theorem started_start (hm : m = ⟨s.msgCounter,data⟩) :
    (State.pump m 0 m.total (start s data)).started = s.started ++ [m] := by
  obtain ⟨b,k,-,-,heq⟩ := pump_eq m 0 m.total (start s data)
  rw [heq,hm]
  rfl

theorem filter_done_start (h : Inv f s) (hm : m = ⟨s.msgCounter,data⟩)
    (hlong : chunkSize < m.data.length) :
    (State.pump m 0 m.total (start s data)).started.filter
      (done (State.pump m 0 m.total (start s data))) = s.started.filter (done s) := by
  obtain ⟨hother,hown⟩ := left_start h hm
  have hopen : done (State.pump m 0 m.total (start s data)) m = false := by
    have hone : 1 < m.total := Pieces.one_lt_count (by decide) hlong
    rw [Bool.eq_false_iff,done,ne_eq,List.isEmpty_iff]
    intro hnil
    rw [hnil,List.nil_perm] at hown
    simp at hown
    omega
  have hlast : [m].filter (done (State.pump m 0 m.total (start s data))) = [] := by
    simp [hopen]
  rw [started_start hm,List.filter_append,hlast,List.append_nil]
  exact List.filter_congr fun m' hm' => done_congr (hother m' hm')

theorem inv_start (h : Inv f s) (hfew : s.msgCounter < 2^32) (hm : m = ⟨s.msgCounter,data⟩)
    (hlong : chunkSize < m.data.length) (hlt : m.total < 256^2) :
    Inv f (State.pump m 0 m.total (start s data)) := by
  obtain ⟨hother,hown⟩ := left_start h hm
  have hstarted := started_start hm
  have hcases : ∀ m' ∈ s.started ++ [m], m' ∈ s.started ∨ m' = m := by simp
  have hin : ∀ m' ∈ s.started, m' ∈ s.started ++ [m] := fun m' => List.mem_append_left _
  have hself : m ∈ s.started ++ [m] := by simp
  have hdone := filter_done_start h hm hlong
  obtain ⟨b,k,-,-,heq⟩ := pump_eq m 0 m.total (start s data)
  refine ⟨?_,?_,?_,?_,fun d hd => ?_,fun m' i hp => ?_,fun x hx => ?_,fun m' hm' => ?_,
    fun m' hm' => ?_,?_,fun id pm hget => ?_,?_⟩
  · rw [heq]
    exact h.threw
  · rw [heq]
    simp [start,h.counters,List.range_succ]
  · rw [heq]
    exact hfew
  · rw [hstarted]
    intro m' hm'
    rcases hcases m' hm' with hm' | rfl
    · exact h.long m' hm'
    · exact ⟨hlong,hlt⟩
  · rcases mem_flight_pump hd with hd | ⟨i,hd⟩
    · exact h.marks d hd
    · cases hd
  · rw [hstarted]
    rcases mem_flight_pump hp with hp | ⟨j,hp⟩
    · exact hin m' (h.inFlight m' i hp)
    · cases hp
      exact hself
  · rw [hstarted]
    rcases mem_sending_pump hx with hx | ⟨rfl,hseq⟩
    · exact (h.waiting x hx).imp_left (hin x.msg)
    · exact ⟨hself,by simpa using hseq⟩
  · rcases hcases m' (hstarted ▸ hm') with hm' | rfl
    · exact (hother m' hm').nodup_iff.mpr (h.nodup m' hm')
    · exact hown.nodup_iff.mpr List.nodup_range'
  · intro i hi
    rcases hcases m' (hstarted ▸ hm') with hm' | rfl
    · exact h.bound m' hm' i ((hother m' hm').subset hi)
    · have hmem := hown.subset hi
      rw [List.mem_range'_1] at hmem
      omega
  · rw [heq]
    exact h.keys
  · rw [heq] at hget
    obtain ⟨m',hm',hid,hholds,hkeys⟩ := h.entries id pm hget
    refine ⟨m',hstarted ▸ hin m' hm',hid,hholds,fun i hi hl => ?_⟩
    exact hkeys i hi ((hother m' hm').subset hl)
  · obtain ⟨raws,hraws,hsub⟩ := h.handed
    refine ⟨raws,by rw [heq]; exact hraws,?_⟩
    unfold Accounts at hsub ⊢
    rw [hdone,wholes,wholes_pump,heq]
    exact hsub

/-- The oldest parcel has left the channel. -/
structure Arrived (s t : State) (p : Parcel) : Prop where
  flight : s.flight = p :: t.flight
  sending : t.sending = s.sending
  started : t.started = s.started
  shorts : t.shorts = s.shorts
  msgCounter : t.msgCounter = s.msgCounter

section Arrived
variable {p : Parcel} {seq now : Nat}

theorem Arrived.left (ha : Arrived s t p) (m : Outgoing) :
    left s m = (p.chunkOf m).toList ++ left t m := by
  unfold DataChannel.left
  rw [ha.flight,ha.sending,← List.append_assoc]
  cases h : p.chunkOf m <;> simp [h]

theorem Arrived.wholes (ha : Arrived s t p) : wholes s = p.whole?.toList ++ wholes t := by
  unfold DataChannel.wholes
  rw [ha.flight]
  cases h : p.whole? <;> simp [h]

theorem Arrived.done (ha : Arrived s t p) (h : done s m = true) : done t m = true := by
  unfold DataChannel.done at h ⊢
  rw [List.isEmpty_iff] at h ⊢
  rw [ha.left m] at h
  exact (List.append_eq_nil_iff.mp h).2

theorem Arrived.filter_done (ha : Arrived s t p) :
    (s.started.filter (DataChannel.done s)).Sublist (t.started.filter (DataChannel.done t)) := by
  rw [ha.started]
  exact List.monotone_filter_right _ fun m => ha.done

theorem Inv.arrived (h : Inv f s) (ha : Arrived s t p) (hthrew : t.threw = false)
    (hkeys : (JsMap.keys t.pending).Nodup)
    (hentries : ∀ id pm, JsMap.get t.pending id = some pm → ∃ m ∈ s.started, m.msgId = id ∧
      Holds m pm ∧ ∀ i ∈ JsMap.keys pm.chunks, i ∉ left t m)
    (hhanded : ∃ raws, t.handed = raws.map (WireCodec.decode (MsgPack.decode f)) ∧
      Accounts List.Subperm t raws) : Inv f t where
  threw := hthrew
  counters := by rw [ha.started,ha.msgCounter,h.counters]
  few := ha.msgCounter ▸ h.few
  long := ha.started ▸ h.long
  marks data hd := h.marks data (ha.flight ▸ List.mem_cons_of_mem p hd)
  inFlight m i hp := ha.started ▸ h.inFlight m i (ha.flight ▸ List.mem_cons_of_mem p hp)
  waiting := by
    rw [ha.sending,ha.started]
    exact h.waiting
  nodup m hm := by
    have hn := h.nodup m (ha.started ▸ hm)
    rw [ha.left m] at hn
    exact hn.of_append_right
  bound m hm i hi := by
    refine h.bound m (ha.started ▸ hm) i ?_
    rw [ha.left m]
    exact List.mem_append_right _ hi
  keys := hkeys
  entries := by
    rw [ha.started]
    exact hentries
  handed := hhanded

/-- The entries are good for what comes later too. -/
theorem Inv.entries_arrived (h : Inv f s) (ha : Arrived s t p) (id : Nat) (pm : PendingMessage)
    (hget : JsMap.get s.pending id = some pm) : ∃ m ∈ s.started, m.msgId = id ∧ Holds m pm ∧
      ∀ i ∈ JsMap.keys pm.chunks, i ∉ DataChannel.left t m := by
  obtain ⟨m,hm,hid,hholds,hkeys⟩ := h.entries id pm hget
  refine ⟨m,hm,hid,hholds,fun i hi hl => hkeys i hi ?_⟩
  rw [ha.left m]
  exact List.mem_append_right _ hl

theorem Arrived.accounts_same {raws : List Bytes} (ha : Arrived s t p)
    (hw : p.whole? = none) (h : Accounts List.Subperm s raws) :
    Accounts List.Subperm t raws := by
  unfold Accounts at h ⊢
  rw [ha.wholes,hw] at h
  rw [ha.shorts]
  exact h.trans ((ha.filter_done.map _).append_left _).subperm

theorem arrive_eq {pending : Pending} {out : Option Bytes}
    (h : ChunkedReceiver.receive s.pending p.frame now = some (pending,out)) (ps : List Parcel) :
    arrive f s p ps now = arrived f s ps pending out := by
  rw [arrive,h]

theorem arrived_of {ps : List Parcel} (hf : s.flight = p :: ps) (pending : Pending)
    (out : Option Bytes) : Arrived s (arrived f s ps pending out) p :=
  ⟨hf,rfl,rfl,rfl,rfl⟩

@[simp] theorem arrived_pending (s : State) (ps : List Parcel) (pending : Pending)
    (out : Option Bytes) : (arrived f s ps pending out).pending = pending := rfl

theorem handed_arrived {raws : List Bytes}
    (h : s.handed = raws.map (WireCodec.decode (MsgPack.decode f))) (ps : List Parcel)
    (pending : Pending) (out : Option Bytes) : (arrived f s ps pending out).handed =
      (raws ++ out.toList).map (WireCodec.decode (MsgPack.decode f)) := by
  rw [List.map_append,← h]
  rfl

theorem receive_frame_whole {ps : List Parcel} (h : Inv f s) (hf : s.flight = .whole data :: ps) :
    ChunkedReceiver.receive s.pending (Parcel.whole data).frame now = some (s.pending,some data) :=
  (receive_whole (h.marks data (by rw [hf]; exact List.mem_cons_self))).1

theorem inv_arrive_whole {ps : List Parcel} (h : Inv f s) (hf : s.flight = .whole data :: ps) :
    Inv f (arrive f s (.whole data) ps now) := by
  rw [arrive_eq (receive_frame_whole h hf)]
  have ha := arrived_of (f := f) hf s.pending (some data)
  refine h.arrived ha h.threw h.keys (h.entries_arrived ha) ?_
  obtain ⟨raws,hraws,hsub⟩ := h.handed
  refine ⟨raws ++ [data],handed_arrived hraws ps _ _,?_⟩
  unfold Accounts at hsub ⊢
  rw [ha.wholes] at hsub
  rw [List.append_assoc]
  exact hsub.trans ((ha.filter_done.map _).append_left _).subperm

theorem left_chunk (ha : Arrived s t (.chunk m seq)) : left s m = seq :: left t m := by
  rw [ha.left m]
  simp [Parcel.chunkOf]

/-- The last chunk that was missing. -/
theorem done_of_complete (h : Inv f s) (ha : Arrived s t (.chunk m seq)) (hm : m ∈ s.started)
    {pm : PendingMessage} (hholds : Holds m pm) (hkeys : ∀ i ∈ JsMap.keys pm.chunks, i ∉ left s m)
    (hlen : pm.chunks.length+1 = m.total) : done t m = true := by
  have hleft := left_chunk ha
  have hseq : seq ∈ left s m := hleft ▸ List.mem_cons_self
  have hnew : JsMap.has pm.chunks seq = false := by
    rw [Bool.eq_false_iff,ne_eq,JsMap.has_iff]
    exact fun hmem => hkeys seq hmem hseq
  have hadd := hholds.add hnew (h.bound m hm seq hseq)
  have hall := hadd.length_eq_iff.mp (by rw [length_add hnew,hlen])
  have hnodup := h.nodup m hm
  rw [hleft,List.nodup_cons] at hnodup
  rw [done,List.isEmpty_iff,List.eq_nil_iff_forall_not_mem]
  intro i hi
  have hmem : i ∈ left s m := hleft ▸ List.mem_cons_of_mem seq hi
  have hkey := hall i (h.bound m hm i hmem)
  rw [keys_add hnew] at hkey
  rcases List.mem_append.mp hkey with hkey | hkey
  · exact hkeys i hkey hmem
  · exact hnodup.1 (List.mem_singleton.mp hkey ▸ hi)

/-- The message counts from now on. -/
theorem Inv.filter_done_cons (h : Inv f s) (ha : Arrived s t (.chunk m seq)) (hm : m ∈ s.started)
    (hdone : done t m = true) :
    (m :: s.started.filter (done s)).Subperm (t.started.filter (done t)) := by
  have hopen : done s m = false := by
    rw [done,left_chunk ha]
    rfl
  have hnodup : (m :: s.started.filter (done s)).Nodup :=
    List.nodup_cons.mpr ⟨by simp [hopen],h.nodup_started.filter _⟩
  refine List.subperm_of_subset hnodup fun m' hm' => ?_
  rcases List.mem_cons.mp hm' with rfl | hm'
  · exact List.mem_filter.mpr ⟨ha.started ▸ hm,hdone⟩
  · exact ha.filter_done.subset hm'

theorem Inv.accounts_done (h : Inv f s) (ha : Arrived s t (.chunk m seq)) (hm : m ∈ s.started)
    (hdone : done t m = true) {raws : List Bytes} (hsub : Accounts List.Subperm s raws) :
    Accounts List.Subperm t (raws ++ [m.data]) := by
  unfold Accounts at hsub ⊢
  obtain ⟨l,hl,hsublist⟩ := h.filter_done_cons ha hm hdone
  have hwhole : wholes s = wholes t := ha.wholes
  rw [hwhole] at hsub
  rw [ha.shorts]
  have hmore : (m.data :: (s.started.filter (done s)).map Outgoing.data).Subperm
      ((t.started.filter (done t)).map Outgoing.data) :=
    ⟨l.map Outgoing.data,hl.map Outgoing.data,hsublist.map Outgoing.data⟩
  have hfirst : (raws ++ [m.data] ++ wholes t).Perm (m.data :: (raws ++ wholes t)) := by
    rw [List.append_assoc]
    exact List.perm_middle
  exact hfirst.subperm.trans (((List.subperm_cons m.data).mpr hsub).trans
    (List.perm_middle.symm.subperm.trans ((List.subperm_append_left s.shorts).mpr hmore)))

theorem inv_arrive_chunk {ps : List Parcel} (h : Inv f s) (hf : s.flight = .chunk m seq :: ps) :
    Inv f (arrive f s (.chunk m seq) ps now) := by
  have hm : m ∈ s.started := h.inFlight m seq (by rw [hf]; exact List.mem_cons_self)
  have hseq : seq ∈ left s m := by
    rw [left,hf]
    simp [Parcel.chunkOf]
  have hbound := h.bound m hm seq hseq
  obtain ⟨hlower,hlt⟩ := h.long m hm
  obtain ⟨raws,hraws,hsub⟩ := h.handed
  by_cases hupper : m.data.length ≤ ChunkedReceiver.maxMessageBytes
  · obtain ⟨base,pm,hreceive,hholds,hbase,hbaseGet,hpmKeys⟩ := receive_frame_some now
      ⟨hlower,hupper⟩ hbound h.keys fun pm hget => (h.holds hm hget).1
    have hkeys : ∀ i ∈ JsMap.keys pm.chunks, i ∉ left s m := by
      intro i hi
      obtain ⟨pm',hget,hi⟩ := hpmKeys i hi
      exact (h.holds hm hget).2 i hi
    have hnew : JsMap.has pm.chunks seq = false := by
      rw [Bool.eq_false_iff,ne_eq,JsMap.has_iff]
      exact fun hmem => hkeys seq hmem hseq
    rw [deliver,if_neg (by simp [hnew])] at hreceive
    split at hreceive
    · next hlen =>
      rw [arrive_eq hreceive]
      have ha := arrived_of (f := f) hf (JsMap.delete base m.msgId) (some m.data)
      have hdone := done_of_complete h ha hm hholds hkeys hlen
      refine h.arrived ha h.threw (JsMap.nodup_keys_delete hbase _) (fun id x hx => ?_)
        ⟨raws ++ [m.data],handed_arrived hraws ps _ _,h.accounts_done ha hm hdone hsub⟩
      rw [arrived_pending] at hx
      have hid : id ≠ m.msgId := by
        rintro rfl
        rw [JsMap.get_delete_self] at hx
        cases hx
      rw [JsMap.get_delete_ne hid] at hx
      exact h.entries_arrived ha id x (hbaseGet id x hid hx)
    · rw [arrive_eq hreceive]
      have ha := arrived_of (f := f) hf (JsMap.set base m.msgId (pm.add seq (m.piece seq))) none
      refine h.arrived ha h.threw (JsMap.nodup_keys_set hbase _ _) (fun id x hx => ?_)
        ⟨raws,by simp [handed_arrived hraws],ha.accounts_same rfl hsub⟩
      rw [arrived_pending] at hx
      by_cases hid : id = m.msgId
      · subst hid
        rw [JsMap.get_set_self] at hx
        cases hx
        refine ⟨m,hm,rfl,hholds.add hnew hbound,fun i hi => ?_⟩
        have hleft := left_chunk ha
        rw [keys_add hnew] at hi
        rcases List.mem_append.mp hi with hi | hi
        · exact fun hl => hkeys i hi (hleft ▸ List.mem_cons_of_mem seq hl)
        · have hnodup := h.nodup m hm
          rw [hleft,List.nodup_cons] at hnodup
          exact List.mem_singleton.mp hi ▸ hnodup.1
      · rw [JsMap.get_set_ne _ hid] at hx
        exact h.entries_arrived ha id x (hbaseGet id x hid hx)
  · have hover : ChunkedReceiver.maxChunks < m.total := by
      by_contra hle
      have hpos : 0 < chunkSize := by decide
      have hmul : m.data.length ≤ m.total*chunkSize := Pieces.le_count_mul hpos _
      have hcap := Nat.mul_le_mul_right chunkSize (not_lt.mp hle)
      have hsize : ChunkedReceiver.maxChunks*chunkSize = ChunkedReceiver.maxMessageBytes := by
        decide
      rw [hsize] at hcap
      exact hupper (le_trans hmul hcap)
    have hreceive : ChunkedReceiver.receive s.pending (Parcel.chunk m seq).frame now =
      some (s.pending,none) := receive_frame_oversize now hlt hbound hover
    rw [arrive_eq hreceive]
    have ha := arrived_of (f := f) hf s.pending none
    exact h.arrived ha h.threw h.keys (h.entries_arrived ha)
      ⟨raws,by simp [handed_arrived hraws],ha.accounts_same rfl hsub⟩

end Arrived

/-- What a handler sends: an object that msgpack reads back as it was, in no more chunks than the
header can count. -/
structure Sendable (f : MsgPack.Float64) (type : WireType) (payload : Val) : Prop where
  known : type ∈ WireType.known
  object : ∃ fs, payload = .obj fs
  portable : MsgPack.Portable f payload
  size : ∀ data, WireCodec.encode f type payload = some data → data.length ≤ (256^2-1)*chunkSize

section Sendable
variable {type : WireType} {payload : Val}

theorem Sendable.decode (h : Sendable f type payload)
    (he : WireCodec.encode f type payload = some data) :
    WireCodec.decode (MsgPack.decode f) data = WireCodec.received type payload := by
  obtain ⟨fs,rfl⟩ := h.object
  exact WireCodec.decode_encode h.known he (WireCodec.portable_taggedPayload type h.portable)

theorem Sendable.mark (he : WireCodec.encode f type payload = some data) :
    data.head? ≠ some 0x00 := by
  rw [WireCodec.encode_head he]
  exact fun heq => WireCodec.byte_ne_zero type (Option.some.inj heq)

theorem Sendable.total_lt (h : Sendable f type payload)
    (he : WireCodec.encode f type payload = some data) (c : Nat) :
    Outgoing.total ⟨c,data⟩ < 256^2 :=
  Nat.lt_of_le_pred (by decide) (Pieces.count_le (by decide) (h.size data he))

theorem send_short (s : State) (h : data.length ≤ chunkSize) :
    s.send data = short s data := by
  rw [State.send,if_pos h]
  rfl

theorem send_long (s : State) (h : ¬data.length ≤ chunkSize) : s.send data =
    State.pump ⟨s.msgCounter,data⟩ 0 (Outgoing.total ⟨s.msgCounter,data⟩) (start s data) := by
  rw [State.send,if_neg h]
  rfl

theorem inv_send (h : Inv f s) (hfew : s.msgCounter < 2^32) (hs : Sendable f type payload)
    (he : WireCodec.encode f type payload = some data) : Inv f (s.send data) := by
  by_cases hlen : data.length ≤ chunkSize
  · rw [send_short s hlen]
    exact inv_short h (Sendable.mark he)
  · rw [send_long s hlen]
    exact inv_start h hfew rfl (not_le.mp hlen) (hs.total_lt he _)

end Sendable

/-- An entry that is dropped was not needed. -/
theorem inv_cleanup (h : Inv f s) (now : Nat) :
    Inv f { s with pending := ChunkedReceiver.cleanup s.pending now } :=
  { h with
    keys := h.keys.sublist (List.filter_sublist.map _)
    entries := fun id pm hget =>
      h.entries id pm (JsMap.get_sublist h.keys List.filter_sublist hget) }

theorem inv_step (h : Inv f s) {a : Action} (hs : step f s a = some t)
    (hsend : ∀ type payload, a = .send type payload →
      Sendable f type payload ∧ s.msgCounter < 2^32) : Inv f t := by
  cases a with
  | send type payload =>
    obtain ⟨data,he,rfl⟩ := Option.map_eq_some_iff.mp hs
    obtain ⟨hok,hfew⟩ := hsend type payload rfl
    exact inv_send h hfew hok he
  | drain n =>
    cases hs
    exact { h with }
  | wake i =>
    obtain ⟨x,hx,rfl⟩ := Option.map_eq_some_iff.mp hs
    exact (moved_wake h hx).inv h
  | arrive now =>
    rw [step] at hs
    split at hs
    · cases hs
    · next p ps hf =>
      cases hs
      cases p with
      | whole data => exact inv_arrive_whole h hf
      | chunk m seq => exact inv_arrive_chunk h hf
  | cleanup now =>
    cases hs
    exact inv_cleanup h now

/-- What was sent in chunks and in one piece is what the run says. -/
structure Record (f : MsgPack.Float64) (as : List Action) (s : State) : Prop where
  counter : s.msgCounter ≤ (sent as).length
  sent : ((s.shorts ++ s.started.map Outgoing.data).map (WireCodec.decode (MsgPack.decode f))).Perm
    (sent as)

theorem sent_append (as bs : List Action) : sent (as ++ bs) = sent as ++ sent bs :=
  List.filterMap_append

theorem Record.of_same {as : List Action} {a : Action} (h : Record f as s)
    (ha : DataChannel.sent [a] = []) (hc : t.msgCounter = s.msgCounter) (hstarted : t.started = s.started)
    (hshorts : t.shorts = s.shorts) : Record f (as ++ [a]) t where
  counter := by
    rw [sent_append,ha,List.append_nil,hc]
    exact h.counter
  sent := by
    rw [sent_append,ha,List.append_nil,hstarted,hshorts]
    exact h.sent

theorem record_send {as : List Action} (h : Record f as s) {type : WireType} {payload : Val}
    (hs : Sendable f type payload) (he : WireCodec.encode f type payload = some data) :
    Record f (as ++ [.send type payload]) (s.send data) := by
  have hsent : sent (as ++ [.send type payload]) =
      sent as ++ [WireCodec.decode (MsgPack.decode f) data] := by
    rw [sent_append,hs.decode he]
    rfl
  have hcounter := h.counter
  by_cases hlen : data.length ≤ chunkSize
  · rw [send_short s hlen]
    refine ⟨?_,?_⟩
    · rw [hsent,List.length_append]
      exact Nat.le_add_right_of_le hcounter
    · rw [hsent]
      have hperm := (shorts_perm s data (s.started.map Outgoing.data)).map
        (WireCodec.decode (MsgPack.decode f))
      refine hperm.trans ?_
      rw [List.map_append]
      exact h.sent.append_right _
  · rw [send_long s hlen]
    have hstarted :=
      started_start (rfl : (⟨s.msgCounter,data⟩ : Outgoing) = ⟨s.msgCounter,data⟩)
    obtain ⟨b,k,-,-,heq⟩ := pump_eq ⟨s.msgCounter,data⟩ 0
      (Outgoing.total ⟨s.msgCounter,data⟩) (start s data)
    refine ⟨?_,?_⟩
    · rw [heq,hsent,List.length_append]
      exact Nat.succ_le_succ hcounter
    · rw [hsent,hstarted,heq]
      have hperm := h.sent.append_right [WireCodec.decode (MsgPack.decode f) data]
      refine List.Perm.trans ?_ hperm
      simp [start]

theorem record_step {as : List Action} (h : Record f as s) (hi : Inv f s) {a : Action}
    (hs : step f s a = some t)
    (hsend : ∀ type payload, a = .send type payload → Sendable f type payload) :
    Record f (as ++ [a]) t := by
  cases a with
  | send type payload =>
    obtain ⟨data,he,rfl⟩ := Option.map_eq_some_iff.mp hs
    exact record_send h (hsend type payload rfl) he
  | drain n =>
    cases hs
    exact h.of_same rfl rfl rfl rfl
  | wake i =>
    obtain ⟨x,hx,rfl⟩ := Option.map_eq_some_iff.mp hs
    have hm := moved_wake hi hx
    exact h.of_same rfl hm.msgCounter hm.started hm.shorts
  | arrive now =>
    rw [step] at hs
    split at hs
    · cases hs
    · cases hs
      rw [arrive]
      split
      · exact h.of_same rfl rfl rfl rfl
      · exact h.of_same rfl rfl rfl rfl
  | cleanup now =>
    cases hs
    exact h.of_same rfl rfl rfl rfl

theorem inv_run {as : List Action} (hr : Machine.run (step f) {} as = some s)
    (hok : ∀ type payload, .send type payload ∈ as → Sendable f type payload)
    (hfew : (sent as).length ≤ 2^32) : Inv f s ∧ Record f as s := by
  refine Machine.run_induction (P := fun as s =>
    (∀ type payload, .send type payload ∈ as → Sendable f type payload) →
      (sent as).length ≤ 2^32 → Inv f s ∧ Record f as s) ?_ ?_ hr hok hfew
  · exact fun _ _ => ⟨inv_initial,⟨Nat.zero_le _,List.Perm.refl _⟩⟩
  · intro as s a t _ ih hs hok hfew
    rw [sent_append,List.length_append] at hfew
    obtain ⟨hi,hrec⟩ := ih (fun type payload h => hok type payload (List.mem_append_left _ h))
      (by omega)
    have ha : ∀ type payload, a = .send type payload → Sendable f type payload :=
      fun type payload h => hok type payload (by simp [h])
    refine ⟨inv_step hi hs fun type payload h => ⟨ha type payload h,?_⟩,record_step hrec hi hs ha⟩
    have hone : (sent [a]).length = 1 := by rw [h]; rfl
    have hcounter := hrec.counter
    omega

def sampleFloat64 : MsgPack.Float64 :=
  ⟨fun _ => List.replicate 8 0,fun _ => .fin 0,MsgPack.zeros_length⟩

/-- An answer of two chunks. -/
def answer : Val := .obj [("entries",.bytes (List.replicate 5000 7))]

def beat : Val := .obj [("ts",.num (Number.ofNat 1))]

def answerRun : List Action :=
  [.send .dhtRes answer,.send .ping beat,.arrive 0,.arrive 0,.arrive 1]

theorem length_answer (h : WireCodec.encode sampleFloat64 .dhtRes answer = some data) :
    data.length = 5026 := by
  have hlen : (WireCodec.encode sampleFloat64 .dhtRes answer).map List.length = some 5026 := by
    decide +kernel
  rw [h] at hlen
  exact Option.some.inj hlen

theorem length_beat (h : WireCodec.encode sampleFloat64 .ping beat = some data) :
    data.length = 16 := by
  have hlen : (WireCodec.encode sampleFloat64 .ping beat).map List.length = some 16 := by
    decide +kernel
  rw [h] at hlen
  exact Option.some.inj hlen

theorem sendable_answerRun (type : WireType) (payload : Val)
    (h : .send type payload ∈ answerRun) : Sendable sampleFloat64 type payload := by
  rcases List.mem_cons.mp h with h | h
  · cases h
    refine ⟨by decide,⟨_,rfl⟩,?_,fun data hdata => ?_⟩
    · unfold answer
      generalize List.replicate 5000 (7 : UInt8) = entries
      simp [MsgPack.Portable,MsgPack.PortableFields,JsMap.keys]
    · rw [length_answer hdata]
      decide
  rcases List.mem_cons.mp h with h | h
  · cases h
    refine ⟨by decide,⟨_,rfl⟩,?_,fun data hdata => ?_⟩
    · simp [beat,MsgPack.Portable,MsgPack.PortableFields,JsMap.keys,Number.toSafeInt?_ofNat]
    · rw [length_beat hdata]
      decide
  · simp at h

end Inv

end DataChannel
