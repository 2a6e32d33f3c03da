import AetherLite.Cache.Chunked
import AetherLite.Lib.Pieces

/-! Messages on their way between two ends of a channel, their chunks in any order. -/
set_option autoImplicit false

namespace ChunkedStream

/-- A message with the counter its sender gave it. -/
structure Outgoing where
  counter : Nat
  data : Bytes
  deriving DecidableEq

namespace Outgoing

def msgId (m : Outgoing) : Nat := m.counter % 2^32
def total (m : Outgoing) : Nat := Pieces.count chunkSize m.data.length
def piece (m : Outgoing) (seq : Nat) : Bytes := Pieces.piece chunkSize m.data seq

def frame (m : Outgoing) (seq : Nat) : Bytes :=
  encodeHeader m.msgId seq m.total (m.piece seq).length (seq == m.total-1) ++ m.piece seq

/-- What both ends send in chunks. -/
structure Long (m : Outgoing) : Prop where
  lower : chunkSize < m.data.length
  upper : m.data.length ≤ ChunkedReceiver.maxMessageBytes

variable {m : Outgoing}

theorem Long.one_lt_total (h : m.Long) : 1 < m.total := Pieces.one_lt_count (by decide) h.lower

theorem Long.total_le (h : m.Long) : m.total ≤ ChunkedReceiver.maxChunks :=
  Pieces.count_le (by decide) h.upper

theorem msgId_lt (m : Outgoing) : m.msgId < 256^4 := Nat.mod_lt _ (by decide)

theorem piece_length_le (m : Outgoing) (seq : Nat) : (m.piece seq).length ≤ 4096 :=
  Pieces.length_piece_le seq

theorem payload_eq (m : Outgoing) (seq : Nat) :
    (m.data.drop (seq*chunkSize)).take (min (seq*chunkSize+chunkSize) m.data.length-seq*chunkSize) =
      m.piece seq := by
  rw [piece,Pieces.piece]
  by_cases h : seq*chunkSize+chunkSize ≤ m.data.length
  · rw [Nat.min_eq_left h,Nat.add_sub_cancel_left]
  · rw [Nat.min_eq_right (by omega),← List.length_drop,List.take_length,List.take_of_length_le]
    rw [List.length_drop]
    omega

theorem send_eq (h : m.Long) :
    (ChunkedSender.send m.counter m.data).1 = (List.range m.total).map m.frame := by
  unfold ChunkedSender.send
  rw [if_neg (not_le.mpr h.lower)]
  refine List.map_congr_left fun seq _ => ?_
  dsimp only
  rw [payload_eq]
  rfl

theorem encode_eq (h : m.Long) :
    (Cache.ChunkedSender.encode (UInt32.ofNat m.counter) m.data).1 =
      (List.range m.total).map m.frame := by
  unfold Cache.ChunkedSender.encode
  rw [if_neg (not_le.mpr h.lower)]
  refine List.map_congr_left fun seq _ => ?_
  dsimp only
  have hid : (UInt32.ofNat m.counter).toNat = m.msgId := by simp [msgId]
  rw [payload_eq,hid]
  rfl

section Frame
variable {seq : Nat}

theorem frame_length (m : Outgoing) (seq : Nat) :
    (m.frame seq).length = headerSize+(m.piece seq).length := by
  simp [frame,encodeHeader,headerSize]
  omega

theorem frame_marker (m : Outgoing) (seq : Nat) : (m.frame seq).getD 0 0 = 0x00 := by
  simp [frame,encodeHeader]

theorem frame_payload (m : Outgoing) (seq : Nat) :
    ((m.frame seq).drop headerSize).take (m.piece seq).length = m.piece seq := by
  have hdrop : (m.frame seq).drop headerSize = m.piece seq := by
    rw [frame,List.drop_left' (by simp [encodeHeader,headerSize])]
  rw [hdrop,List.take_length]

/-- A field of a text that is made of fields. -/
theorem field_eq {before field after : Bytes} {i n : Nat} (hi : before.length = i)
    (hn : field.length = n) : ((before ++ (field ++ after)).drop i).take n = field := by
  rw [List.drop_left' hi,List.take_left' hn]

theorem readHeader_frame_of_lt (htotal : m.total < 256^2) (hseq : seq < m.total) :
    readHeader (m.frame seq) = ⟨m.msgId,seq,m.total,(m.piece seq).length⟩ := by
  have hlen := m.piece_length_le seq
  let be := Bytes.bigEndian
  let rest := [if seq == m.total-1 then 0x01 else 0x00] ++ m.piece seq
  have hframe : m.frame seq = [0] ++ (be 4 m.msgId ++ (be 2 seq ++ (be 2 m.total ++
      (be 2 (m.piece seq).length ++ rest)))) := by
    simp [frame,encodeHeader,be,rest]
  have hid : ((m.frame seq).drop 1).take 4 = be 4 m.msgId := by
    rw [hframe]
    exact field_eq rfl (by simp [be])
  have hs : ((m.frame seq).drop 5).take 2 = be 2 seq := by
    rw [hframe,← List.append_assoc]
    exact field_eq (by simp [be]) (by simp [be])
  have ht : ((m.frame seq).drop 7).take 2 = be 2 m.total := by
    rw [hframe,← List.append_assoc,← List.append_assoc]
    exact field_eq (by simp [be]) (by simp [be])
  have hp : ((m.frame seq).drop 9).take 2 = be 2 (m.piece seq).length := by
    rw [hframe,← List.append_assoc,← List.append_assoc,← List.append_assoc]
    exact field_eq (by simp [be]) (by simp [be])
  unfold readHeader
  rw [hid,hs,ht,hp,Bytes.toNat_bigEndian m.msgId_lt,Bytes.toNat_bigEndian (by omega),
    Bytes.toNat_bigEndian (by omega),Bytes.toNat_bigEndian (by omega)]

theorem readHeader_frame (h : m.Long) (hseq : seq < m.total) :
    readHeader (m.frame seq) = ⟨m.msgId,seq,m.total,(m.piece seq).length⟩ :=
  readHeader_frame_of_lt (lt_of_le_of_lt h.total_le (by decide)) hseq

end Frame

end Outgoing

/-- The entry holds pieces of the message, each under its number. -/
structure Holds (m : Outgoing) (pm : PendingMessage) : Prop where
  total : pm.totalChunks = m.total
  nodup : (JsMap.keys pm.chunks).Nodup
  lt : ∀ i ∈ JsMap.keys pm.chunks, i < m.total
  pieces : ∀ e ∈ pm.chunks, e.2 = m.piece e.1
  size : pm.totalSize = (pm.chunks.map fun e => e.2.length).sum

section Entry
variable {m : Outgoing} {pm : PendingMessage} {seq : Nat}

theorem Holds.sum_eq (h : Holds m pm) :
    pm.totalSize = ((JsMap.keys pm.chunks).map fun i => (m.piece i).length).sum := by
  rw [h.size,JsMap.keys,List.map_map]
  congr 1
  refine List.map_congr_left fun e he => ?_
  rw [Function.comp_apply,← h.pieces e he]

theorem Holds.totalSize_le (h : Holds m pm) : pm.totalSize ≤ m.data.length := by
  rw [h.sum_eq]
  exact Pieces.sum_length_le (by decide) h.nodup h.lt

theorem fresh_holds (m : Outgoing) (now : Nat) :
    Holds m { totalChunks := m.total, createdAt := now } where
  total := rfl
  nodup := List.nodup_nil
  lt i hi := by cases hi
  pieces e he := by cases he
  size := rfl

theorem add_chunks (hnew : JsMap.has pm.chunks seq = false) (payload : Bytes) :
    (pm.add seq payload).chunks = pm.chunks ++ [(seq,payload)] := by
  refine JsMap.set_of_get_none payload ?_
  simpa [JsMap.has] using hnew

theorem keys_add (hnew : JsMap.has pm.chunks seq = false) (payload : Bytes) :
    JsMap.keys (pm.add seq payload).chunks = JsMap.keys pm.chunks ++ [seq] := by
  simp [JsMap.keys,add_chunks hnew]

theorem Holds.add (h : Holds m pm) (hnew : JsMap.has pm.chunks seq = false)
    (hseq : seq < m.total) : Holds m (pm.add seq (m.piece seq)) where
  total := h.total
  nodup := JsMap.nodup_keys_set h.nodup seq (m.piece seq)
  lt i hi := by
    rw [keys_add hnew] at hi
    rcases List.mem_append.mp hi with hi | hi
    · exact h.lt i hi
    · exact List.mem_singleton.mp hi ▸ hseq
  pieces e he := by
    rw [add_chunks hnew] at he
    rcases List.mem_append.mp he with he | he
    · exact h.pieces e he
    · rw [List.mem_singleton.mp he]
  size := by
    rw [add_chunks hnew,List.map_append,List.sum_append,← h.size]
    simp [PendingMessage.add]

/-- As many chunks as there are pieces are all of them. -/
theorem Holds.length_eq_iff (h : Holds m pm) :
    pm.chunks.length = m.total ↔ ∀ i < m.total, i ∈ JsMap.keys pm.chunks := by
  have hlen : (JsMap.keys pm.chunks).length = pm.chunks.length := by simp [JsMap.keys]
  have hsub : (JsMap.keys pm.chunks).Subperm (List.range m.total) :=
    List.subperm_of_subset h.nodup fun i hi => List.mem_range.mpr (h.lt i hi)
  constructor
  · intro heq i hi
    have hperm := Pieces.perm_range h.nodup h.lt (hlen.trans heq)
    exact hperm.mem_iff.mpr (List.mem_range.mpr hi)
  · intro hall
    have hle := hsub.length_le
    have hge := (List.subperm_of_subset List.nodup_range fun i hi =>
      hall i (List.mem_range.mp hi)).length_le
    simp only [List.length_range,hlen] at hle hge
    omega

theorem Holds.get_eq (h : Holds m pm) {i : Nat} (hi : i ∈ JsMap.keys pm.chunks) :
    JsMap.get pm.chunks i = some (m.piece i) := by
  obtain ⟨e,he,rfl⟩ := List.mem_map.mp hi
  rw [← h.pieces e he]
  exact JsMap.get_of_mem h.nodup he

theorem Holds.data_eq (h : Holds m pm) (hlen : pm.chunks.length = m.total) :
    ((List.range m.total).map m.piece).flatten = m.data ∧ pm.totalSize = m.data.length := by
  have hjoin : ((List.range m.total).map m.piece).flatten = m.data := by
    rw [← List.flatMap_def]
    exact Pieces.join (by decide)
  refine ⟨hjoin,?_⟩
  have hperm := Pieces.perm_range h.nodup h.lt (by simp [JsMap.keys,hlen])
  rw [h.sum_eq,(hperm.map _).sum_eq,← hjoin,List.length_flatten,List.map_map]
  rfl

theorem fill_flatten {size : Nat} (parts : List Bytes) {written : Bytes}
    (h : written.length+parts.flatten.length = size) :
    ChunkedReceiver.fill size written parts = some (written ++ parts.flatten) := by
  induction parts generalizing written with
  | nil =>
    have hsize : size-written.length = 0 := by
      simp at h
      omega
    simp [ChunkedReceiver.fill,hsize]
  | cons part parts ih =>
    rw [List.flatten_cons,List.length_append] at h
    have hlen : (written ++ part).length+parts.flatten.length = size := by
      rw [List.length_append]
      omega
    rw [ChunkedReceiver.fill,if_pos (by omega),ih hlen]
    simp

theorem Holds.assemble (h : Holds m pm) (hlen : pm.chunks.length = m.total) :
    ChunkedReceiver.assemble pm = some m.data := by
  obtain ⟨hdata,hsize⟩ := h.data_eq hlen
  have hparts : ((List.range pm.totalChunks).map fun i => (JsMap.get pm.chunks i).getD []) =
      (List.range m.total).map m.piece := by
    rw [h.total]
    refine List.map_congr_left fun i hi => ?_
    rw [h.get_eq (h.length_eq_iff.mp hlen i (List.mem_range.mp hi)),Option.getD_some]
  rw [ChunkedReceiver.assemble,hparts,fill_flatten,hdata,List.nil_append]
  rw [hdata,hsize,List.length_nil,Nat.zero_add]

theorem assemble_flatten {size : Nat} {chunks : JsMap Nat Bytes} {part : Nat → Bytes}
    {is : List Nat} (hget : ∀ i ∈ is, JsMap.get chunks i = some (part i)) {written : Bytes}
    (h : written.length+(is.map part).flatten.length = size) :
    Cache.ChunkedReceiver.assemble size chunks written is =
      some (some (written ++ (is.map part).flatten)) := by
  induction is generalizing written with
  | nil =>
    have hsize : size-written.length = 0 := by
      simp at h
      omega
    simp [Cache.ChunkedReceiver.assemble,hsize]
  | cons i is ih =>
    rw [List.map_cons,List.flatten_cons,List.length_append] at h
    have hlen : (written ++ part i).length+(is.map part).flatten.length = size := by
      rw [List.length_append]
      omega
    have htail := ih (fun j hj => hget j (List.mem_cons_of_mem i hj)) hlen
    rw [Cache.ChunkedReceiver.assemble,hget i List.mem_cons_self]
    dsimp only
    rw [if_pos (by omega),htail]
    simp

theorem Holds.assemble_cache (h : Holds m pm) (hlen : pm.chunks.length = m.total) :
    Cache.ChunkedReceiver.assemble pm.totalSize pm.chunks [] (List.range pm.totalChunks) =
      some (some m.data) := by
  obtain ⟨hdata,hsize⟩ := h.data_eq hlen
  rw [h.total,assemble_flatten fun i hi =>
    h.get_eq (h.length_eq_iff.mp hlen i (List.mem_range.mp hi))]
  · rw [hdata,List.nil_append]
  · rw [hdata,hsize,List.length_nil,Nat.zero_add]

end Entry

/-- What either end does with a chunk of a message whose entry is `pm`. -/
def deliver (m : Outgoing) (pending : Pending) (pm : PendingMessage) (seq : Nat) :
    Pending × Option Bytes :=
  if JsMap.has pm.chunks seq then (pending,none)
  else if pm.chunks.length+1 = m.total then (JsMap.delete pending m.msgId,some m.data)
  else (JsMap.set pending m.msgId (pm.add seq (m.piece seq)),none)

section Receive
variable {m : Outgoing} {pending : Pending} {seq now : Nat}

theorem length_add {pm : PendingMessage} (hnew : JsMap.has pm.chunks seq = false)
    (payload : Bytes) : (pm.add seq payload).chunks.length = pm.chunks.length+1 := by
  simp [add_chunks hnew]

theorem accept_eq {pm : PendingMessage} (hm : m.Long) (h : Holds m pm) (hseq : seq < m.total) :
    ChunkedReceiver.accept pending ⟨m.msgId,seq,m.total,(m.piece seq).length⟩ pm (m.piece seq) =
      some (deliver m pending pm seq) := by
  unfold ChunkedReceiver.accept deliver
  rw [if_neg (not_not.mpr h.total)]
  by_cases hnew : JsMap.has pm.chunks seq = true
  · simp [hnew]
  have hnew : JsMap.has pm.chunks seq = false := by simpa using hnew
  have hadd := h.add hnew hseq
  have hsize := hadd.totalSize_le.trans hm.upper
  have hfits : ¬pm.totalSize+(m.piece seq).length > ChunkedReceiver.maxMessageBytes :=
    not_lt.mpr hsize
  simp only [hnew,Bool.false_eq_true,if_false,if_neg hfits,length_add hnew,hadd.total]
  split
  · next hlen =>
    rw [hadd.assemble (by rw [length_add hnew,hlen])]
    rfl
  · rfl

/-- A chunk of a message of which the browser holds nothing or holds pieces. -/
theorem receive_frame (hm : m.Long) (hseq : seq < m.total)
    (hholds : ∀ pm, JsMap.get pending m.msgId = some pm → Holds m pm)
    (hroom : JsMap.get pending m.msgId = none →
      pending.length < ChunkedReceiver.maxPendingMessages) :
    ChunkedReceiver.receive pending (m.frame seq) now = some (deliver m pending
      ((JsMap.get pending m.msgId).getD { totalChunks := m.total, createdAt := now }) seq) := by
  have htotal : ¬(m.total = 0 || seq ≥ m.total) = true := by
    simp
    omega
  have hmax : ¬m.total > ChunkedReceiver.maxChunks := not_lt.mpr hm.total_le
  unfold ChunkedReceiver.receive
  rw [if_neg (by rw [m.frame_length]; omega),if_neg (not_not.mpr (m.frame_marker seq)),
    Outgoing.readHeader_frame hm hseq]
  dsimp only
  rw [if_neg htotal,if_neg hmax,if_neg (by rw [m.frame_length]; omega),m.frame_payload seq]
  cases hget : JsMap.get pending m.msgId with
  | some pm => exact accept_eq hm (hholds pm hget) hseq
  | none =>
    have hone := hm.one_lt_total
    dsimp only
    rw [if_neg (not_le.mpr (hroom hget)),accept_eq hm (fresh_holds m now) hseq]
    have hlast : ¬0+1 = m.total := by omega
    simp [deliver,JsMap.has,JsMap.get,hlast,JsMap.set_set]

theorem cache_receive_frame (hm : m.Long) (hseq : seq < m.total)
    (hholds : ∀ pm, JsMap.get pending m.msgId = some pm →
      Holds m pm ∧ pm.chunks.length ≠ m.total)
    (hkept : Cache.ChunkedReceiver.cleanup pending now = pending) :
    Cache.ChunkedReceiver.receive pending (m.frame seq) now = some (deliver m pending
      ((JsMap.get pending m.msgId).getD { totalChunks := m.total, createdAt := now }) seq) := by
  have htotal : ¬(m.total = 0 || seq ≥ m.total) = true := by
    simp
    omega
  unfold Cache.ChunkedReceiver.receive
  dsimp only
  rw [hkept,if_neg (by rw [m.frame_length]; omega),if_neg (not_not.mpr (m.frame_marker seq)),
    Outgoing.readHeader_frame hm hseq]
  dsimp only
  rw [if_neg htotal,if_neg (by rw [m.frame_length]; omega),m.frame_payload seq]
  generalize hentry : (JsMap.get pending m.msgId).getD
    { totalChunks := m.total, createdAt := now } = pm
  have hpm : Holds m pm ∧ pm.chunks.length ≠ m.total := by
    cases hget : JsMap.get pending m.msgId with
    | some pm' => exact (by simpa [hget] using hentry : pm' = pm) ▸ hholds pm' hget
    | none =>
      have hfresh : pm = { totalChunks := m.total, createdAt := now } := by
        simpa [hget] using hentry.symm
      have hone := hm.one_lt_total
      exact hfresh ▸ ⟨fresh_holds m now,by simp; omega⟩
  unfold deliver
  by_cases hnew : JsMap.has pm.chunks seq = true
  · have hsame : JsMap.get pending m.msgId = some pm := by
      cases hget : JsMap.get pending m.msgId with
      | some pm' => rw [(by simpa [hget] using hentry : pm' = pm)]
      | none =>
        have hfresh : pm = { totalChunks := m.total, createdAt := now } := by
          simpa [hget] using hentry.symm
        simp [hfresh,JsMap.has,JsMap.get] at hnew
    rw [if_pos hnew,if_pos hnew,if_neg (by rw [hpm.1.total]; exact hpm.2),JsMap.set_self hsame]
  have hnew : JsMap.has pm.chunks seq = false := by simpa using hnew
  have hadd := hpm.1.add hnew hseq
  simp only [hnew,Bool.false_eq_true,if_false,length_add hnew,hadd.total]
  split
  · next hlen =>
    have hdone := hadd.assemble_cache (by rw [length_add hnew,hlen])
    rw [hadd.total] at hdone
    rw [hdone]
    rfl
  · rfl

end Receive

/-! Which chunks have come. -/

inductive Arrival where
  | chunk (m : Outgoing) (seq : Nat)
  | whole (data : Bytes)
  /-- the timer that looks for old entries -/
  | tick

structure Event where
  now : Nat
  arrival : Arrival

def Event.chunkOf (m : Outgoing) (e : Event) : Option Nat :=
  match e.arrival with
  | .chunk m' seq => if m' = m then some seq else none
  | _ => none

def Event.wholeData (e : Event) : Option Bytes :=
  match e.arrival with
  | .whole data => some data
  | _ => none

def arrived (h : List Event) (m : Outgoing) : List Nat := h.filterMap (Event.chunkOf m)

def complete (h : List Event) (m : Outgoing) : Bool :=
  (List.range m.total).all fun i => (arrived h m).contains i

def inFlight (h : List Event) (m : Outgoing) : Bool := !(arrived h m).isEmpty && !complete h m

section History
variable {h : List Event} {e : Event} {m m' : Outgoing} {seq : Nat}

theorem complete_iff : complete h m = true ↔ ∀ i < m.total, i ∈ arrived h m := by
  simp [complete]

theorem arrived_append (h : List Event) (e : Event) (m : Outgoing) :
    arrived (h ++ [e]) m = arrived h m ++ (e.chunkOf m).toList := by
  cases he : e.chunkOf m <;> simp [arrived,he]

/-- Nothing changes for a message that the event is not about. -/
theorem arrived_of_other (hne : e.chunkOf m = none) : arrived (h ++ [e]) m = arrived h m := by
  simp [arrived_append,hne]

theorem complete_of_other (hne : e.chunkOf m = none) : complete (h ++ [e]) m = complete h m := by
  rw [complete,complete,arrived_of_other hne]

theorem inFlight_of_other (hne : e.chunkOf m = none) : inFlight (h ++ [e]) m = inFlight h m := by
  rw [inFlight,inFlight,arrived_of_other hne,complete_of_other hne]

theorem chunkOf_some (he : e.arrival = .chunk m seq) : e.chunkOf m = some seq := by
  simp [Event.chunkOf,he]

theorem chunkOf_ne (he : e.arrival = .chunk m seq) (hne : m' ≠ m) : e.chunkOf m' = none := by
  simp [Event.chunkOf,he,Ne.symm hne]

theorem mem_arrived_append (he : e.arrival = .chunk m seq) {i : Nat} :
    i ∈ arrived (h ++ [e]) m ↔ i ∈ arrived h m ∨ i = seq := by
  simp [arrived_append,chunkOf_some he]

theorem arrived_mem {i : Nat} (hi : i ∈ arrived h m) : ∃ e ∈ h, e.arrival = .chunk m i := by
  obtain ⟨e,he,hc⟩ := List.mem_filterMap.mp hi
  refine ⟨e,he,?_⟩
  unfold Event.chunkOf at hc
  split at hc
  · next m' seq harr =>
    obtain ⟨rfl,rfl⟩ : m' = m ∧ seq = i := by simpa using hc
    exact harr
  · cases hc

end History

end ChunkedStream
