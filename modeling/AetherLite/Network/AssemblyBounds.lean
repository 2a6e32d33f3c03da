import AetherLite.Lib.Machine
import AetherLite.Network.StreamExchange

/-! What is held of messages that are not complete, whatever frames come. -/
set_option autoImplicit false

namespace ChunkedReceiver

open ChunkedStream

/-- An entry that still waits for a chunk. -/
structure Waiting (pm : PendingMessage) : Prop where
  one_le : 1 ≤ pm.totalChunks
  total_le : pm.totalChunks ≤ 256
  nodup : (JsMap.keys pm.chunks).Nodup
  lt : ∀ i ∈ JsMap.keys pm.chunks, i < pm.totalChunks
  size : pm.totalSize = (pm.chunks.map fun e => e.2.length).sum
  size_le : pm.totalSize ≤ 1024*1024
  incomplete : pm.chunks.length < pm.totalChunks

structure Bounded (pending : Pending) : Prop where
  nodup : (JsMap.keys pending).Nodup
  length_le : pending.length ≤ 64
  waiting : ∀ e ∈ pending, Waiting e.2

/-- What comes over the channel, and what the timer and the owner do. -/
inductive Action where
  | frame (raw : Bytes) (now : Nat)
  | cleanup (now : Nat)
  | destroy

/-- The entries after the action; none where an exception is thrown. -/
def next (pending : Pending) : Action → Option Pending
  | .frame raw now => (receive pending raw now).map Prod.fst
  | .cleanup now => some (cleanup pending now)
  | .destroy => some []

/-- The frame is taken for a part of a message. -/
def isChunk (raw : Bytes) : Bool :=
  !(raw.length < headerSize) && raw.getD 0 0 = 0x00 &&
    !((readHeader raw).totalChunks = 0 || (readHeader raw).seqNo ≥ (readHeader raw).totalChunks)

def payloadOf (raw : Bytes) : Bytes := (raw.drop headerSize).take (readHeader raw).chunkSize

/-- The entry that is held of the message, or a new one. -/
def entryFor (pending : Pending) (raw : Bytes) (now : Nat) : PendingMessage :=
  (JsMap.get pending (readHeader raw).msgId).getD
    { totalChunks := (readHeader raw).totalChunks, createdAt := now }

/-- The entry with the chunk of the frame. -/
def extended (pending : Pending) (raw : Bytes) (now : Nat) : PendingMessage :=
  (entryFor pending raw now).add (readHeader raw).seqNo (payloadOf raw)

/-- The chunks one after the other, each of which is there. -/
structure Assembles (pm : PendingMessage) (data : Bytes) : Prop where
  present : ∀ i < pm.totalChunks, JsMap.has pm.chunks i = true
  data_eq : data = ((List.range pm.totalChunks).map fun i =>
    (JsMap.get pm.chunks i).getD []).flatten
  length_eq : data.length = pm.totalSize

section
variable {pending : Pending} {pm : PendingMessage} {header : ChunkHeader} {payload : Bytes}

theorem bounded_nil : Bounded [] where
  nodup := List.nodup_nil
  length_le := by decide
  waiting e he := by cases he

theorem Bounded.sublist {pending' : Pending} (h : Bounded pending) (hs : pending'.Sublist pending) :
    Bounded pending' where
  nodup := h.nodup.sublist (hs.map _)
  length_le := hs.length_le.trans h.length_le
  waiting e he := h.waiting e (hs.subset he)

theorem Bounded.set (h : Bounded pending) (hpm : Waiting pm) (id : Nat)
    (hroom : JsMap.has pending id = false → pending.length < 64) :
    Bounded (JsMap.set pending id pm) where
  nodup := JsMap.nodup_keys_set h.nodup id pm
  length_le := by
    have hlen := h.length_le
    rw [JsMap.length_set]
    split
    · exact hlen
    · next hnew =>
      have hlt := hroom (by simpa using hnew)
      omega
  waiting e he := by
    obtain rfl | he := JsMap.mem_set he
    · exact hpm
    · exact h.waiting e he

theorem waiting_new {total : Nat} (hone : 1 ≤ total) (hle : total ≤ 256) (now : Nat) :
    Waiting { totalChunks := total, createdAt := now } where
  one_le := hone
  total_le := hle
  nodup := List.nodup_nil
  lt i hi := by cases hi
  size := rfl
  size_le := Nat.zero_le _
  incomplete := hone

theorem size_add {seq : Nat} (h : Waiting pm) (hnew : JsMap.has pm.chunks seq = false)
    (payload : Bytes) : (pm.add seq payload).totalSize =
      ((pm.add seq payload).chunks.map fun e => e.2.length).sum := by
  rw [add_chunks hnew,List.map_append,List.sum_append,← h.size]
  simp [PendingMessage.add]

theorem lt_add {seq : Nat} (h : Waiting pm) (hnew : JsMap.has pm.chunks seq = false)
    (hseq : seq < pm.totalChunks) (payload : Bytes) :
    ∀ i ∈ JsMap.keys (pm.add seq payload).chunks, i < pm.totalChunks := by
  intro i hi
  rw [keys_add hnew] at hi
  obtain hi | hi := List.mem_append.mp hi
  · exact h.lt i hi
  · exact List.mem_singleton.mp hi ▸ hseq

/-- A new chunk that leaves one missing. -/
theorem Waiting.add {seq : Nat} (h : Waiting pm) (hnew : JsMap.has pm.chunks seq = false)
    (hseq : seq < pm.totalChunks) (hfits : pm.totalSize+payload.length ≤ 1024*1024)
    (hmore : (pm.add seq payload).chunks.length ≠ pm.totalChunks) :
    Waiting (pm.add seq payload) where
  one_le := h.one_le
  total_le := h.total_le
  nodup := JsMap.nodup_keys_set h.nodup seq payload
  lt := lt_add h hnew hseq payload
  size := size_add h hnew payload
  size_le := hfits
  incomplete := by
    have hlt := h.incomplete
    rw [length_add hnew] at hmore ⊢
    simp only [PendingMessage.add]
    omega

/-- The last chunk that was missing. -/
theorem Waiting.assembles {seq : Nat} (h : Waiting pm) (payload : Bytes)
    (hnew : JsMap.has pm.chunks seq = false) (hseq : seq < pm.totalChunks)
    (hall : (pm.add seq payload).chunks.length = pm.totalChunks) :
    ∃ data, assemble (pm.add seq payload) = some data ∧ Assembles (pm.add seq payload) data := by
  have hsize := size_add h hnew payload
  have hlt := lt_add h hnew hseq payload
  have hnodup : (JsMap.keys (pm.add seq payload).chunks).Nodup :=
    JsMap.nodup_keys_set h.nodup seq payload
  have htotal : (pm.add seq payload).totalChunks = pm.totalChunks := rfl
  generalize pm.add seq payload = full at *
  have hperm : (JsMap.keys full.chunks).Perm (List.range full.totalChunks) := by
    rw [htotal]
    exact Pieces.perm_range hnodup hlt (by simp [JsMap.keys,hall])
  have hlength : ((List.range full.totalChunks).map fun i =>
      (JsMap.get full.chunks i).getD []).flatten.length = full.totalSize := by
    rw [List.length_flatten,List.map_map,← (hperm.map _).sum_eq,hsize,JsMap.keys,List.map_map]
    congr 1
    apply List.map_congr_left
    intro e he
    simp [JsMap.get_of_mem hnodup he]
  refine ⟨_,fill_flatten _ (by simpa using hlength),?_,rfl,hlength⟩
  intro i hi
  rw [JsMap.has_iff]
  exact hperm.mem_iff.mpr (List.mem_range.mpr hi)

/-- What becomes of an entry to which a chunk comes. -/
theorem accept_bounded (h : Bounded pending) (hpm : Waiting pm)
    (hhas : JsMap.has pending header.msgId = true) (hseq : header.seqNo < header.totalChunks) :
    ∃ r, accept pending header pm payload = some r ∧ Bounded r.1 ∧
      ∀ data, r.2 = some data → JsMap.get r.1 header.msgId = none ∧
        Assembles (pm.add header.seqNo payload) data := by
  have hdelete := h.sublist (JsMap.delete_sublist pending header.msgId)
  unfold accept
  split
  · exact ⟨_,rfl,hdelete,by simp⟩
  next htotal =>
  have htotal : pm.totalChunks = header.totalChunks := not_not.mp htotal
  have hseq : header.seqNo < pm.totalChunks := by omega
  split
  · exact ⟨_,rfl,h,by simp⟩
  next hnew =>
  have hnew : JsMap.has pm.chunks header.seqNo = false := by simpa using hnew
  split
  · exact ⟨_,rfl,hdelete,by simp⟩
  next hfits =>
  have hfits : pm.totalSize+payload.length ≤ 1024*1024 := not_lt.mp hfits
  dsimp only
  split
  · next hall =>
    obtain ⟨data,hdata,hassembles⟩ := hpm.assembles payload hnew hseq hall
    rw [hdata]
    refine ⟨_,rfl,hdelete,?_⟩
    intro data' hd
    obtain rfl := Option.some.inj hd
    exact ⟨JsMap.get_delete_self _ _,hassembles⟩
  · next hmore =>
    have hadd := hpm.add hnew hseq hfits hmore
    exact ⟨_,rfl,h.set hadd header.msgId (by simp [hhas]),by simp⟩

theorem Bounded.evictOldest (h : Bounded pending) :
    Bounded (evictOldest pending) ∧ (evictOldest pending).length < 64 := by
  cases pending with
  | nil => exact ⟨h,by decide⟩
  | cons oldest rest =>
    have hsub := JsMap.delete_sublist (oldest :: rest) oldest.1
    have hhas : JsMap.has (oldest :: rest) oldest.1 = true := by simp [JsMap.has,JsMap.get]
    have hgone : JsMap.has (JsMap.delete (oldest :: rest) oldest.1) oldest.1 = false := by
      rw [JsMap.has,JsMap.get_delete_self]
      rfl
    have hlt := JsMap.length_lt_of_sublist hsub hhas hgone
    have hle := h.length_le
    exact ⟨h.sublist hsub,show (JsMap.delete _ _).length < 64 by omega⟩

/-- A frame never throws. One that is no chunk is handed on as it is; what is put together
reads only chunks that are there. -/
theorem Bounded.receive (h : Bounded pending) (raw : Bytes) (now : Nat) :
    ∃ r, receive pending raw now = some r ∧ Bounded r.1 ∧
      (isChunk raw = false → r = (pending,some raw)) ∧
      (isChunk raw = true → ∀ data, r.2 = some data →
        JsMap.get r.1 (readHeader raw).msgId = none ∧
          Assembles (extended pending raw now) data) := by
  unfold ChunkedReceiver.receive
  split
  · next hshort => exact ⟨_,rfl,h,fun _ => rfl,by simp [isChunk,hshort]⟩
  next hlong =>
  split
  · next hmark =>
    have hraw : isChunk raw = false := by
      simp only [isChunk,decide_eq_false hmark,Bool.and_false,Bool.false_and]
    exact ⟨_,rfl,h,fun _ => rfl,by simp [hraw]⟩
  next hmark =>
  dsimp only
  split
  · next hrange => exact ⟨_,rfl,h,fun _ => rfl,by simp [isChunk,hrange]⟩
  next hrange =>
  have hchunk : isChunk raw = true := by
    simp only [isChunk,hlong,not_not.mp hmark,hrange]
    rfl
  have hrange : 1 ≤ (readHeader raw).totalChunks ∧
      (readHeader raw).seqNo < (readHeader raw).totalChunks := by
    simp at hrange
    omega
  split
  · exact ⟨_,rfl,h,by simp [hchunk],by simp⟩
  next hmax =>
  have hmax : (readHeader raw).totalChunks ≤ 256 := not_lt.mp hmax
  split
  · exact ⟨_,rfl,h,by simp [hchunk],by simp⟩
  simp only [hchunk,Bool.true_eq_false,false_implies,true_and,true_implies]
  cases hget : JsMap.get pending (readHeader raw).msgId with
  | some pm =>
    have hhas : JsMap.has pending (readHeader raw).msgId = true := by simp [JsMap.has,hget]
    simp only [extended,entryFor,hget,Option.getD_some]
    exact accept_bounded h (h.waiting _ (JsMap.mem_of_get hget)) hhas hrange.2
  | none =>
    have hnew := waiting_new hrange.1 hmax now
    simp only [extended,entryFor,hget,Option.getD_none]
    split
    · have hset := h.evictOldest.1.set hnew (readHeader raw).msgId fun _ => h.evictOldest.2
      exact accept_bounded hset hnew (by simp [JsMap.has]) hrange.2
    · next hroom =>
      have hset := h.set hnew (readHeader raw).msgId fun _ => not_le.mp hroom
      exact accept_bounded hset hnew (by simp [JsMap.has]) hrange.2

theorem Bounded.next (h : Bounded pending) (a : Action) :
    ∃ pending', next pending a = some pending' ∧ Bounded pending' := by
  cases a with
  | frame raw now =>
    obtain ⟨r,hr,hbounded,-⟩ := h.receive raw now
    exact ⟨r.1,by rw [ChunkedReceiver.next,hr]; rfl,hbounded⟩
  | cleanup now => exact ⟨_,rfl,h.sublist List.filter_sublist⟩
  | destroy => exact ⟨_,rfl,bounded_nil⟩

theorem Bounded.run (h : Bounded pending) (as : List Action) :
    ∃ pending', Machine.run ChunkedReceiver.next pending as = some pending' ∧
      Bounded pending' := by
  induction as generalizing pending with
  | nil => exact ⟨pending,rfl,h⟩
  | cons a as ih =>
    obtain ⟨between,hstep,hbetween⟩ := h.next a
    obtain ⟨pending',hrun,hpending'⟩ := ih hbetween
    exact ⟨pending',by rw [Machine.run,hstep]; exact hrun,hpending'⟩

end

/-- After all frames and ticks the receiver holds little, and what it puts together from the
next frame is there. -/
theorem assemblies_bounded (as : List Action) :
    ∃ pending, Machine.run next [] as = some pending ∧ Bounded pending ∧
      ∀ raw now, ∃ r, receive pending raw now = some r ∧
        (isChunk raw = false → r = (pending,some raw)) ∧
        (isChunk raw = true → ∀ data, r.2 = some data →
          JsMap.get r.1 (readHeader raw).msgId = none ∧
            Assembles (extended pending raw now) data) := by
  obtain ⟨pending,hrun,hbounded⟩ := bounded_nil.run as
  refine ⟨pending,hrun,hbounded,?_⟩
  intro raw now
  obtain ⟨r,hr,-,hwhat⟩ := hbounded.receive raw now
  exact ⟨r,hr,hwhat⟩

end ChunkedReceiver
