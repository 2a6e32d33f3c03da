import AetherLite.Network.ChunkedStream

/-! The same stream on the cache node. -/
set_option autoImplicit false

namespace Cache

open ChunkedStream

namespace ChunkedSender

/-- The chunks of the data, and the counter after it. -/
def encode (msgCounter : UInt32) (data : Bytes) : List Bytes × UInt32 :=
  if data.length ≤ chunkSize then ([data],msgCounter)
  else
    let totalChunks := (data.length+chunkSize-1)/chunkSize
    ((List.range totalChunks).map fun seq =>
      let offset := seq*chunkSize
      let payload := (data.drop offset).take (min (offset+chunkSize) data.length-offset)
      encodeHeader msgCounter.toNat seq totalChunks payload.length (seq == totalChunks-1) ++
        payload,msgCounter+1)

end ChunkedSender

namespace ChunkedReceiver

/-- In nanoseconds. -/
def reassemblyTimeout : Nat := 10*1000*1000*1000

/-- The chunks with the numbers, in order, in a buffer that already holds `written`: none
when one does not fit, which panics, and no data when one is missing. -/
def assemble (size : Nat) (chunks : JsMap Nat Bytes) (written : Bytes) :
    List Nat → Option (Option Bytes)
  | [] => some (some (written ++ List.replicate (size-written.length) 0))
  | i :: is =>
    match JsMap.get chunks i with
    | none => some none
    | some chunk =>
      if written.length+chunk.length ≤ size then assemble size chunks (written ++ chunk) is
      else none

def cleanup (pending : Pending) (now : Nat) : Pending :=
  pending.filter fun e => now-e.2.createdAt < reassemblyTimeout

/-- The pending messages with what is handed on; none where it panics. -/
def receive (pending : Pending) (raw : Bytes) (now : Nat) : Option (Pending × Option Bytes) :=
  let pending := cleanup pending now
  if raw.length < headerSize then some (pending,some raw)
  else if raw.getD 0 0 ≠ 0x00 then some (pending,some raw)
  else
    let header := readHeader raw
    if header.totalChunks = 0 || header.seqNo ≥ header.totalChunks then some (pending,some raw)
    else if raw.length < headerSize+header.chunkSize then some (pending,some raw)
    else
      let payload := (raw.drop headerSize).take header.chunkSize
      let pm := (JsMap.get pending header.msgId).getD
        { totalChunks := header.totalChunks, createdAt := now }
      let pm := if JsMap.has pm.chunks header.seqNo then pm else pm.add header.seqNo payload
      if pm.chunks.length = pm.totalChunks then
        (assemble pm.totalSize pm.chunks [] (List.range pm.totalChunks)).map fun assembled =>
          (JsMap.delete pending header.msgId,assembled)
      else some (JsMap.set pending header.msgId pm,none)

end ChunkedReceiver

end Cache
