import AetherLite.Lib.Bytes
import AetherLite.Lib.JsMap

/-! How a long message goes through a data channel: in chunks with a header of 12 bytes. -/
set_option autoImplicit false

namespace ChunkedStream

def chunkSize : Nat := 4096
def headerSize : Nat := 12

/-- Every number is cut to its width. -/
def encodeHeader (msgId seq totalChunks payloadLength : Nat) (last : Bool) : Bytes :=
  [0x00] ++ Bytes.bigEndian 4 msgId ++ Bytes.bigEndian 2 seq ++ Bytes.bigEndian 2 totalChunks ++
    Bytes.bigEndian 2 payloadLength ++ [if last then 0x01 else 0x00]

structure ChunkHeader where
  msgId : Nat
  seqNo : Nat
  totalChunks : Nat
  chunkSize : Nat

/-- The numbers in the first bytes; the flag of the last chunk is not read. -/
def readHeader (raw : Bytes) : ChunkHeader where
  msgId := Bytes.toNat ((raw.drop 1).take 4)
  seqNo := Bytes.toNat ((raw.drop 5).take 2)
  totalChunks := Bytes.toNat ((raw.drop 7).take 2)
  chunkSize := Bytes.toNat ((raw.drop 9).take 2)

/-- A message of which some chunks have come. -/
structure PendingMessage where
  chunks : JsMap Nat Bytes := []
  totalChunks : Nat
  totalSize : Nat := 0
  createdAt : Nat

abbrev Pending := JsMap Nat PendingMessage

/-- The chunk under its number, and its length in the total. -/
def PendingMessage.add (pm : PendingMessage) (seqNo : Nat) (payload : Bytes) : PendingMessage :=
  { pm with chunks := JsMap.set pm.chunks seqNo payload
            totalSize := pm.totalSize+payload.length }

end ChunkedStream

namespace ChunkedSender

open ChunkedStream

/-- What is sent for the data, and the counter after it. -/
def send (msgCounter : Nat) (data : Bytes) : List Bytes × Nat :=
  if data.length ≤ chunkSize then ([data],msgCounter)
  else
    let msgId := msgCounter % 2^32
    let totalChunks := (data.length+chunkSize-1)/chunkSize
    ((List.range totalChunks).map fun seq =>
      let offset := seq*chunkSize
      let payload := (data.drop offset).take (min (offset+chunkSize) data.length-offset)
      encodeHeader msgId seq totalChunks payload.length (seq == totalChunks-1) ++ payload,
      msgCounter+1)

end ChunkedSender

namespace ChunkedReceiver

open ChunkedStream

/-- In milliseconds. -/
def reassemblyTimeout : Nat := 10000
def maxMessageBytes : Nat := 1024*1024
def maxPendingMessages : Nat := 64
def maxChunks : Nat := (maxMessageBytes+4096-1)/4096

/-- The parts one after the other in a buffer that already holds `written`; none when one
of them does not fit, which throws. What is not written stays zero. -/
def fill (size : Nat) (written : Bytes) : List Bytes → Option Bytes
  | [] => some (written ++ List.replicate (size-written.length) 0)
  | part :: parts =>
    if written.length+part.length ≤ size then fill size (written ++ part) parts else none

/-- A chunk that is not there is read as an empty one. -/
def assemble (pm : PendingMessage) : Option Bytes :=
  fill pm.totalSize [] ((List.range pm.totalChunks).map fun i => (JsMap.get pm.chunks i).getD [])

def evictOldest (pending : Pending) : Pending :=
  match pending with
  | [] => []
  | oldest :: _ => JsMap.delete pending oldest.1

/-- What happens to the entry of the message, with what is then handed to `onMessage`; none
where an exception is thrown. -/
def accept (pending : Pending) (header : ChunkHeader) (pm : PendingMessage) (payload : Bytes) :
    Option (Pending × Option Bytes) :=
  if pm.totalChunks ≠ header.totalChunks then some (JsMap.delete pending header.msgId,none)
  else if JsMap.has pm.chunks header.seqNo then some (pending,none)
  else if pm.totalSize+payload.length > maxMessageBytes then
    some (JsMap.delete pending header.msgId,none)
  else
    let pm := pm.add header.seqNo payload
    if pm.chunks.length = pm.totalChunks then
      (assemble pm).map fun assembled => (JsMap.delete pending header.msgId,some assembled)
    else some (JsMap.set pending header.msgId pm,none)

def receive (pending : Pending) (raw : Bytes) (now : Nat) : Option (Pending × Option Bytes) :=
  if raw.length < headerSize then some (pending,some raw)
  else if raw.getD 0 0 ≠ 0x00 then some (pending,some raw)
  else
    let header := readHeader raw
    if header.totalChunks = 0 || header.seqNo ≥ header.totalChunks then some (pending,some raw)
    else if header.totalChunks > maxChunks then some (pending,none)
    else if header.chunkSize > raw.length-headerSize then some (pending,none)
    else
      let payload := (raw.drop headerSize).take header.chunkSize
      match JsMap.get pending header.msgId with
      | some pm => accept pending header pm payload
      | none =>
        let pending := if pending.length ≥ maxPendingMessages then evictOldest pending else pending
        let pm : PendingMessage := { totalChunks := header.totalChunks, createdAt := now }
        accept (JsMap.set pending header.msgId pm) header pm payload

def cleanup (pending : Pending) (now : Nat) : Pending :=
  pending.filter fun e => !(now-e.2.createdAt > reassemblyTimeout)

end ChunkedReceiver
