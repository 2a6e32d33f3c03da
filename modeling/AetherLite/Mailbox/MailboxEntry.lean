import AetherLite.Common.JsonBinary
import AetherLite.Gossip.PacketValidator
import AetherLite.Hint.HintPacket

/-! The check of what a peer asks to be stored, and the filter over one message. -/
set_option autoImplicit false

namespace MailboxEntry

open Js PacketValidator

def maxEntryBytes : Nat := 16*1024
def maxEntriesPerMessage : Nat := 64

inductive EntryRejectReason where
  | packet (reason : RejectReason)
  | tooLarge
  | notJson
  | notAPacket
  | badHintPow
  deriving DecidableEq, Repr

inductive EntryCheck where
  | ok (packet : Val)
  | rejected (reason : EntryRejectReason)

section
variable (sha256 : Bytes → Bytes)

/-- A packet in JSON, however old. Only the parser runs inside a try block. -/
def checkPacketBytes (bs : Bytes) (now : Int) : Except Thrown EntryCheck :=
  match JsonBinary.parse bs with
  | .error _ => .ok (.rejected .notJson)
  | .ok packet =>
    if !packet.isObject then .ok (.rejected .notAPacket)
    else do
      match ← check sha256 packet ⟨now,true⟩ with
      | .ok => .ok (.ok packet)
      | .fail reason => .ok (.rejected (.packet reason))

def checkEntry (entry : Bytes) (now : Int) : Except Thrown EntryCheck :=
  if entry.length = 0 ∨ entry.length > maxEntryBytes then .ok (.rejected .tooLarge)
  else match Hint.decodeSlotBlob entry with
  | some slot =>
    if Hint.verifyHintPow sha256 slot.hint then checkPacketBytes sha256 slot.body now
    else .ok (.rejected .badHintPow)
  | none => checkPacketBytes sha256 entry now

structure FilterResult where
  accepted : List Bytes := []
  rejected : JsMap EntryRejectReason Nat := []

def FilterResult.reject (r : FilterResult) (reason : EntryRejectReason) : FilterResult :=
  { r with rejected := r.rejected.set reason ((r.rejected.get reason).getD 0+1) }

/-- The loop over the entries, with the packet ids accepted so far. -/
def filterLoop (now : Int) : List Val → List Val → FilterResult → Except Thrown FilterResult
  | [], _, r => .ok r
  | .bytes entry :: raws, seen, r => do
    match ← checkEntry sha256 entry now with
    | .rejected reason => filterLoop now raws seen (r.reject reason)
    | .ok packet =>
      let id := packet.field "packet_id"
      if seen.any (· == id) then filterLoop now raws seen r
      else filterLoop now raws (id :: seen) { r with accepted := r.accepted ++ [entry] }
  | _ :: raws, seen, r => filterLoop now raws seen (r.reject .notAPacket)

def filterValidEntries (entries : Val) (now : Int) : Except Thrown FilterResult :=
  match entries with
  | .arr raws => filterLoop sha256 now (raws.take maxEntriesPerMessage) [] {}
  | _ => .ok {}

/-- The bytes of an entry that are parsed as a packet. -/
def packetBytes (entry : Bytes) : Option Bytes :=
  if entry.length = 0 ∨ entry.length > maxEntryBytes then none
  else match Hint.decodeSlotBlob entry with
  | some slot => if Hint.verifyHintPow sha256 slot.hint then some slot.body else none
  | none => some entry

/-- An entry whose packet has an id and a timestamp of the right form, but whose nonce
or payload holds an element that has no Number. -/
def isPoisoned (entry : Bytes) : Bool :=
  match packetBytes sha256 entry with
  | none => false
  | some bs =>
    match JsonBinary.parse bs with
    | .error _ => false
    | .ok packet =>
      packet.isObject && (packetId? (packet.field "packet_id")).isSome &&
        (timestamp? packet).isSome &&
        (PowPolicy.hasNumberless (packet.field "nonce") ||
          PowPolicy.hasNumberless (packet.field "payload"))

/-- An entry that passes on its own, with its packet id. -/
def passing (now : Int) (entry : Bytes) : Option (Bytes × Val) :=
  match checkEntry sha256 entry now with
  | .ok (.ok packet) => some (entry,packet.field "packet_id")
  | _ => none

def sameId (p q : Bytes × Val) : Bool := q.2 == p.2

/-- The entries among the first of a message that pass on their own, later duplicates
of a packet id removed. -/
def validEntries (now : Int) (entries : List Bytes) : List Bytes :=
  (((entries.take maxEntriesPerMessage).filterMap (passing sha256 now)).eraseDupsBy
    sameId).map Prod.fst

end

section
variable {sha256 : Bytes → Bytes}

theorem passing_isSome {entry : Bytes} {now : Int} : (passing sha256 now entry).isSome = true ↔
    ∃ packet, checkEntry sha256 entry now = .ok (.ok packet) := by
  unfold passing
  constructor
  · intro h
    split at h
    · next packet hpacket => exact ⟨packet,hpacket⟩
    · cases h
  · rintro ⟨packet,hpacket⟩
    rw [hpacket]
    rfl

theorem throws_checkPacketBytes (bs : Bytes) (now : Int) :
    throws (checkPacketBytes sha256 bs now) =
      match JsonBinary.parse bs with
      | .error _ => false
      | .ok packet => packet.isObject && throws (check sha256 packet ⟨now,true⟩) := by
  unfold checkPacketBytes
  cases JsonBinary.parse bs with
  | error e => rfl
  | ok packet =>
    dsimp only
    cases packet.isObject with
    | false => rfl
    | true =>
      cases check sha256 packet ⟨now,true⟩ with
      | error e => rfl
      | ok result => cases result <;> rfl

theorem throws_checkEntry (entry : Bytes) (now : Int) :
    throws (checkEntry sha256 entry now) = isPoisoned sha256 entry := by
  have hbody : ∀ bs, throws (checkPacketBytes sha256 bs now) =
      match JsonBinary.parse bs with
      | .error _ => false
      | .ok packet =>
        packet.isObject && (packetId? (packet.field "packet_id")).isSome &&
          (timestamp? packet).isSome &&
          (PowPolicy.hasNumberless (packet.field "nonce") ||
            PowPolicy.hasNumberless (packet.field "payload")) := by
    intro bs
    rw [throws_checkPacketBytes]
    cases JsonBinary.parse bs with
    | error e => rfl
    | ok packet =>
      dsimp only
      rw [throws_check]
      cases packet.isObject <;> rfl
  unfold checkEntry isPoisoned packetBytes
  split
  · rfl
  cases Hint.decodeSlotBlob entry with
  | none => exact hbody entry
  | some slot =>
    dsimp only
    split
    · exact hbody slot.body
    · rfl

theorem filterLoop_throws {now : Int} {entries : List Bytes} {entry : Bytes} {seen : List Val}
    {r : FilterResult} (hm : entry ∈ entries) (hp : isPoisoned sha256 entry = true) :
    throws (filterLoop sha256 now (entries.map .bytes) seen r) = true := by
  induction entries generalizing seen r with
  | nil => cases hm
  | cons first entries ih =>
    have hc : throws (checkEntry sha256 first now) = isPoisoned sha256 first :=
      throws_checkEntry first now
    simp only [List.map_cons,filterLoop]
    cases h : checkEntry sha256 first now with
    | error e => rfl
    | ok c =>
      rw [h] at hc
      have hne : entry ≠ first := by
        rintro rfl
        rw [hp] at hc
        cases hc
      have hm := (List.mem_cons.mp hm).resolve_left hne
      cases c with
      | rejected reason => exact ih hm
      | ok packet =>
        dsimp only [bind,Except.bind]
        split
        · exact ih hm
        · exact ih hm

/-- The loop keeps the accepted entries as `eraseDupsBy` keeps its accumulator. -/
theorem filterLoop_accepted {now : Int} {entries : List Bytes} (kept : List (Bytes × Val))
    {r : FilterResult} (hp : ∀ entry ∈ entries, isPoisoned sha256 entry = false)
    (hr : r.accepted = kept.reverse.map Prod.fst) :
    ∃ r', filterLoop sha256 now (entries.map .bytes) (kept.map Prod.snd) r = .ok r' ∧
      r'.accepted = (List.eraseDupsBy.loop sameId
        (entries.filterMap (passing sha256 now)) kept).map Prod.fst := by
  induction entries generalizing kept r with
  | nil => exact ⟨r,rfl,hr⟩
  | cons first entries ih =>
    have hrest : ∀ entry ∈ entries, isPoisoned sha256 entry = false :=
      fun entry hm => hp entry (List.mem_cons_of_mem first hm)
    have hc : throws (checkEntry sha256 first now) = isPoisoned sha256 first :=
      throws_checkEntry first now
    rw [hp first List.mem_cons_self] at hc
    obtain ⟨c,hc⟩ := throws_eq_false hc
    simp only [List.map_cons,filterLoop,hc,List.filterMap_cons,passing]
    cases c with
    | rejected reason => exact ih kept hrest hr
    | ok packet =>
      have hany : (kept.map Prod.snd).any (· == packet.field "packet_id") =
          kept.any (sameId (first,packet.field "packet_id")) := by
        rw [List.any_map]
        rfl
      dsimp only [bind,Except.bind]
      rw [hany]
      rw [List.eraseDupsBy.loop]
      cases kept.any (sameId (first,packet.field "packet_id")) with
      | true => exact ih kept hrest hr
      | false => exact ih ((first,packet.field "packet_id") :: kept) hrest (by simp [hr])

theorem filterValidEntries_isolates_iff (entries : List Bytes) (now : Int) :
    (∃ r, filterValidEntries sha256 (.arr (entries.map .bytes)) now = .ok r ∧
      r.accepted = validEntries sha256 now entries) ↔
    ∀ entry ∈ entries.take maxEntriesPerMessage, isPoisoned sha256 entry = false := by
  dsimp only [filterValidEntries]
  rw [← List.map_take]
  constructor
  · rintro ⟨r,hr,-⟩ entry hm
    cases hp : isPoisoned sha256 entry with
    | false => rfl
    | true =>
      have ht : throws (filterLoop sha256 now ((entries.take maxEntriesPerMessage).map .bytes)
          [] {}) = true := filterLoop_throws hm hp
      rw [hr] at ht
      cases ht
  · intro hp
    exact filterLoop_accepted [] hp rfl

end

/-- The JSON of a packet of the least difficulty, its nonce twelve zeros and its
payload one. -/
def honestEntry : Bytes :=
  Bytes.bigEndian 40 0x7b227061636b65745f6964223a226633346637663064323830633138373866626136303033356134 ++
  Bytes.bigEndian 40 0x6138633761616261643531663636383238653236356136383432663466336137633266333431222c ++
  Bytes.bigEndian 40 0x22686f705f636f756e74223a302c22706f775f6e6f6e6365223a3130312c22706f775f6469666669 ++
  Bytes.bigEndian 40 0x63756c7479223a382c2274696d657374616d70223a302c227a6f6e655f6964223a302c226e6f6e63 ++
  Bytes.bigEndian 40 0x65223a5b302c302c302c302c302c302c302c302c302c302c302c305d2c227061796c6f6164223a5b ++
  Bytes.bigEndian 3 0x305d7d

/-- `{"packet_id":"00…00","timestamp":0,"nonce":[{"_type":"BigInt","value":"1"}]}` -/
def bigIntEntry : Bytes :=
  Bytes.bigEndian 40 0x7b227061636b65745f6964223a223030303030303030303030303030303030303030303030303030 ++
  Bytes.bigEndian 40 0x3030303030303030303030303030303030303030303030303030303030303030303030303030222c ++
  Bytes.bigEndian 40 0x2274696d657374616d70223a302c226e6f6e6365223a5b7b225f74797065223a22426967496e7422 ++
  Bytes.bigEndian 15 0x2c2276616c7565223a2231227d5d7d

theorem filterValidEntries_not_total :
    validEntries Sha256.sha256 0 [honestEntry] = [honestEntry] ∧
    (validEntries Sha256.sha256 0 [honestEntry,bigIntEntry] = [honestEntry]) ∧
    ¬∀ (entries : List Bytes) (now : Int),
      ∃ r, filterValidEntries Sha256.sha256 (.arr (entries.map .bytes)) now = .ok r ∧
        r.accepted = validEntries Sha256.sha256 now entries := by
  refine ⟨by decide +kernel,by decide +kernel,?_⟩
  intro h
  obtain ⟨r,hr,-⟩ := h [honestEntry,bigIntEntry] 0
  have ht : throws (filterValidEntries Sha256.sha256
      (.arr ([honestEntry,bigIntEntry].map .bytes)) 0) = true := by decide +kernel
  rw [hr] at ht
  cases ht

end MailboxEntry
