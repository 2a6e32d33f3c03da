import AetherLite.Crypto.PacketRoundTrip
import AetherLite.Crypto.PacketSize
import AetherLite.Logic.BoardOrchestrator
import AetherLite.Logic.ThreadOrchestrator

/-! What the orchestrators build and show of one's own, and what of it the network carries. -/
set_option autoImplicit false

namespace ThreadOrchestrator

open Js PacketBuilder ThreadDAGManager

/-- The arguments of the call of `build` in `submitReply`, with the thread it is for. -/
def replyDraft (loc : JsLocale) (s : State) (text : String) (depth : Nat) :
    Option (Target × Draft) :=
  match (submitReply loc s text).pending.drop s.pending.length with
  | [.built target text tips nextWeight] => some (target,{
      content := text
      boardId := target.boardId
      threadId := target.threadId
      powDifficulty := Number.ofNat PowPolicy.networkDifficulty
      currentDepth := depth
      dagParents := tips
      threadRoot := target.threadId
      cumulativePow := nextWeight })
  | _ => none

/-- The reply is on the screen, and on its way into the store. -/
def ShowsReply (s : State) (target : Target) (packet : Val) : Prop :=
  (∃ n ∈ s.snapshot, n.origin = .reply target packet) ∧
    ∃ e ∈ s.saves, e.1 = .reply target packet

end ThreadOrchestrator

namespace BoardOrchestrator

open Js PacketBuilder

/-- The arguments of the call of `build` in `submitThread`. -/
def threadDraft (p : Primitives) (s : State) (boardId : String) (key : Bytes)
    (title threadId : String) (depth : Nat) : Option Draft :=
  match (step p s (.submitThread boardId key title threadId)).map fun t : State =>
      t.pending.drop s.pending.length with
  | some [.built boardId _ title threadId] => some {
      content := title
      boardId := boardId
      threadId := threadId
      powDifficulty := Number.ofNat PowPolicy.networkDifficulty
      currentDepth := depth
      postType := .fin 1
      threadRoot := threadId
      cumulativePow := .num (Number.ofNat PowPolicy.networkDifficulty) }
  | _ => none

def ShowsThread (s : State) (boardId : String) (key : Bytes) (packet : Val) : Prop :=
  (∃ t ∈ s.snapshot, .submitted boardId key packet ∈ t.origins) ∧
    ∃ e ∈ s.saves, e.payload = .inr packet

end BoardOrchestrator

namespace Submission

open Js PacketBuilder PowPolicy

theorem clear_lengths : Lengths clear clearAuthor where
  encode v bs h := by
    simp only [clear] at h
    cases he : MsgPack.encode clearFloat64 v with
    | none => simp [he] at h
    | some bs' =>
      simp only [he,Except.ok.injEq] at h
      exact h ▸ MsgPack.length_encode he
  aeadEncrypt key nonce m := by simp [clear,tagBytes]
  signDetached m privateKey := by simp [clearAuthor,clearSign]
  sha256 m := by simp [clearAuthor]

/-- The thread of the reply, just opened. -/
def opened : ThreadOrchestrator.State :=
  ThreadOrchestrator.activate ThreadOrchestrator.sampleThreadKey {} "A" "first" [10]

def target : ThreadOrchestrator.Target := ⟨"A","first",[10,1]⟩

def reply (text : String) : Draft where
  content := text
  boardId := "A"
  threadId := "first"
  powDifficulty := .fin 12
  currentDepth := 0
  threadRoot := "first"
  cumulativePow := .num (.fin 12)

theorem replyDraft_opened {text : String} (h : text ≠ "") :
    ThreadOrchestrator.replyDraft ThreadDAGManager.sampleLocale opened text 0 =
      some (target,reply text) := by
  have hadd : (Number.fin 0).add (.fin 12) = .fin 12 := by decide +kernel
  have hdifficulty : Number.ofNat networkDifficulty = .fin 12 := by decide +kernel
  have hdag : opened.dag = { threadId := "first" } := rfl
  have hopen : ThreadOrchestrator.openThread opened = some target := by decide +kernel
  simp [ThreadOrchestrator.replyDraft,ThreadOrchestrator.submitReply,hopen,h,hdag,
    ThreadDAGManager.getTips,ThreadDAGManager.getMaxCumulativePow,JsMap.values,
    ThreadDAGManager.namedParents,ThreadDAGManager.sortTips,ThreadDAGManager.maxPowFrom,
    Val.plus,Val.toPrimitive,Val.toNumber,bind,Except.bind,hadd,hdifficulty,
    ThreadOrchestrator.suspend,target,reply]

theorem shows_opened (header : PowCommittedHeader) (packetId : String) (powNonce : Nat)
    (text : String) :
    ThreadOrchestrator.ShowsReply (ThreadOrchestrator.resumeBuilt ThreadDAGManager.sampleLocale
      opened target text [] (.num (.fin 12)) (packetOf header packetId powNonce)) target
        (packetOf header packetId powNonce) := by
  have hbeq : (Val.str packetId == Val.str packetId) = true := by
    simp [BEq.beq,Val.sameValueZero,Val.strictEq]
  have hid : (packetOf header packetId powNonce).field "packet_id" = .str packetId := rfl
  have hdag : opened.dag = { threadId := "first" } := rfl
  have hthread : opened.currentThreadId = some "first" := rfl
  have heq : (Val.str "first").strictEq (.str "first") = true := rfl
  simp [ThreadOrchestrator.resumeBuilt,ThreadOrchestrator.replyPost,ThreadOrchestrator.ShowsReply,
    ThreadOrchestrator.optStr,ThreadOrchestrator.notify,ThreadDAGManager.addPost,hid,hdag,hthread,
    heq,JsMap.has,JsMap.get,JsMap.set,JsMap.values,ThreadDAGManager.getSortedPosts,
    ThreadDAGManager.links,ThreadDAGManager.validParents,ThreadDAGManager.elementsOf,
    ThreadDAGManager.sortQueue,ThreadDAGManager.drain,ThreadDAGManager.releaseChildren,bind,
    Except.bind,hbeq,ThreadOrchestrator.suspend]

theorem clear_encode {v : Val} (h : MsgPack.packable MsgPack.maxDepth v = true) :
    clear.encode v = .ok (MsgPack.pack clearFloat64 v) := by
  simp [clear,MsgPack.encode,h]

theorem size_reply (text : String) : MsgPack.size (.obj ((reply text).signedFields 0 ++
    signatureFields (clearAuthor.identity.sign (fun _ _ => List.replicate signatureBytes 0) []))) ≤
      (Bytes.utf8 text).length+500 := by
  have hkeys : (["content","post_number","reply_to","created_at","board_id","thread_id","parents",
      "cumulative_pow","thread_root","session_pubkey","session_sig","trip_pubkey","trip_sig"].map
        fun k => MsgPack.size (.str k)).sum = 142 := by decide +kernel
  have hvals : MsgPack.size (.num (.fin 0))+MsgPack.size .null+MsgPack.size (.num (Number.ofNat 0))+
      MsgPack.size (.str "A")+MsgPack.size (.str "first")+MsgPack.size (.arr [])+
        MsgPack.size (.num (.fin 12))+MsgPack.size (.str "first")+
          MsgPack.size (.bytes (List.replicate 32 0))+MsgPack.size (.bytes (List.replicate 64 0))+
            MsgPack.size (.bytes (List.replicate 32 1))+
              MsgPack.size (.bytes (List.replicate 64 0)) = 219 := by decide +kernel
  have hhead := MsgPack.headSize_str_le (Bytes.utf8 text).length
  have hmap : MsgPack.headSize (.map 13) = 1 := by decide
  have htext := MsgPack.size_str text
  have hlen : ((reply text).signedFields 0 ++ signatureFields (clearAuthor.identity.sign
      (fun _ _ => List.replicate signatureBytes 0) [])).length = 13 := rfl
  rw [MsgPack.size_obj hkeys rfl,hlen,hmap]
  simp only [Draft.signedFields,signatureFields,reply,Identity.sign,clearAuthor,
    PacketBuilder.optional,Option.map_some,List.cons_append,List.nil_append,List.map_cons,
    List.map_nil,List.sum_cons,List.sum_nil,signatureBytes]
  omega

theorem plaintext_reply {text : String} (h : (Bytes.utf8 text).length < 1000000) :
    ∃ m, (reply text).plaintext clear clearAuthor 0 = .ok m ∧ m.length < 2000000 := by
  have hkeys : (["content","post_number","reply_to","created_at","board_id","thread_id","parents",
      "cumulative_pow","thread_root","session_pubkey","session_sig","trip_pubkey","trip_sig",
      "post_type","inner_payload","A","first"].all
        fun k => decide ((Bytes.utf8 k).length < 0x100000000)) = true := by decide +kernel
  simp only [List.all_cons,List.all_nil,Bool.and_true,Bool.and_eq_true,decide_eq_true_eq] at hkeys
  have htext : (Bytes.utf8 text).length < 4294967296 := by omega
  have hsigned : MsgPack.packable MsgPack.maxDepth (.obj ((reply text).signedFields 0)) = true := by
    simp [MsgPack.packable,MsgPack.packableFields,MsgPack.packableAll,MsgPack.maxDepth,
      Draft.signedFields,reply,PacketBuilder.optional,hkeys,htext]
  have hinner : ∀ m, MsgPack.packable MsgPack.maxDepth (.obj ((reply text).signedFields 0 ++
      signatureFields (clearAuthor.identity.sign clearAuthor.signDetached m))) = true := by
    intro m
    simp [MsgPack.packable,MsgPack.packableFields,MsgPack.packableAll,MsgPack.maxDepth,
      Draft.signedFields,signatureFields,Identity.sign,clearAuthor,clearSign,signatureBytes,reply,
      PacketBuilder.optional,hkeys,htext]
  have hsize : ∀ m, (MsgPack.pack clearFloat64 (.obj ((reply text).signedFields 0 ++
      signatureFields (clearAuthor.identity.sign clearAuthor.signDetached m)))).length < 1000500 := by
    intro m
    have hlen := size_reply text
    rw [MsgPack.length_pack _ (hinner m),size_inner clear_lengths]
    omega
  have houter : ∀ m : Bytes, m.length < 1000500 →
      MsgPack.packable MsgPack.maxDepth ((reply text).encryptedRecord m) = true := by
    intro m hm
    have hm' : m.length < 4294967296 := by omega
    simp [MsgPack.packable,MsgPack.packableFields,MsgPack.maxDepth,Draft.encryptedRecord,reply,
      hkeys,hm']
  obtain ⟨signedData,hsignedData⟩ : ∃ m, clear.encode (.obj ((reply text).signedFields 0)) = .ok m :=
    ⟨_,clear_encode hsigned⟩
  obtain ⟨inner,hinnerData,hm⟩ : ∃ m, clear.encode (.obj ((reply text).signedFields 0 ++
      signatureFields (clearAuthor.identity.sign clearAuthor.signDetached signedData))) = .ok m ∧
        m.length < 1000500 := ⟨_,clear_encode (hinner _),hsize _⟩
  refine ⟨MsgPack.pack clearFloat64 ((reply text).encryptedRecord inner),?_,?_⟩
  · simp only [Draft.plaintext,hsignedData,hinnerData,bind,Except.bind]
    exact clear_encode (houter inner hm)
  · have houterKeys : (["board_id","thread_id","post_type","inner_payload"].map
        fun k => MsgPack.size (.str k)).sum = 43 := by decide +kernel
    have hvals : MsgPack.size (.str "A")+MsgPack.size (.str "first")+
        MsgPack.size (.num (.fin 0)) = 9 := by decide +kernel
    have hbin := MsgPack.headSize_bin_le inner.length
    have hmap : MsgPack.headSize (.map 4) = 1 := by decide
    have hrecord : MsgPack.size ((reply text).encryptedRecord inner) =
        MsgPack.headSize (.map 4)+43+(MsgPack.size (.str "A")+MsgPack.size (.str "first")+
          MsgPack.size (.num (.fin 0))+MsgPack.size (.bytes inner)) := by
      rw [Draft.encryptedRecord,MsgPack.size_obj houterKeys rfl]
      simp [reply,Nat.add_assoc]
    rw [MsgPack.size_bytes] at hrecord
    rw [MsgPack.length_pack _ (houter inner hm)]
    omega

theorem compute_clear {header : PowCommittedHeader} {preimage : Bytes}
    (hd : header.powDifficulty = .num (.fin 12)) (hp : powPreimage header = .ok preimage) :
    compute clearAuthor.sha256 header = .ok 0 := by
  have hmeets : meetsDifficulty (List.replicate 32 0) 12 = true := by decide
  have hsolve : solveFrom clearAuthor.sha256 preimage 12 (9007199254740990+1) 0 = some 0 := by
    unfold solveFrom
    exact if_pos hmeets
  have hint : integer? (.num (.fin 12)) = some 12 := by decide +kernel
  have hmax : Number.maxSafeInteger.toNat = 9007199254740990+1 := by decide
  have hsolvePow : solvePow clearAuthor.sha256 header = .ok (some 0) := by
    simp only [solvePow,hp,bind,Except.bind,hd,hint,hmax]
    exact congrArg Except.ok hsolve
  have hlt : (Number.fin 12).lt (Number.ofNat minDifficulty) = false ∧
      (Number.ofNat maxDifficulty).lt (Number.fin 12) = false := by decide +kernel
  simp [compute,hd,Val.number,Val.toNumber,bind,Except.bind,hlt,hsolvePow]

theorem build_reply {text : String} (h : (Bytes.utf8 text).length < 1000000) {nonce : Bytes}
    (hn : nonce.length = 12) :
    ∃ packet, build clear clearAuthor (reply text) target.key 0 nonce = .ok packet := by
  obtain ⟨m,hm,hlen⟩ := plaintext_reply h
  have hround : roundToMinute 0 = 0 := rfl
  obtain ⟨preimage,hp⟩ : ∃ preimage, powPreimage ((reply text).committed clearAuthor target.key
      nonce (clear.aeadEncrypt target.key nonce (magic ++ m)) 0) = .ok preimage := by
    have hzero : (Number.ofNat 0).toSafeInt? = some 0 ∧ (Number.ofNat 0).toInt? = some 0 ∧
        (Number.fin 12).toInt? = some 12 := by decide +kernel
    have hzone : KeyManager.computeZoneId ((clearAuthor.cryptoHash target.key).take 32) 0 = 0 := rfl
    have hmax : (0 : Int) ≤ Number.maxSafeInteger := by decide
    have hpayload : ¬0xffffffff < (clear.aeadEncrypt target.key nonce (magic ++ m)).length := by
      rw [clear_lengths.aeadEncrypt,List.length_append]
      have hmagic : magic.length = 4 := rfl
      have htag : tagBytes = 16 := rfl
      omega
    simp [powPreimage,Draft.committed,reply,safeInteger?,integer?,hzero,hzone,inRange,hmax,hpayload,
      hn,bind,Except.bind]
  have hcompute := compute_clear rfl hp
  have hid : derivePacketId clearAuthor.sha256 ((reply text).committed clearAuthor target.key
      nonce (clear.aeadEncrypt target.key nonce (magic ++ m)) 0) =
        .ok (Bytes.toHex (clearAuthor.sha256 preimage)) := by
    simp [derivePacketId,hp,bind,Except.bind]
  simp [build,hround,hm,bind,Except.bind,hcompute,hid]

theorem utf8_replicate (n : Nat) :
    (Bytes.utf8 (String.ofList (List.replicate n 'x'))).length = n := by
  have hascii : ∀ c ∈ (String.ofList (List.replicate n 'x')).toList, c.val ≤ 0x7f := by
    intro c hc
    rw [String.toList_ofList] at hc
    rw [List.eq_of_mem_replicate hc]
    decide
  rw [Bytes.utf8_length_of_ascii hascii,String.toList_ofList,List.length_replicate]

/-- A text that alone is larger than a payload may be. -/
def long : String := String.ofList (List.replicate 2048 'x')

end Submission
