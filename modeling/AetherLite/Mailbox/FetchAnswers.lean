import AetherLite.Lib.Sha256
import AetherLite.Mailbox.DHTMailbox
import Mathlib.Data.List.Nodup

/-! A fetch is settled once, with what the nodes that it asked answered in time. -/
set_option autoImplicit false

namespace DHTMailbox

open Js MailboxEntry

/-- The entries are under their own bytes. -/
structure Keyed (m : JsMap String Bytes) : Prop where
  nodup : (JsMap.keys m).Nodup
  hex : ∀ e ∈ m, e.1 = Bytes.toHex e.2

namespace Keyed

variable {m : JsMap String Bytes}

theorem nil : Keyed [] := ⟨List.nodup_nil,fun _ he => (by cases he)⟩

theorem mem_values (h : Keyed m) (e : Bytes) :
    e ∈ JsMap.values m ↔ JsMap.get m (Bytes.toHex e) = some e := by
  constructor
  · intro he
    obtain ⟨x,hx,rfl⟩ := List.mem_map.mp he
    have hkey := h.hex x hx
    rw [← hkey]
    exact JsMap.get_of_mem h.nodup hx
  · exact JsMap.get_mem_values

theorem set (h : Keyed m) (p : Bytes) : Keyed (JsMap.set m (Bytes.toHex p) p) where
  nodup := JsMap.nodup_keys_set h.nodup _ _
  hex e he := by
    rcases JsMap.mem_set he with rfl | he
    · rfl
    · exact h.hex e he

theorem mem_values_set (h : Keyed m) (p e : Bytes) :
    e ∈ JsMap.values (JsMap.set m (Bytes.toHex p) p) ↔ e ∈ JsMap.values m ∨ e = p := by
  rw [(h.set p).mem_values,h.mem_values,JsMap.get_set]
  by_cases hp : Bytes.toHex p = Bytes.toHex e
  · obtain rfl := Bytes.toHex_inj hp
    simp
  · have hne : e ≠ p := fun heq => hp (by rw [heq])
    simp [hp,hne]

theorem addPackets (h : Keyed m) (ps : List Bytes) : Keyed (addPackets m ps) ∧
    ∀ e, e ∈ JsMap.values (DHTMailbox.addPackets m ps) ↔ e ∈ JsMap.values m ∨ e ∈ ps := by
  induction ps generalizing m with
  | nil => exact ⟨h,fun e => by simp [DHTMailbox.addPackets]⟩
  | cons p ps ih =>
    obtain ⟨hkeyed,hmem⟩ := ih (h.set p)
    refine ⟨hkeyed,fun e => ?_⟩
    have hcons := hmem e
    rw [h.mem_values_set] at hcons
    simp only [List.mem_cons]
    rw [← or_assoc]
    exact hcons

/-- No entry is twice in the map. -/
theorem nodup_values (h : Keyed m) : (JsMap.values m).Nodup := by
  have hkeys : JsMap.keys m = (JsMap.values m).map Bytes.toHex := by
    simp only [JsMap.keys,JsMap.values,List.map_map]
    exact List.map_congr_left h.hex
  have hn := h.nodup
  rw [hkeys] at hn
  exact List.Nodup.of_map _ hn

end Keyed

section
variable (sha256 : Bytes → Bytes)

/-- A response with the id of the request, from the node that was asked and for its topic. -/
def isAnswer (requestId target topicHash : String) (r : Response) : Bool :=
  r.peerId == target && r.msg.field "reqId" == .str requestId &&
    r.msg.field "topicHash" == .str topicHash

def accepted (r : Response) : List Bytes :=
  match filterValidEntries sha256 (r.msg.field "entries") r.now with
  | .ok result => result.accepted
  | .error _ => []

/-- What the first answer to the request brought. -/
def answer (responses : List Response) (requestId target topicHash : String) : List Bytes :=
  match responses.find? (isAnswer requestId target topicHash) with
  | some r => accepted sha256 r
  | none => []

/-- The responses between the requests of a fetch and its end. -/
def Fetch.window (f : Fetch) (responses : List Response) : List Response :=
  ((f.till.map responses.take).getD responses).drop f.since

def Fetch.requests (f : Fetch) : List (String × String) := f.requestIds.zip f.nearest

/-- What a fetch has is what is stored here and what was answered to it. -/
structure FetchOk (s : State) (i : Nat) (f : Fetch) : Prop where
  keyed : Keyed f.uniquePackets
  holds : ∀ e, e ∈ JsMap.values f.uniquePackets ↔ e ∈ f.localEntries ∨
    ∃ r ∈ f.requests, e ∈ answer sha256 (f.window s.responses) r.1 r.2 f.topicHash
  ids : f.requestIds.Nodup
  length : f.requestIds.length = f.nearest.length
  since : f.since ≤ s.responses.length
  underWay : f.settled = false → f.till = none ∧ f.hardTimer = .armed ∧ f.resolved = []
  done : f.settled = true → (∃ n, f.till = some n ∧ n ≤ s.responses.length) ∧
    f.resolved = [JsMap.values f.uniquePackets]
  waiting : f.settled = false → ∀ r ∈ f.requests,
    (f.window s.responses).find? (isAnswer r.1 r.2 f.topicHash) = none →
      JsMap.get s.pendingRequests r.1 = some ⟨i,f.topicHash,r.2⟩

/-- No two fetches have a request id together. -/
def Apart (fetches : List Fetch) : Prop :=
  ∀ (i j : Nat) (f g : Fetch), fetches[i]? = some f → fetches[j]? = some g → i ≠ j →
    ∀ id ∈ f.requestIds, id ∉ g.requestIds

/-- A pending request is one of a fetch under way, and was not answered yet. -/
structure Inv (s : State) : Prop where
  fetches : ∀ i f, s.fetches[i]? = some f → FetchOk sha256 s i f
  apart : Apart s.fetches
  pending : ∀ id req, JsMap.get s.pendingRequests id = some req →
    ∃ f, s.fetches[req.fetch]? = some f ∧ f.settled = false ∧ (id,req.target) ∈ f.requests ∧
      req.topicHash = f.topicHash ∧
        (f.window s.responses).find? (isAnswer id req.target f.topicHash) = none

end

section
variable {sha256 : Bytes → Bytes} {s t : State} {i : Nat} {f : Fetch}

theorem find?_append_none {α : Type*} {p : α → Bool} {w : List α} {x : α} :
    (w ++ [x]).find? p = none ↔ w.find? p = none ∧ p x = false := by
  simp [List.find?_append,List.find?_eq_none]

theorem answer_append_of_found {w : List Response} {r : Response} {id target topic : String}
    (h : w.find? (isAnswer id target topic) ≠ none ∨ isAnswer id target topic r = false) :
    answer sha256 (w ++ [r]) id target topic = answer sha256 w id target topic := by
  unfold answer
  rw [List.find?_append]
  cases hw : w.find? (isAnswer id target topic) with
  | some x => simp
  | none =>
    have hr : isAnswer id target topic r = false := by simpa [hw] using h
    simp [hr]

theorem answer_append_first {w : List Response} {r : Response} {id target topic : String}
    (hw : w.find? (isAnswer id target topic) = none) (hr : isAnswer id target topic r = true) :
    answer sha256 (w ++ [r]) id target topic = accepted sha256 r := by
  unfold answer
  rw [List.find?_append,hw]
  simp [hr]

theorem answer_of_none {w : List Response} {id target topic : String}
    (hw : w.find? (isAnswer id target topic) = none) :
    answer sha256 w id target topic = [] := by
  unfold answer
  rw [hw]

theorem isAnswer_iff {id target topic : String} {r : Response} :
    isAnswer id target topic r = true ↔ r.peerId = target ∧ r.msg.field "reqId" = .str id ∧
      r.msg.field "topicHash" = .str topic := by
  have hstr : ∀ (v : Val) (t : String), (v == .str t) = true ↔ v = .str t := by
    intro v t
    constructor
    · exact Val.eq_of_beq
    · rintro rfl
      change (t == t) = true
      simp
  simp only [isAnswer,Bool.and_eq_true,hstr,beq_iff_eq,and_assoc]

/-- The end of the window moves with the responses until the fetch is settled. -/
theorem window_append (h : FetchOk sha256 s i f) (r : Response) :
    f.window (s.responses ++ [r]) =
      if f.settled then f.window s.responses else f.window s.responses ++ [r] := by
  unfold Fetch.window
  cases hs : f.settled with
  | false =>
    rw [(h.underWay hs).1]
    simp [List.drop_append_of_le_length h.since]
  | true =>
    obtain ⟨⟨n,hn,hle⟩,-⟩ := h.done hs
    simp [hn,List.take_append_of_le_length hle]

/-- Two requests under one id are the same. -/
theorem request_unique (h : FetchOk sha256 s i f) {id target target' : String}
    (hr : (id,target) ∈ f.requests) (hr' : (id,target') ∈ f.requests) : target = target' := by
  obtain ⟨a,ha,hget⟩ := List.mem_iff_getElem.mp hr
  obtain ⟨b,hb,hget'⟩ := List.mem_iff_getElem.mp hr'
  simp only [Fetch.requests,List.getElem_zip,Prod.mk.injEq] at hget hget'
  have hab : a = b := (List.Nodup.getElem_inj_iff h.ids).mp (hget.1.trans hget'.1.symm)
  subst hab
  exact hget.2.symm.trans hget'.2

/-- A response that answers no pending request leaves all fetches as they were. -/
theorem Inv.logged (h : Inv sha256 s) {r : Response}
    (hno : ∀ id req, JsMap.get s.pendingRequests id = some req →
      isAnswer id req.target req.topicHash r = false) :
    Inv sha256 { s with responses := s.responses ++ [r] } := by
  -- an open request that the response would answer has had its answer
  have hfound : ∀ (i : Nat) (f : Fetch), s.fetches[i]? = some f → f.settled = false → ∀ q ∈ f.requests,
      (f.window s.responses).find? (isAnswer q.1 q.2 f.topicHash) ≠ none ∨
        isAnswer q.1 q.2 f.topicHash r = false := by
    intro i f hf hs q hq
    by_cases hnone : (f.window s.responses).find? (isAnswer q.1 q.2 f.topicHash) = none
    · exact .inr (hno q.1 _ ((h.fetches i f hf).waiting hs q hq hnone))
    · exact .inl hnone
  refine ⟨fun i f hf => ?_,h.apart,fun id req hreq => ?_⟩
  · have hok := h.fetches i f hf
    have hwin := window_append hok r
    refine ⟨hok.keyed,fun e => ?_,hok.ids,hok.length,?_,hok.underWay,fun hs => ?_,fun hs q hq hnone => ?_⟩
    · rw [hok.holds]
      dsimp only
      rw [hwin]
      cases hs : f.settled with
      | true => rfl
      | false =>
        simp only [Bool.false_eq_true,if_false]
        refine or_congr Iff.rfl (exists_congr fun q => and_congr_right fun hq => ?_)
        rw [answer_append_of_found (hfound i f hf hs q hq)]
    · have hle := hok.since
      simp
      omega
    · obtain ⟨⟨n,hn,hle⟩,hres⟩ := hok.done hs
      refine ⟨⟨n,hn,?_⟩,hres⟩
      simp
      omega
    · rw [hwin,hs] at hnone
      exact hok.waiting hs q hq (find?_append_none.mp hnone).1
  · obtain ⟨f,hf,hs,hmem,htopic,hnone⟩ := h.pending id req hreq
    refine ⟨f,hf,hs,hmem,htopic,?_⟩
    dsimp only
    rw [window_append (h.fetches _ f hf) r,hs]
    refine find?_append_none.mpr ⟨hnone,?_⟩
    rw [← htopic]
    exact hno id req hreq

theorem getElem?_set_cases {α : Type*} {xs : List α} {i j : Nat} {x y z : α}
    (hi : xs[i]? = some x) (hj : (xs.set i y)[j]? = some z) :
    i = j ∧ z = y ∨ i ≠ j ∧ xs[j]? = some z := by
  have hlt := (List.getElem?_eq_some_iff.mp hi).1
  by_cases hij : i = j
  · subst hij
    rw [List.getElem?_set_self hlt] at hj
    exact .inl ⟨rfl,(Option.some.inj hj).symm⟩
  · rw [List.getElem?_set_ne hij] at hj
    exact .inr ⟨hij,hj⟩

theorem Apart.set {fetches : List Fetch} {f' : Fetch} (h : Apart fetches)
    (hf : fetches[i]? = some f) (hids : f'.requestIds = f.requestIds) : Apart (fetches.set i f') := by
  have hold : ∀ (k : Nat) (x : Fetch), (fetches.set i f')[k]? = some x →
      ∃ y : Fetch, fetches[k]? = some y ∧ y.requestIds = x.requestIds := by
    intro k x hk
    rcases getElem?_set_cases hf hk with ⟨rfl,rfl⟩ | ⟨-,hk⟩
    · exact ⟨f,hf,hids.symm⟩
    · exact ⟨x,hk,rfl⟩
  intro j k a b hj hk hjk
  obtain ⟨a',ha,haeq⟩ := hold j a hj
  obtain ⟨b',hb,hbeq⟩ := hold k b hk
  rw [← haeq,← hbeq]
  exact h j k a' b' ha hb hjk

/-- The fetch with what an answer brought. -/
def Fetch.filled (f : Fetch) (n : Nat) (g : Timer) (packets : List Bytes) : Fetch :=
  { f with
    responsesReceived := n, graceTimer := g
    uniquePackets := addPackets f.uniquePackets packets }

/-- The state after an answer to the request under `id`, with what its fetch became. -/
def State.answered (s : State) (r : Response) (id : String) (i : Nat) (f : Fetch) : State :=
  { s with
    responses := s.responses ++ [r]
    pendingRequests := JsMap.delete s.pendingRequests id
    fetches := s.fetches.set i f }

/-- A response answers no request under another id. -/
theorem isAnswer_other {r : Response} {id target topic : String}
    (h : isAnswer id target topic r = true) {id' : String} (hne : id' ≠ id)
    (target' topic' : String) : isAnswer id' target' topic' r = false := by
  rw [Bool.eq_false_iff]
  intro hq
  have hone := (isAnswer_iff.mp hq).2.1
  rw [(isAnswer_iff.mp h).2.1] at hone
  exact hne (Val.str.inj hone).symm

section
variable {r : Response} {id : String} {req : PendingRequest}

/-- The fetch that asked has what the first answer brought. -/
theorem FetchOk.filled (hok : FetchOk sha256 s i f) (hopen : f.settled = false) {target : String}
    (hmem : (id,target) ∈ f.requests)
    (hnone : (f.window s.responses).find? (isAnswer id target f.topicHash) = none)
    (hans : isAnswer id target f.topicHash r = true) (n : Nat) (g : Timer) :
    FetchOk sha256 (s.answered r id i (f.filled n g (accepted sha256 r))) i
      (f.filled n g (accepted sha256 r)) := by
  obtain ⟨hkeyed,hvalues⟩ := hok.keyed.addPackets (accepted sha256 r)
  have hwin : f.window (s.responses ++ [r]) = f.window s.responses ++ [r] := by
    simp [window_append hok,hopen]
  have hone : ∀ q ∈ f.requests, q.1 = id → q.2 = target := by
    rintro q hq rfl
    exact request_unique hok hq hmem
  have hlen : s.responses.length ≤ (s.responses ++ [r]).length := by simp
  refine ⟨hkeyed,fun e => ?_,hok.ids,hok.length,hok.since.trans hlen,hok.underWay,
    fun hs => absurd (hs.symm.trans hopen) (by simp),fun _ q hq hqnone => ?_⟩
  · change e ∈ JsMap.values (addPackets f.uniquePackets (accepted sha256 r)) ↔ e ∈ f.localEntries ∨
      ∃ q ∈ f.requests, e ∈ answer sha256 (f.window (s.responses ++ [r])) q.1 q.2 f.topicHash
    rw [hvalues,hok.holds,hwin]
    constructor
    · rintro ((hl | ⟨q,hq,he⟩) | he)
      · exact .inl hl
      · refine .inr ⟨q,hq,?_⟩
        by_cases hqid : q.1 = id
        · rw [hqid,hone q hq hqid,answer_of_none hnone] at he
          cases he
        · rw [answer_append_of_found (.inr (isAnswer_other hans hqid _ _))]
          exact he
      · refine .inr ⟨(id,target),hmem,?_⟩
        rw [answer_append_first hnone hans]
        exact he
    · rintro (hl | ⟨q,hq,he⟩)
      · exact .inl (.inl hl)
      · by_cases hqid : q.1 = id
        · rw [hqid,hone q hq hqid,answer_append_first hnone hans] at he
          exact .inr he
        · rw [answer_append_of_found (.inr (isAnswer_other hans hqid _ _))] at he
          exact .inl (.inr ⟨q,hq,he⟩)
  · change (f.window (s.responses ++ [r])).find? (isAnswer q.1 q.2 f.topicHash) = none at hqnone
    rw [hwin] at hqnone
    obtain ⟨hqnone,hqr⟩ := find?_append_none.mp hqnone
    have hqid : q.1 ≠ id := by
      intro hqid
      rw [hqid,hone q hq hqid,hans] at hqr
      cases hqr
    change JsMap.get (JsMap.delete s.pendingRequests id) q.1 = _
    rw [JsMap.get_delete_ne hqid]
    exact hok.waiting hopen q hq hqnone

/-- The other fetches are as they were. -/
theorem FetchOk.answered_other (hok : FetchOk sha256 s i f) {j : Nat} {f' : Fetch}
    (hid : id ∉ f.requestIds) {target topic : String} (hans : isAnswer id target topic r = true) :
    FetchOk sha256 (s.answered r id j f') i f := by
  have hwin := window_append hok r
  have hne : ∀ q ∈ f.requests, q.1 ≠ id := by
    rintro q hq rfl
    exact hid (List.of_mem_zip hq).1
  have hlen : s.responses.length ≤ (s.responses ++ [r]).length := by simp
  refine ⟨hok.keyed,fun e => ?_,hok.ids,hok.length,hok.since.trans hlen,hok.underWay,
    fun hs => ?_,fun hs q hq hqnone => ?_⟩
  · rw [hok.holds]
    change _ ↔ _ ∨ ∃ q ∈ f.requests, e ∈ answer sha256 (f.window (s.responses ++ [r])) _ _ _
    rw [hwin]
    split
    · rfl
    · refine or_congr Iff.rfl (exists_congr fun q => and_congr_right fun hq => ?_)
      rw [answer_append_of_found (.inr (isAnswer_other hans (hne q hq) _ _))]
  · obtain ⟨⟨m,hm,hle⟩,hres⟩ := hok.done hs
    exact ⟨⟨m,hm,hle.trans hlen⟩,hres⟩
  · change (f.window (s.responses ++ [r])).find? (isAnswer q.1 q.2 f.topicHash) = none at hqnone
    rw [hwin,hs] at hqnone
    change JsMap.get (JsMap.delete s.pendingRequests id) q.1 = _
    rw [JsMap.get_delete_ne (hne q hq)]
    exact hok.waiting hs q hq (find?_append_none.mp hqnone).1

/-- The first answer to a pending request goes to its fetch. -/
theorem Inv.answered (h : Inv sha256 s) (hreq : JsMap.get s.pendingRequests id = some req)
    (hans : isAnswer id req.target req.topicHash r = true)
    (hf : s.fetches[req.fetch]? = some f) (n : Nat) (g : Timer) :
    Inv sha256 (s.answered r id req.fetch (f.filled n g (accepted sha256 r))) := by
  obtain ⟨f₀,hf₀,hopen,hmem,htopic,hnone⟩ := h.pending id req hreq
  obtain rfl : f₀ = f := Option.some.inj (hf₀.symm.trans hf)
  have hans' := hans
  rw [htopic] at hans'
  have hid : id ∈ f₀.requestIds := (List.of_mem_zip hmem).1
  have hold : ∀ (k : Nat) (x : Fetch),
      (s.fetches.set req.fetch (f₀.filled n g (accepted sha256 r)))[k]? = some x →
        req.fetch = k ∧ x = f₀.filled n g (accepted sha256 r) ∨
          req.fetch ≠ k ∧ s.fetches[k]? = some x := fun k x hk => getElem?_set_cases hf hk
  refine ⟨fun i f hi => ?_,h.apart.set hf rfl,fun id' req' hreq' => ?_⟩
  · rcases hold i f hi with ⟨rfl,rfl⟩ | ⟨hne,hi⟩
    · exact (h.fetches _ f₀ hf).filled hopen hmem hnone hans' n g
    · exact (h.fetches i f hi).answered_other (h.apart req.fetch i f₀ f hf hi hne id hid) hans
  · change JsMap.get (JsMap.delete s.pendingRequests id) id' = some req' at hreq'
    have hne : id' ≠ id := by
      rintro rfl
      rw [JsMap.get_delete_self] at hreq'
      cases hreq'
    rw [JsMap.get_delete_ne hne] at hreq'
    obtain ⟨x,hx,hxs,hxm,hxt,hxn⟩ := h.pending id' req' hreq'
    have hxn' : (x.window (s.responses ++ [r])).find? (isAnswer id' req'.target x.topicHash) =
        none := by
      rw [window_append (h.fetches _ x hx),hxs]
      exact find?_append_none.mpr ⟨hxn,isAnswer_other hans hne _ _⟩
    by_cases hsame : req.fetch = req'.fetch
    · obtain rfl : f₀ = x := by
        rw [← hsame,hf] at hx
        exact Option.some.inj hx
      refine ⟨f₀.filled n g (accepted sha256 r),?_,hxs,hxm,hxt,hxn'⟩
      change (s.fetches.set req.fetch _)[req'.fetch]? = _
      rw [← hsame,List.getElem?_set_self (List.getElem?_eq_some_iff.mp hf).1]
    · refine ⟨x,?_,hxs,hxm,hxt,hxn'⟩
      change (s.fetches.set req.fetch _)[req'.fetch]? = _
      rw [List.getElem?_set_ne hsame]
      exact hx

end

theorem get_foldl_delete {ν : Type*} (ids : List String) (m : JsMap String ν) (k : String) :
    JsMap.get (ids.foldl JsMap.delete m) k = if k ∈ ids then none else JsMap.get m k := by
  induction ids generalizing m with
  | nil => simp
  | cons id ids ih =>
    rw [List.foldl_cons,ih]
    by_cases hk : k = id
    · subst hk
      simp [JsMap.get_delete_self]
    · simp [hk,JsMap.get_delete_ne hk]

/-- Only the requests under way are pending. -/
theorem Inv.not_pending (h : Inv sha256 s) (hf : s.fetches[i]? = some f) (hs : f.settled = true)
    {id : String} (hid : id ∈ f.requestIds) : JsMap.get s.pendingRequests id = none := by
  cases hreq : JsMap.get s.pendingRequests id with
  | none => rfl
  | some req =>
    obtain ⟨g,hg,hopen,hmem,-,-⟩ := h.pending id req hreq
    by_cases hi : i = req.fetch
    · rw [hi,hg] at hf
      cases hf
      rw [hs] at hopen
      cases hopen
    · exact absurd (List.of_mem_zip hmem).1 (h.apart i req.fetch f g hf hg hi id hid)

theorem Inv.finalize (h : Inv sha256 s) (hf : s.fetches[i]? = some f) :
    Inv sha256 (finalize s i f) := by
  unfold DHTMailbox.finalize
  split
  · exact h
  next hopen =>
  have hopen : f.settled = false := by simpa using hopen
  have hok := h.fetches i f hf
  obtain ⟨htill,-,hres⟩ := hok.underWay hopen
  refine ⟨fun j g hj => ?_,h.apart.set hf rfl,fun id req hreq => ?_⟩
  · rcases getElem?_set_cases hf hj with ⟨rfl,rfl⟩ | ⟨hne,hj⟩
    · refine ⟨hok.keyed,fun e => ?_,hok.ids,hok.length,hok.since,fun hs => (by cases hs),
        fun _ => ⟨⟨_,rfl,Nat.le_refl _⟩,by simp [hres]⟩,fun hs => (by cases hs)⟩
      rw [hok.holds]
      simp [Fetch.window,htill,Fetch.requests]
    · have hoki := h.fetches j g hj
      refine ⟨hoki.keyed,hoki.holds,hoki.ids,hoki.length,hoki.since,hoki.underWay,hoki.done,
        fun hs q hq hnone => ?_⟩
      rw [get_foldl_delete,if_neg]
      · exact hoki.waiting hs q hq hnone
      · exact fun hmem => h.apart i j f g hf hj hne q.1 hmem (List.of_mem_zip hq).1
  · rw [get_foldl_delete] at hreq
    split at hreq
    · cases hreq
    · next hid =>
      obtain ⟨g,hg,hgs,hmem,htopic,hnone⟩ := h.pending id req hreq
      refine ⟨g,?_,hgs,hmem,htopic,hnone⟩
      have hne : i ≠ req.fetch := by
        rintro rfl
        rw [hf] at hg
        cases hg
        exact hid (List.of_mem_zip hmem).1
      rw [List.getElem?_set_ne hne]
      exact hg

theorem get_addRequests_of_not_mem {n : Nat} {topic : String} {rs : List (String × String)}
    {m : JsMap String PendingRequest} {k : String} (hk : k ∉ rs.map Prod.fst) :
    JsMap.get (addRequests n topic m rs) k = JsMap.get m k := by
  induction rs generalizing m with
  | nil => rfl
  | cons r rs ih =>
    simp only [List.map_cons,List.mem_cons,not_or] at hk
    have hrest := ih (m := JsMap.set m r.1 ⟨n,topic,r.2⟩) hk.2
    rw [JsMap.get_set_ne _ hk.1] at hrest
    exact hrest

theorem get_addRequests_of_mem {n : Nat} {topic : String} {rs : List (String × String)}
    (hn : (rs.map Prod.fst).Nodup) {m : JsMap String PendingRequest} {r : String × String}
    (hr : r ∈ rs) : JsMap.get (addRequests n topic m rs) r.1 = some ⟨n,topic,r.2⟩ := by
  induction rs generalizing m with
  | nil => cases hr
  | cons q rs ih =>
    rw [List.map_cons,List.nodup_cons] at hn
    rcases List.mem_cons.mp hr with rfl | hr
    · have hrest : JsMap.get (addRequests n topic (JsMap.set m r.1 ⟨n,topic,r.2⟩) rs) r.1 = _ :=
        get_addRequests_of_not_mem hn.1
      rw [JsMap.get_set_self] at hrest
      exact hrest
    · exact ih hn.2 hr

/-- The random parts of the request ids do not repeat. -/
def FreshIds (s : State) : Action → Prop
  | .stored _ _ ids => (ids.map requestId).Nodup ∧
      ∀ f ∈ s.fetches, ∀ id ∈ ids, requestId id ∉ f.requestIds
  | _ => True

theorem Inv.continueFetch (h : Inv sha256 s) {topicHash : String} {nearest ids : List String}
    {stored : Option (List Bytes)} (hfresh : (ids.map requestId).Nodup ∧
      ∀ f ∈ s.fetches, ∀ id ∈ ids, requestId id ∉ f.requestIds)
    (ht : continueFetch s topicHash nearest stored ids = some t) : Inv sha256 t := by
  obtain ⟨hn,hnew⟩ := hfresh
  unfold DHTMailbox.continueFetch at ht
  dsimp only at ht
  split at ht
  · cases ht
    exact ⟨fun i f hf =>
      have hok := h.fetches i f hf
      ⟨hok.keyed,hok.holds,hok.ids,hok.length,hok.since,hok.underWay,hok.done,hok.waiting⟩,
      h.apart,h.pending⟩
  split at ht
  · cases ht
  next hlen =>
  cases ht
  have hlen : (ids.map requestId).length = nearest.length := by simpa using hlen
  have hfst : ((ids.map requestId).zip nearest).map Prod.fst = ids.map requestId :=
    List.map_fst_zip (Nat.le_of_eq hlen)
  have hkeep : ∀ (i : Nat) (f : Fetch), s.fetches[i]? = some f → ∀ id ∈ f.requestIds,
      id ∉ ids.map requestId := by
    intro i f hf id hid hmem
    obtain ⟨x,hx,rfl⟩ := List.mem_map.mp hmem
    exact hnew f (List.mem_of_getElem? hf) x hx hid
  have hwindow : ∀ id target topic,
      (s.responses.drop s.responses.length).find? (isAnswer id target topic) = none := by
    simp
  have hcases : ∀ (x : Fetch) (j : Nat) (g : Fetch), (s.fetches ++ [x])[j]? = some g →
      s.fetches[j]? = some g ∨ j = s.fetches.length ∧ g = x := by
    intro x j g hj
    rcases Nat.lt_or_ge j s.fetches.length with hlt | hge
    · rw [List.getElem?_append_left hlt] at hj
      exact .inl hj
    · rw [List.getElem?_append_right hge] at hj
      have hzero : j-s.fetches.length = 0 := by
        have hlt := (List.getElem?_eq_some_iff.mp hj).1
        simp at hlt
        omega
      rw [hzero] at hj
      exact .inr ⟨by omega,(Option.some.inj hj).symm⟩
  refine ⟨fun j g hj => ?_,fun j k a b hj hk hjk id ha hb => ?_,fun id req hreq => ?_⟩
  · rcases hcases _ j g hj with hj | ⟨rfl,rfl⟩
    · have hok := h.fetches j g hj
      refine ⟨hok.keyed,hok.holds,hok.ids,hok.length,hok.since,hok.underWay,hok.done,
        fun hs q hq hnone => ?_⟩
      dsimp only
      rw [get_addRequests_of_not_mem]
      · exact hok.waiting hs q hq hnone
      · rw [hfst]
        exact hkeep j g hj q.1 (List.of_mem_zip hq).1
    · obtain ⟨hkeyed,hvalues⟩ := Keyed.nil.addPackets (stored.getD [])
      refine ⟨hkeyed,fun e => ?_,hn,hlen,Nat.le_refl _,fun _ => ⟨rfl,rfl,rfl⟩,
        fun hs => (by cases hs),fun _ q hq _ => ?_⟩
      · refine (hvalues e).trans ?_
        simp [JsMap.values,newFetch,Fetch.window,answer]
      · exact get_addRequests_of_mem (by rw [hfst]; exact hn) hq
  · rcases hcases _ j a hj with hj | ⟨rfl,rfl⟩ <;> rcases hcases _ k b hk with hk | ⟨rfl,rfl⟩
    · exact h.apart j k a b hj hk hjk id ha hb
    · exact hkeep j a hj id ha hb
    · exact hkeep k b hk id hb ha
    · exact hjk rfl
  · dsimp only at hreq ⊢
    by_cases hid : id ∈ ids.map requestId
    · have hmem : id ∈ ((ids.map requestId).zip nearest).map Prod.fst := by
        rw [hfst]
        exact hid
      obtain ⟨q,hq,rfl⟩ := List.mem_map.mp hmem
      rw [get_addRequests_of_mem (by rw [hfst]; exact hn) hq] at hreq
      cases hreq
      refine ⟨newFetch topicHash nearest (ids.map requestId) (stored.getD []) s.responses.length,
        by simp,rfl,hq,rfl,hwindow _ _ _⟩
    · rw [get_addRequests_of_not_mem (by rw [hfst]; exact hid)] at hreq
      obtain ⟨g,hg,hrest⟩ := h.pending id req hreq
      refine ⟨g,?_,hrest⟩
      rw [List.getElem?_append_left (List.getElem?_eq_some_iff.mp hg).1]
      exact hg

/-- A response is passed on where it answers a pending request, and nowhere else. -/
theorem handleRes_gate (s : State) (r : Response) :
    (handleRes sha256 s r = { s with responses := s.responses ++ [r] } ∧
      ∀ id req, JsMap.get s.pendingRequests id = some req →
        isAnswer id req.target req.topicHash r = false) ∨
    ∃ reqId req, JsMap.get s.pendingRequests reqId = some req ∧
      isAnswer reqId req.target req.topicHash r = true ∧
      handleRes sha256 s r =
        (let s := { s with
          responses := s.responses ++ [r]
          pendingRequests := JsMap.delete s.pendingRequests reqId }
        match filterValidEntries sha256 (r.msg.field "entries") r.now with
        | .error _ => s
        | .ok result => resolveRequest s req.fetch result.accepted) := by
  unfold handleRes
  dsimp only
  split
  · next reqId hid =>
    have hother : ∀ (id : String) (req : PendingRequest),
        isAnswer id req.target req.topicHash r = true → id = reqId := by
      intro id req hans
      have hone := (isAnswer_iff.mp hans).2.1
      rw [hid] at hone
      exact (Val.str.inj hone).symm
    split
    · next hnone =>
      refine .inl ⟨rfl,fun id req hreq => Bool.eq_false_iff.mpr fun hans => ?_⟩
      rw [hother id req hans,hnone] at hreq
      cases hreq
    next req hreq =>
    have hrefused : isAnswer reqId req.target req.topicHash r = false → ∀ id req',
        JsMap.get s.pendingRequests id = some req' →
          isAnswer id req'.target req'.topicHash r = false := by
      refine fun hno id req' hreq' => Bool.eq_false_iff.mpr fun hans => ?_
      obtain rfl := hother id req' hans
      rw [hreq] at hreq'
      cases hreq'
      rw [hno] at hans
      cases hans
    split
    · next hpeer =>
      refine .inl ⟨rfl,hrefused (Bool.eq_false_iff.mpr fun hans => hpeer ?_)⟩
      exact (isAnswer_iff.mp hans).1.symm
    split
    · next htopic =>
      refine .inl ⟨rfl,hrefused (Bool.eq_false_iff.mpr fun hans => ?_)⟩
      rw [(isAnswer_iff.mp hans).2.2] at htopic
      change (!(req.topicHash == req.topicHash)) = true at htopic
      simp at htopic
    next hpeer htopic =>
    refine .inr ⟨reqId,req,hreq,isAnswer_iff.mpr ⟨(not_not.mp hpeer).symm,hid,?_⟩,rfl⟩
    exact Val.eq_of_beq (by simpa [bne] using htopic)
  · next hid =>
    refine .inl ⟨rfl,fun id req _ => Bool.eq_false_iff.mpr fun hans => ?_⟩
    exact hid id (isAnswer_iff.mp hans).2.1

theorem Inv.handleRes (h : Inv sha256 s) (r : Response) : Inv sha256 (handleRes sha256 s r) := by
  rcases handleRes_gate s r with ⟨hres,hno⟩ | ⟨reqId,req,hreq,hans,hres⟩
  · rw [hres]
    exact h.logged hno
  rw [hres]
  dsimp only
  obtain ⟨f,hf,-⟩ := h.pending reqId req hreq
  have hlt := (List.getElem?_eq_some_iff.mp hf).1
  have hset : ∀ x : Fetch, (s.fetches.set req.fetch x)[req.fetch]? = some x := fun x =>
    List.getElem?_set_self hlt
  split
  · next e he =>
    have hkeep : f.filled f.responsesReceived f.graceTimer (accepted sha256 r) = f := by
      simp [Fetch.filled,accepted,he,addPackets]
    have hsame := h.answered hreq hans hf f.responsesReceived f.graceTimer
    have hback : s.fetches.set req.fetch f = s.fetches := by
      rw [← (List.getElem?_eq_some_iff.mp hf).2,List.set_getElem_self]
    rw [hkeep,State.answered,hback] at hsame
    exact hsame
  · next result hresult =>
    have hacc : accepted sha256 r = result.accepted := by simp [accepted,hresult]
    have hinv := fun n g => h.answered hreq hans hf n g
    rw [hacc] at hinv
    unfold resolveRequest
    simp only [hf]
    split
    · exact (hinv _ f.graceTimer).finalize (hset _)
    split
    · exact hinv _ .armed
    · exact hinv _ f.graceTimer

theorem inv_initial : Inv sha256 {} where
  fetches i f hf := by cases hf
  apart i j f g hf := by cases hf
  pending id req hreq := by cases hreq

/-- One event keeps what a fetch has to what was answered to it. -/
theorem inv_step {a : Action} (h : Inv sha256 s) (ha : FreshIds s a)
    (hs : step sha256 s a = some t) : Inv sha256 t := by
  cases a with
  | fetch topicHash nearest =>
    cases hs
    have hframe : ∀ u : State, u.fetches = s.fetches → u.pendingRequests = s.pendingRequests →
        u.responses = s.responses → Inv sha256 u := by
      intro u hf hp hr
      refine ⟨fun i f hi => ?_,by rw [hf]; exact h.apart,fun id req hreq => ?_⟩
      · rw [hf] at hi
        have hok := h.fetches i f hi
        exact ⟨hok.keyed,by rw [hr]; exact hok.holds,hok.ids,hok.length,by rw [hr]; exact hok.since,
          hok.underWay,by rw [hr]; exact hok.done,by rw [hr,hp]; exact hok.waiting⟩
      · rw [hp] at hreq
        rw [hf,hr]
        exact h.pending id req hreq
    unfold startFetch
    split
    · exact hframe _ rfl rfl rfl
    · exact hframe _ rfl rfl rfl
  | stored i entries ids =>
    obtain ⟨⟨task,fetching⟩,htask,hs⟩ := Option.bind_eq_some_iff.mp hs
    have htaken : Inv sha256 { s with fetching := fetching } :=
      ⟨fun i f hi =>
        have hok := h.fetches i f hi
        ⟨hok.keyed,hok.holds,hok.ids,hok.length,hok.since,hok.underWay,hok.done,hok.waiting⟩,
        h.apart,h.pending⟩
    exact htaken.continueFetch ha hs
  | res r =>
    cases hs
    exact h.handleRes r
  | hardTimeout i =>
    obtain ⟨f,hf,hs⟩ := Option.bind_eq_some_iff.mp hs
    simp only [Option.ite_none_right_eq_some,Option.some.injEq] at hs
    obtain ⟨-,rfl⟩ := hs
    exact h.finalize hf
  | graceElapsed i =>
    obtain ⟨f,hf,hs⟩ := Option.bind_eq_some_iff.mp hs
    simp only [Option.ite_none_right_eq_some,Option.some.injEq] at hs
    obtain ⟨-,rfl⟩ := hs
    exact h.finalize hf

/-- A fetch that asked somebody is resolved at most once, and its hard timeout resolves it if
nothing else did; then it gave, without repetition, what was stored here and what the first
answers to its requests brought in time, and none of its requests is pending. -/
theorem fetch_settles {as : List Action} (hfresh : Machine.Along (step sha256) FreshIds {} as)
    (hrun : Machine.run (step sha256) {} as = some t) (hf : t.fetches[i]? = some f) :
    f.resolved.length = (if f.settled then 1 else 0) ∧
    (f.settled = false → ∃ u g, step sha256 t (.hardTimeout i) = some u ∧
      u.fetches[i]? = some g ∧ g.settled = true ∧ g.resolved.length = 1) ∧
    (f.settled = true → ∃ result, f.resolved = [result] ∧ result.Nodup ∧
      (∀ e, e ∈ result ↔ e ∈ f.localEntries ∨
        ∃ r ∈ f.requests, e ∈ answer sha256 (f.window t.responses) r.1 r.2 f.topicHash) ∧
      ∀ id ∈ f.requestIds, JsMap.has t.pendingRequests id = false) := by
  have hinv : Inv sha256 t := Machine.invariant_run (fun _ _ _ h ha hs => inv_step h ha hs)
    inv_initial hfresh hrun
  have hok := hinv.fetches i f hf
  refine ⟨?_,fun hopen => ?_,fun hs => ?_⟩
  · cases hs : f.settled with
    | false => rw [(hok.underWay hs).2.2]; rfl
    | true => rw [(hok.done hs).2]; rfl
  · obtain ⟨-,htimer,hres⟩ := hok.underWay hopen
    refine ⟨finalize t i f,{ f with
      settled := true, hardTimer := .done, graceTimer := .done
      resolved := f.resolved ++ [JsMap.values f.uniquePackets]
      till := some t.responses.length },?_,?_,rfl,by simp [hres]⟩
    · simp [step,hf,htimer]
    · have hlt := (List.getElem?_eq_some_iff.mp hf).1
      simp [finalize,hopen,hlt]
  · refine ⟨JsMap.values f.uniquePackets,(hok.done hs).2,hok.keyed.nodup_values,hok.holds,
      fun id hid => ?_⟩
    rw [JsMap.has,hinv.not_pending hf hs hid]
    rfl

end

def areFreshIds (s : State) : Action → Bool
  | .stored _ _ ids => decide (ids.map requestId).Nodup &&
      s.fetches.all fun f => ids.all fun id => !f.requestIds.contains (requestId id)
  | _ => true

theorem freshIds_of_are {s : State} {a : Action} (h : areFreshIds s a = true) : FreshIds s a := by
  cases a with
  | stored i entries ids =>
    simp only [areFreshIds,Bool.and_eq_true,decide_eq_true_eq,List.all_eq_true] at h
    exact ⟨h.1,fun f hf id hid => by simpa using h.2 f hf id hid⟩
  | _ => trivial

def sampleTopic : String := String.ofList (List.replicate 64 '0')

def sampleResponse (peerId reqId : String) : Response :=
  ⟨peerId,.obj [("reqId",.str reqId),("topicHash",.str sampleTopic),("entries",.arr [.bytes []])],0⟩

/-- Two nodes are asked; one of them answers, after one that was not asked. -/
def gracedRun : List Action :=
  [.fetch sampleTopic ["a","b"],.stored 0 (some [[1],[2],[1]]) ["x","y"],
    .res (sampleResponse "c" "fetch_x"),.res (sampleResponse "a" "fetch_x"),.graceElapsed 0]

theorem fetch_settles_graced : ∃ t f, Machine.run (step Sha256.sha256) {} gracedRun = some t ∧
    t.fetches[0]? = some f ∧ f.settled = true ∧ ∃ result, f.resolved = [result] ∧
      result.Nodup ∧ ∀ id ∈ f.requestIds, JsMap.has t.pendingRequests id = false := by
  have hrun : (Machine.run (step Sha256.sha256) {} gracedRun).map
      (fun t => (t.fetches[0]?).map Fetch.settled) = some (some true) := by
    decide +kernel
  obtain ⟨t,ht,heq⟩ := Option.map_eq_some_iff.mp hrun
  obtain ⟨f,hf,hs⟩ := Option.map_eq_some_iff.mp heq
  have hfresh : Machine.Along (step Sha256.sha256) FreshIds {} gracedRun :=
    Machine.along_of_check (fun _ _ h => freshIds_of_are h) (by decide +kernel)
  obtain ⟨-,-,hdone⟩ := fetch_settles hfresh ht hf
  obtain ⟨result,hres,hnodup,-,hpending⟩ := hdone hs
  exact ⟨t,f,ht,hf,hs,result,hres,hnodup,hpending⟩

end DHTMailbox
