import AetherLite.Mailbox.FetchAnswers

/-! A fetch gives what is stored here and what it was answered in the order of arrival. -/
set_option autoImplicit false

namespace DHTMailbox

open Js MailboxEntry

section
variable (sha256 : Bytes → Bytes)

/-- The response answers a request that the earlier ones do not. -/
def isFirst (requests : List (String × String)) (topicHash : String) (earlier : List Response)
    (r : Response) : Bool :=
  requests.any fun q => isAnswer q.1 q.2 topicHash r && !earlier.any (isAnswer q.1 q.2 topicHash)

/-- What the first answers to the requests bring, in the order of their arrival; the responses
are the latest first. -/
def arrivals (requests : List (String × String)) (topicHash : String) : List Response → List Bytes
  | [] => []
  | r :: earlier => arrivals requests topicHash earlier ++
      if isFirst requests topicHash earlier r then accepted sha256 r else []

/-- What a fetch comes across: what is stored here, then what it is answered. -/
def Fetch.entries (f : Fetch) (responses : List Response) : List Bytes :=
  f.localEntries ++ arrivals sha256 f.requests f.topicHash (f.window responses).reverse

def Ordered (s : State) : Prop :=
  ∀ (i : Nat) (f : Fetch), s.fetches[i]? = some f →
    f.uniquePackets = addPackets [] (f.entries sha256 s.responses)

end

section
variable {sha256 : Bytes → Bytes} {s t : State} {i : Nat} {f : Fetch} {r : Response}

theorem any_eq_false_iff {id target topic : String} {w : List Response} :
    w.reverse.any (isAnswer id target topic) = false ↔
      w.find? (isAnswer id target topic) = none := by
  simp [List.find?_eq_none]

theorem addPackets_append (m : JsMap String Bytes) (ps qs : List Bytes) :
    addPackets m (ps ++ qs) = addPackets (addPackets m ps) qs := List.foldl_append

theorem entries_append (hok : FetchOk sha256 s i f) : f.entries sha256 (s.responses ++ [r]) =
    f.entries sha256 s.responses ++
      if f.settled = false ∧
        isFirst f.requests f.topicHash (f.window s.responses).reverse r = true then
          accepted sha256 r
      else [] := by
  unfold Fetch.entries
  rw [window_append hok]
  cases hs : f.settled with
  | true => simp
  | false => simp [arrivals]

/-- The fetch became what it is with the packets of an answer. -/
structure Took (w : List Response) (f g : Fetch) (packets : List Bytes) : Prop where
  uniquePackets : g.uniquePackets = addPackets f.uniquePackets packets
  localEntries : g.localEntries = f.localEntries
  requests : g.requests = f.requests
  topicHash : g.topicHash = f.topicHash
  window : g.window w = f.window w

theorem resolveRequest_took (hf : s.fetches[i]? = some f) (hopen : f.settled = false)
    (htill : f.till = none) (packets : List Bytes) :
    (resolveRequest s i packets).responses = s.responses ∧
      ∃ g, (resolveRequest s i packets).fetches = s.fetches.set i g ∧
        Took s.responses f g packets := by
  unfold resolveRequest
  simp only [hf]
  split
  · simp only [finalize,hopen,Bool.false_eq_true,if_false,List.set_set]
    exact ⟨trivial,_,rfl,rfl,rfl,rfl,rfl,by simp [Fetch.window,htill]⟩
  split
  · exact ⟨rfl,_,rfl,rfl,rfl,rfl,rfl,rfl⟩
  · exact ⟨rfl,_,rfl,rfl,rfl,rfl,rfl,rfl⟩

/-- What a response does: nothing to the fetches, or it answers a pending request. -/
theorem handleRes_cases (h : Inv sha256 s) (r : Response) :
    (handleRes sha256 s r).responses = s.responses ++ [r] ∧
    (((handleRes sha256 s r).fetches = s.fetches ∧
        (accepted sha256 r = [] ∨ ∀ id req, JsMap.get s.pendingRequests id = some req →
          isAnswer id req.target req.topicHash r = false)) ∨
      ∃ id req f g, JsMap.get s.pendingRequests id = some req ∧
        isAnswer id req.target req.topicHash r = true ∧ s.fetches[req.fetch]? = some f ∧
        (handleRes sha256 s r).fetches = s.fetches.set req.fetch g ∧
        Took (s.responses ++ [r]) f g (accepted sha256 r)) := by
  rcases handleRes_gate s r with ⟨hres,hno⟩ | ⟨reqId,req,hreq,hans,hres⟩
  · rw [hres]
    exact ⟨rfl,.inl ⟨rfl,.inr hno⟩⟩
  rw [hres]
  dsimp only
  split
  · next e he => exact ⟨rfl,.inl ⟨rfl,.inl (by simp [accepted,he])⟩⟩
  · next result hresult =>
    have hacc : accepted sha256 r = result.accepted := by simp [accepted,hresult]
    obtain ⟨f,hf,hopen,-⟩ := h.pending reqId req hreq
    have htill := ((h.fetches req.fetch f hf).underWay hopen).1
    have hf' : ({ s with
        responses := s.responses ++ [r]
        pendingRequests := JsMap.delete s.pendingRequests reqId } : State).fetches[req.fetch]? =
          some f := hf
    obtain ⟨hresp,g,hset,htook⟩ := resolveRequest_took hf' hopen htill result.accepted
    rw [← hacc] at htook
    exact ⟨hresp,.inr ⟨reqId,req,f,g,hreq,hans,hf,hset,htook⟩⟩

/-- A response that brings a fetch nothing new leaves it in order. -/
theorem entries_unchanged (hok : FetchOk sha256 s i f)
    (hno : accepted sha256 r = [] ∨ (f.settled = false → ∀ q ∈ f.requests,
      (f.window s.responses).find? (isAnswer q.1 q.2 f.topicHash) = none →
        isAnswer q.1 q.2 f.topicHash r = false)) :
    f.entries sha256 (s.responses ++ [r]) = f.entries sha256 s.responses := by
  rw [entries_append hok]
  rcases hno with hnil | hno
  · simp [hnil]
  · rw [if_neg,List.append_nil]
    rintro ⟨hopen,hfirst⟩
    obtain ⟨q,hq,hans⟩ := List.any_eq_true.mp hfirst
    simp only [Bool.and_eq_true,Bool.not_eq_true',any_eq_false_iff] at hans
    rw [hno hopen q hq hans.2] at hans
    cases hans.1

theorem Ordered.handleRes (ho : Ordered sha256 s) (h : Inv sha256 s) (r : Response) :
    Ordered sha256 (handleRes sha256 s r) := by
  obtain ⟨hresp,⟨hsame,hno⟩ | ⟨id,req,f,g,hreq,hans,hf,hset,htook⟩⟩ := handleRes_cases h r
  · intro i f hf
    rw [hsame] at hf
    have hok := h.fetches i f hf
    rw [hresp,entries_unchanged hok,ho i f hf]
    refine hno.imp_right fun hno hopen q hq hnone => ?_
    exact hno q.1 _ (hok.waiting hopen q hq hnone)
  · intro i x hx
    rw [hresp]
    rw [hset] at hx
    obtain ⟨f₀,hf₀,hopen,hmem,htopic,hnone⟩ := h.pending id req hreq
    obtain rfl : f₀ = f := Option.some.inj (hf₀.symm.trans hf)
    rcases getElem?_set_cases hf hx with ⟨rfl,rfl⟩ | ⟨hne,hx⟩
    · have hok := h.fetches req.fetch f₀ hf
      have hfirst : isFirst f₀.requests f₀.topicHash (f₀.window s.responses).reverse r = true := by
        refine List.any_eq_true.mpr ⟨(id,req.target),hmem,?_⟩
        rw [htopic] at hans
        simp [hans,any_eq_false_iff.mpr hnone]
      have hentries : x.entries sha256 (s.responses ++ [r]) =
          f₀.entries sha256 (s.responses ++ [r]) := by
        rw [Fetch.entries,htook.localEntries,htook.requests,htook.topicHash,htook.window]
        rfl
      rw [hentries,entries_append hok,if_pos ⟨hopen,hfirst⟩,addPackets_append,← ho _ f₀ hf,
        htook.uniquePackets]
    · have hok := h.fetches i x hx
      have hid : id ∉ x.requestIds :=
        h.apart req.fetch i f₀ x hf hx hne id (List.of_mem_zip hmem).1
      rw [entries_unchanged hok,ho i x hx]
      refine .inr fun _ q hq _ => isAnswer_other hans ?_ _ _
      rintro rfl
      exact hid (List.of_mem_zip hq).1

theorem Ordered.finalize (ho : Ordered sha256 s) (h : Inv sha256 s) (hf : s.fetches[i]? = some f) :
    Ordered sha256 (finalize s i f) := by
  unfold DHTMailbox.finalize
  split
  · exact ho
  next hopen =>
  intro j x hx
  have htill := ((h.fetches i f hf).underWay (by simpa using hopen)).1
  rcases getElem?_set_cases hf hx with ⟨rfl,rfl⟩ | ⟨-,hx⟩
  · have hold := ho i f hf
    simpa [Fetch.entries,Fetch.window,htill,Fetch.requests] using hold
  · exact ho j x hx

theorem Ordered.continueFetch (ho : Ordered sha256 s) {topicHash : String}
    {nearest ids : List String} {stored : Option (List Bytes)}
    (ht : continueFetch s topicHash nearest stored ids = some t) : Ordered sha256 t := by
  unfold DHTMailbox.continueFetch at ht
  dsimp only at ht
  split at ht
  · cases ht
    exact ho
  split at ht
  · cases ht
  cases ht
  intro i f hf
  rcases Nat.lt_or_ge i s.fetches.length with hlt | hge
  · rw [List.getElem?_append_left hlt] at hf
    exact ho i f hf
  · rw [List.getElem?_append_right hge] at hf
    obtain rfl : newFetch topicHash nearest (ids.map requestId) (stored.getD [])
        s.responses.length = f := by
      cases hk : i-s.fetches.length with
      | zero => simpa [hk] using hf
      | succ k => simp [hk] at hf
    simp [newFetch,Fetch.entries,Fetch.window,arrivals]

theorem ordered_initial : Ordered sha256 {} := by
  intro i f hf
  cases hf

theorem ordered_step {a : Action} (ho : Ordered sha256 s) (h : Inv sha256 s)
    (hs : step sha256 s a = some t) : Ordered sha256 t := by
  cases a with
  | fetch topicHash nearest =>
    cases hs
    unfold startFetch
    split
    · exact ho
    · exact ho
  | stored i entries ids =>
    obtain ⟨⟨task,fetching⟩,-,hs⟩ := Option.bind_eq_some_iff.mp hs
    have htaken : Ordered sha256 { s with fetching := fetching } := ho
    exact htaken.continueFetch hs
  | res r =>
    cases hs
    exact ho.handleRes h r
  | hardTimeout i =>
    obtain ⟨f,hf,hs⟩ := Option.bind_eq_some_iff.mp hs
    simp only [Option.ite_none_right_eq_some,Option.some.injEq] at hs
    obtain ⟨-,rfl⟩ := hs
    exact ho.finalize h hf
  | graceElapsed i =>
    obtain ⟨f,hf,hs⟩ := Option.bind_eq_some_iff.mp hs
    simp only [Option.ite_none_right_eq_some,Option.some.injEq] at hs
    obtain ⟨-,rfl⟩ := hs
    exact ho.finalize h hf

theorem Keyed.findSome?_set {β : Type*} {m : JsMap String Bytes} (hk : Keyed m)
    (g : Bytes → Option β) (p : Bytes) (qs : List Bytes) :
    (JsMap.values (JsMap.set m (Bytes.toHex p) p) ++ qs).findSome? g =
      (JsMap.values m ++ p :: qs).findSome? g := by
  cases hget : JsMap.get m (Bytes.toHex p) with
  | none =>
    rw [JsMap.values_set_of_get_none p hget]
    simp [List.findSome?_append]
  | some v =>
    -- what is under the bytes of a packet is the packet
    obtain rfl : p = v := Bytes.toHex_inj (hk.hex _ (JsMap.mem_of_get hget))
    have hmem : p ∈ JsMap.values m := (hk.mem_values p).mpr hget
    rw [JsMap.set_self hget,List.findSome?_append,List.findSome?_append]
    cases hm : (JsMap.values m).findSome? g with
    | some b => rfl
    | none =>
      have hp : g p = none := List.findSome?_eq_none_iff.mp hm p hmem
      simp [hp]

/-- A search goes through the packets of a fetch as through what it came across. -/
theorem Keyed.findSome?_addPackets {β : Type*} {m : JsMap String Bytes} (hk : Keyed m)
    (g : Bytes → Option β) (ps : List Bytes) :
    (JsMap.values (DHTMailbox.addPackets m ps)).findSome? g =
      (JsMap.values m ++ ps).findSome? g := by
  induction ps generalizing m with
  | nil => simp [DHTMailbox.addPackets]
  | cons p ps ih =>
    have hrest := ih (hk.set p)
    rw [hk.findSome?_set] at hrest
    exact hrest

end

end DHTMailbox
