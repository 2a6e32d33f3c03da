import AetherLite.Crypto.PacketBuilder
import AetherLite.Hint.HintArrivals
import AetherLite.Hint.SchrodingerMailbox
import AetherLite.Mailbox.FetchOrder

/-! From opened hints to their bodies: what is stored here is looked at first, then the nodes
nearest to the slot are asked. -/
set_option autoImplicit false

namespace SchrodingerMailbox

open Js Hint HintRouter

/-- Where a call of `onOpened` waits: for the store, in `fetch` for the store, or for the fetch
with the number. -/
inductive Phase where
  | reading
  | asking (stored : List Bytes) (nearest : List String)
  | fetching (stored : List Bytes) (fetch : Nat)

/-- A call of `onOpened` that has ended: what there was for it, in the order in which it was come
across, and what the listeners were called with. -/
structure Outcome where
  opened : OpenedHint
  entries : List Bytes
  delivered : List (Bytes × OpenedHint)

structure State where
  mailbox : DHTMailbox.State := {}
  calls : List (OpenedHint × Phase) := []
  outcomes : List Outcome := []

def mailboxKeyFromNonce (sha256 : Bytes → Bytes) (nonce : Bytes) : Bytes := sha256 nonce

def State.finish (s : State) (o : OpenedHint) (entries : List Bytes) (body : Option Bytes) :
    State :=
  { s with outcomes := s.outcomes ++ [⟨o,entries,body.toList.map fun body => (body,o)⟩] }

def State.suspend (s : State) (o : OpenedHint) (phase : Phase) : State :=
  { s with calls := s.calls ++ [(o,phase)] }

inductive Action where
  | opened (o : OpenedHint)
  | stored (i : Nat) (entries : Option (List Bytes)) (nearest : List String)
  | asked (i : Nat) (entries : Option (List Bytes)) (ids : List String)
  | fetched (i : Nat)
  | mailbox (a : DHTMailbox.Action)

section
variable (sha256 : Bytes → Bytes)

def keyHex (o : OpenedHint) : String := Bytes.toHex (mailboxKeyFromNonce sha256 o.payload.nonce)

/-- `fetchBody` after the store has answered. -/
def lookHere (s : State) (o : OpenedHint) (entries : Option (List Bytes)) (nearest : List String) :
    State :=
  if !DHTMailbox.isValidTopicHash (keyHex sha256 o) then s.finish o [] none
  else
    let stored := entries.getD []
    match stored.findSome? slotBody with
    | some body => s.finish o stored (some body)
    | none => s.suspend o (.asking stored nearest)

/-- `fetch` after the store has answered. -/
def ask (s : State) (o : OpenedHint) (stored : List Bytes) (nearest : List String)
    (entries : Option (List Bytes)) (ids : List String) : Option State :=
  (DHTMailbox.continueFetch s.mailbox (keyHex sha256 o) nearest entries ids).map fun mailbox =>
    let s := { s with mailbox := mailbox }
    if nearest.isEmpty then
      let result := JsMap.values (DHTMailbox.addPackets [] (entries.getD []))
      s.finish o (stored ++ entries.getD []) (fetchBody stored (some result))
    else s.suspend o (.fetching stored (mailbox.fetches.length-1))

def step (s : State) : Action → Option State
  | .opened o => some (s.suspend o .reading)
  | .stored i entries nearest => (Machine.takeTask s.calls i).bind fun (call,calls) =>
    match call with
    | (o,.reading) => some (lookHere sha256 { s with calls := calls } o entries nearest)
    | _ => none
  | .asked i entries ids => (Machine.takeTask s.calls i).bind fun (call,calls) =>
    match call with
    | (o,.asking stored nearest) =>
      ask sha256 { s with calls := calls } o stored nearest entries ids
    | _ => none
  | .fetched i => (Machine.takeTask s.calls i).bind fun (call,calls) =>
    match call with
    | (o,.fetching stored n) => (s.mailbox.fetches[n]?).bind fun f =>
      f.resolved.head?.map fun result =>
        { s with calls := calls }.finish o (stored ++ f.entries sha256 s.mailbox.responses)
          (fetchBody stored (some result))
    | _ => none
  | .mailbox a => (DHTMailbox.step sha256 s.mailbox a).map fun mailbox =>
    { s with mailbox := mailbox }

end

/-- A valid slot entry whose body is a packet that decrypts under the key. -/
def Carries (sha256 : Bytes → Bytes) (p : PacketBuilder.Primitives) (k entry : Bytes) : Prop :=
  (∃ now packet, MailboxEntry.checkEntry sha256 entry now = .ok (.ok packet)) ∧
    ∃ body packet layers, slotBody entry = some body ∧
      PacketBuilder.parsePacket body = .ok packet ∧
      PacketBuilder.layers p packet k = .ok (some layers)

/-- A slot entry with another body than that of a good entry comes after one with the same. -/
def Unshadowed (good : Bytes → Prop) (entries : List Bytes) : Prop :=
  ∀ e ∈ entries, good e → ∀ before x after, entries = before ++ x :: after →
    slotBody x ≠ none → slotBody x ≠ slotBody e → ∃ y ∈ before, slotBody y = slotBody e

theorem findSome?_eq_iff {α β : Type*} {g : α → Option β} {l : List α} {b : β}
    (hb : ∃ e ∈ l, g e = some b) : l.findSome? g = some b ↔
      ∀ before x after, l = before ++ x :: after → g x ≠ none → g x ≠ some b →
        ∃ y ∈ before, g y = some b := by
  constructor
  · intro h before x after hl hsome hother
    obtain ⟨pre,a,post,hl',ha,hpre⟩ := List.findSome?_eq_some_iff.mp h
    rw [hl] at hl'
    rcases List.append_eq_append_iff.mp hl' with ⟨mid,hmid,hrest⟩ | ⟨mid,hmid,hrest⟩
    · cases mid with
      | nil =>
        cases hrest
        exact absurd ha hother
      | cons y mid =>
        cases hrest
        exact absurd (hpre x (by simp [hmid])) hsome
    · cases mid with
      | nil =>
        cases hrest
        exact absurd ha hother
      | cons y mid =>
        cases hrest
        exact ⟨a,by simp [hmid],ha⟩
  · intro h
    cases hf : l.findSome? g with
    | none =>
      obtain ⟨e,he,heq⟩ := hb
      rw [List.findSome?_eq_none_iff.mp hf e he] at heq
      cases heq
    | some c =>
      obtain ⟨pre,a,post,hl,ha,hpre⟩ := List.findSome?_eq_some_iff.mp hf
      by_contra hne
      have hother : g a ≠ some b := by
        rw [ha]
        exact hne
      obtain ⟨y,hy,heq⟩ := h pre a post hl (by simp [ha]) hother
      rw [hpre y hy] at heq
      cases heq

section
variable {sha256 : Bytes → Bytes} {s t : State}

/-- The random parts of the request ids do not repeat. -/
def FreshIds (s : State) : Action → Prop
  | .asked i entries ids => DHTMailbox.FreshIds s.mailbox (.stored i entries ids)
  | .mailbox a => DHTMailbox.FreshIds s.mailbox a
  | _ => True

/-- The listeners were called with the body of the first slot there was. -/
def Outcome.First (out : Outcome) : Prop :=
  out.delivered = (out.entries.findSome? slotBody).toList.map fun body => (body,out.opened)

structure Inv (sha256 : Bytes → Bytes) (s : State) : Prop where
  mailbox : DHTMailbox.Inv sha256 s.mailbox
  ordered : DHTMailbox.Ordered sha256 s.mailbox
  first : ∀ out ∈ s.outcomes, out.First
  fetching : ∀ o stored n, (o,.fetching stored n) ∈ s.calls → n < s.mailbox.fetches.length

theorem fetchBody_eq (stored result : List Bytes) :
    fetchBody stored (some result) = (stored ++ result).findSome? slotBody := by
  rw [fetchBody,List.findSome?_append]
  cases stored.findSome? slotBody <;> rfl

theorem fetchBody_congr {stored result entries : List Bytes}
    (h : result.findSome? slotBody = entries.findSome? slotBody) :
    fetchBody stored (some result) = (stored ++ entries).findSome? slotBody := by
  rw [fetchBody_eq,List.findSome?_append,h,← List.findSome?_append]

theorem Inv.suspend (h : Inv sha256 s) (o : OpenedHint) {phase : Phase}
    (hp : ∀ stored n, phase = .fetching stored n → n < s.mailbox.fetches.length) :
    Inv sha256 (s.suspend o phase) where
  mailbox := h.mailbox
  ordered := h.ordered
  first := h.first
  fetching o' stored n hc := by
    rcases List.mem_append.mp hc with hc | hc
    · exact h.fetching o' stored n hc
    · cases List.mem_singleton.mp hc
      exact hp stored n rfl

theorem Inv.finish (h : Inv sha256 s) (o : OpenedHint) {entries : List Bytes}
    {body : Option Bytes} (hb : body = entries.findSome? slotBody) :
    Inv sha256 (s.finish o entries body) where
  mailbox := h.mailbox
  ordered := h.ordered
  first out hout := by
    rcases List.mem_append.mp hout with hout | hout
    · exact h.first out hout
    · rw [List.mem_singleton.mp hout,Outcome.First,hb]
  fetching := h.fetching

theorem Inv.taken (h : Inv sha256 s) {calls : List (OpenedHint × Phase)} {i : Nat}
    {call : OpenedHint × Phase} (ht : Machine.takeTask s.calls i = some (call,calls)) :
    Inv sha256 { s with calls := calls } :=
  ⟨h.mailbox,h.ordered,h.first,fun o stored n hc =>
    h.fetching o stored n ((Machine.takeTask_mem ht).2 _ hc)⟩

theorem Inv.lookHere (h : Inv sha256 s) (o : OpenedHint) (entries : Option (List Bytes))
    (nearest : List String) : Inv sha256 (lookHere sha256 s o entries nearest) := by
  unfold SchrodingerMailbox.lookHere
  split
  · exact h.finish o rfl
  dsimp only
  split
  · next body hbody => exact h.finish o hbody.symm
  · exact h.suspend o fun stored n heq => by cases heq

theorem length_continueFetch {m m' : DHTMailbox.State} {topicHash : String}
    {nearest ids : List String} {entries : Option (List Bytes)}
    (h : DHTMailbox.continueFetch m topicHash nearest entries ids = some m') :
    m'.fetches.length = m.fetches.length+(if nearest.isEmpty then 0 else 1) := by
  unfold DHTMailbox.continueFetch at h
  dsimp only at h
  split at h
  · next hempty =>
    cases h
    simp [hempty]
  split at h
  · cases h
  next hne _ =>
    cases h
    simp [hne]

theorem Inv.ask (h : Inv sha256 s) {o : OpenedHint} {stored : List Bytes} {nearest ids : List String}
    {entries : Option (List Bytes)} (hfresh : DHTMailbox.FreshIds s.mailbox (.stored 0 entries ids))
    (ht : ask sha256 s o stored nearest entries ids = some t) : Inv sha256 t := by
  obtain ⟨mailbox,hmailbox,rfl⟩ := Option.map_eq_some_iff.mp ht
  have hlen := length_continueFetch hmailbox
  have hinv : Inv sha256 { s with mailbox := mailbox } :=
    ⟨h.mailbox.continueFetch hfresh hmailbox,h.ordered.continueFetch hmailbox,h.first,
      fun o stored n hc => by
        have hlt := h.fetching o stored n hc
        dsimp only
        omega⟩
  dsimp only
  split
  · refine hinv.finish o (fetchBody_congr ?_)
    rw [DHTMailbox.Keyed.nil.findSome?_addPackets]
    rfl
  · next hne =>
    refine hinv.suspend o fun stored n heq => ?_
    cases heq
    simp only [hne] at hlen
    dsimp only
    simp at hlen
    omega

theorem length_finalize (m : DHTMailbox.State) (i : Nat) (f : DHTMailbox.Fetch) :
    (DHTMailbox.finalize m i f).fetches.length = m.fetches.length := by
  unfold DHTMailbox.finalize
  split
  · rfl
  · simp

theorem length_resolveRequest (m : DHTMailbox.State) (i : Nat) (packets : List Bytes) :
    (DHTMailbox.resolveRequest m i packets).fetches.length = m.fetches.length := by
  unfold DHTMailbox.resolveRequest
  split
  · rfl
  dsimp only
  split
  · rw [length_finalize]
    simp
  split <;> simp

theorem length_handleRes (m : DHTMailbox.State) (r : DHTMailbox.Response) :
    (DHTMailbox.handleRes sha256 m r).fetches.length = m.fetches.length := by
  unfold DHTMailbox.handleRes
  dsimp only
  split
  · split
    · rfl
    split
    · rfl
    split
    · rfl
    split
    · rfl
    · exact length_resolveRequest _ _ _
  · rfl

theorem length_step {m m' : DHTMailbox.State} {a : DHTMailbox.Action}
    (h : DHTMailbox.step sha256 m a = some m') : m.fetches.length ≤ m'.fetches.length := by
  cases a with
  | fetch topicHash nearest =>
    cases h
    unfold DHTMailbox.startFetch
    split <;> exact Nat.le_refl _
  | stored i entries ids =>
    obtain ⟨⟨task,fetching⟩,-,h⟩ := Option.bind_eq_some_iff.mp h
    have hlen := length_continueFetch h
    dsimp only at hlen
    omega
  | res r =>
    cases h
    exact Nat.le_of_eq (length_handleRes m r).symm
  | hardTimeout i =>
    obtain ⟨f,-,h⟩ := Option.bind_eq_some_iff.mp h
    simp only [Option.ite_none_right_eq_some,Option.some.injEq] at h
    obtain ⟨-,rfl⟩ := h
    exact Nat.le_of_eq (length_finalize m i f).symm
  | graceElapsed i =>
    obtain ⟨f,-,h⟩ := Option.bind_eq_some_iff.mp h
    simp only [Option.ite_none_right_eq_some,Option.some.injEq] at h
    obtain ⟨-,rfl⟩ := h
    exact Nat.le_of_eq (length_finalize m i f).symm

theorem resolved_values (h : Inv sha256 s) {n : Nat} {f : DHTMailbox.Fetch} {result : List Bytes}
    (hf : s.mailbox.fetches[n]? = some f) (hr : f.resolved.head? = some result) :
    result = JsMap.values f.uniquePackets := by
  have hok := h.mailbox.fetches n f hf
  cases hs : f.settled with
  | false =>
    rw [(hok.underWay hs).2.2] at hr
    cases hr
  | true =>
    rw [(hok.done hs).2] at hr
    exact (Option.some.inj hr).symm

theorem inv_step {a : Action} (h : Inv sha256 s) (ha : FreshIds s a)
    (hs : step sha256 s a = some t) : Inv sha256 t := by
  cases a with
  | opened o =>
    cases hs
    exact h.suspend o fun stored n heq => by cases heq
  | stored i entries nearest =>
    obtain ⟨⟨call,calls⟩,htask,hs⟩ := Option.bind_eq_some_iff.mp hs
    dsimp only at hs
    split at hs
    · cases hs
      exact (h.taken htask).lookHere _ entries nearest
    · cases hs
  | asked i entries ids =>
    obtain ⟨⟨call,calls⟩,htask,hs⟩ := Option.bind_eq_some_iff.mp hs
    dsimp only at hs
    split at hs
    · exact (h.taken htask).ask ha hs
    · cases hs
  | fetched i =>
    obtain ⟨⟨call,calls⟩,htask,hs⟩ := Option.bind_eq_some_iff.mp hs
    dsimp only at hs
    split at hs
    · obtain ⟨f,hf,hs⟩ := Option.bind_eq_some_iff.mp hs
      obtain ⟨result,hresult,rfl⟩ := Option.map_eq_some_iff.mp hs
      refine (h.taken htask).finish _ (fetchBody_congr ?_)
      rw [resolved_values h hf hresult,h.ordered _ f hf,
        DHTMailbox.Keyed.nil.findSome?_addPackets]
      rfl
    · cases hs
  | mailbox a =>
    obtain ⟨mailbox,hm,rfl⟩ := Option.map_eq_some_iff.mp hs
    exact ⟨DHTMailbox.inv_step h.mailbox ha hm,DHTMailbox.ordered_step h.ordered h.mailbox hm,
      h.first,fun o stored n hc => (h.fetching o stored n hc).trans_le (length_step hm)⟩

theorem inv_initial : Inv sha256 {} where
  mailbox := DHTMailbox.inv_initial
  ordered := DHTMailbox.ordered_initial
  first out hout := by cases hout
  fetching o stored n hc := by cases hc

theorem Outcome.First.delivers_iff {out : Outcome} (h : out.First) {good : Bytes → Prop}
    (hgood : ∀ e, good e → slotBody e ≠ none) :
    (∀ e ∈ out.entries, good e → ∀ body, slotBody e = some body →
      out.delivered = [(body,out.opened)]) ↔ Unshadowed good out.entries := by
  have hone : ∀ {e body}, e ∈ out.entries → slotBody e = some body →
      (out.delivered = [(body,out.opened)] ↔ out.entries.findSome? slotBody = some body) := by
    intro e body he hbody
    rw [h]
    cases hf : out.entries.findSome? slotBody with
    | none =>
      rw [List.findSome?_eq_none_iff.mp hf e he] at hbody
      cases hbody
    | some b => simp
  constructor
  · intro hd e he hg
    obtain ⟨body,hbody⟩ := Option.ne_none_iff_exists'.mp (hgood e hg)
    have hfirst := (hone he hbody).mp (hd e he hg body hbody)
    rw [hbody]
    exact (findSome?_eq_iff ⟨e,he,hbody⟩).mp hfirst
  · intro hu e he hg body hbody
    have hfirst := hu e he hg
    rw [hbody] at hfirst
    exact (hone he hbody).mpr ((findSome?_eq_iff ⟨e,he,hbody⟩).mpr hfirst)

/-- A fetch under way is settled by its timer if by nothing else, and the call goes on. -/
theorem fetching_ends (h : Inv sha256 s) {i n : Nat} {o : OpenedHint} {stored : List Bytes}
    (hi : s.calls[i]? = some (o,.fetching stored n)) : ∃ as t out,
      Machine.run (step sha256) s as = some t ∧ t.outcomes = s.outcomes ++ [out] ∧
        out.opened = o := by
  have hend : ∀ (u : State) (f : DHTMailbox.Fetch) (result : List Bytes), u.calls = s.calls →
      u.mailbox.fetches[n]? = some f → f.resolved.head? = some result →
        ∃ t out, step sha256 u (.fetched i) = some t ∧ t.outcomes = u.outcomes ++ [out] ∧
          out.opened = o := by
    intro u f result hcalls hf hr
    simp only [step,Machine.takeTask,hcalls,hi,Option.map_some,Option.bind_some,hf,hr]
    exact ⟨_,_,rfl,rfl,rfl⟩
  have hlt := h.fetching o stored n (List.mem_of_getElem? hi)
  obtain ⟨f,hf⟩ : ∃ f, s.mailbox.fetches[n]? = some f := ⟨_,List.getElem?_eq_getElem hlt⟩
  have hok := h.mailbox.fetches n f hf
  cases hs : f.settled with
  | true =>
    obtain ⟨t,out,ht,hout⟩ := hend s f _ rfl hf (by rw [(hok.done hs).2]; rfl)
    exact ⟨[.fetched i],t,out,Machine.run_cons ht rfl,hout⟩
  | false =>
    obtain ⟨-,htimer,hres⟩ := hok.underWay hs
    have hstep : step sha256 s (.mailbox (.hardTimeout n)) =
        some { s with mailbox := DHTMailbox.finalize s.mailbox n f } := by
      simp [step,DHTMailbox.step,hf,htimer]
    obtain ⟨t,out,ht,hout⟩ := hend { s with mailbox := DHTMailbox.finalize s.mailbox n f }
      { f with
        settled := true, hardTimer := .done, graceTimer := .done
        resolved := f.resolved ++ [JsMap.values f.uniquePackets]
        till := some s.mailbox.responses.length } _ rfl
      (by simp [DHTMailbox.finalize,hs,hlt]) (by rw [hres]; rfl)
    exact ⟨[.mailbox (.hardTimeout n),.fetched i],t,out,
      Machine.run_cons hstep (Machine.run_cons ht rfl),hout⟩

end

/-- A hint for the key 1, 2, 3, 4. -/
def contestedHint : HintPacket := HintArrivals.sampleHint

def contested : OpenedHint where
  payload := ⟨List.replicate 32 0,0,0,rfl,by decide,by decide⟩
  keyId := "board:A"
  packet := contestedHint

/-- The JSON of a packet for the key. -/
def keyedBody : Bytes :=
  Bytes.bigEndian 40 0x7b227061636b65745f6964223a223330343530306233393566373562363066656139336162343766 ++
  Bytes.bigEndian 40 0x6232313839623331343733383138316462643663626234633235623664343662336562353036222c ++
  Bytes.bigEndian 40 0x22686f705f636f756e74223a302c22706f775f6e6f6e6365223a3432322c22706f775f6469666669 ++
  Bytes.bigEndian 40 0x63756c7479223a382c2274696d657374616d70223a302c227a6f6e655f6964223a302c226e6f6e63 ++
  Bytes.bigEndian 40 0x65223a5b302c302c302c302c302c302c302c302c302c302c302c305d2c227061796c6f6164223a5b ++
  Bytes.bigEndian 23 0x312c322c332c342c36352c36392c38342c37322c325d7d

def keyedSlot : Bytes := encodeSlotBlob contestedHint keyedBody

/-- The hint with a packet that is for nobody. -/
def strangeSlot : Bytes := encodeSlotBlob contestedHint MailboxEntry.honestEntry

/-- The layers of a body that opens under the key. -/
def opened? (p : PacketBuilder.Primitives) (k body : Bytes) : Option (Val × Val) :=
  (PacketBuilder.parsePacket body).toOption.bind fun packet =>
    (PacketBuilder.layers p packet k).toOption.join

theorem opened?_eq_some {p : PacketBuilder.Primitives} {k body : Bytes} {layers : Val × Val} :
    opened? p k body = some layers ↔ ∃ packet, PacketBuilder.parsePacket body = .ok packet ∧
      PacketBuilder.layers p packet k = .ok (some layers) := by
  simp [opened?,Option.bind_eq_some_iff,Option.join_eq_some_iff,toOption_eq_some]

theorem slotBody_keyedSlot : slotBody keyedSlot = some keyedBody := by decide +kernel

theorem carries_keyedSlot : Carries Sha256.sha256 PacketBuilder.sample [1,2,3,4] keyedSlot := by
  have hvalid : (MailboxEntry.passing Sha256.sha256 0 keyedSlot).isSome = true := by
    decide +kernel
  have hopens : (opened? PacketBuilder.sample [1,2,3,4] keyedBody).isSome = true := by
    decide +kernel
  obtain ⟨checked,hcheck⟩ := MailboxEntry.passing_isSome.mp hvalid
  obtain ⟨layers,hlayers⟩ := Option.isSome_iff_exists.mp hopens
  obtain ⟨packet,hparse,hlayers⟩ := opened?_eq_some.mp hlayers
  exact ⟨⟨0,checked,hcheck⟩,keyedBody,packet,layers,slotBody_keyedSlot,hparse,hlayers⟩

theorem not_carries_strangeSlot :
    ¬Carries Sha256.sha256 PacketBuilder.sample [1,2,3,4] strangeSlot := by
  have hbody : slotBody strangeSlot = some MailboxEntry.honestEntry := by decide +kernel
  have hshut : (opened? PacketBuilder.sample [1,2,3,4] MailboxEntry.honestEntry).isSome = false := by
    decide +kernel
  intro hcarries
  obtain ⟨-,body,packet,layers,hb,hparse,hlayers⟩ := hcarries
  cases hbody.symm.trans hb
  rw [opened?_eq_some.mpr ⟨packet,hparse,hlayers⟩] at hshut
  cases hshut

def clearRun : List Action := [.opened contested,.stored 0 (some [keyedSlot,strangeSlot]) []]

def shadowedRun : List Action := [.opened contested,.stored 0 (some [strangeSlot,keyedSlot]) []]

end SchrodingerMailbox
