import Mathlib.Data.List.Nodup
import AetherLite.Mailbox.SlotStorage

/-! The limits of what a node keeps for others, while the store fails and topics expire at any
time. -/
set_option autoImplicit false

namespace StorageBounds

open Js MailboxEntry SlotStorage

def rawBytes (rows : JsMap String Row) : Nat :=
  JsMap.total (fun e => byteLength e.2.entries) rows

/-- The rows keep the limits. -/
structure Bounded (rows : JsMap String Row) : Prop where
  keys : (JsMap.keys rows).Nodup
  perTopic : ∀ e ∈ rows, e.2.entries.length ≤ maxEntriesPerTopic
  distinct : ∀ e ∈ rows, e.2.entries.Nodup
  topics : rows.length ≤ maxTopics
  total : rawBytes rows ≤ maxTotalBytes

/-- Each call that is over returned just what it had stored, and none that threw had stored
anything. -/
def Truthful (results : List Result) : Prop := ∀ r ∈ results, r.returned.getD [] = r.stored

/-- A step in which the scan of the rows fails for a call. -/
def scanFails (s : State) : Action → Bool
  | .answer false _ =>
    match s.active with
    | some ⟨_,.usage _,_,_,_⟩ => true
    | _ => false
  | _ => false

def HasPlace (rows : JsMap String Row) (topicHash : String) : Prop :=
  JsMap.has rows topicHash = true ∨ rows.length < maxTopics

/-- The topic holds what it held when a call read it, or nothing. -/
structure Saw (rows : JsMap String Row) (topicHash : String) (existing : List Bytes) : Prop where
  same : ∀ r, JsMap.get rows topicHash = some r → r.entries = existing
  place : existing ≠ [] → HasPlace rows topicHash
  nodup : existing.Nodup

/-- The call has chosen its candidates. -/
structure Ready (rows : JsMap String Row) (c : Call) (candidates : List Bytes) : Prop where
  saw : Saw rows c.offer.topicHash c.existing
  place : HasPlace rows c.offer.topicHash
  chosen : candidates = candidatesOf c.existing c.offer.entries
  nonempty : candidates ≠ []
  room : c.existing.length ≤ maxEntriesPerTopic
  stored : c.stored = []

/-- The call has written its row and not gone on yet. -/
def written (c : Call) : Bool :=
  match c.wait,c.answer with
  | .putWrite _ _ _,some .done => true
  | _,_ => false

def rawWithout (rows : JsMap String Row) (topicHash : String) : Nat :=
  rawBytes (JsMap.delete rows topicHash)

/-- What is known of a call where it waits. -/
def CallOk (rows : JsMap String Row) (c : Call) : Prop :=
  let topicHash := c.offer.topicHash
  match c.wait with
  | .get => c.stored = [] ∧
      ∀ es, c.answer = some (.entries es) → Saw rows topicHash (es.getD [])
  | .topics => Saw rows topicHash c.existing ∧ c.existing = [] ∧ c.stored = [] ∧
      ∀ n, c.answer = some (.count n) → rows.length ≤ n
  | .usage candidates => Ready rows c candidates ∧ c.answer ≠ some .failed ∧
      ∀ n, c.answer = some (.count n) → rawBytes rows ≤ n
  | .used candidates usage => Ready rows c candidates ∧ rawBytes rows ≤ usage
  | .putRead candidates usage => Ready rows c candidates ∧ rawBytes rows ≤ usage ∧
      usage+byteLength candidates ≤ maxTotalBytes ∧
      ∀ es, c.answer = some (.entries es) → (es = none ∨ es = some c.existing) ∧
        rawWithout rows topicHash+byteLength (es.getD []) ≤ usage
  | .putWrite new candidates usage => usage+byteLength candidates ≤ maxTotalBytes ∧
      if written c then c.stored = candidates ∧ rawBytes rows ≤ usage+byteLength candidates
      else Ready rows c candidates ∧ (new = candidates ∨ new = c.existing ++ candidates) ∧
        rawBytes rows ≤ usage ∧
        rawWithout rows topicHash+byteLength new ≤ usage+byteLength candidates
  | .putSame _ _ => False

section
variable {rows rows' : JsMap String Row} {c : Call} {candidates : List Bytes}

theorem rawBytes_set (hn : (JsMap.keys rows).Nodup) (topicHash : String) (r : Row) :
    rawBytes (JsMap.set rows topicHash r) = rawWithout rows topicHash+byteLength r.entries :=
  JsMap.total_set hn _ topicHash r

theorem rawBytes_get (hn : (JsMap.keys rows).Nodup) {topicHash : String} {r : Row}
    (h : JsMap.get rows topicHash = some r) :
    rawBytes rows = rawWithout rows topicHash+byteLength r.entries :=
  JsMap.total_of_get hn _ h

theorem rawWithout_le (rows : JsMap String Row) (topicHash : String) :
    rawWithout rows topicHash ≤ rawBytes rows :=
  JsMap.total_sublist _ (JsMap.delete_sublist rows topicHash)

theorem rawBytes_shrink (h : rows'.Sublist rows) : rawBytes rows' ≤ rawBytes rows :=
  JsMap.total_sublist _ h

theorem rawWithout_shrink (h : rows'.Sublist rows) (topicHash : String) :
    rawWithout rows' topicHash ≤ rawWithout rows topicHash :=
  JsMap.total_sublist _ (h.filter fun e : String × Row => !(e.1 == topicHash))

/-! Topics expire: the rows become fewer. -/

theorem Bounded.shrink (hb : Bounded rows) (h : rows'.Sublist rows) : Bounded rows' where
  keys := hb.keys.sublist (h.map _)
  perTopic e he := hb.perTopic e (h.mem he)
  distinct e he := hb.distinct e (h.mem he)
  topics := h.length_le.trans hb.topics
  total := (rawBytes_shrink h).trans hb.total

theorem HasPlace.shrink {topicHash : String} (hp : HasPlace rows topicHash) (hb : Bounded rows)
    (h : rows'.Sublist rows) : HasPlace rows' topicHash := by
  have hlen := h.length_le
  have htopics := hb.topics
  obtain hhas | hroom := hp
  · cases hhas' : JsMap.has rows' topicHash with
    | true => exact .inl hhas'
    | false =>
      have hlt := JsMap.length_lt_of_sublist h hhas hhas'
      exact .inr (by omega)
  · exact .inr (by omega)

theorem Saw.shrink {topicHash : String} {existing : List Bytes}
    (hs : Saw rows topicHash existing) (hb : Bounded rows) (h : rows'.Sublist rows) :
    Saw rows' topicHash existing where
  same r hr := hs.same r (JsMap.get_sublist hb.keys h hr)
  place hne := (hs.place hne).shrink hb h
  nodup := hs.nodup

theorem Ready.shrink (hr : Ready rows c candidates) (hb : Bounded rows) (h : rows'.Sublist rows) :
    Ready rows' c candidates :=
  { hr with saw := hr.saw.shrink hb h, place := hr.place.shrink hb h }

theorem CallOk.shrink (hc : CallOk rows c) (hb : Bounded rows) (h : rows'.Sublist rows) :
    CallOk rows' c := by
  have hraw := rawBytes_shrink h
  have hwithout := rawWithout_shrink h c.offer.topicHash
  have hlen := h.length_le
  unfold CallOk at hc ⊢
  cases hw : c.wait with
  | get =>
    rw [hw] at hc
    exact ⟨hc.1,fun es he => (hc.2 es he).shrink hb h⟩
  | topics =>
    rw [hw] at hc
    obtain ⟨hsaw,hexisting,hstored,hn⟩ := hc
    exact ⟨hsaw.shrink hb h,hexisting,hstored,fun n he => hlen.trans (hn n he)⟩
  | usage candidates =>
    rw [hw] at hc
    obtain ⟨hr,hworks,hn⟩ := hc
    exact ⟨hr.shrink hb h,hworks,fun n he => hraw.trans (hn n he)⟩
  | used candidates usage =>
    rw [hw] at hc
    exact ⟨hc.1.shrink hb h,hraw.trans hc.2⟩
  | putRead candidates usage =>
    rw [hw] at hc
    obtain ⟨hr,hu,hmax,hes⟩ := hc
    refine ⟨hr.shrink hb h,hraw.trans hu,hmax,fun es he => ?_⟩
    obtain ⟨hor,hle⟩ := hes es he
    exact ⟨hor,by omega⟩
  | putWrite new candidates usage =>
    rw [hw] at hc
    obtain ⟨hmax,hc⟩ := hc
    refine ⟨hmax,?_⟩
    by_cases hwr : written c = true
    · rw [if_pos hwr] at hc ⊢
      exact ⟨hc.1,hraw.trans hc.2⟩
    · rw [if_neg hwr] at hc ⊢
      obtain ⟨hr,hnew,hu,hle⟩ := hc
      exact ⟨hr.shrink hb h,hnew,hraw.trans hu,by omega⟩
  | putSame candidates usage =>
    rw [hw] at hc
    exact hc

end

/-- The invariant. While a call has written its row and not gone on, the cached usage may be
behind. -/
structure Inv (s : State) : Prop where
  bounded : Bounded s.rows
  truthful : Truthful s.results
  call : ∀ c, s.active = some c → CallOk s.rows c
  usage : ∀ u, s.usageBytes = some u →
    rawBytes s.rows ≤ u ∨ ∃ c, s.active = some c ∧ written c = true

/-- What a step of the call under way starts from. -/
structure Base (s : State) : Prop where
  bounded : Bounded s.rows
  truthful : Truthful s.results
  usage : ∀ u, s.usageBytes = some u → rawBytes s.rows ≤ u

section
variable {me : String} {blobBytes : String → Row → Nat} {s : State} {c : Call}

theorem Inv.base (h : Inv s) (hc : s.active = some c) (hw : written c = false) : Base s := by
  refine ⟨h.bounded,h.truthful,fun u hu => ?_⟩
  obtain hle | ⟨d,hd,hwd⟩ := h.usage u hu
  · exact hle
  · rw [hc] at hd
    cases hd
    rw [hw] at hwd
    cases hwd

theorem Base.active (h : Base s) {d : Call} (hc : CallOk s.rows d) :
    Inv { s with active := some d } where
  bounded := h.bounded
  truthful := h.truthful
  call e he := by
    cases he
    exact hc
  usage u hu := .inl (h.usage u hu)

theorem truthful_append {results : List Result} {r : Result} (h : Truthful results)
    (hr : r.returned.getD [] = r.stored) : Truthful (results ++ [r]) := by
  intro e he
  obtain he | he := List.mem_append.mp he
  · exact h e he
  · rw [List.mem_singleton.mp he]
    exact hr

theorem Base.finish (h : Base s) {returned : Option (List Bytes)}
    (hr : returned.getD [] = c.stored) : Inv (finish s c returned) where
  bounded := h.bounded
  truthful := truthful_append h.truthful hr
  call d hd := by cases hd
  usage u hu := .inl (h.usage u hu)

theorem Base.choose (h : Base s) (hsaw : Saw s.rows c.offer.topicHash c.existing)
    (hplace : HasPlace s.rows c.offer.topicHash) (hroom : c.existing.length < maxEntriesPerTopic)
    (hstored : c.stored = []) : Inv (choose s c) := by
  unfold SlotStorage.choose currentUsage
  by_cases hf : freshEntries (c.existing.map entryKey) c.offer.entries = []
  · rw [if_pos hf]
    exact h.finish hstored.symm
  · have hready : Ready s.rows c (candidatesOf c.existing c.offer.entries) :=
      ⟨hsaw,hplace,rfl,candidates_ne_nil hroom hf,hroom.le,hstored⟩
    rw [if_neg hf]
    cases hu : s.usageBytes with
    | none => exact h.active ⟨{ hready with },(fun hf => by cases hf),fun n hn => by cases hn⟩
    | some u => exact h.active ⟨{ hready with },h.usage u hu⟩

theorem Base.afterGet (h : Base s) {es : Option (List Bytes)}
    (hsaw : Saw s.rows c.offer.topicHash (es.getD [])) (hstored : c.stored = []) :
    Inv (afterGet s c es) := by
  unfold SlotStorage.afterGet
  dsimp only
  by_cases hfull : (es.getD []).length ≥ maxEntriesPerTopic
  · rw [if_pos hfull]
    exact h.finish hstored.symm
  rw [if_neg hfull]
  by_cases hnone : (es.getD []).length = 0
  · rw [if_pos hnone]
    exact h.active ⟨hsaw,List.length_eq_zero_iff.mp hnone,hstored,fun n hn => by cases hn⟩
  · rw [if_neg hnone]
    have hne : es.getD [] ≠ [] := fun heq => hnone (by rw [heq]; rfl)
    exact h.choose (c := { c with existing := es.getD [] }) hsaw (hsaw.place hne)
      (by simpa using hfull) hstored

theorem Base.afterTopics (h : Base s) {n : Nat} (hsaw : Saw s.rows c.offer.topicHash c.existing)
    (hexisting : c.existing = []) (hstored : c.stored = []) (hn : s.rows.length ≤ n) :
    Inv (afterTopics s c n) := by
  unfold SlotStorage.afterTopics
  by_cases hfull : n ≥ maxTopics
  · rw [if_pos hfull]
    exact h.finish hstored.symm
  · rw [if_neg hfull]
    have hroom : c.existing.length < maxEntriesPerTopic := by
      rw [hexisting]
      decide
    exact h.choose hsaw (.inr (by omega)) hroom hstored

theorem Base.afterUsage (h : Base s) {candidates : List Bytes} {n : Nat}
    (hr : Ready s.rows c candidates) (hn : rawBytes s.rows ≤ n) :
    Inv (afterUsage s c candidates n) := by
  have hbase : Base { s with usageBytes := some n } := by
    refine ⟨h.bounded,h.truthful,fun u hu => ?_⟩
    cases hu
    exact hn
  exact hbase.active ⟨{ hr with },hn⟩

theorem Base.quota (h : Base s) (peerQuota : JsMap String Quota) :
    Base { s with peerQuota := peerQuota } := ⟨h.bounded,h.truthful,h.usage⟩

theorem Base.afterUsed (h : Base s) {candidates : List Bytes} {usage : Nat}
    (hr : Ready s.rows c candidates) (hu : rawBytes s.rows ≤ usage) (now : Int) :
    Inv (afterUsed me s c candidates usage now) := by
  unfold SlotStorage.afterUsed
  dsimp only
  by_cases hmax : usage+byteLength candidates > maxTotalBytes
  · rw [if_pos hmax]
    exact h.finish hr.stored.symm
  rw [if_neg hmax]
  have hle : usage+byteLength candidates ≤ maxTotalBytes := by omega
  have hput : CallOk s.rows { c with wait := .putRead candidates usage, answer := none } :=
    ⟨{ hr with },hu,hle,fun es he => by cases he⟩
  by_cases hme : c.offer.source = me
  · rw [if_pos hme]
    exact h.active hput
  rw [if_neg hme]
  split
  · exact (h.quota _).active hput
  · exact (h.quota _).finish hr.stored.symm

theorem Base.afterPutRead (h : Base s) {candidates : List Bytes} {usage : Nat}
    (hr : Ready s.rows c candidates) (hu : rawBytes s.rows ≤ usage)
    (hmax : usage+byteLength candidates ≤ maxTotalBytes) {es : Option (List Bytes)}
    (hes : es = none ∨ es = some c.existing)
    (hle : rawWithout s.rows c.offer.topicHash+byteLength (es.getD []) ≤ usage) :
    Inv (afterPutRead s c candidates usage es) := by
  obtain rfl | rfl := hes
  · have hnew : rawWithout s.rows c.offer.topicHash+byteLength candidates ≤
        usage+byteLength candidates := by
      have hle' := (rawWithout_le s.rows c.offer.topicHash).trans hu
      omega
    exact h.active ⟨hmax,{ hr with },.inl rfl,hu,hnew⟩
  · have hadded : (candidates.filter fun e =>
        !(c.existing.map entryKey).contains (entryKey e)) = candidates := by
      rw [hr.chosen]
      exact added_eq _ _
    have hnew : rawWithout s.rows c.offer.topicHash+byteLength (c.existing ++ candidates) ≤
        usage+byteLength candidates := by
      rw [byteLength_append]
      simp only [Option.getD_some] at hle
      omega
    unfold SlotStorage.afterPutRead
    dsimp only
    rw [hadded,if_neg hr.nonempty]
    exact h.active ⟨hmax,{ hr with },.inr rfl,hu,hnew⟩

theorem Inv.afterPut (h : Inv s) {candidates : List Bytes} {usage : Nat}
    (hstored : c.stored = candidates) (hu : rawBytes s.rows ≤ usage+byteLength candidates) :
    Inv (afterPut s c candidates usage) := by
  have hbase : Base { s with usageBytes := some (usage+byteLength candidates) } := by
    refine ⟨h.bounded,h.truthful,fun u hu' => ?_⟩
    cases hu'
    exact hu
  exact hbase.finish hstored.symm

/-- The call goes on. -/
theorem Inv.resume (h : Inv s) (hc : s.active = some c) {a : Answer} (ha : c.answer = some a)
    {now : Int} {t : State} (hr : resume me s c a now = some t) : Inv t := by
  have hok := h.call c hc
  unfold CallOk at hok
  unfold SlotStorage.resume at hr
  cases hw : c.wait with
  | get =>
    have hbase := h.base hc (by simp [written,hw])
    rw [hw] at hok hr
    cases a with
    | failed =>
      cases hr
      exact hbase.finish hok.1.symm
    | entries es =>
      cases hr
      exact hbase.afterGet (hok.2 es ha) hok.1
    | count n => cases hr
    | done => cases hr
  | topics =>
    have hbase := h.base hc (by simp [written,hw])
    rw [hw] at hok hr
    obtain ⟨hsaw,hexisting,hstored,hn⟩ := hok
    cases a with
    | failed =>
      cases hr
      exact hbase.finish hstored.symm
    | entries es => cases hr
    | count n =>
      cases hr
      exact hbase.afterTopics hsaw hexisting hstored (hn n ha)
    | done => cases hr
  | usage candidates =>
    have hbase := h.base hc (by simp [written,hw])
    rw [hw] at hok hr
    cases a with
    | failed => exact absurd ha hok.2.1
    | entries es => cases hr
    | count n =>
      cases hr
      exact hbase.afterUsage hok.1 (hok.2.2 n ha)
    | done => cases hr
  | used candidates usage =>
    have hbase := h.base hc (by simp [written,hw])
    rw [hw] at hok hr
    cases a with
    | failed =>
      cases hr
      exact hbase.finish hok.1.stored.symm
    | entries es => cases hr
    | count n => cases hr
    | done =>
      cases hr
      exact hbase.afterUsed hok.1 hok.2 now
  | putRead candidates usage =>
    have hbase := h.base hc (by simp [written,hw])
    rw [hw] at hok hr
    obtain ⟨hready,hu,hmax,hes⟩ := hok
    cases a with
    | failed =>
      cases hr
      exact hbase.finish hready.stored.symm
    | entries es =>
      cases hr
      obtain ⟨hor,hle⟩ := hes es ha
      exact hbase.afterPutRead hready hu hmax hor hle
    | count n => cases hr
    | done => cases hr
  | putWrite new candidates usage =>
    rw [hw] at hok hr
    obtain ⟨hmax,hok⟩ := hok
    cases a with
    | failed =>
      have hnot : written c = false := by simp [written,hw,ha]
      rw [hnot] at hok
      cases hr
      exact (h.base hc hnot).finish hok.1.stored.symm
    | entries es => cases hr
    | count n => cases hr
    | done =>
      have hwritten : written c = true := by simp [written,hw,ha]
      rw [if_pos hwritten] at hok
      cases hr
      exact h.afterPut hok.1 hok.2
  | putSame candidates usage =>
    rw [hw] at hok
    exact hok.elim

/-- The row is written. -/
theorem Base.write (h : Base s) {new candidates : List Bytes} {usage : Nat}
    (hw : c.wait = .putWrite new candidates usage) (hr : Ready s.rows c candidates)
    (hmax : usage+byteLength candidates ≤ maxTotalBytes)
    (hnew : new = candidates ∨ new = c.existing ++ candidates)
    (hle : rawWithout s.rows c.offer.topicHash+byteLength new ≤ usage+byteLength candidates)
    (now : Int) :
    Inv { s with
      rows := JsMap.set s.rows c.offer.topicHash ⟨new,now⟩
      active := some { c with
        answer := some .done
        stored := new.filter fun e => !c.existing.contains e } } := by
  have hnodup : (c.existing ++ candidates).Nodup := by
    rw [hr.chosen]
    exact candidates_nodup hr.saw.nodup _
  have hlength : (c.existing ++ candidates).length ≤ maxEntriesPerTopic := by
    rw [hr.chosen]
    exact candidates_length hr.room _
  have hsub : new.Sublist (c.existing ++ candidates) := by
    obtain rfl | rfl := hnew
    · exact List.sublist_append_right _ _
    · exact List.Sublist.refl _
  have hraw : rawBytes (JsMap.set s.rows c.offer.topicHash ⟨new,now⟩) ≤
      usage+byteLength candidates := by
    rw [rawBytes_set h.bounded.keys]
    exact hle
  have hstored : (new.filter fun e => !c.existing.contains e) = candidates := by
    have hcandidates : (candidates.filter fun e => !c.existing.contains e) = candidates := by
      apply List.filter_eq_self.mpr
      intro e he
      rw [hr.chosen] at he
      simpa using candidates_fresh he
    have hexisting : (c.existing.filter fun e => !c.existing.contains e) = [] := by
      apply List.filter_eq_nil_iff.mpr
      intro e he
      simpa using he
    obtain rfl | rfl := hnew
    · exact hcandidates
    · rw [List.filter_append,hexisting,hcandidates]
      rfl
  constructor
  · constructor
    · exact JsMap.nodup_keys_set h.bounded.keys _ _
    · intro e he
      obtain rfl | he := JsMap.mem_set he
      · exact hsub.length_le.trans hlength
      · exact h.bounded.perTopic e he
    · intro e he
      obtain rfl | he := JsMap.mem_set he
      · exact hnodup.sublist hsub
      · exact h.bounded.distinct e he
    · rw [JsMap.length_set]
      have htopics := h.bounded.topics
      obtain hhas | hroom := hr.place
      · rw [if_pos hhas]
        exact htopics
      · split <;> omega
    · exact hraw.trans hmax
  · exact h.truthful
  · intro d hd
    cases hd
    unfold CallOk written
    simp only [hw,if_true]
    exact ⟨hmax,hstored,hraw⟩
  · intro u hu
    exact .inr ⟨_,rfl,by simp [written,hw]⟩

theorem saw_get (hb : Bounded s.rows) (topicHash : String) :
    Saw s.rows topicHash (((JsMap.get s.rows topicHash).map Row.entries).getD []) := by
  cases hg : JsMap.get s.rows topicHash with
  | none =>
    refine ⟨fun r hr => ?_,fun hne => absurd rfl hne,List.nodup_nil⟩
    rw [hg] at hr
    cases hr
  | some r =>
    refine ⟨fun r' hr => ?_,fun _ => .inl ?_,hb.distinct _ (JsMap.mem_of_get hg)⟩
    · rw [hg] at hr
      cases hr
      rfl
    · simp [JsMap.has,hg]

/-- What `put` reads is what the call has read, or nothing. -/
theorem read_get (hb : Bounded s.rows) (hsaw : Saw s.rows c.offer.topicHash c.existing) {usage : Nat}
    (hu : rawBytes s.rows ≤ usage) :
    let es := (JsMap.get s.rows c.offer.topicHash).map Row.entries
    (es = none ∨ es = some c.existing) ∧
      rawWithout s.rows c.offer.topicHash+byteLength (es.getD []) ≤ usage := by
  cases hg : JsMap.get s.rows c.offer.topicHash with
  | none =>
    have hle := rawWithout_le s.rows c.offer.topicHash
    exact ⟨.inl rfl,by simp [byteLength]; omega⟩
  | some r =>
    have hraw := rawBytes_get hb.keys hg
    exact ⟨.inr (by rw [← hsaw.same r hg]; rfl),by simp only [Option.map_some,Option.getD_some]; omega⟩

/-- The store answers. What it takes for a row is at least what the row holds. -/
theorem Inv.answer (hsize : ∀ topicHash r, byteLength r.entries ≤ blobBytes topicHash r)
    (h : Inv s) (hc : s.active = some c) (ha : c.answer = none) {works : Bool}
    (hscan : works = false → ∀ candidates, c.wait ≠ .usage candidates) (now : Int) :
    Inv (answer blobBytes s c works now) := by
  have hok := h.call c hc
  have hbase : Base s := h.base hc (by unfold written; rw [ha]; split <;> simp_all)
  obtain ⟨offer,wait,_,existing,stored⟩ := c
  cases ha
  cases works with
  | false =>
    apply hbase.active
    cases wait with
    | get => exact ⟨hok.1,fun es he => by cases he⟩
    | topics => exact ⟨hok.1,hok.2.1,hok.2.2.1,fun n hn => by cases hn⟩
    | usage candidates => exact absurd rfl (hscan rfl candidates)
    | used candidates usage => exact ⟨{ hok.1 with },hok.2⟩
    | putRead candidates usage =>
      exact ⟨{ hok.1 with },hok.2.1,hok.2.2.1,fun es he => by cases he⟩
    | putWrite new candidates usage =>
      exact ⟨hok.1,{ hok.2.1 with },hok.2.2⟩
    | putSame candidates usage => exact hok
  | true =>
    cases wait with
    | get =>
      refine hbase.active ⟨hok.1,fun es he => ?_⟩
      cases he
      exact saw_get h.bounded _
    | topics =>
      refine hbase.active ⟨hok.1,hok.2.1,hok.2.2.1,fun n hn => ?_⟩
      cases hn
      exact Nat.le_refl _
    | usage candidates =>
      refine hbase.active ⟨{ hok.1 with },(fun hf => by cases hf),fun n hn => ?_⟩
      cases hn
      exact JsMap.total_mono (fun e => hsize e.1 e.2) _
    | used candidates usage => exact hbase.active ⟨{ hok.1 with },hok.2⟩
    | putRead candidates usage =>
      refine hbase.active ⟨{ hok.1 with },hok.2.1,hok.2.2.1,fun es he => ?_⟩
      cases he
      exact read_get h.bounded hok.1.saw hok.2.1
    | putWrite new candidates usage =>
      exact hbase.write rfl hok.2.1 hok.1 hok.2.2.1 hok.2.2.2.2 now
    | putSame candidates usage => exact hok.elim

theorem prune_sublist (rows : JsMap String Row) (cutoff : Int) :
    (pruneMailbox rows cutoff).Sublist rows := List.filter_sublist

/-- Steps of which the store and the call see nothing. -/
theorem Inv.frame (h : Inv s) {t : State} (hrows : t.rows = s.rows)
    (hresults : t.results = s.results) (hactive : t.active = s.active)
    (husage : t.usageBytes = s.usageBytes ∨ t.usageBytes = none) : Inv t where
  bounded := hrows ▸ h.bounded
  truthful := hresults ▸ h.truthful
  call c hc := by
    rw [hrows]
    exact h.call c (hactive ▸ hc)
  usage u hu := by
    rw [hrows,hactive]
    obtain heq | hnone := husage
    · exact h.usage u (heq ▸ hu)
    · rw [hnone] at hu
      cases hu

theorem Inv.shrink (h : Inv s) {rows : JsMap String Row} (hrows : rows.Sublist s.rows)
    (pruning : List Prune) : Inv { s with rows := rows, pruning := pruning } where
  bounded := h.bounded.shrink hrows
  truthful := h.truthful
  call c hc := (h.call c hc).shrink h.bounded hrows
  usage u hu := (h.usage u hu).imp_left (rawBytes_shrink hrows).trans

theorem inv_step (hsize : ∀ topicHash r, byteLength r.entries ≤ blobBytes topicHash r)
    (s : State) (a : Action) (t : State) (h : Inv s) (hscan : scanFails s a = false)
    (ht : step me blobBytes s a = some t) : Inv t := by
  cases a with
  | accept offer =>
    cases ht
    exact h.frame rfl rfl rfl (.inl rfl)
  | start =>
    simp only [step] at ht
    split at ht
    · next offer rest hactive _ =>
      cases ht
      have hbase : Base { s with queue := rest } := by
        refine ⟨h.bounded,h.truthful,fun u hu => ?_⟩
        obtain hle | ⟨c,hc,-⟩ := h.usage u hu
        · exact hle
        · rw [hactive] at hc
          cases hc
      exact hbase.active ⟨rfl,fun es he => by cases he⟩
    · cases ht
  | answer works now =>
    simp only [step] at ht
    split at ht
    · next c hc =>
      split at ht
      · next ha =>
        cases ht
        refine h.answer hsize hc ha (fun hworks candidates hw => ?_) now
        obtain ⟨offer,wait,ans,existing,stored⟩ := c
        cases hw
        rw [hworks] at hscan
        simp [scanFails,hc] at hscan
      · cases ht
    · cases ht
  | resume now =>
    simp only [step] at ht
    split at ht
    · next c hc =>
      obtain ⟨a,ha,hr⟩ := Option.bind_eq_some_iff.mp ht
      exact h.resume hc ha hr
    · cases ht
  | prune now =>
    cases ht
    exact h.frame rfl rfl rfl (.inl rfl)
  | pruned i works =>
    obtain ⟨p,-,hp⟩ := Option.bind_eq_some_iff.mp ht
    split at hp
    · cases hp
    · split at hp
      · cases hp
        exact h.frame rfl rfl rfl (.inl rfl)
      · cases hp
        exact h.shrink (prune_sublist _ _) _
  | pruneReturn i =>
    obtain ⟨⟨p,rest⟩,-,hp⟩ := Option.bind_eq_some_iff.mp ht
    obtain ⟨topics,-,rfl⟩ := Option.map_eq_some_iff.mp hp
    refine h.frame rfl rfl rfl ?_
    unfold pruneReturn
    split
    · exact .inr rfl
    · exact .inl rfl

/-- Whatever comes in whatever order and whatever the store fails, the rows keep the limits and
each call returns just what it has stored, if no scan of the rows fails. -/
theorem storage_bounded (hsize : ∀ topicHash r, byteLength r.entries ≤ blobBytes topicHash r)
    {rows : JsMap String Row} (hrows : Bounded rows) {as : List Action} {t : State}
    (hr : Machine.run (step me blobBytes) { rows := rows } as = some t)
    (hscan : Machine.Along (step me blobBytes) (fun s a => scanFails s a = false) { rows := rows }
      as) : Bounded t.rows ∧ Truthful t.results := by
  have hstart : Inv { rows := rows } := by
    refine ⟨hrows,(fun r hr => by cases hr),(fun c hc => by cases hc),fun u hu => by cases hu⟩
  have h := Machine.invariant_run (inv_step hsize) hstart hscan hr
  exact ⟨h.bounded,h.truthful⟩

end

/-- What a sealed row takes: a nonce, a tag and the entries. -/
def sealedBytes (_ : String) (r : Row) : Nat := 24+16+byteLength r.entries

theorem size_sealedBytes (topicHash : String) (r : Row) :
    byteLength r.entries ≤ sealedBytes topicHash r := Nat.le_add_left _ _

def sampleTopic : String := "topic"

/-- An entry is stored while a topic expires. -/
def storedRun : List Action := [
  .accept ⟨sampleTopic,[[1],[1]],"peer"⟩,
  .start,
  .prune 0,
  .answer true 0,
  .resume 0,
  .answer true 0,
  .resume 0,
  .answer true 0,
  .pruned 0 true,
  .resume 0,
  .resume 0,
  .answer true 0,
  .pruneReturn 0,
  .resume 0,
  .answer true 0,
  .resume 0]

theorem bounded_nil : Bounded [] where
  keys := List.nodup_nil
  perTopic e he := by cases he
  distinct e he := by cases he
  topics := by decide
  total := by decide

def storedState : State where
  rows := [(sampleTopic,⟨[[1]],0⟩)]
  usageBytes := some 1
  peerQuota := [("peer",⟨0,1⟩)]
  results := [⟨⟨sampleTopic,[[1],[1]],"peer"⟩,some [[1]],[[1]]⟩]

theorem storage_bounded_storedRun : Bounded storedState.rows ∧ Truthful storedState.results := by
  have hr : Machine.run (step "me" sealedBytes) { rows := [] } storedRun = some storedState := rfl
  have hscan : Machine.check (step "me" sealedBytes) (fun s a => !scanFails s a) { rows := [] }
      storedRun = true := by decide
  exact storage_bounded size_sealedBytes bounded_nil hr
    (Machine.along_of_check (fun s a h => by simpa using h) hscan)

/-! A node that starts again with a store that is full. -/

def fullEntry : Bytes := List.replicate 16384 0

theorem fullEntry_length : fullEntry.length = 16384 := List.length_replicate

def fullTopic (i : Nat) : String := Bytes.toHex (Bytes.bigEndian 32 i)

def fullRows : JsMap String Row := (List.range 4096).map fun i => (fullTopic i,⟨[fullEntry],0⟩)

theorem rawBytes_fullRows : rawBytes fullRows = 16384*4096 := by
  have htotal : ∀ is : List Nat, rawBytes (is.map fun i => (fullTopic i,⟨[fullEntry],0⟩)) =
      16384*is.length := by
    intro is
    induction is with
    | nil => rfl
    | cons i is ih =>
      simp only [rawBytes,JsMap.total,List.map_cons,List.sum_cons,List.length_cons] at ih ⊢
      simp only [byteLength,List.map_cons,List.map_nil,List.sum_cons,List.sum_nil,
        fullEntry_length] at ih ⊢
      omega
  unfold fullRows
  rw [htotal,List.length_range]

theorem bounded_fullRows : Bounded fullRows := by
  have hrow : ∀ e ∈ fullRows, e.2 = ⟨[fullEntry],0⟩ := by
    intro e he
    obtain ⟨i,-,rfl⟩ := List.mem_map.mp he
    rfl
  constructor
  · unfold JsMap.keys fullRows
    rw [List.map_map]
    refine List.Nodup.map_on (fun i hi j hj hij => ?_) List.nodup_range
    have hlt : ∀ n ∈ List.range 4096, n < 256^32 := fun n hn =>
      (List.mem_range.mp hn).trans (by norm_num)
    exact Bytes.bigEndian_inj (hlt i hi) (hlt j hj) (Bytes.toHex_inj hij)
  · intro e he
    rw [hrow e he]
    decide
  · intro e he
    rw [hrow e he]
    simp
  · simp [fullRows,maxTopics]
  · rw [rawBytes_fullRows]
    decide

/-- An entry for a topic that is held, and a scan that fails. -/
def overfillRun (topicHash : String) (new : Bytes) : List Action := [
  .accept ⟨topicHash,[new],"peer"⟩,
  .start,
  .answer true 0,
  .resume 0,
  .answer false 0,
  .resume 0,
  .resume 0,
  .answer true 0,
  .resume 0,
  .answer true 0]

theorem overfill {rows : JsMap String Row} {topicHash : String} {held new : Bytes}
    (hget : JsMap.get rows topicHash = some ⟨[held],0⟩) (hne : entryKey held ≠ entryKey new)
    (hlen : new.length ≤ maxEntryBytes) : ∃ t,
    Machine.run (step "me" sealedBytes) { rows := rows } (overfillRun topicHash new) = some t ∧
      t.rows = JsMap.set rows topicHash ⟨[held,new],0⟩ := by
  have hfresh : freshEntries [entryKey held] [new] = [new] := by
    simp [freshEntries,hne.symm]
  have hchosen : candidatesOf [held] [new] = [new] := by
    simp [candidatesOf,hfresh,maxEntriesPerTopic]
  have hbytes : byteLength [new] = new.length := by simp [byteLength]
  have hroom : ¬maxTotalBytes < new.length := by
    simp only [maxEntryBytes,maxTotalBytes] at *
    omega
  have hquota : ¬maxBytesPerPeerPerHour < new.length := by
    simp only [maxEntryBytes,maxBytesPerPeerPerHour] at *
    omega
  have hadded : ([new].filter fun e => !([held].map entryKey).contains (entryKey e)) = [new] := by
    simp [hne.symm]
  let o : Offer := ⟨topicHash,[new],"peer"⟩
  let q : JsMap String Quota := [("peer",⟨0,new.length⟩)]
  have hgot : step "me" sealedBytes { rows := rows, active := some { offer := o } }
      (.answer true 0) = some { rows := rows, active := some {
        offer := o, answer := some (.entries (some [held])) } } := by
    simp [step,answer,answerOf,o,hget]
  have hchose : step "me" sealedBytes { rows := rows, active := some {
      offer := o, answer := some (.entries (some [held])) } } (.resume 0) =
      some { rows := rows, active := some {
        offer := o, wait := .usage [new], existing := [held] } } := by
    simp [step,resume,afterGet,choose,currentUsage,await,hfresh,hchosen,maxEntriesPerTopic,o]
  have hcharged : step "me" sealedBytes { rows := rows, usageBytes := some 0, active := some {
      offer := o, wait := .used [new] 0, answer := some .done, existing := [held] } } (.resume 0) =
      some { rows := rows, usageBytes := some 0, peerQuota := q, active := some {
        offer := o, wait := .putRead [new] 0, existing := [held] } } := by
    simp [step,resume,afterUsed,hbytes,hroom,chargePeerQuota,JsMap.get,JsMap.set,hquota,await,o,q]
  have hread : step "me" sealedBytes { rows := rows, usageBytes := some 0, peerQuota := q
                                       active := some {
      offer := o, wait := .putRead [new] 0, answer := some (.entries (some [held]))
      existing := [held] } } (.resume 0) =
      some { rows := rows, usageBytes := some 0, peerQuota := q, active := some {
        offer := o, wait := .putWrite [held,new] [new] 0, existing := [held] } } := by
    simp only [step,resume,afterPutRead,hadded,Option.bind_some]
    simp [await]
  refine ⟨_,Machine.run_cons rfl (Machine.run_cons rfl (Machine.run_cons hgot
    (Machine.run_cons hchose (Machine.run_cons rfl (Machine.run_cons rfl (Machine.run_cons hcharged
      (Machine.run_cons ?_ (Machine.run_cons hread (Machine.run_cons rfl rfl))))))))),?_⟩
  · simp [step,answer,answerOf,o,hget]
  · rfl

/-- The store holds more than it may: the scan that failed counts as an empty store. -/
theorem storage_overfilled : (∀ topicHash r, byteLength r.entries ≤ sealedBytes topicHash r) ∧
    Bounded fullRows ∧ ∃ t,
      Machine.run (step "me" sealedBytes) { rows := fullRows } (overfillRun (fullTopic 0) [1]) =
        some t ∧ ¬Bounded t.rows := by
  have hget : JsMap.get fullRows (fullTopic 0) = some ⟨[fullEntry],0⟩ :=
    JsMap.get_of_mem bounded_fullRows.keys
      (List.mem_map.mpr ⟨0,List.mem_range.mpr (by omega),rfl⟩)
  have hne : entryKey fullEntry ≠ entryKey [1] := fun h => by
    have hlen := congrArg List.length (Bytes.toHex_inj h)
    rw [fullEntry_length] at hlen
    simp at hlen
  obtain ⟨t,ht,hrows⟩ := overfill hget hne (by decide)
  refine ⟨size_sealedBytes,bounded_fullRows,t,ht,fun hb => ?_⟩
  have htotal := hb.total
  have hfull := rawBytes_get bounded_fullRows.keys hget
  have hbytes : byteLength [fullEntry] = 16384 := by
    simp [byteLength,fullEntry_length]
  have hmore : byteLength [fullEntry,[1]] = 16385 := by
    simp [byteLength,fullEntry_length]
  rw [hrows,rawBytes_set bounded_fullRows.keys] at htotal
  rw [rawBytes_fullRows] at hfull
  simp only [hbytes,hmore,maxTotalBytes] at *
  omega

end StorageBounds
