import AetherLite.Mailbox.SlotStorage

/-! An entry stays until its topic expires, whatever calls and failures of the store interleave. -/
set_option autoImplicit false

namespace SlotStorage

open Js

/-- The topic holds what it held when a call read it, or nothing. -/
def Same (rows : JsMap String Row) (topicHash : String) (existing : List Bytes) : Prop :=
  ∀ r, JsMap.get rows topicHash = some r → r.entries = existing

/-- The call has chosen its candidates, for which the topic has room. -/
structure Chosen (rows : JsMap String Row) (c : Call) (candidates : List Bytes) : Prop where
  same : Same rows c.offer.topicHash c.existing
  chosen : candidates = candidatesOf c.existing c.offer.entries
  room : c.existing.length ≤ maxEntriesPerTopic

/-- What a call is about to write has what the topic holds. -/
structure Extends (rows : JsMap String Row) (topicHash : String) (written : List Bytes) : Prop where
  holds : ∀ r, JsMap.get rows topicHash = some r → r.entries ⊆ written
  room : written.length ≤ maxEntriesPerTopic

def CallKeeps (rows : JsMap String Row) (c : Call) : Prop :=
  match c.wait with
  | .get => ∀ es, c.answer = some (.entries es) → Same rows c.offer.topicHash (es.getD [])
  | .topics => Same rows c.offer.topicHash c.existing ∧ c.existing = []
  | .usage candidates | .used candidates _ => Chosen rows c candidates
  | .putRead candidates _ => Chosen rows c candidates ∧ ∀ es, c.answer = some (.entries es) →
      es = none ∧ JsMap.get rows c.offer.topicHash = none ∨ es = some c.existing
  | .putWrite written _ _ => c.answer = none → Extends rows c.offer.topicHash written
  | .putSame _ _ => True

structure Keeps (s : State) : Prop where
  keys : (JsMap.keys s.rows).Nodup
  perTopic : ∀ x ∈ s.rows, x.2.entries.length ≤ maxEntriesPerTopic
  call : ∀ c, s.active = some c → CallKeeps s.rows c

section
variable {rows rows' : JsMap String Row} {c : Call} {candidates existing : List Bytes}
  {topicHash : String}

theorem Same.shrink (h : Same rows topicHash existing) (hn : (JsMap.keys rows).Nodup)
    (hsub : rows'.Sublist rows) : Same rows' topicHash existing :=
  fun r hr => h r (JsMap.get_sublist hn hsub hr)

theorem Chosen.shrink (h : Chosen rows c candidates) (hn : (JsMap.keys rows).Nodup)
    (hsub : rows'.Sublist rows) : Chosen rows' c candidates :=
  { h with same := h.same.shrink hn hsub }

theorem get_none_shrink (h : JsMap.get rows topicHash = none) (hn : (JsMap.keys rows).Nodup)
    (hsub : rows'.Sublist rows) : JsMap.get rows' topicHash = none := by
  cases hg : JsMap.get rows' topicHash with
  | none => rfl
  | some r =>
    rw [JsMap.get_sublist hn hsub hg] at h
    cases h

theorem CallKeeps.shrink (h : CallKeeps rows c) (hn : (JsMap.keys rows).Nodup)
    (hsub : rows'.Sublist rows) : CallKeeps rows' c := by
  unfold CallKeeps at h ⊢
  cases hw : c.wait with
  | get =>
    rw [hw] at h
    exact fun es he => (h es he).shrink hn hsub
  | topics =>
    rw [hw] at h
    exact ⟨h.1.shrink hn hsub,h.2⟩
  | usage candidates =>
    rw [hw] at h
    exact Chosen.shrink h hn hsub
  | used candidates usage =>
    rw [hw] at h
    exact Chosen.shrink h hn hsub
  | putRead candidates usage =>
    rw [hw] at h
    refine ⟨h.1.shrink hn hsub,fun es he => ?_⟩
    rcases h.2 es he with ⟨hnone,hget⟩ | hsome
    · exact .inl ⟨hnone,get_none_shrink hget hn hsub⟩
    · exact .inr hsome
  | putWrite written candidates usage =>
    rw [hw] at h
    intro ha
    exact ⟨fun r hr => (h ha).holds r (JsMap.get_sublist hn hsub hr),(h ha).room⟩
  | putSame candidates usage => trivial

end

section
variable {me : String} {blobBytes : String → Row → Nat} {s t : State} {c : Call}

theorem Keeps.shrink (h : Keeps s) {rows : JsMap String Row} (hsub : rows.Sublist s.rows)
    (pruning : List Prune) : Keeps { s with rows := rows, pruning := pruning } where
  keys := h.keys.sublist (hsub.map _)
  perTopic x hx := h.perTopic x (hsub.mem hx)
  call c hc := (h.call c hc).shrink h.keys hsub

theorem Keeps.finish (h : Keeps s) (c : Call) (returned : Option (List Bytes)) :
    Keeps (finish s c returned) where
  keys := h.keys
  perTopic := h.perTopic
  call d hd := by cases hd

/-- The call goes on, and the rows are as they were. -/
theorem Keeps.goesOn (h : Keeps s) (hc : CallKeeps s.rows c) : Keeps { s with active := some c } where
  keys := h.keys
  perTopic := h.perTopic
  call d hd := by
    cases hd
    exact hc

theorem Keeps.choose (h : Keeps s) (hsame : Same s.rows c.offer.topicHash c.existing)
    (hroom : c.existing.length ≤ maxEntriesPerTopic) : Keeps (choose s c) := by
  unfold SlotStorage.choose currentUsage
  split
  · exact h.finish _ _
  · split
    · exact h.goesOn (Chosen.mk hsame rfl hroom)
    · exact h.goesOn (Chosen.mk hsame rfl hroom)

theorem Keeps.afterGet (h : Keeps s) {entries : Option (List Bytes)}
    (hsame : Same s.rows c.offer.topicHash (entries.getD [])) : Keeps (afterGet s c entries) := by
  unfold SlotStorage.afterGet
  dsimp only
  split
  · exact h.finish _ _
  next hfull =>
  split
  · next hnone => exact h.goesOn ⟨hsame,List.length_eq_zero_iff.mp hnone⟩
  · exact h.choose hsame (not_le.mp hfull).le

theorem Keeps.afterUsed (h : Keeps s) {candidates : List Bytes} (hc : Chosen s.rows c candidates)
    (usage : Nat) (now : Int) : Keeps (afterUsed me s c candidates usage now) := by
  have hread : CallKeeps s.rows { c with wait := .putRead candidates usage, answer := none } :=
    ⟨{ hc with },fun es he => by cases he⟩
  unfold SlotStorage.afterUsed
  dsimp only
  split
  · exact h.finish _ _
  split
  · exact h.goesOn hread
  split
  · exact ⟨h.keys,h.perTopic,fun d hd => (by cases hd; exact hread)⟩
  · exact ⟨h.keys,h.perTopic,fun d hd => by cases hd⟩

theorem Keeps.afterPutRead (h : Keeps s) {candidates : List Bytes} (hc : Chosen s.rows c candidates)
    {entries : Option (List Bytes)}
    (hread : entries = none ∧ JsMap.get s.rows c.offer.topicHash = none ∨ entries = some c.existing)
    (usage : Nat) : Keeps (afterPutRead s c candidates usage entries) := by
  have hlen := candidates_length hc.room c.offer.entries
  rw [← hc.chosen,List.length_append] at hlen
  rcases hread with ⟨rfl,hnone⟩ | rfl
  · refine h.goesOn fun _ => ⟨fun r hr => ?_,by omega⟩
    rw [hnone] at hr
    cases hr
  · have hadded := added_eq c.existing c.offer.entries
    rw [← hc.chosen] at hadded
    unfold SlotStorage.afterPutRead
    dsimp only
    rw [hadded]
    split
    · exact h.goesOn trivial
    · refine h.goesOn fun _ => ⟨fun r hr => ?_,by rw [List.length_append]; exact hlen⟩
      rw [hc.same r hr]
      exact List.subset_append_left _ _

theorem Keeps.resume (h : Keeps s) (hc : s.active = some c) {a : Answer} (ha : c.answer = some a)
    {now : Int} (hr : resume me s c a now = some t) : Keeps t := by
  have hcall := h.call c hc
  have hcounted : ∀ usage, Keeps { s with usageBytes := usage } := fun _ =>
    ⟨h.keys,h.perTopic,h.call⟩
  unfold CallKeeps at hcall
  unfold SlotStorage.resume at hr
  split at hr
  · next entries hw =>
    cases hr
    rw [hw] at hcall
    exact h.afterGet (hcall entries ha)
  · next n hw =>
    cases hr
    rw [hw] at hcall
    unfold SlotStorage.afterTopics
    split
    · exact h.finish _ _
    · exact h.choose hcall.1 (by rw [hcall.2]; exact Nat.zero_le _)
  · next candidates n hw =>
    cases hr
    rw [hw] at hcall
    exact (hcounted _).goesOn (Chosen.mk hcall.same hcall.chosen hcall.room)
  · next candidates hw =>
    cases hr
    rw [hw] at hcall
    exact (hcounted _).goesOn (Chosen.mk hcall.same hcall.chosen hcall.room)
  · next candidates usage hw =>
    cases hr
    rw [hw] at hcall
    exact h.afterUsed hcall usage now
  · next candidates usage entries hw =>
    cases hr
    rw [hw] at hcall
    exact h.afterPutRead hcall.1 (hcall.2 entries ha) usage
  · cases hr
    exact (hcounted _).finish _ _
  · cases hr
    exact (hcounted _).finish _ _
  · cases hr
    exact h.finish _ _
  · cases hr

theorem Keeps.answer (h : Keeps s) (hc : s.active = some c) (ha : c.answer = none) (works : Bool)
    (now : Int) : Keeps (answer blobBytes s c works now) := by
  have hcall := h.call c hc
  obtain ⟨offer,wait,_,existing,stored⟩ := c
  cases ha
  cases works with
  | false =>
    apply h.goesOn
    cases wait with
    | get => exact fun es he => by cases he
    | topics => exact hcall
    | usage candidates => exact { hcall with }
    | used candidates usage => exact { hcall with }
    | putRead candidates usage => exact ⟨{ hcall.1 with },fun es he => by cases he⟩
    | putWrite written candidates usage => exact fun he => by cases he
    | putSame candidates usage => trivial
  | true =>
    cases wait with
    | get =>
      refine h.goesOn fun es he r hr => ?_
      cases he
      dsimp only
      rw [hr]
      rfl
    | topics => exact h.goesOn hcall
    | usage candidates => exact h.goesOn (Chosen.mk hcall.same hcall.chosen hcall.room)
    | used candidates usage => exact h.goesOn (Chosen.mk hcall.same hcall.chosen hcall.room)
    | putRead candidates usage =>
      refine h.goesOn ⟨{ hcall.1 with },fun es he => ?_⟩
      cases he
      dsimp only
      cases hg : JsMap.get s.rows offer.topicHash with
      | none => exact .inl ⟨rfl,rfl⟩
      | some r => exact .inr (congrArg some (hcall.1.same r hg))
    | putWrite written candidates usage =>
      refine ⟨JsMap.nodup_keys_set h.keys _ _,fun x hx => ?_,fun d hd => ?_⟩
      · rcases JsMap.mem_set hx with rfl | hx
        · exact (hcall rfl).room
        · exact h.perTopic x hx
      · cases hd
        exact fun he => by cases he
    | putSame candidates usage => exact h.goesOn trivial

theorem keeps_step (h : Keeps s) {a : Action} (ht : step me blobBytes s a = some t) : Keeps t := by
  cases a with
  | accept offer =>
    cases ht
    exact ⟨h.keys,h.perTopic,h.call⟩
  | start =>
    simp only [step] at ht
    split at ht
    · cases ht
      refine ⟨h.keys,h.perTopic,fun d hd => ?_⟩
      cases hd
      exact fun es he => by cases he
    · cases ht
  | answer works now =>
    simp only [step] at ht
    split at ht
    · next c hc =>
      split at ht
      · next ha =>
        cases ht
        exact h.answer hc ha works now
      · cases ht
    · cases ht
  | resume now =>
    simp only [step] at ht
    split at ht
    · next c hc =>
      obtain ⟨a,ha,hr⟩ := Option.bind_eq_some_iff.mp ht
      exact h.resume hc ha hr
    · cases ht
  | prune now =>
    cases ht
    exact ⟨h.keys,h.perTopic,h.call⟩
  | pruned i works =>
    obtain ⟨p,-,hp⟩ := Option.bind_eq_some_iff.mp ht
    split at hp
    · cases hp
    · split at hp
      · cases hp
        exact ⟨h.keys,h.perTopic,h.call⟩
      · cases hp
        exact h.shrink List.filter_sublist _
  | pruneReturn i =>
    obtain ⟨⟨p,rest⟩,-,hp⟩ := Option.bind_eq_some_iff.mp ht
    obtain ⟨topics,-,rfl⟩ := Option.map_eq_some_iff.mp hp
    exact ⟨h.keys,h.perTopic,h.call⟩

theorem resume_rows {a : Answer} {now : Int} (hr : resume me s c a now = some t) :
    t.rows = s.rows ∧ t.pruning = s.pruning := by
  have hchoose : ∀ c, (choose s c).rows = s.rows ∧ (choose s c).pruning = s.pruning := by
    intro c
    unfold choose currentUsage
    split
    · exact ⟨rfl,rfl⟩
    · split
      · exact ⟨rfl,rfl⟩
      · exact ⟨rfl,rfl⟩
  unfold resume at hr
  split at hr
  · cases hr
    unfold afterGet
    dsimp only
    split
    · exact ⟨rfl,rfl⟩
    split
    · exact ⟨rfl,rfl⟩
    · exact hchoose _
  · cases hr
    unfold afterTopics
    split
    · exact ⟨rfl,rfl⟩
    · exact hchoose _
  · cases hr
    exact ⟨rfl,rfl⟩
  · cases hr
    exact ⟨rfl,rfl⟩
  · cases hr
    unfold afterUsed
    dsimp only
    split
    · exact ⟨rfl,rfl⟩
    split
    · exact ⟨rfl,rfl⟩
    split
    · exact ⟨rfl,rfl⟩
    · exact ⟨rfl,rfl⟩
  · cases hr
    unfold afterPutRead
    split
    · exact ⟨rfl,rfl⟩
    · dsimp only
      split
      · exact ⟨rfl,rfl⟩
      · exact ⟨rfl,rfl⟩
  · cases hr
    exact ⟨rfl,rfl⟩
  · cases hr
    exact ⟨rfl,rfl⟩
  · cases hr
    exact ⟨rfl,rfl⟩
  · cases hr

/-- The rows change when a call writes its row, and when topics are removed. -/
theorem rows_step {a : Action} (ht : step me blobBytes s a = some t) : t.rows = s.rows ∨
    (∃ c written candidates usage now, a = .answer true now ∧ s.active = some c ∧
      c.answer = none ∧ c.wait = .putWrite written candidates usage ∧
        t.rows = JsMap.set s.rows c.offer.topicHash ⟨written,now⟩) ∨
    ∃ p ∈ s.pruning, t.rows = pruneMailbox s.rows (p.now-retentionMs) := by
  cases a with
  | accept offer =>
    cases ht
    exact .inl rfl
  | start =>
    simp only [step] at ht
    split at ht
    · cases ht
      exact .inl rfl
    · cases ht
  | answer works now =>
    simp only [step] at ht
    split at ht
    · next c hc =>
      split at ht
      · next ha =>
        cases ht
        unfold answer
        split
        · exact .inl rfl
        next hworks =>
        obtain rfl : works = true := by simpa using hworks
        split
        · next written candidates usage hw =>
          exact .inr (.inl ⟨c,written,candidates,usage,now,rfl,hc,ha,hw,rfl⟩)
        · exact .inl rfl
      · cases ht
    · cases ht
  | resume now =>
    simp only [step] at ht
    split at ht
    · next c hc =>
      obtain ⟨a,ha,hr⟩ := Option.bind_eq_some_iff.mp ht
      exact .inl (resume_rows hr).1
    · cases ht
  | prune now =>
    cases ht
    exact .inl rfl
  | pruned i works =>
    obtain ⟨p,hi,hp⟩ := Option.bind_eq_some_iff.mp ht
    split at hp
    · cases hp
    · split at hp
      · cases hp
        exact .inl rfl
      · cases hp
        exact .inr (.inr ⟨p,List.mem_of_getElem? hi,rfl⟩)
  | pruneReturn i =>
    obtain ⟨⟨p,rest⟩,-,hp⟩ := Option.bind_eq_some_iff.mp ht
    obtain ⟨topics,-,rfl⟩ := Option.map_eq_some_iff.mp hp
    exact .inl rfl

/-- A topic is removed on no earlier day than the one on which its time has passed. -/
theorem get_pruneMailbox {rows : JsMap String Row} {topicHash : String} {r : Row} {cutoff : Int}
    (hget : JsMap.get rows topicHash = some r) (hn : (JsMap.keys rows).Nodup)
    (hle : cutoff ≤ r.lastUpdated) : JsMap.get (pruneMailbox rows cutoff) topicHash = some r := by
  have hday : cutoff/dayMs ≤ r.day := Int.ediv_le_ediv (by decide) hle
  refine JsMap.get_of_mem (hn.sublist (List.filter_sublist.map _)) ?_
  exact List.mem_filter.mpr ⟨JsMap.mem_of_get hget,by simpa using hday⟩

/-- The topic has the entry, and was updated no earlier than then. -/
def HasEntry (s : State) (topicHash : String) (entry : Bytes) (since : Int) : Prop :=
  ∃ r, JsMap.get s.rows topicHash = some r ∧ entry ∈ r.entries ∧ since ≤ r.lastUpdated

theorem hasEntry_step {topicHash : String} {entry : Bytes} {since : Int} {a : Action} (h : Keeps s)
    (he : HasEntry s topicHash entry since) (ht : step me blobBytes s a = some t)
    (hwrite : ∀ now, a = .answer true now → since ≤ now)
    (hprune : ∀ p ∈ s.pruning, p.now-retentionMs ≤ since) : HasEntry t topicHash entry since := by
  obtain ⟨r,hget,hmem,hle⟩ := he
  rcases rows_step ht with hrows | ⟨c,written,candidates,usage,now,rfl,hc,ha,hw,hrows⟩ |
    ⟨p,hp,hrows⟩
  · exact ⟨r,by rw [hrows]; exact hget,hmem,hle⟩
  · by_cases htopic : c.offer.topicHash = topicHash
    · have hcall := h.call c hc
      unfold CallKeeps at hcall
      rw [hw] at hcall
      rw [← htopic] at hget ⊢
      refine ⟨_,by rw [hrows]; exact JsMap.get_set_self _ _ _,?_,hwrite now rfl⟩
      exact (hcall ha).holds r hget hmem
    · refine ⟨r,?_,hmem,hle⟩
      rw [hrows,JsMap.get_set_ne _ fun heq => htopic heq.symm]
      exact hget
  · have hcutoff := hprune p hp
    refine ⟨r,?_,hmem,hle⟩
    rw [hrows]
    exact get_pruneMailbox hget h.keys (hcutoff.trans hle)

end

end SlotStorage
