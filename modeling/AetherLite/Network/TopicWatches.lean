import AetherLite.Lib.Tally
import AetherLite.Network.ZoneManager
import AetherLite.Crypto.PacketBuild
import Mathlib.Data.List.Infix

/-! The topics that are watched, counted by the handles that keep them. -/
set_option autoImplicit false

namespace ZoneManager

open KeyManager PacketBuilder

structure Watched where
  topic : Bytes
  refs : Nat

/-- A handle is its place in the list: the key it counts for and whether it is released. -/
structure Watches where
  watched : JsMap String Watched := []
  handles : List (String × Bool) := []

def watchKey (topicHash : Bytes) : String := Bytes.toHex (topicHash.take 32)

def watchTopic (s : Watches) (topicHash : Bytes) : Watches where
  watched := match JsMap.get s.watched (watchKey topicHash) with
    | some entry => JsMap.set s.watched (watchKey topicHash) { entry with refs := entry.refs+1 }
    | none => JsMap.set s.watched (watchKey topicHash) { topic := topicHash.take 32, refs := 1 }
  handles := s.handles ++ [(watchKey topicHash,false)]

/-- What a handle does to the entry it counts for. -/
def releaseKey (watched : JsMap String Watched) (key : String) : JsMap String Watched :=
  match JsMap.get watched key with
  | none => watched
  | some e =>
    if e.refs-1 ≤ 0 then JsMap.delete watched key
    else JsMap.set watched key { e with refs := e.refs-1 }

/-- The function that `watchTopic` returns. -/
def release (s : Watches) (handle : Nat) : Watches :=
  match s.handles[handle]? with
  | some (key,false) =>
    { watched := releaseKey s.watched key, handles := s.handles.set handle (key,true) }
  | _ => s

def isSubscribed (s : State) (watched : JsMap String Watched) (zoneId : Nat) : Bool :=
  if 1 <<< s.depth ≤ subscribeCount then true
  else s.zones.contains zoneId ||
    (JsMap.values watched).any fun e =>
      (List.range (maxDepth+1)).any fun d => computeZoneId e.topic d == zoneId

inductive Call where
  | watchTopic (topicHash : Bytes)
  | release (handle : Nat)
  deriving DecidableEq

def call (s : Watches) : Call → Watches
  | .watchTopic topicHash => watchTopic s topicHash
  | .release handle => release s handle

def calls (s : Watches) (cs : List Call) : Watches := cs.foldl call s

/-- How many handles were given out. -/
def given (cs : List Call) : Nat := cs.countP fun c => c matches .watchTopic _

/-- A call gave out a handle for the topic, and no later one releases it. -/
def Unreleased (cs : List Call) (topicHash : Bytes) : Prop :=
  ∃ pre topic post, cs = pre ++ .watchTopic topic :: post ∧ topic.take 32 = topicHash.take 32 ∧
    .release (given pre) ∉ post

/-- The keys of the handles that are not released. -/
def live (handles : List (String × Bool)) : List String :=
  (handles.filter fun h => !h.2).map Prod.fst

theorem mem_live {handles : List (String × Bool)} {key : String} :
    key ∈ live handles ↔ (key,false) ∈ handles := by simp [live]

theorem live_append (hs hs' : List (String × Bool)) : live (hs ++ hs') = live hs ++ live hs' := by
  simp [live]

/-- The topics are counted by their handles, each under its key. -/
structure Kept (s : Watches) : Prop where
  counts : Tally.Counts Watched.refs s.watched (live s.handles)
  keyed : ∀ key e, JsMap.get s.watched key = some e → Bytes.toHex e.topic = key

section
variable {s : Watches} {c : Call} {cs : List Call} {topic : Bytes} {key : String}

theorem kept_nil : Kept {} where
  counts := Tally.counts_nil _
  keyed key e h := by cases h

/-- An entry is set under its key. -/
theorem keyed_set {m : JsMap String Watched} {e : Watched}
    (h : ∀ key e, JsMap.get m key = some e → Bytes.toHex e.topic = key)
    (he : Bytes.toHex e.topic = key) :
    ∀ key' e', JsMap.get (JsMap.set m key e) key' = some e' → Bytes.toHex e'.topic = key' := by
  intro key' e' hget
  by_cases hk : key' = key
  · rw [hk,JsMap.get_set_self] at hget
    cases hget
    rw [he,hk]
  · rw [JsMap.get_set_ne m hk] at hget
    exact h key' e' hget

theorem Kept.watchTopic (h : Kept s) (topic : Bytes) : Kept (watchTopic s topic) := by
  have hlive : live (ZoneManager.watchTopic s topic).handles =
      live s.handles ++ [watchKey topic] := live_append _ _
  have hself : (live s.handles ++ [watchKey topic]).count (watchKey topic) =
      (live s.handles).count (watchKey topic)+1 := by simp
  have hother : ∀ key, key ≠ watchKey topic →
      (live s.handles ++ [watchKey topic]).count key = (live s.handles).count key := by
    intro key hkey
    simp [List.count_append,Ne.symm hkey]
  cases hget : JsMap.get s.watched (watchKey topic) with
  | none =>
    have hzero := h.counts.get_none hget
    constructor
    · rw [hlive]
      simp only [ZoneManager.watchTopic,hget]
      have hone : (live s.handles ++ [watchKey topic]).count (watchKey topic) = 1 := by omega
      exact h.counts.set Nat.one_pos hone.symm hother
    · simp only [ZoneManager.watchTopic,hget]
      exact keyed_set h.keyed rfl
  | some e =>
    obtain ⟨hcount,hpos⟩ := h.counts.get_some hget
    have htopic := h.keyed _ _ hget
    constructor
    · rw [hlive]
      simp only [ZoneManager.watchTopic,hget]
      exact h.counts.set (Nat.succ_pos _) (by simp only; omega) hother
    · simp only [ZoneManager.watchTopic,hget]
      exact keyed_set h.keyed htopic

/-- One handle fewer counts. -/
theorem Kept.releaseKey (h : Kept s) {handles : List (String × Bool)}
    (hself : (live s.handles).count key = (live handles).count key+1)
    (hother : ∀ key', key' ≠ key → (live handles).count key' = (live s.handles).count key') :
    Kept { watched := releaseKey s.watched key, handles := handles } := by
  cases hget : JsMap.get s.watched key with
  | none =>
    have hzero := h.counts.get_none hget
    omega
  | some e =>
    obtain ⟨hcount,hpos⟩ := h.counts.get_some hget
    have htopic := h.keyed _ _ hget
    simp only [ZoneManager.releaseKey,hget]
    split
    · next hlast =>
      have hzero : (live handles).count key = 0 := by omega
      constructor
      · exact h.counts.delete hzero hother
      · intro key' e' hget'
        have hne : key' ≠ key := by
          intro hk
          rw [hk,JsMap.get_delete_self] at hget'
          cases hget'
        rw [JsMap.get_delete_ne hne] at hget'
        exact h.keyed key' e' hget'
    · next hmore =>
      constructor
      · exact h.counts.set (by simp only; omega) (by simp only; omega) hother
      · exact keyed_set h.keyed htopic

theorem Kept.release (h : Kept s) (handle : Nat) : Kept (release s handle) := by
  unfold ZoneManager.release
  split
  · next key hhandle =>
    obtain ⟨hlt,hget⟩ := List.getElem?_eq_some_iff.mp hhandle
    obtain ⟨l,l',hold,-,hnew⟩ : ∃ l l', s.handles = l ++ s.handles[handle] :: l' ∧
        l.length = handle ∧ s.handles.set handle (key,true) = l ++ (key,true) :: l' :=
      List.exists_of_set hlt
    have hsplit : s.handles = l ++ (key,false) :: l' := by rw [← hget]; exact hold
    rw [hnew]
    have hlive : live s.handles = live l ++ key :: live l' := by simp [hsplit,live]
    have hleft : live (l ++ (key,true) :: l') = live l ++ live l' := by simp [live]
    apply h.releaseKey
    · simp only [hlive,hleft,List.count_append,List.count_cons_self]
      omega
    · intro key' hkey
      simp [hlive,hleft,List.count_append,List.count_cons_of_ne (Ne.symm hkey)]
  · exact h

theorem kept_call (h : Kept s) (c : Call) : Kept (call s c) := by
  cases c with
  | watchTopic topic => exact h.watchTopic topic
  | release handle => exact h.release handle

theorem kept_calls (h : Kept s) (cs : List Call) : Kept (calls s cs) := by
  induction cs generalizing s with
  | nil => exact h
  | cons c cs ih => exact ih (kept_call h c)

/-! The handles. -/

theorem length_handles (s : Watches) (cs : List Call) :
    (calls s cs).handles.length = s.handles.length+given cs := by
  induction cs generalizing s with
  | nil => rfl
  | cons c cs ih =>
    have hcall : (call s c).handles.length = s.handles.length+given [c] := by
      cases c with
      | watchTopic topic => simp [call,watchTopic,given]
      | release handle =>
        simp only [call,release]
        split <;> simp [given]
    have hgiven : given ([c] ++ cs) = given [c]+given cs := List.countP_append
    rw [List.singleton_append] at hgiven
    rw [calls,List.foldl_cons,← calls,ih,hcall,hgiven]
    omega

/-- A handle stays as it is but for its own release. -/
theorem handle_call {handle : Nat} (h : s.handles[handle]? = some (key,false))
    (hc : c ≠ .release handle) : (call s c).handles[handle]? = some (key,false) := by
  obtain ⟨hlt,-⟩ := List.getElem?_eq_some_iff.mp h
  cases c with
  | watchTopic topic =>
    simp only [call,watchTopic]
    rw [List.getElem?_append_left hlt,h]
  | release handle' =>
    have hne : handle' ≠ handle := by
      intro he
      exact hc (he ▸ rfl)
    simp only [call,release]
    split
    · simp only
      rw [List.getElem?_set_ne hne,h]
    · exact h

theorem handle_calls {handle : Nat} (h : s.handles[handle]? = some (key,false))
    (hcs : .release handle ∉ cs) : (calls s cs).handles[handle]? = some (key,false) := by
  induction cs generalizing s with
  | nil => exact h
  | cons c cs ih =>
    rw [List.mem_cons,not_or] at hcs
    exact ih (handle_call h (Ne.symm hcs.1)) hcs.2

/-- Where a handle that is not released comes from. -/
theorem handle_before {handle : Nat} (h : (call s c).handles[handle]? = some (key,false)) :
    (s.handles[handle]? = some (key,false) ∧ c ≠ .release handle) ∨
    ∃ topic, c = .watchTopic topic ∧ handle = s.handles.length ∧ key = watchKey topic := by
  cases c with
  | watchTopic topic =>
    simp only [call,watchTopic,List.getElem?_append] at h
    split at h
    · exact .inl ⟨h,by simp⟩
    · next hge =>
      obtain ⟨hlt,hkey⟩ := List.getElem?_eq_some_iff.mp h
      simp only [List.length_singleton] at hlt
      simp only [List.getElem_singleton,Prod.mk.injEq,and_true] at hkey
      exact .inr ⟨topic,rfl,by omega,hkey.symm⟩
  | release handle' =>
    simp only [call,release] at h
    split at h
    · next key' hhandle =>
      obtain ⟨hlt,-⟩ := List.getElem?_eq_some_iff.mp hhandle
      by_cases he : handle' = handle
      · subst he
        simp [List.getElem?_set_self hlt] at h
      · rw [List.getElem?_set_ne he] at h
        exact .inl ⟨h,by simpa using he⟩
    · next hnone =>
      refine .inl ⟨h,?_⟩
      intro he
      cases he
      exact hnone key h

theorem handle_origin {handle : Nat} (h : (calls {} cs).handles[handle]? = some (key,false)) :
    ∃ pre topic post, cs = pre ++ .watchTopic topic :: post ∧ handle = given pre ∧
      key = watchKey topic ∧ .release handle ∉ post := by
  induction cs using List.reverseRecOn with
  | nil => cases h
  | append_singleton cs c ih =>
    rw [calls,List.foldl_append] at h
    obtain ⟨hold,hc⟩ | ⟨topic,rfl,rfl,rfl⟩ := handle_before h
    · obtain ⟨pre,topic,post,hcs,hhandle,hkey,hpost⟩ := ih hold
      refine ⟨pre,topic,post ++ [c],by simp [hcs],hhandle,hkey,?_⟩
      simp [hpost,Ne.symm hc]
    · refine ⟨cs,topic,[],rfl,?_,rfl,List.not_mem_nil⟩
      have hlength := length_handles {} cs
      simpa [calls] using hlength

theorem unreleased_iff (cs : List Call) (topic : Bytes) :
    Unreleased cs topic ↔ (watchKey topic,false) ∈ (calls {} cs).handles := by
  constructor
  · intro h
    obtain ⟨pre,topic',post,rfl,htopic,hpost⟩ := h
    have hlength : (calls {} pre).handles.length = given pre := by
      rw [length_handles]
      exact Nat.zero_add _
    have hnew : (watchTopic (calls {} pre) topic').handles[given pre]? =
        some (watchKey topic,false) := by
      simp [watchTopic,← hlength,watchKey,htopic]
    have hlast := handle_calls hnew hpost
    rw [calls,List.foldl_append]
    exact List.mem_of_getElem? hlast
  · intro h
    obtain ⟨handle,hhandle⟩ := List.mem_iff_getElem?.mp h
    obtain ⟨pre,topic',post,hcs,rfl,hkey,hpost⟩ := handle_origin hhandle
    exact ⟨pre,topic',post,hcs,(Bytes.toHex_inj hkey).symm,hpost⟩

/-- The zone is read off the first bytes. -/
theorem computeZoneId_take (topic : Bytes) (d : Nat) :
    computeZoneId (topic.take 32) d = computeZoneId topic d := by
  have htake : ∀ i, i < 32 → (topic.take 32).getD i 0 = topic.getD i 0 := by
    intro i hi
    rw [List.getD_eq_getElem?_getD,List.getElem?_take_of_lt hi,List.getD_eq_getElem?_getD]
  simp only [computeZoneId,htake 0 (by omega),htake 1 (by omega)]

theorem isSubscribed_of_watched (h : Kept s) (hw : JsMap.has s.watched (watchKey topic) = true)
    (st : State) {d : Nat} (hd : d ≤ maxDepth) :
    isSubscribed st s.watched (computeZoneId topic d) = true := by
  obtain ⟨e,hget⟩ := Option.isSome_iff_exists.mp hw
  have htopic : e.topic = topic.take 32 := Bytes.toHex_inj (h.keyed _ _ hget)
  unfold isSubscribed
  split
  · rfl
  · rw [Bool.or_eq_true]
    right
    apply List.any_eq_true.mpr
    refine ⟨e,JsMap.get_mem_values hget,?_⟩
    apply List.any_eq_true.mpr
    refine ⟨d,List.mem_range.mpr (by omega),?_⟩
    rw [htopic,computeZoneId_take,beq_self_eq_true]

/-- The zone of a packet is that of its topic at the depth of its sender. -/
theorem field_zoneId {p : Primitives} {a : Author} {d : Draft} {key nonce : Bytes} {date : Nat}
    {packet : Js.Val} (h : build p a d key date nonce = .ok packet) :
    packet.field "zone_id" = .num (Js.Number.ofNat
      (computeZoneId ((a.cryptoHash key).take 32) d.currentDepth)) := by
  unfold build at h
  obtain ⟨encPayload,-,h⟩ := Js.bind_ok h
  obtain ⟨powNonce,-,h⟩ := Js.bind_ok h
  obtain ⟨packetId,-,h⟩ := Js.bind_ok h
  cases h
  rfl

end

/-- After every sequence of calls a topic is watched if and only if a handle for it is not
released, and then whatever is built for it, at any depth there is, is subscribed to. -/
theorem watched_iff (cs : List Call) (topic : Bytes) :
    (JsMap.has (calls {} cs).watched (watchKey topic) = true ↔ Unreleased cs topic) ∧
    (JsMap.has (calls {} cs).watched (watchKey topic) = true →
      (∀ (st : State) (d : Nat), d ≤ maxDepth →
        isSubscribed st (calls {} cs).watched (computeZoneId topic d) = true) ∧
      (∀ (p : Primitives) (a : Author) (d : Draft) (key nonce : Bytes) (date : Nat) (packet : Js.Val),
        build p a d key date nonce = .ok packet → (a.cryptoHash key).take 32 = topic →
        d.currentDepth ≤ maxDepth →
        ∃ zoneId, packet.field "zone_id" = .num (Js.Number.ofNat zoneId) ∧
          ∀ st : State, isSubscribed st (calls {} cs).watched zoneId = true)) := by
  have hkept := kept_calls kept_nil cs
  constructor
  · rw [unreleased_iff,JsMap.has_iff,hkept.counts.mem_keys_iff,mem_live]
  · intro hw
    constructor
    · intro st d hd
      exact isSubscribed_of_watched hkept hw st hd
    · intro p a d key nonce date packet hbuild htopic hd
      refine ⟨computeZoneId topic d.currentDepth,?_,?_⟩
      · rw [← htopic]
        exact field_zoneId hbuild
      · intro st
        exact isSubscribed_of_watched hkept hw st hd

end ZoneManager
