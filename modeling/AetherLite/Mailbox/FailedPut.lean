import AetherLite.Mailbox.SlotStorage

/-! What is left of a call when the store cannot write its entries. -/
set_option autoImplicit false

namespace FailedPut

open Js SlotStorage

/-- The steps of a call that has started. -/
def isOwn : Action → Bool
  | .answer _ _ | .resume _ => true
  | _ => false

/-- The call under way waits for `put`. -/
def inPut (s : State) : Bool :=
  match s.active with
  | some ⟨_,.putRead _ _,none,_,_⟩ | some ⟨_,.putWrite _ _ _,none,_,_⟩ => true
  | _ => false

section
variable (me : String) (blobBytes : String → Row → Nat)

/-- The usage a later call works with, the quota of the peer and the rows are as they were. A
usage that was not cached yet may have been counted. -/
structure Unchanged (s t : State) (source : String) : Prop where
  usage : t.usageBytes = s.usageBytes ∨
    s.usageBytes = none ∧ t.usageBytes = some (mailboxUsageBytes blobBytes s.rows)
  quota : JsMap.get t.peerQuota source = JsMap.get s.peerQuota source
  rows : t.rows = s.rows

/-- A scan that has failed finds nothing to count, and who is charged is the node itself, or a
peer that offers nothing but empty entries while its hour runs. -/
def Harmless (s : State) (a : Action) : Prop :=
  match a,s.active with
  | .resume _,some ⟨_,.usage _,some .failed,_,_⟩ => mailboxUsageBytes blobBytes s.rows = 0
  | .resume now,some ⟨offer,.used candidates _,some .done,_,_⟩ =>
    offer.source = me ∨ byteLength candidates = 0 ∧
      ∃ q, JsMap.get s.peerQuota offer.source = some q ∧ expired now q = false
  | _,_ => True

end

/-- A charge leaves a quota as it is only if it is nothing and the hour runs. -/
theorem charge_same_iff {m m' : JsMap String Quota} {id : String} {bytes : Nat} {now : Int}
    (h : chargePeerQuota m id bytes now = (m',true)) :
    JsMap.get m' id = JsMap.get m id ↔
      bytes = 0 ∧ ∃ q, JsMap.get m id = some q ∧ expired now q = false := by
  unfold chargePeerQuota at h
  dsimp only at h
  split at h
  · cases h
  · cases h
    rw [JsMap.get_set_self]
    cases hq : JsMap.get m id with
    | none => simp
    | some q =>
      obtain ⟨windowStart,used⟩ := q
      cases he : expired now ⟨windowStart,used⟩ with
      | true =>
        have hlate : (0 : Int) ≤ hourMs := Int.natCast_nonneg _
        have hne : now ≠ windowStart := by
          intro heq
          simp [expired,heq] at he
          omega
        simp [Option.filter,he,hne]
      | false => simp [Option.filter,he]

section
variable {me : String} {blobBytes : String → Row → Nat} {s t u v : State} {source : String}

theorem Unchanged.congr (husage : v.usageBytes = u.usageBytes) (hquota : v.peerQuota = u.peerQuota)
    (hrows : v.rows = u.rows) :
    Unchanged blobBytes s v source ↔ Unchanged blobBytes s u source := by
  constructor
  · intro h
    exact ⟨husage ▸ h.usage,hquota ▸ h.quota,hrows ▸ h.rows⟩
  · intro h
    exact ⟨husage ▸ h.usage,hquota ▸ h.quota,hrows ▸ h.rows⟩

/-- `put` has not been answered. -/
def early (c : Call) : Bool :=
  match c.wait,c.answer with
  | .putWrite _ _ _,some .done => false
  | .putSame _ _,_ => false
  | _,_ => true

variable (blobBytes s u) in
/-- What the call has left as it was, by where it waits. -/
def Mid (c : Call) : Prop :=
  match c.wait with
  | .get | .topics => u.usageBytes = s.usageBytes ∧ u.peerQuota = s.peerQuota
  | .usage _ => s.usageBytes = none ∧ u.usageBytes = none ∧ u.peerQuota = s.peerQuota ∧
      ∀ n, c.answer = some (.count n) → n = mailboxUsageBytes blobBytes s.rows
  | .used _ _ => u.peerQuota = s.peerQuota
  | _ => True

variable (me blobBytes s source) in
/-- A step of the call changes something just if it is not harmless, as long as nothing has
changed. -/
structure Onward (u : State) (a : Action) (v : State) (c' : Call) : Prop where
  rows : v.rows = u.rows
  mid : Mid blobBytes s v c'
  changes : Unchanged blobBytes s v source ↔
    Unchanged blobBytes s u source ∧ Harmless me blobBytes u a

theorem onward_same {a : Action} {c' : Call} (husage : v.usageBytes = u.usageBytes)
    (hquota : v.peerQuota = u.peerQuota) (hrows : v.rows = u.rows) (hmid : Mid blobBytes s v c')
    (hharmless : Harmless me blobBytes u a) : Onward me blobBytes s source u a v c' :=
  ⟨hrows,hmid,by simp [Unchanged.congr husage hquota hrows,hharmless]⟩

theorem onward_answer {c c' : Call}
    (hmid : early c = true → u.rows = s.rows ∧ Mid blobBytes s u c) (hanswer : c.answer = none) {works : Bool} {now : Int}
    (hv : (answer blobBytes u c works now).active = some c') (he : early c' = true) :
    c'.offer = c.offer ∧ early c = true ∧
      Onward me blobBytes s source u (.answer works now) (answer blobBytes u c works now) c' := by
  obtain ⟨offer,wait,_,existing,stored⟩ := c
  cases hanswer
  have hharmless : Harmless me blobBytes u (.answer works now) := trivial
  cases works with
  | false =>
    cases hv
    cases wait with
    | usage candidates =>
      obtain ⟨-,hmid⟩ := hmid rfl
      exact ⟨rfl,rfl,onward_same rfl rfl rfl ⟨hmid.1,hmid.2.1,hmid.2.2.1,fun n hn => by cases hn⟩ hharmless⟩
    | putSame candidates usage => cases he
    | _ => exact ⟨rfl,rfl,onward_same rfl rfl rfl (hmid rfl).2 hharmless⟩
  | true =>
    cases wait with
    | usage candidates =>
      obtain ⟨hrows,hmid⟩ := hmid rfl
      cases hv
      refine ⟨rfl,rfl,onward_same rfl rfl rfl ⟨hmid.1,hmid.2.1,hmid.2.2.1,fun n hn => ?_⟩ hharmless⟩
      cases hn
      rw [hrows]
    | putWrite new candidates usage =>
      cases hv
      cases he
    | putSame candidates usage =>
      cases hv
      cases he
    | _ =>
      cases hv
      exact ⟨rfl,rfl,onward_same rfl rfl rfl (hmid rfl).2 hharmless⟩

theorem onward_choose {a : Action} {c c' : Call} (husage : u.usageBytes = s.usageBytes)
    (hquota : u.peerQuota = s.peerQuota) (hharmless : Harmless me blobBytes u a)
    (hv : (choose u c).active = some c') :
    c'.offer = c.offer ∧ Onward me blobBytes s source u a (choose u c) c' := by
  unfold choose currentUsage at hv ⊢
  split at hv
  · cases hv
  · next hfresh =>
    rw [if_neg hfresh]
    cases hcached : u.usageBytes with
    | none =>
      rw [hcached] at hv
      cases hv
      exact ⟨rfl,onward_same rfl rfl rfl ⟨husage ▸ hcached,hcached,hquota,fun n hn => by cases hn⟩ hharmless⟩
    | some usage =>
      rw [hcached] at hv
      cases hv
      exact ⟨rfl,onward_same rfl rfl rfl hquota hharmless⟩

theorem onward_afterGet {a : Action} {c c' : Call} {entries : Option (List Bytes)}
    (husage : u.usageBytes = s.usageBytes) (hquota : u.peerQuota = s.peerQuota)
    (hharmless : Harmless me blobBytes u a) (hv : (afterGet u c entries).active = some c') :
    c'.offer = c.offer ∧ Onward me blobBytes s source u a (afterGet u c entries) c' := by
  unfold afterGet at hv ⊢
  dsimp only at hv ⊢
  split at hv
  · cases hv
  · next hfull =>
    rw [if_neg hfull]
    split at hv
    · next hnone =>
      rw [if_pos hnone]
      cases hv
      exact ⟨rfl,onward_same rfl rfl rfl ⟨husage,hquota⟩ hharmless⟩
    · next hsome =>
      rw [if_neg hsome]
      exact onward_choose husage hquota hharmless hv

theorem onward_afterTopics {a : Action} {c c' : Call} {n : Nat}
    (husage : u.usageBytes = s.usageBytes) (hquota : u.peerQuota = s.peerQuota)
    (hharmless : Harmless me blobBytes u a) (hv : (afterTopics u c n).active = some c') :
    c'.offer = c.offer ∧ Onward me blobBytes s source u a (afterTopics u c n) c' := by
  unfold afterTopics at hv ⊢
  split at hv
  · cases hv
  · next hroom =>
    rw [if_neg hroom]
    exact onward_choose husage hquota hharmless hv

/-- The usage is counted. -/
theorem onward_afterUsage {a : Action} {c : Call} {candidates : List Bytes} {n : Nat}
    (hnone : s.usageBytes = none) (hquota : u.peerQuota = s.peerQuota)
    (hcached : u.usageBytes = none)
    (hharmless : Harmless me blobBytes u a ↔ n = mailboxUsageBytes blobBytes s.rows) {c' : Call}
    (hv : (afterUsage u c candidates n).active = some c') :
    c'.offer = c.offer ∧ Onward me blobBytes s source u a (afterUsage u c candidates n) c' := by
  cases hv
  refine ⟨rfl,rfl,hquota,?_⟩
  rw [hharmless]
  constructor
  · intro h
    obtain husage | ⟨-,husage⟩ := h.usage
    · rw [hnone] at husage
      cases husage
    · exact ⟨⟨.inl (hcached.trans hnone.symm),h.quota,h.rows⟩,Option.some.inj husage⟩
  · intro ⟨h,hn⟩
    exact ⟨.inr ⟨hnone,congrArg some hn⟩,h.quota,h.rows⟩

/-- The quota is charged. -/
theorem onward_afterUsed {c c' : Call} {candidates : List Bytes} {usage : Nat} {now : Int}
    (hu : u.active = some c) (hwait : c.wait = .used candidates usage)
    (hanswer : c.answer = some .done) (hquota : u.peerQuota = s.peerQuota)
    (hv : (afterUsed me u c candidates usage now).active = some c') :
    c'.offer = c.offer ∧ Onward me blobBytes s c.offer.source u (.resume now)
      (afterUsed me u c candidates usage now) c' := by
  obtain ⟨offer,_,_,existing,stored⟩ := c
  cases hwait
  cases hanswer
  unfold afterUsed at hv ⊢
  dsimp only at hv ⊢
  split at hv
  · cases hv
  · next hroom =>
    rw [if_neg hroom]
    split at hv
    · next hme =>
      have hharmless : Harmless me blobBytes u (.resume now) := by simp [Harmless,hu,hme]
      rw [if_pos hme]
      cases hv
      exact ⟨rfl,onward_same rfl rfl rfl trivial hharmless⟩
    · next hme =>
      rw [if_neg hme]
      obtain ⟨m,charged,hcharge⟩ : ∃ m charged, chargePeerQuota u.peerQuota offer.source
          (byteLength candidates) now = (m,charged) := ⟨_,_,rfl⟩
      rw [hcharge] at hv ⊢
      cases charged with
      | false => cases hv
      | true =>
        cases hv
        refine ⟨rfl,rfl,trivial,?_⟩
        have hsame := charge_same_iff hcharge
        have hharmless : Harmless me blobBytes u (.resume now) ↔
            JsMap.get m offer.source = JsMap.get u.peerQuota offer.source := by
          rw [hsame]
          simp [Harmless,hu,hme]
        rw [hharmless]
        constructor
        · intro h
          exact ⟨⟨h.usage,by rw [hquota],h.rows⟩,by rw [hquota]; exact h.quota⟩
        · intro ⟨h,hget⟩
          exact ⟨h.usage,hget.trans h.quota,h.rows⟩

theorem onward_afterPutRead {a : Action} {c c' : Call} {candidates : List Bytes} {usage : Nat}
    {entries : Option (List Bytes)} (hharmless : Harmless me blobBytes u a)
    (hv : (afterPutRead u c candidates usage entries).active = some c') (he : early c' = true) :
    c'.offer = c.offer ∧
      Onward me blobBytes s source u a (afterPutRead u c candidates usage entries) c' := by
  cases entries with
  | none =>
    cases hv
    exact ⟨rfl,onward_same rfl rfl rfl trivial hharmless⟩
  | some entries =>
    unfold afterPutRead at hv ⊢
    dsimp only at hv ⊢
    split at hv
    · cases hv
      cases he
    · next hadded =>
      rw [if_neg hadded]
      cases hv
      exact ⟨rfl,onward_same rfl rfl rfl trivial hharmless⟩

theorem onward_resume {c c' : Call} (hu : u.active = some c)
    (hmid : early c = true → u.rows = s.rows ∧ Mid blobBytes s u c) {a : Answer} (hanswer : c.answer = some a)
    {now : Int} (hr : resume me u c a now = some v) (hv : v.active = some c')
    (he : early c' = true) :
    c'.offer = c.offer ∧ early c = true ∧
      Onward me blobBytes s c.offer.source u (.resume now) v c' := by
  obtain ⟨offer,wait,_,existing,stored⟩ := c
  cases hanswer
  cases wait with
  | get =>
    obtain ⟨-,hmid⟩ := hmid rfl
    have hharmless : Harmless me blobBytes u (.resume now) := by simp [Harmless,hu]
    cases a with
    | entries entries =>
      cases hr
      obtain ⟨hoffer,hon⟩ := onward_afterGet hmid.1 hmid.2 hharmless hv
      exact ⟨hoffer,rfl,hon⟩
    | failed =>
      cases hr
      cases hv
    | _ => cases hr
  | topics =>
    obtain ⟨-,hmid⟩ := hmid rfl
    have hharmless : Harmless me blobBytes u (.resume now) := by simp [Harmless,hu]
    cases a with
    | count n =>
      cases hr
      obtain ⟨hoffer,hon⟩ := onward_afterTopics hmid.1 hmid.2 hharmless hv
      exact ⟨hoffer,rfl,hon⟩
    | failed =>
      cases hr
      cases hv
    | _ => cases hr
  | usage candidates =>
    obtain ⟨hrows,hnone,hcached,hquota,hcount⟩ := hmid rfl
    cases a with
    | count n =>
      have hharmless : Harmless me blobBytes u (.resume now) ↔
          n = mailboxUsageBytes blobBytes s.rows := by
        simp [Harmless,hu,hcount n rfl]
      cases hr
      obtain ⟨hoffer,hon⟩ := onward_afterUsage hnone hquota hcached hharmless hv
      exact ⟨hoffer,rfl,hon⟩
    | failed =>
      have hharmless : Harmless me blobBytes u (.resume now) ↔
          0 = mailboxUsageBytes blobBytes s.rows := by
        simp [Harmless,hu,hrows,eq_comm]
      cases hr
      obtain ⟨hoffer,hon⟩ := onward_afterUsage hnone hquota hcached hharmless hv
      exact ⟨hoffer,rfl,hon⟩
    | _ => cases hr
  | used candidates usage =>
    cases a with
    | done =>
      cases hr
      obtain ⟨hoffer,hon⟩ := onward_afterUsed hu rfl rfl (hmid rfl).2 hv
      exact ⟨hoffer,rfl,hon⟩
    | failed =>
      cases hr
      cases hv
    | _ => cases hr
  | putRead candidates usage =>
    have hharmless : Harmless me blobBytes u (.resume now) := by simp [Harmless,hu]
    cases a with
    | entries entries =>
      cases hr
      obtain ⟨hoffer,hon⟩ := onward_afterPutRead hharmless hv he
      exact ⟨hoffer,rfl,hon⟩
    | failed =>
      cases hr
      cases hv
    | _ => cases hr
  | putWrite new candidates usage =>
    cases a with
    | failed =>
      cases hr
      cases hv
    | done =>
      cases hr
      cases hv
    | _ => cases hr
  | putSame candidates usage =>
    cases a with
    | failed =>
      cases hr
      cases hv
    | done =>
      cases hr
      cases hv
    | _ => cases hr

variable (me blobBytes s) in
/-- A prefix of the call's run: as long as `put` is not answered, it has changed something just if
a step was not harmless. -/
def Runs (offer : Offer) (as : List Action) (u : State) : Prop :=
  ∀ c, u.active = some c → early c = true → c.offer = offer ∧ u.rows = s.rows ∧
    Mid blobBytes s u c ∧ (Unchanged blobBytes s u offer.source ↔
      Machine.Along (step me blobBytes) (Harmless me blobBytes) s as)

theorem runs_step {offer : Offer} {as : List Action} {a : Action}
    (hrun : Machine.run (step me blobBytes) s as = some u) (h : Runs me blobBytes s offer as u)
    (hown : isOwn a = true) (ht : step me blobBytes u a = some v) :
    Runs me blobBytes s offer (as ++ [a]) v := by
  intro c' hv he
  have hon : ∀ c, u.active = some c → c'.offer = c.offer → early c = true →
      Onward me blobBytes s offer.source u a v c' → c'.offer = offer ∧ v.rows = s.rows ∧
        Mid blobBytes s v c' ∧ (Unchanged blobBytes s v offer.source ↔
          Machine.Along (step me blobBytes) (Harmless me blobBytes) s (as ++ [a])) := by
    intro c hc hoffer hearly hon
    obtain ⟨hof,hrows,-,hiff⟩ := h c hc hearly
    refine ⟨hoffer.trans hof,hon.rows.trans hrows,hon.mid,?_⟩
    rw [hon.changes,hiff,Machine.along_append]
    simp [hrun,Machine.Along]
  have hmid : ∀ c, u.active = some c → early c = true → u.rows = s.rows ∧ Mid blobBytes s u c :=
    fun c hc hearly => ⟨(h c hc hearly).2.1,(h c hc hearly).2.2.1⟩
  cases a with
  | answer works now =>
    simp only [step] at ht
    split at ht
    · next c hc =>
      split at ht
      · next hanswer =>
        cases ht
        obtain ⟨hoffer,hearly,honward⟩ := onward_answer (hmid c hc) hanswer hv he
        exact hon c hc hoffer hearly honward
      · cases ht
    · cases ht
  | resume now =>
    simp only [step] at ht
    split at ht
    · next c hc =>
      obtain ⟨b,hanswer,hr⟩ := Option.bind_eq_some_iff.mp ht
      obtain ⟨hoffer,hearly,honward⟩ := onward_resume hc (hmid c hc) hanswer hr hv he
      rw [(h c hc hearly).1] at honward
      exact hon c hc hoffer hearly honward
    · cases ht
  | _ => cases hown

theorem put_fails (hput : inPut u = true) {now now' : Int}
    (hfail : Machine.run (step me blobBytes) u [.answer false now,.resume now'] = some t) :
    ∃ c, u.active = some c ∧ early c = true ∧ t.usageBytes = u.usageBytes ∧
      t.peerQuota = u.peerQuota ∧ t.rows = u.rows := by
  unfold inPut at hput
  split at hput
  · next hu =>
    simp [Machine.run,step,hu,answer,resume,finish] at hfail
    rw [← hfail]
    exact ⟨_,hu,rfl,rfl,rfl,rfl⟩
  · next hu =>
    simp [Machine.run,step,hu,answer,resume,finish] at hfail
    rw [← hfail]
    exact ⟨_,hu,rfl,rfl,rfl,rfl⟩
  · cases hput

/-- A call whose `put` fails leaves everything as it was just if no scan of its own failed over
rows that count and nobody was charged. -/
theorem put_failed_unchanged_iff {offer : Offer} {rest : List Offer} (hactive : s.active = none)
    (hqueue : s.queue = offer :: rest) {as : List Action} (hown : ∀ a ∈ as, isOwn a = true)
    (hrun : Machine.run (step me blobBytes) s (.start :: as) = some u) (hput : inPut u = true)
    {now now' : Int}
    (hfail : Machine.run (step me blobBytes) u [.answer false now,.resume now'] = some t) :
    Unchanged blobBytes s t offer.source ↔
      Machine.Along (step me blobBytes) (Harmless me blobBytes) s (.start :: as) := by
  have hstart : Runs me blobBytes s offer [.start] { s with
      active := some { offer := offer }, queue := rest } := by
    intro c hc _
    cases hc
    refine ⟨rfl,rfl,⟨rfl,rfl⟩,?_⟩
    constructor
    · intro _
      exact ⟨trivial,fun _ _ => trivial⟩
    · intro _
      exact ⟨.inl rfl,rfl,rfl⟩
  have hfirst : step me blobBytes s .start = some { s with
      active := some { offer := offer }, queue := rest } := by
    simp [step,hactive,hqueue]
  obtain ⟨s',hs',hrest⟩ := Machine.run_cons_inv hrun
  rw [hfirst] at hs'
  cases hs'
  have hruns : (∀ a ∈ as, isOwn a = true) → Runs me blobBytes s offer (.start :: as) u := by
    refine Machine.run_induction (P := fun bs v => (∀ a ∈ bs, isOwn a = true) →
      Runs me blobBytes s offer (.start :: bs) v) (fun _ => hstart) ?_ hrest
    intro bs v b w hv ih hw hbs
    exact runs_step (Machine.run_cons hfirst hv)
      (ih fun a ha => hbs a (List.mem_append_left _ ha)) (hbs b (by simp)) hw
  obtain ⟨c,hc,hearly,husage,hquota,hrows⟩ := put_fails hput hfail
  rw [Unchanged.congr husage hquota hrows]
  exact (hruns hown c hc hearly).2.2.2

end

def isHarmless (me : String) (s : State) (a : Action) : Bool :=
  match a,s.active with
  | .resume _,some ⟨_,.usage _,some .failed,_,_⟩ => false
  | .resume _,some ⟨offer,.used _ _,some .done,_,_⟩ => offer.source = me
  | _,_ => true

theorem harmless_of_isHarmless {me : String} {blobBytes : String → Row → Nat} (s : State)
    (a : Action) (h : isHarmless me s a = true) : Harmless me blobBytes s a := by
  unfold isHarmless at h
  unfold Harmless
  split at h
  · cases h
  · exact .inl (by simpa using h)
  · trivial

def sampleBlob (_ : String) (r : Row) : Nat := byteLength r.entries

/-- A call for a topic that holds nothing yet, up to the writing of its row. -/
def writingRun : List Action := [
  .answer true 0,
  .resume 0,
  .answer true 0,
  .resume 0,
  .answer true 0,
  .resume 0,
  .resume 0,
  .answer true 0,
  .resume 0]

/-- The entry is the node's own. -/
def ownOffer : Offer := ⟨"topic",[[1]],"me"⟩

def writingState : State where
  usageBytes := some 0
  active := some ⟨ownOffer,.putWrite [[1]] [[1]] 0,none,[],[]⟩

def failedState : State where
  usageBytes := some 0
  results := [⟨ownOffer,none,[]⟩]

theorem put_failed_unchanged_own : Unchanged sampleBlob { queue := [ownOffer] } failedState "me" := by
  have hown : ∀ a ∈ writingRun, isOwn a = true := by decide
  have hrun : Machine.run (step "me" sampleBlob) { queue := [ownOffer] } (.start :: writingRun) =
      some writingState := rfl
  have hfail : Machine.run (step "me" sampleBlob) writingState [.answer false 0,.resume 0] =
      some failedState := rfl
  have hharmless : Machine.check (step "me" sampleBlob) (isHarmless "me") { queue := [ownOffer] }
      (.start :: writingRun) = true := by decide
  exact (put_failed_unchanged_iff rfl rfl hown hrun rfl hfail).mpr
    (Machine.along_of_check harmless_of_isHarmless hharmless)

def peerOffer : Offer := ⟨"topic",[[1]],"peer"⟩

/-- A peer is charged for the entry that was not stored. -/
theorem put_failed_charged : ∃ u t,
    Machine.run (step "me" sampleBlob) { queue := [peerOffer] } (.start :: writingRun) = some u ∧
      inPut u = true ∧
      Machine.run (step "me" sampleBlob) u [.answer false 0,.resume 0] = some t ∧
      t.rows = [] ∧ JsMap.get t.peerQuota "peer" = some ⟨0,1⟩ ∧
      ¬Unchanged sampleBlob { queue := [peerOffer] } t "peer" := by
  refine ⟨_,_,rfl,rfl,rfl,rfl,rfl,fun h => ?_⟩
  have hquota := h.quota
  cases hquota

end FailedPut
