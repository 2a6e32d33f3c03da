import AetherLite.Lib.JsMap
import AetherLite.Lib.TokenBucket
import Mathlib.Algebra.Order.Ring.Rat
import Mathlib.Data.List.Infix
import Mathlib.Tactic.NormNum

/-! The token buckets of the peers, one for each category of messages. -/
set_option autoImplicit false

namespace RateLimiter

structure RateLimitConfig where
  ratePerSec : Rat
  burst : Rat
  ratePerSec_nonneg : 0 ≤ ratePerSec
  burst_nonneg : 0 ≤ burst

def separator : Char := '\x00'

/-- The categories, none of which has the character that ends it in a key. -/
structure Configs where
  table : JsMap String RateLimitConfig
  names : ∀ e ∈ table, separator ∉ e.1.toList

/-- `RATE_LIMITS` -/
def rateLimits : Configs where
  table := [
    ("gossip",⟨20,60,by decide,by decide⟩),
    ("dhtPut",⟨5,30,by decide,by decide⟩),
    ("dhtGet",⟨5,20,by decide,by decide⟩),
    ("pex",⟨1,5,by decide,by decide⟩),
    ("handshake",⟨1/5,3,by norm_num,by decide⟩),
    ("signaling",⟨10,40,by decide,by decide⟩),
    ("onion",⟨20,60,by decide,by decide⟩),
    ("control",⟨2,10,by decide,by decide⟩)]
  names := by decide

/-- `TRACKER_LIMITS` -/
def trackerLimits : Configs where
  table := [("join",⟨1/5,3,by norm_num,by decide⟩),("relay",⟨20,60,by decide,by decide⟩)]
  names := by decide

structure Bucket where
  tokens : Rat
  lastRefill : Rat

structure State where
  buckets : JsMap String Bucket := []
  dropped : JsMap String Nat := []

/-- A request comes with what the clock says, in milliseconds. -/
inductive Action where
  | allow (now : Rat) (peerId category : String)
  | forget (peerId : String)
  | reset

structure Answer where
  now : Rat
  peerId : String
  category : String
  allowed : Bool

def bucketKey (category peerId : String) : String :=
  String.ofList (category.toList ++ separator :: peerId.toList)

def drop (s : State) (category : String) : State :=
  { s with dropped := JsMap.set s.dropped category ((JsMap.get s.dropped category).getD 0+1) }

/-- The bucket of a key as a request finds it. -/
def refilled (config : RateLimitConfig) (bucket : Option Bucket) (now : Rat) : Bucket :=
  match bucket with
  | none => ⟨config.burst,now⟩
  | some bucket =>
    let elapsedSec := max 0 (now-bucket.lastRefill)/1000
    ⟨min config.burst (bucket.tokens+elapsedSec*config.ratePerSec),now⟩

section
variable (configs : Configs)

def allow (s : State) (now : Rat) (peerId category : String) : State × Bool :=
  match JsMap.get configs.table category with
  | none => (drop s category,false)
  | some config =>
    let key := bucketKey category peerId
    let bucket := refilled config (JsMap.get s.buckets key) now
    if bucket.tokens < 1 then
      (drop { s with buckets := JsMap.set s.buckets key bucket } category,false)
    else
      ({ s with buckets := JsMap.set s.buckets key { bucket with tokens := bucket.tokens-1 } },true)

/-- Whether a key is one of those that are dropped with the peer. -/
def isOf (peerId key : String) : Bool := (separator :: peerId.toList).isSuffixOf key.toList

def forget (s : State) (peerId : String) : State :=
  { s with buckets := s.buckets.filter fun e => !isOf peerId e.1 }

def step (s : State) : Action → State × Option Answer
  | .allow now peerId category =>
    ((allow configs s now peerId category).1,
      some ⟨now,peerId,category,(allow configs s now peerId category).2⟩)
  | .forget peerId => (forget s peerId,none)
  | .reset => ({},none)

/-- The answers of a run. -/
def serve : State → List Action → List Answer
  | _, [] => []
  | s, a :: as => (step configs s a).2.toList ++ serve (step configs s a).1 as

def after (s : State) (as : List Action) : State := as.foldl (fun s a => (step configs s a).1) s

end

/-! One peer and one category, in a run of all. -/

def RateLimitConfig.limit (config : RateLimitConfig) : TokenBucket.Limit Rat where
  rate := config.ratePerSec/1000
  burst := config.burst
  rate_nonneg := div_nonneg config.ratePerSec_nonneg (by norm_num)
  burst_nonneg := config.burst_nonneg

def Bucket.plain (bucket : Bucket) : TokenBucket.Bucket Rat := ⟨bucket.tokens,bucket.lastRefill⟩

def Action.time? : Action → Option Rat
  | .allow now _ _ => some now
  | _ => none

/-- What the clock says at the requests. -/
def times (as : List Action) : List Rat := as.filterMap Action.time?

section
variable (category peerId : String)

def isRequest : Action → Bool
  | .allow _ p c => p = peerId && c = category
  | _ => false

/-- The action drops the bucket. -/
def forgets : Action → Bool
  | .allow _ _ _ => false
  | .forget p => isOf p (bucketKey category peerId)
  | .reset => true

def requests (as : List Action) : List Rat := times (as.filter (isRequest category peerId))

def Answer.isFor (x : Answer) : Bool := x.peerId = peerId && x.category = category

def bucketOf (s : State) : Option (TokenBucket.Bucket Rat) :=
  (JsMap.get s.buckets (bucketKey category peerId)).map Bucket.plain

end

section
variable {configs : Configs} {config : RateLimitConfig} {category peerId : String}

theorem separator_cut {cs cs' ps ps' : List Char} (h : separator ∉ cs) (h' : separator ∉ cs')
    (he : cs ++ separator :: ps = cs' ++ separator :: ps') : cs = cs' ∧ ps = ps' := by
  induction cs generalizing cs' with
  | nil =>
    cases cs' with
    | nil => simpa using he
    | cons c cs' =>
      simp only [List.nil_append,List.cons_append,List.cons.injEq] at he
      exact absurd (he.1 ▸ List.mem_cons_self) h'
  | cons c cs ih =>
    cases cs' with
    | nil =>
      simp only [List.nil_append,List.cons_append,List.cons.injEq] at he
      exact absurd (he.1 ▸ List.mem_cons_self) h
    | cons c' cs' =>
      simp only [List.cons_append,List.cons.injEq] at he
      obtain ⟨rfl,he⟩ := he
      obtain ⟨rfl,rfl⟩ := ih (fun hm => h (List.mem_cons_of_mem _ hm))
        (fun hm => h' (List.mem_cons_of_mem _ hm)) he
      exact ⟨rfl,rfl⟩

/-- Two categories of the table and two peers have one key only if they are the same. -/
theorem bucketKey_inj {config' : RateLimitConfig} {c p : String}
    (h : JsMap.get configs.table category = some config)
    (h' : JsMap.get configs.table c = some config')
    (he : bucketKey category peerId = bucketKey c p) : category = c ∧ peerId = p := by
  have hname := configs.names _ (JsMap.mem_of_get h)
  have hname' := configs.names _ (JsMap.mem_of_get h')
  have hlist := congrArg String.toList he
  simp only [bucketKey,String.toList_ofList] at hlist
  obtain ⟨hc,hp⟩ := separator_cut hname hname' hlist
  exact ⟨String.toList_injective hc,String.toList_injective hp⟩

theorem isOf_self (category peerId : String) : isOf peerId (bucketKey category peerId) = true := by
  simp [isOf,bucketKey]

/-- Of a peer without the separator in its name only its own name is a forget. -/
theorem forgets_forget_iff (h : JsMap.get configs.table category = some config)
    (hp : separator ∉ peerId.toList) (p : String) :
    forgets category peerId (.forget p) = true ↔ p = peerId := by
  constructor
  · intro hf
    simp only [forgets,isOf,bucketKey,String.toList_ofList,List.isSuffixOf_iff_suffix] at hf
    obtain ⟨front,he⟩ := hf
    have hname := configs.names _ (JsMap.mem_of_get h)
    obtain ⟨mid,hmid,hrest⟩ | ⟨mid,hmid,hrest⟩ := List.append_eq_append_iff.mp he
    · cases mid with
      | nil => exact String.toList_injective (by simpa using hrest)
      | cons c mid =>
        simp only [List.cons_append,List.cons.injEq] at hrest
        rw [hmid,hrest.1] at hname
        simp at hname
    · cases mid with
      | nil => exact String.toList_injective (by simpa using hrest.symm)
      | cons c mid =>
        simp only [List.cons_append,List.cons.injEq] at hrest
        rw [hrest.2] at hp
        simp at hp
  · rintro rfl
    exact isOf_self category p

theorem refilled_tokens (o : Option Bucket) (now : Rat) :
    (refilled config o now).tokens = TokenBucket.level config.limit (o.map Bucket.plain) now := by
  cases o with
  | none => rfl
  | some b =>
    simp only [refilled,TokenBucket.level,RateLimitConfig.limit,Bucket.plain,Option.map_some]
    congr 2
    ring

theorem refilled_last (o : Option Bucket) (now : Rat) :
    (refilled config o now).lastRefill = now := by
  cases o <;> rfl

theorem bucketOf_set (m : JsMap String Bucket) (b : Bucket) (dropped : JsMap String Nat) :
    bucketOf category peerId ⟨JsMap.set m (bucketKey category peerId) b,dropped⟩ =
      some b.plain := by
  simp [bucketOf]

/-- A request of the peer in the category. -/
theorem allow_own (h : JsMap.get configs.table category = some config) (peerId : String)
    (s : State) (now : Rat) :
    (allow configs s now peerId category).2 =
        TokenBucket.isGranted config.limit (bucketOf category peerId s) now ∧
      bucketOf category peerId (allow configs s now peerId category).1 =
        some (TokenBucket.spend config.limit (bucketOf category peerId s) now) := by
  have htokens : (refilled config (JsMap.get s.buckets (bucketKey category peerId)) now).tokens =
      TokenBucket.level config.limit (bucketOf category peerId s) now := refilled_tokens _ now
  unfold allow TokenBucket.spend TokenBucket.isGranted
  simp only [h,htokens]
  split
  · next hlow =>
    have hnot : ¬1 ≤ TokenBucket.level config.limit (bucketOf category peerId s) now := not_le.mpr hlow
    simp [hnot,drop,bucketOf_set,Bucket.plain,htokens,refilled_last]
  · next hhigh =>
    have hyes : 1 ≤ TokenBucket.level config.limit (bucketOf category peerId s) now := not_lt.mp hhigh
    simp [hyes,bucketOf_set,Bucket.plain,refilled_last]

theorem allow_other (h : JsMap.get configs.table category = some config) (s : State) (now : Rat)
    {p c : String} (hne : ¬(p = peerId ∧ c = category)) :
    bucketOf category peerId (allow configs s now p c).1 = bucketOf category peerId s := by
  unfold allow
  cases hc : JsMap.get configs.table c with
  | none => rfl
  | some config' =>
    have hkey : bucketKey category peerId ≠ bucketKey c p := by
      intro he
      obtain ⟨hcat,hpeer⟩ := bucketKey_inj h hc he
      exact hne ⟨hpeer.symm,hcat.symm⟩
    dsimp only
    split
    · simp [bucketOf,drop,JsMap.get_set_ne _ hkey]
    · simp [bucketOf,JsMap.get_set_ne _ hkey]

theorem forget_other {s : State} {p : String} (hf : isOf p (bucketKey category peerId) = false) :
    bucketOf category peerId (forget s p) = bucketOf category peerId s := by
  simp [bucketOf,forget,JsMap.get_filter s.buckets (fun k => !isOf p k),hf]

theorem forgotten {s : State} {a : Action} (hf : forgets category peerId a = true) :
    bucketOf category peerId (step configs s a).1 = none := by
  cases a with
  | allow now p c => cases hf
  | forget p =>
    have hof : isOf p (bucketKey category peerId) = true := hf
    simp [step,bucketOf,forget,JsMap.get_filter s.buckets (fun k => !isOf p k),hof]
  | reset => rfl

/-- The answers to one peer in one category are those of its own bucket. -/
theorem serve_own (h : JsMap.get configs.table category = some config) (s : State)
    {as : List Action} (hf : ∀ a ∈ as, forgets category peerId a = false) :
    (serve configs s as).filter (Answer.isFor category peerId) =
      (TokenBucket.serve config.limit (bucketOf category peerId s)
        (requests category peerId as)).map fun e => ⟨e.1,peerId,category,e.2⟩ := by
  induction as generalizing s with
  | nil => rfl
  | cons a as ih =>
    have hrest := ih (step configs s a).1 fun b hb => hf b (List.mem_cons_of_mem _ hb)
    have hhead := hf a List.mem_cons_self
    simp only [serve,List.filter_append,hrest]
    cases a with
    | allow now p c =>
      by_cases hown : p = peerId ∧ c = category
      · obtain ⟨rfl,rfl⟩ := hown
        obtain ⟨hanswer,hbucket⟩ := allow_own h p s now
        simp [step,requests,times,isRequest,Action.time?,Answer.isFor,TokenBucket.serve,hanswer,
          hbucket]
      · have hother := allow_other h s now hown
        have hnot : (decide (p = peerId) && decide (c = category)) = false := by
          simpa using hown
        simp [step,requests,times,isRequest,Answer.isFor,hnot,hother]
    | forget p => simp [step,requests,times,isRequest,forget_other hhead]
    | reset => cases hhead

/-! Every window, under a clock that does not go back. -/

theorem times_append (as bs : List Action) : times (as ++ bs) = times as ++ times bs :=
  List.filterMap_append

theorem requests_sublist (as : List Action) : (requests category peerId as).Sublist (times as) :=
  List.filter_sublist.filterMap _

theorem sound_step (h : JsMap.get configs.table category = some config) {s : State} {a : Action}
    {as : List Action} (hclock : (times (a :: as)).Pairwise (· ≤ ·))
    (hs : ∀ t ∈ times (a :: as), TokenBucket.Sound config.limit (bucketOf category peerId s) t) :
    ∀ t ∈ times as,
      TokenBucket.Sound config.limit (bucketOf category peerId (step configs s a).1) t := by
  intro t ht
  have hlater : t ∈ times (a :: as) := (List.sublist_cons_self a as).filterMap _ |>.subset ht
  cases hf : forgets category peerId a with
  | true =>
    rw [forgotten hf]
    exact TokenBucket.sound_none t
  | false =>
    cases a with
    | allow now p c =>
      by_cases hown : p = peerId ∧ c = category
      · obtain ⟨rfl,rfl⟩ := hown
        simp only [step]
        rw [(allow_own h p s now).2]
        have hnow : now ≤ t := (List.pairwise_cons.mp hclock).1 t ht
        exact (hs now List.mem_cons_self).spend.later hnow
      · simp only [step]
        rw [allow_other h s now hown]
        exact hs t hlater
    | forget p =>
      simp only [step]
      rw [forget_other hf]
      exact hs t hlater
    | reset => cases hf

theorem sound_after (h : JsMap.get configs.table category = some config) {s : State}
    {pre as : List Action} (hclock : (times (pre ++ as)).Pairwise (· ≤ ·))
    (hs : ∀ t ∈ times (pre ++ as),
      TokenBucket.Sound config.limit (bucketOf category peerId s) t) :
    ∀ t ∈ times as,
      TokenBucket.Sound config.limit (bucketOf category peerId (after configs s pre)) t := by
  induction pre generalizing s with
  | nil => exact hs
  | cons a pre ih =>
    have hsub : (times (pre ++ as)).Sublist (times (a :: (pre ++ as))) :=
      (List.sublist_cons_self a _).filterMap _
    exact ih (hclock.sublist hsub) (sound_step h hclock hs)

/-- Nothing is left of the bucket: no request came yet, or the last thing that happened is that
it was dropped. -/
def Starts (category peerId : String) (pre : List Action) : Prop :=
  pre = [] ∨ ∃ before a, pre = before ++ [a] ∧ forgets category peerId a = true

theorem bucketOf_starts {pre : List Action} (h : Starts category peerId pre) :
    bucketOf category peerId (after configs {} pre) = none := by
  obtain rfl | ⟨before,a,rfl,hf⟩ := h
  · rfl
  · rw [after,List.foldl_append]
    exact forgotten hf

/-- What is kept of a run without the requests of other peers and in other categories. -/
def ownRun (category peerId : String) (as : List Action) : List Action :=
  as.filter fun a => isRequest category peerId a || a.time?.isNone

/-- A step answers the peer, and changes its bucket, as its bucket alone says. -/
theorem step_congr (h : JsMap.get configs.table category = some config) {s s' : State}
    (hs : bucketOf category peerId s' = bucketOf category peerId s) (a : Action) :
    (step configs s' a).2.toList.filter (Answer.isFor category peerId) =
        (step configs s a).2.toList.filter (Answer.isFor category peerId) ∧
      bucketOf category peerId (step configs s' a).1 =
        bucketOf category peerId (step configs s a).1 := by
  cases a with
  | allow now p c =>
    by_cases hown : p = peerId ∧ c = category
    · obtain ⟨rfl,rfl⟩ := hown
      simp only [step]
      rw [(allow_own h p s now).1,(allow_own h p s now).2,(allow_own h p s' now).1,(allow_own h p s' now).2,
        hs]
      exact ⟨rfl,rfl⟩
    · have hnot : (decide (p = peerId) && decide (c = category)) = false := by simpa using hown
      simp only [step]
      rw [allow_other h s now hown,allow_other h s' now hown]
      exact ⟨by simp [Answer.isFor,hnot],hs⟩
  | forget p =>
    refine ⟨rfl,?_⟩
    cases hf : isOf p (bucketKey category peerId) with
    | true => rw [forgotten (a := .forget p) hf,forgotten (a := .forget p) hf]
    | false =>
      simp only [step]
      rw [forget_other hf,forget_other hf,hs]
  | reset => exact ⟨rfl,rfl⟩

theorem step_ignored (h : JsMap.get configs.table category = some config) (s : State) {a : Action}
    (ha : (isRequest category peerId a || a.time?.isNone) = false) :
    (step configs s a).2.toList.filter (Answer.isFor category peerId) = [] ∧
      bucketOf category peerId (step configs s a).1 = bucketOf category peerId s := by
  cases a with
  | allow now p c =>
    have hnot : (decide (p = peerId) && decide (c = category)) = false := by
      simpa [isRequest,Action.time?] using ha
    have hown : ¬(p = peerId ∧ c = category) := by simpa using hnot
    exact ⟨by simp [step,Answer.isFor,hnot],allow_other h s now hown⟩
  | forget p => simp [Action.time?] at ha
  | reset => simp [Action.time?] at ha

theorem serve_ownRun (h : JsMap.get configs.table category = some config) {s s' : State}
    (hs : bucketOf category peerId s' = bucketOf category peerId s) (as : List Action) :
    (serve configs s' (ownRun category peerId as)).filter (Answer.isFor category peerId) =
      (serve configs s as).filter (Answer.isFor category peerId) := by
  induction as generalizing s s' with
  | nil => rfl
  | cons a as ih =>
    cases hkeep : isRequest category peerId a || a.time?.isNone with
    | true =>
      have hrun : ownRun category peerId (a :: as) = a :: ownRun category peerId as :=
        List.filter_cons_of_pos hkeep
      obtain ⟨hanswer,hbucket⟩ := step_congr h hs a
      rw [hrun]
      simp only [serve,List.filter_append]
      rw [hanswer,ih hbucket]
    | false =>
      have hrun : ownRun category peerId (a :: as) = ownRun category peerId as :=
        List.filter_cons_of_neg (by simp [hkeep])
      obtain ⟨hanswer,hbucket⟩ := step_ignored h s hkeep
      rw [hrun]
      simp only [serve,List.filter_append]
      rw [hanswer,List.nil_append]
      exact ih (hs.trans hbucket.symm)

end

/-- How many requests of a peer in a category are granted in a window. -/
def grantedWithin (category peerId : String) (t₁ t₂ : Rat) (answers : List Answer) : Nat :=
  answers.countP fun x =>
    Answer.isFor category peerId x && (x.allowed && TokenBucket.within t₁ t₂ x.now)

section
variable {configs : Configs} {config : RateLimitConfig} {category peerId : String}

theorem sound_after_start (h : JsMap.get configs.table category = some config) (peerId : String)
    {pre part : List Action} (hclock : (times (pre ++ part)).Pairwise (· ≤ ·)) :
    ∀ t ∈ times part,
      TokenBucket.Sound config.limit (bucketOf category peerId (after configs {} pre)) t := by
  apply sound_after h hclock
  intro t ht
  have hnone : bucketOf category peerId {} = none := rfl
  rw [hnone]
  exact TokenBucket.sound_none t

/-- A window of some seconds, on the clock of milliseconds. -/
theorem gain_eq (t T : Rat) : config.limit.burst+config.limit.rate*(t+1000*T-t) =
    config.burst+config.ratePerSec*T := by
  simp only [RateLimitConfig.limit]
  ring

theorem grantedWithin_eq {answers : List Answer} {served : List (Rat × Bool)} {t₁ t₂ : Rat}
    (h : answers.filter (Answer.isFor category peerId) =
      served.map fun e => ⟨e.1,peerId,category,e.2⟩) :
    grantedWithin category peerId t₁ t₂ answers =
      served.countP fun e => e.2 && TokenBucket.within t₁ t₂ e.1 := by
  have hcount : grantedWithin category peerId t₁ t₂ answers =
      (answers.filter (Answer.isFor category peerId)).countP
        fun x => x.allowed && TokenBucket.within t₁ t₂ x.now := by
    rw [List.countP_filter]
    apply List.countP_congr
    simp [Bool.and_comm,Bool.and_assoc]
  rw [hcount,h,List.countP_map]
  rfl

theorem conforms {ts : List Rat}
    (h : ∀ t T : Rat, 0 ≤ T → (ts.countP (TokenBucket.within t (t+1000*T)) : Rat) ≤
      config.burst+config.ratePerSec*T) : TokenBucket.Conforms config.limit ts := by
  intro t₁ t₂ ht
  have hwindow := h t₁ ((t₂-t₁)/1000) (div_nonneg (by linarith) (by norm_num))
  have hend : t₁+1000*((t₂-t₁)/1000) = t₂ := by ring
  rw [hend] at hwindow
  simp only [RateLimitConfig.limit]
  linarith

end

/-- For every part of a run in which the bucket of a peer and a category is not dropped. -/
theorem rate_bounded {configs : Configs} {config : RateLimitConfig} {category peerId : String}
    (h : JsMap.get configs.table category = some config) {pre part : List Action}
    (hclock : (times (pre ++ part)).Pairwise (· ≤ ·))
    (hpart : ∀ a ∈ part, forgets category peerId a = false) :
    (∀ t T : Rat, 0 ≤ T →
      (grantedWithin category peerId t (t+1000*T) (serve configs (after configs {} pre) part) : Rat) ≤
        config.burst+config.ratePerSec*T) ∧
    (Starts category peerId pre →
      (∀ t T : Rat, 0 ≤ T →
        ((requests category peerId part).countP (TokenBucket.within t (t+1000*T)) : Rat) ≤
          config.burst+config.ratePerSec*T) →
      ∀ x ∈ serve configs (after configs {} pre) part,
        Answer.isFor category peerId x = true → x.allowed = true) ∧
    ∀ as, (serve configs {} (ownRun category peerId as)).filter (Answer.isFor category peerId) =
      (serve configs {} as).filter (Answer.isFor category peerId) := by
  have hown := serve_own h (after configs {} pre) hpart
  have hsound := sound_after_start h peerId hclock
  have hsorted : (requests category peerId part).Pairwise (· ≤ ·) := by
    rw [times_append] at hclock
    exact (List.pairwise_append.mp hclock).2.1.sublist (requests_sublist part)
  refine ⟨?_,?_,serve_ownRun h rfl⟩
  · intro t T hT
    have hbound := TokenBucket.granted_within
      (fun u hu => hsound u ((requests_sublist part).subset hu)) hsorted
      (by linarith : t ≤ t+1000*T)
    rw [grantedWithin_eq hown]
    rw [gain_eq] at hbound
    exact hbound
  · intro hstarts hc x hx hfor
    rw [bucketOf_starts hstarts] at hown
    have hgranted := TokenBucket.granted_of_conforms hsorted (conforms hc)
    have hmem : x ∈ (serve configs (after configs {} pre) part).filter
        (Answer.isFor category peerId) := List.mem_filter.mpr ⟨hx,hfor⟩
    rw [hown] at hmem
    obtain ⟨e,he,rfl⟩ := List.mem_map.mp hmem
    exact hgranted e he

/-- A second after the peer came back. -/
theorem rate_bounded_control :
    (grantedWithin "control" "a" 500 (500+1000*1) (serve rateLimits
      (after rateLimits {} [.allow 0 "a" "control",.forget "a"])
      [.allow 500 "a" "control",.allow 500 "b" "control",.allow 600 "a" "pex"]) : Rat) ≤
        10+2*1 := by
  have hconfig : JsMap.get rateLimits.table "control" = some ⟨2,10,by decide,by decide⟩ := rfl
  exact (rate_bounded hconfig (by decide) (by decide)).1 500 1 (by decide)

end RateLimiter
