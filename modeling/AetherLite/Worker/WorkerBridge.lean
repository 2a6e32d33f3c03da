import AetherLite.Crypto.PacketSize
import AetherLite.Lib.Digits
import AetherLite.Lib.Machine
import AetherLite.Lib.Sha256

/-! The search for a proof of work in a worker: promises, the messages both ways, and the
ways in which a promise ends without an answer. -/
set_option autoImplicit false

namespace WorkerBridge

open Js PowPolicy

def requestTimeoutMs : Nat := 120000

structure Job where
  id : String
  header : PowCommittedHeader

inductive Reply where
  | result (id : String) (result : String)
  | error (id : String) (error : String)

def Reply.id : Reply → String
  | .result id _ | .error id _ => id

inductive Outcome where
  | resolved (powNonce : Nat)
  | rejected (err : Thrown)
  deriving DecidableEq

structure Timer where
  id : String
  promise : Nat
  due : Nat
  deriving DecidableEq

structure State where
  clock : Nat := 0
  worker : Bool := false
  pending : JsMap String Nat := []
  timers : List Timer := []
  -- posted to the worker and not answered, and answered but not yet received
  jobs : List Job := []
  replies : List Reply := []
  /-- The header of each promise, in the order of the calls. -/
  asked : List PowCommittedHeader := []
  issued : List (String × Nat) := []
  /-- How promises were settled, latest first. -/
  settled : List (Nat × Outcome) := []

inductive Action where
  | tick (ms : Nat)
  /-- `PoWEngine.compute`, with the id that `request` draws. -/
  | compute (header : PowCommittedHeader) (id : String)
  /-- The worker answers one of the requests. -/
  | work (i : Nat)
  | handleMessage (i : Nat)
  /-- The answer is lost. -/
  | lose (i : Nat)
  | timeout (i : Nat)
  /-- An error of the worker that it does not catch. -/
  | onerror (message : Option String)
  | destroy

def message : Thrown → String
  | .typeError m | .rangeError m | .syntaxError m | .error m => m

/-- `BigInt(s)` of digits. -/
def bigInt (s : String) : Except Thrown Nat :=
  match digitsValue 10 s.toList with
  | some n => .ok n
  | none => .error (.syntaxError "Cannot convert to a BigInt")

/-- The checks of `compute` before the search. -/
def checkDifficulty (header : PowCommittedHeader) : Except Thrown Unit := do
  let difficulty ← header.powDifficulty.number
  if difficulty.lt (Number.ofNat minDifficulty) then
    .error (.rangeError "PoWEngine.compute: difficulty below the minimum")
  else if (Number.ofNat maxDifficulty).lt difficulty then
    .error (.rangeError "PoWEngine.compute: difficulty above the maximum")
  else .ok ()

/-- `self.onmessage` -/
def onmessage (sha256 : Bytes → Bytes) (job : Job) : Reply :=
  match solvePow sha256 job.header with
  | .ok (some nonce) => .result job.id (toString nonce)
  | .ok none => .error job.id "PoW search exhausted"
  | .error err => .error job.id (message err)

/-- How the promise of `compute` ends on a message. -/
def outcomeOf : Reply → Outcome
  | .result _ result =>
    match bigInt result with
    | .ok powNonce => .resolved powNonce
    | .error err => .rejected err
  | .error _ error => .rejected (.error error)

def request (s : State) (header : PowCommittedHeader) (id : String) : State :=
  let promise := s.asked.length
  { s with
    worker := true
    asked := s.asked ++ [header]
    issued := s.issued ++ [(id,promise)]
    timers := s.timers ++ [⟨id,promise,s.clock+requestTimeoutMs⟩]
    pending := JsMap.set s.pending id promise
    jobs := s.jobs ++ [⟨id,header⟩] }

def compute (s : State) (header : PowCommittedHeader) (id : String) : State :=
  match checkDifficulty header with
  | .error err =>
    { s with
      asked := s.asked ++ [header], settled := (s.asked.length,.rejected err) :: s.settled }
  | .ok () => request s header id

def clearTimeout (s : State) (promise : Nat) : State :=
  { s with timers := s.timers.filter fun t => t.promise ≠ promise }

def handleMessage (s : State) (reply : Reply) : State :=
  match JsMap.get s.pending reply.id with
  | none => s
  | some promise =>
    let s := clearTimeout s promise
    { s with
      pending := JsMap.delete s.pending reply.id
      settled := (promise,outcomeOf reply) :: s.settled }

/-- The timers of all that is pending are cleared, and all of it is rejected. -/
def rejectAll (s : State) (err : Thrown) : State :=
  let s := s.pending.foldl (fun s e =>
    { clearTimeout s e.2 with settled := (e.2,.rejected err) :: s.settled }) s
  { s with pending := [] }

/-- What has been posted to a worker goes with it; what it has posted may still arrive. -/
def terminate (s : State) : State := { s with worker := false, jobs := [] }

def timeout (s : State) (t : Timer) : State :=
  { s with
    timers := s.timers.filter fun t' => t'.promise ≠ t.promise
    pending := JsMap.delete s.pending t.id
    settled := (t.promise,.rejected (.error
      ("PoW worker timeout after " ++ toString requestTimeoutMs ++ "ms (type=compute)"))) ::
        s.settled }

variable (sha256 : Bytes → Bytes)

def step (s : State) (a : Action) : Option State :=
  match a with
  | .tick ms => some { s with clock := s.clock+ms }
  | .compute header id => some (compute s header id)
  | .work i => (Machine.takeTask s.jobs i).map fun (job,jobs) =>
      { s with jobs := jobs, replies := s.replies ++ [onmessage sha256 job] }
  | .handleMessage i => (Machine.takeTask s.replies i).map fun (reply,replies) =>
      handleMessage { s with replies := replies } reply
  | .lose i => (Machine.takeTask s.replies i).map fun (_,replies) =>
      { s with replies := replies }
  | .timeout i => (s.timers[i]?).bind fun t => if t.due ≤ s.clock then some (timeout s t) else none
  | .onerror m => some (terminate (rejectAll s (.error ("PoW worker error: " ++ m.getD "unknown"))))
  | .destroy => some (terminate (rejectAll s (.error "WorkerBridge destroyed")))

/-- `request` draws an id that it has not drawn before. -/
def Fresh (s : State) : Action → Prop
  | .compute _ id => id ∉ s.issued.map Prod.fst
  | _ => True

instance (s : State) (a : Action) : Decidable (Fresh s a) :=
  match a with
  | .compute _ _ => inferInstanceAs (Decidable (_ ∉ _))
  | .tick _ | .work _ | .handleMessage _ | .lose _ | .timeout _ | .onerror _ | .destroy =>
    inferInstanceAs (Decidable True)

section
variable {sha256 : Bytes → Bytes} {s : State}

/-- What holds of the bridge whatever happens. -/
structure Inv (sha256 : Bytes → Bytes) (s : State) : Prop where
  keys : (JsMap.keys s.pending).Nodup
  armed : s.timers.map (fun t => (t.id,t.promise)) = s.pending
  soon : ∀ t ∈ s.timers, t.due ≤ s.clock+requestTimeoutMs
  /-- Each promise is settled, once, or pending. -/
  once : (s.settled.map Prod.fst ++ s.pending.map Prod.snd).Perm (List.range s.asked.length)
  ids : (s.issued.map Prod.fst).Nodup
  known : ∀ e ∈ s.pending, e ∈ s.issued
  jobs : ∀ job ∈ s.jobs, ∃ promise, (job.id,promise) ∈ s.issued ∧
    s.asked[promise]? = some job.header ∧ checkDifficulty job.header = .ok ()
  replies : ∀ id result, .result id result ∈ s.replies → ∃ promise header powNonce,
    (id,promise) ∈ s.issued ∧ s.asked[promise]? = some header ∧
      PowPolicy.compute sha256 header = .ok powNonce ∧ result = toString powNonce
  solved : ∀ promise powNonce, (promise,.resolved powNonce) ∈ s.settled →
    ∃ header, s.asked[promise]? = some header ∧ PowPolicy.compute sha256 header = .ok powNonce

theorem compute_eq (header : PowCommittedHeader) : PowPolicy.compute sha256 header =
    (checkDifficulty header).bind fun _ => (solvePow sha256 header).bind fun o =>
      match o with
      | some nonce => .ok nonce
      | none => .error (.error "PoWEngine: PoW search exhausted") := by
  unfold PowPolicy.compute checkDifficulty
  cases header.powDifficulty.number with
  | error err => rfl
  | ok difficulty =>
    simp only [bind,Except.bind]
    split
    · rfl
    split
    · rfl
    cases solvePow sha256 header with
    | error err => rfl
    | ok o =>
      cases o with
      | none => rfl
      | some nonce => rfl

theorem bigInt_toString (n : Nat) : bigInt (toString n) = .ok n := by
  have h : digitsValue 10 (toString n).toList = some n := by
    rw [show (toString n).toList = Nat.toDigits 10 n from String.toList_ofList]
    exact digitsValue_toDigits (by decide) (by decide) n
  rw [bigInt,h]

/-- What is pending under an id is pending once. -/
theorem Inv.pending_unique (h : Inv sha256 s) : (s.pending.map Prod.snd).Nodup := by
  have hn := h.once.nodup_iff.mpr List.nodup_range
  exact (List.nodup_append.mp hn).2.1

theorem Inv.lt_asked (h : Inv sha256 s) {e : String × Nat} (he : e ∈ s.pending) :
    e.2 < s.asked.length :=
  List.mem_range.mp (h.once.mem_iff.mp (List.mem_append_right _ (List.mem_map_of_mem he)))

/-- The promises that are pending, once one of them is settled and its timer cleared. -/
theorem Inv.settle (h : Inv sha256 s) {id : String} {promise : Nat} {o : Outcome}
    (hp : (id,promise) ∈ s.pending)
    (ho : ∀ powNonce, o = .resolved powNonce → ∃ header, s.asked[promise]? = some header ∧
      PowPolicy.compute sha256 header = .ok powNonce) :
    Inv sha256 { s with
      timers := s.timers.filter fun t => t.promise ≠ promise
      pending := JsMap.delete s.pending id
      settled := (promise,o) :: s.settled } := by
  obtain ⟨l,r,hpending,hdelete⟩ :=
    JsMap.delete_of_get_some h.keys (JsMap.get_of_mem h.keys hp)
  have hsub : (JsMap.delete s.pending id).Sublist s.pending := JsMap.delete_sublist _ _
  have hunique := h.pending_unique
  constructor
  · exact JsMap.nodup_keys_delete h.keys id
  · have hfilter : (s.timers.filter fun t => t.promise ≠ promise).map
        (fun t => (t.id,t.promise)) = s.pending.filter fun e => e.2 ≠ promise := by
      rw [← h.armed,List.filter_map]
      rfl
    show (s.timers.filter fun t => t.promise ≠ promise).map (fun t => (t.id,t.promise)) =
      JsMap.delete s.pending id
    rw [hfilter,hdelete,hpending]
    rw [hpending,List.map_append,List.map_cons,List.perm_middle.nodup_iff,List.nodup_cons,
      List.mem_append,not_or] at hunique
    obtain ⟨⟨hl,hr⟩,-⟩ := hunique
    have hkeep : ∀ m : List (String × Nat), promise ∉ m.map Prod.snd →
        m.filter (fun e => e.2 ≠ promise) = m := by
      intro m hm
      refine List.filter_eq_self.mpr fun e he => ?_
      have hne : e.2 ≠ promise := fun heq => hm (heq ▸ List.mem_map_of_mem he)
      simpa using hne
    rw [List.filter_append,List.filter_cons,hkeep l hl,hkeep r hr]
    simp
  · intro t ht
    exact h.soon t (List.mem_of_mem_filter ht)
  · have hperm := h.once
    rw [hpending,List.map_append,List.map_cons] at hperm
    show (promise :: (s.settled.map Prod.fst ++ (JsMap.delete s.pending id).map Prod.snd)).Perm _
    rw [hdelete,List.map_append]
    refine List.Perm.trans ?_ hperm
    rw [← List.append_assoc,← List.append_assoc]
    exact List.perm_middle.symm
  · exact h.ids
  · intro e he
    exact h.known e (hsub.subset he)
  · exact h.jobs
  · exact h.replies
  · intro p powNonce hm
    rcases List.mem_cons.mp hm with he | hm
    · cases he
      exact ho powNonce rfl
    · exact h.solved p powNonce hm

/-- Promises are told apart by the ids they were issued under. -/
theorem Inv.promise_eq (h : Inv sha256 s) {id : String} {p q : Nat} (hp : (id,p) ∈ s.issued)
    (hq : (id,q) ∈ s.issued) : p = q := by
  have h1 := JsMap.get_of_mem (m := s.issued) h.ids hp
  have h2 := JsMap.get_of_mem (m := s.issued) h.ids hq
  exact Option.some.inj (h1.symm.trans h2)

theorem Inv.handleMessage (h : Inv sha256 s) {reply : Reply}
    (hr : ∀ id result, reply = .result id result → ∃ promise header powNonce,
      (id,promise) ∈ s.issued ∧ s.asked[promise]? = some header ∧
        PowPolicy.compute sha256 header = .ok powNonce ∧ result = toString powNonce) :
    Inv sha256 (handleMessage s reply) := by
  unfold WorkerBridge.handleMessage
  cases hg : JsMap.get s.pending reply.id with
  | none => exact h
  | some promise =>
    have hmem := JsMap.mem_of_get hg
    refine h.settle hmem fun powNonce ho => ?_
    cases reply with
    | error id error => cases ho
    | result id result =>
      obtain ⟨p,header,n,hissued,hasked,hcompute,rfl⟩ := hr id result rfl
      have hpp : p = promise := h.promise_eq hissued (h.known _ hmem)
      simp only [outcomeOf,bigInt_toString,Outcome.resolved.injEq] at ho
      exact ⟨header,hpp ▸ hasked,ho ▸ hcompute⟩

/-- The loop of `rejectAll`. -/
theorem rejectEach (err : Thrown) (es : List (String × Nat)) (s : State) :
    es.foldl (fun s e =>
      { clearTimeout s e.2 with settled := (e.2,.rejected err) :: s.settled }) s =
    { s with
      timers := s.timers.filter fun t => t.promise ∉ es.map Prod.snd
      settled := (es.map fun e => (e.2,.rejected err)).reverse ++ s.settled } := by
  induction es generalizing s with
  | nil =>
    simp
  | cons e es ih =>
    rw [List.foldl_cons,ih]
    simp only [clearTimeout,List.filter_filter,List.map_cons,List.reverse_cons,List.append_assoc,
      List.singleton_append,List.mem_cons,not_or]
    congr 1
    refine List.filter_congr fun t _ => ?_
    rw [Bool.and_comm,Bool.decide_and]

theorem Inv.rejectAll (h : Inv sha256 s) (err : Thrown) : Inv sha256 (rejectAll s err) := by
  unfold WorkerBridge.rejectAll
  rw [rejectEach]
  have hnone : s.timers.filter (fun t => t.promise ∉ s.pending.map Prod.snd) = [] := by
    refine List.filter_eq_nil_iff.mpr fun t ht hn => ?_
    have hmem : (t.id,t.promise) ∈ s.pending := by
      rw [← h.armed]
      exact List.mem_map.mpr ⟨t,ht,rfl⟩
    exact of_decide_eq_true hn (List.mem_map_of_mem hmem)
  constructor
  · exact List.nodup_nil
  · dsimp only
    rw [hnone]
    rfl
  · intro t ht
    exact h.soon t (List.mem_of_mem_filter ht)
  · dsimp only
    rw [List.map_append,List.map_reverse,List.map_map,List.map_nil,List.append_nil]
    refine ((List.reverse_perm _).append_right _).trans ?_
    exact List.perm_append_comm.trans h.once
  · exact h.ids
  · intro e he
    cases he
  · exact h.jobs
  · exact h.replies
  · intro p powNonce hm
    rcases List.mem_append.mp hm with hm | hm
    · obtain ⟨e,-,he⟩ := List.mem_map.mp (List.mem_reverse.mp hm)
      cases he
    · exact h.solved p powNonce hm

theorem Inv.terminate (h : Inv sha256 s) : Inv sha256 (terminate s) :=
  ⟨h.keys,h.armed,h.soon,h.once,h.ids,h.known,fun job hj => (by cases hj),h.replies,h.solved⟩

theorem asked_append {header header' : PowCommittedHeader} {promise : Nat}
    (h : s.asked[promise]? = some header) : (s.asked ++ [header'])[promise]? = some header := by
  obtain ⟨hlt,-⟩ := List.getElem?_eq_some_iff.mp h
  rw [List.getElem?_append_left hlt]
  exact h

theorem once_append {settled pending : List Nat} {n : Nat}
    (h : (settled ++ pending).Perm (List.range n)) :
    (n :: settled ++ pending).Perm (List.range (n+1)) ∧
      (settled ++ (pending ++ [n])).Perm (List.range (n+1)) := by
  have hn : (List.range n ++ [n]).Perm (List.range (n+1)) := by rw [List.range_succ]
  constructor
  · exact ((h.cons n).trans (List.perm_append_singleton n _).symm).trans hn
  · rw [← List.append_assoc]
    exact (h.append_right _).trans hn

theorem Inv.compute (h : Inv sha256 s) {header : PowCommittedHeader} {id : String}
    (hid : id ∉ s.issued.map Prod.fst) : Inv sha256 (compute s header id) := by
  have hkey : id ∉ JsMap.keys s.pending := fun hk => by
    obtain ⟨e,he,rfl⟩ := List.mem_map.mp hk
    exact hid (List.mem_map_of_mem (h.known e he))
  have hissued : ∀ {id' : String} {promise : Nat} {header' : PowCommittedHeader},
      (id',promise) ∈ s.issued ∧ s.asked[promise]? = some header' →
      (id',promise) ∈ s.issued ++ [(id,s.asked.length)] ∧
        (s.asked ++ [header])[promise]? = some header' :=
    fun ⟨hi,ha⟩ => ⟨List.mem_append_left _ hi,asked_append ha⟩
  have hsolved : ∀ {promise powNonce : Nat},
      (∃ header, s.asked[promise]? = some header ∧
        PowPolicy.compute sha256 header = .ok powNonce) →
      ∃ header', (s.asked ++ [header])[promise]? = some header' ∧
        PowPolicy.compute sha256 header' = .ok powNonce :=
    fun ⟨header',ha,hc⟩ => ⟨header',asked_append ha,hc⟩
  have hlen : (s.asked ++ [header]).length = s.asked.length+1 := by simp
  unfold WorkerBridge.compute
  cases hd : checkDifficulty header with
  | error err =>
    constructor
    · exact h.keys
    · exact h.armed
    · exact h.soon
    · dsimp only
      rw [hlen]
      exact (once_append h.once).1
    · exact h.ids
    · exact h.known
    · intro job hj
      obtain ⟨promise,hi,ha,hc⟩ := h.jobs job hj
      exact ⟨promise,hi,asked_append ha,hc⟩
    · intro i result hr
      obtain ⟨promise,header',powNonce,hi,ha,hc⟩ := h.replies i result hr
      exact ⟨promise,header',powNonce,hi,asked_append ha,hc⟩
    · intro promise powNonce hm
      rcases List.mem_cons.mp hm with he | hm
      · cases he
      · exact hsolved (h.solved promise powNonce hm)
  | ok u =>
    have hset : JsMap.set s.pending id s.asked.length = s.pending ++ [(id,s.asked.length)] :=
      JsMap.set_of_get_none _ ((JsMap.get_eq_none_iff _ _).mpr hkey)
    constructor
    · exact JsMap.nodup_keys_set h.keys id _
    · show (s.timers ++ [_]).map (fun t : Timer => (t.id,t.promise)) = JsMap.set s.pending id _
      rw [hset,List.map_append,h.armed]
      rfl
    · intro t ht
      rcases List.mem_append.mp ht with ht | ht
      · exact h.soon t ht
      · rw [List.mem_singleton.mp ht]
        exact le_refl _
    · show (s.settled.map Prod.fst ++ (JsMap.set s.pending id _).map Prod.snd).Perm
        (List.range (s.asked ++ [header]).length)
      rw [hset,hlen,List.map_append]
      exact (once_append h.once).2
    · show ((s.issued ++ [_]).map Prod.fst).Nodup
      rw [List.map_append]
      refine List.nodup_append.mpr ⟨h.ids,List.pairwise_singleton _ _,fun i hi j hj hij => ?_⟩
      rw [hij,List.mem_singleton.mp hj] at hi
      exact hid hi
    · intro e he
      have he : e ∈ JsMap.set s.pending id s.asked.length := he
      rw [hset] at he
      rcases List.mem_append.mp he with he | he
      · exact List.mem_append_left _ (h.known e he)
      · exact List.mem_append_right _ he
    · intro job hj
      rcases List.mem_append.mp hj with hj | hj
      · obtain ⟨promise,hi,ha,hc⟩ := h.jobs job hj
        obtain ⟨hi,ha⟩ := hissued ⟨hi,ha⟩
        exact ⟨promise,hi,ha,hc⟩
      · rw [List.mem_singleton.mp hj]
        exact ⟨s.asked.length,List.mem_append_right _ (List.mem_singleton.mpr rfl),by
          simp [request],hd⟩
    · intro i result hr
      obtain ⟨promise,header',powNonce,hi,ha,hc⟩ := h.replies i result hr
      obtain ⟨hi,ha⟩ := hissued ⟨hi,ha⟩
      exact ⟨promise,header',powNonce,hi,ha,hc⟩
    · intro promise powNonce hm
      exact hsolved (h.solved promise powNonce hm)

/-- The worker answers with what a search in the page would have found. -/
theorem onmessage_result {job : Job} {id result : String}
    (hd : checkDifficulty job.header = .ok ())
    (h : onmessage sha256 job = .result id result) : ∃ powNonce, id = job.id ∧
      PowPolicy.compute sha256 job.header = .ok powNonce ∧ result = toString powNonce := by
  unfold onmessage at h
  split at h
  · next nonce hs =>
    cases h
    refine ⟨nonce,rfl,?_,rfl⟩
    rw [compute_eq,hd]
    simp only [Except.bind,hs]
  · cases h
  · cases h

theorem inv_step (s : State) (a : Action) (s' : State) (h : Inv sha256 s) (hf : Fresh s a)
    (hs : step sha256 s a = some s') : Inv sha256 s' := by
  cases a with
  | tick ms =>
    cases hs
    exact ⟨h.keys,h.armed,fun t ht => (h.soon t ht).trans (Nat.add_le_add_right
      (Nat.le_add_right _ _) _),h.once,h.ids,h.known,h.jobs,h.replies,h.solved⟩
  | compute header id =>
    cases hs
    exact h.compute hf
  | work i =>
    obtain ⟨⟨job,jobs⟩,ht,rfl⟩ := Option.map_eq_some_iff.mp hs
    obtain ⟨hjob,hrest⟩ := Machine.takeTask_mem ht
    refine ⟨h.keys,h.armed,h.soon,h.once,h.ids,h.known,fun j hj => h.jobs j (hrest j hj),
      fun id result hr => ?_,h.solved⟩
    rcases List.mem_append.mp hr with hr | hr
    · exact h.replies id result hr
    · obtain ⟨promise,hissued,hasked,hd⟩ := h.jobs job hjob
      obtain ⟨powNonce,rfl,hc,rfl⟩ := onmessage_result hd (List.mem_singleton.mp hr).symm
      exact ⟨promise,job.header,powNonce,hissued,hasked,hc,rfl⟩
  | handleMessage i =>
    obtain ⟨⟨reply,replies⟩,ht,rfl⟩ := Option.map_eq_some_iff.mp hs
    obtain ⟨hreply,hrest⟩ := Machine.takeTask_mem ht
    have hinv : Inv sha256 { s with replies := replies } :=
      ⟨h.keys,h.armed,h.soon,h.once,h.ids,h.known,h.jobs,
        fun id result hr => h.replies id result (hrest _ hr),h.solved⟩
    exact hinv.handleMessage fun id result he => h.replies id result (he ▸ hreply)
  | lose i =>
    obtain ⟨⟨reply,replies⟩,ht,rfl⟩ := Option.map_eq_some_iff.mp hs
    exact ⟨h.keys,h.armed,h.soon,h.once,h.ids,h.known,h.jobs,
      fun id result hr => h.replies id result ((Machine.takeTask_mem ht).2 _ hr),h.solved⟩
  | timeout i =>
    obtain ⟨t,ht,hs⟩ := Option.bind_eq_some_iff.mp hs
    split at hs
    · cases hs
      refine h.settle ?_ fun powNonce ho => by cases ho
      rw [← h.armed]
      exact List.mem_map.mpr ⟨t,List.mem_of_getElem? ht,rfl⟩
    · cases hs
  | onerror m =>
    cases hs
    exact (h.rejectAll _).terminate
  | destroy =>
    cases hs
    exact (h.rejectAll _).terminate

/-- Whatever order requests, answers, losses, errors and timeouts come in: each promise is
settled once or still has its one timer, due within two minutes, and a nonce that it is
resolved with is a proof of work for the header of its own caller. -/
theorem requests_settled {as : List Action} (hr : Machine.run (step sha256) {} as = some s)
    (hfresh : Machine.Along (step sha256) Fresh {} as) :
    (s.settled.map Prod.fst ++ s.timers.map Timer.promise).Perm (List.range s.asked.length) ∧
      (∀ t ∈ s.timers, t.due ≤ s.clock+requestTimeoutMs) ∧
      ∀ promise powNonce, (promise,.resolved powNonce) ∈ s.settled →
        ∃ header, s.asked[promise]? = some header ∧
          verifyPow sha256 header powNonce = .ok true := by
  have hinit : Inv sha256 {} := by
    refine ⟨List.nodup_nil,rfl,?_,List.Perm.refl _,List.nodup_nil,?_,?_,?_,?_⟩
    all_goals
      intros
      contradiction
  have h := Machine.invariant_run inv_step hinit hfresh hr
  refine ⟨?_,h.soon,fun promise powNonce hm => ?_⟩
  · have hone := h.once
    rw [← h.armed,List.map_map] at hone
    exact hone
  · obtain ⟨header,ha,hc⟩ := h.solved promise powNonce hm
    exact ⟨header,ha,(compute_ok hc).1⟩

end

/-- A header that the first nonce is a proof of work for. -/
def sampleHeader : PowCommittedHeader where
  timestamp := .num (Number.ofNat 122)
  zoneId := .num (Number.ofNat 0)
  powDifficulty := .num (Number.ofNat 8)
  nonce := List.replicate 12 0
  payload := [0]

/-- Two requests, of which the first is answered and the second is not. -/
def sampleRun : List Action :=
  [.compute sampleHeader "1",.compute sampleHeader "2",.work 0,.work 0,.handleMessage 0,.lose 0,
    .tick requestTimeoutMs,.timeout 0]

theorem requests_settled_sample : ∃ s, Machine.run (step Sha256.sha256) {} sampleRun = some s ∧
    (s.settled.map Prod.fst ++ s.timers.map Timer.promise).Perm (List.range s.asked.length) := by
  have hcheck : Machine.check (step Sha256.sha256) (fun s a => decide (Fresh s a)) {} sampleRun =
      true := by decide +kernel
  cases hr : Machine.run (step Sha256.sha256) {} sampleRun with
  | none => exact absurd hr (by decide +kernel)
  | some s =>
    exact ⟨s,rfl,(requests_settled hr
      (Machine.along_of_check (fun _ _ h => of_decide_eq_true h) hcheck)).1⟩

end WorkerBridge
