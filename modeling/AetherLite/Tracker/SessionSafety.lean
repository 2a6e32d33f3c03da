import Mathlib.Data.List.Nodup
import AetherLite.Tracker.SessionMoves

/-! The sessions of a tracker over every interleaving: who may speak for which node, and how many
connections and sessions there are. -/
set_option autoImplicit false

namespace TrackerServer

open Js NodeIdentity TrackerProtocol

section Counting

theorem countP_modify {α : Type} (p : α → Bool) (f : α → α) {as : List α} {i : Nat} {a : α}
    (h : as[i]? = some a) :
    (as.modify i f).countP p+(if p a then 1 else 0) = as.countP p+(if p (f a) then 1 else 0) := by
  induction as generalizing i with
  | nil => simp at h
  | cons b as ih =>
    cases i with
    | zero =>
      obtain rfl : b = a := by simpa using h
      simp only [List.modify_zero_cons,List.countP_cons]
      omega
    | succ i =>
      have hi := ih (i := i) (by simpa using h)
      simp only [List.modify_succ_cons,List.countP_cons]
      omega

/-- Whether each connection is closed, and from where it came. -/
def Image.seats (m : Image) : List (Bool × String) := m.conns.map fun c => (c.closed,c.address)

def taken (address : String) (seat : Bool × String) : Bool := !seat.1 && seat.2 == address

/-- The connections are those whose close has not been processed, and they are counted. -/
structure Counted (limit : Nat) (m : Image) : Prop where
  live : ∀ ws, ws ∈ m.connections ↔ ∃ address, m.seats[ws]? = some (false,address)
  nodup : m.connections.Nodup
  counts : ∀ address, (JsMap.get m.perAddress address).getD 0 = m.seats.countP (taken address)
  within : ∀ address, m.seats.countP (taken address) ≤ limit

theorem getElem?_update (m : Image) (ws v : Nat) (f : Core → Core) :
    (m.update ws f).conns[v]? = if ws = v then (m.conns[v]?).map f else m.conns[v]? := by
  simp only [Image.update,List.getElem?_modify]
  split <;> cases m.conns[v]? <;> rfl

theorem seats_update {f : Core → Core} (h : ∀ c, (f c).closed = c.closed ∧ (f c).address = c.address)
    (m : Image) (ws : Nat) : (m.update ws f).seats = m.seats := by
  apply List.ext_getElem?
  intro v
  simp only [Image.seats,List.getElem?_map,getElem?_update]
  split
  · cases m.conns[v]? <;> simp [h]
  · rfl

theorem Counted.of_eq {limit : Nat} {m n : Image} (h : Counted limit m)
    (hseats : n.seats = m.seats) (hconnections : n.connections = m.connections)
    (hcounts : n.perAddress = m.perAddress) : Counted limit n where
  live := by simpa only [hseats,hconnections] using h.live
  nodup := by simpa only [hconnections] using h.nodup
  counts := by simpa only [hseats,hcounts] using h.counts
  within := by simpa only [hseats] using h.within

theorem seats_length (m : Image) : m.seats.length = m.conns.length := by simp [Image.seats]

theorem Counted.accept {limit : Nat} {m n : Image} (h : Counted limit m) {address : String}
    (hroom : (JsMap.get m.perAddress address).getD 0 < limit)
    (hseats : n.seats = m.seats ++ [(false,address)])
    (hconnections : n.connections = m.connections ++ [m.seats.length])
    (hcounts : n.perAddress =
      JsMap.set m.perAddress address ((JsMap.get m.perAddress address).getD 0+1)) :
    Counted limit n := by
  have hnew : m.seats.length ∉ m.connections := by
    intro hmem
    obtain ⟨a,ha⟩ := (h.live _).mp hmem
    simp at ha
  have hone : ∀ a, [(false,address)].countP (taken a) = if a = address then 1 else 0 := by
    intro a
    by_cases ha : a = address
    · simp [taken,ha]
    · simp [taken,ha,Ne.symm ha]
  constructor
  · intro ws
    rw [hseats,hconnections,List.mem_append,h.live ws,List.mem_singleton]
    constructor
    · rintro (⟨a,ha⟩ | rfl)
      · exact ⟨a,by rw [List.getElem?_append_left (List.getElem?_eq_some_iff.mp ha).1,ha]⟩
      · exact ⟨address,by simp⟩
    · rintro ⟨a,ha⟩
      by_cases hlt : ws < m.seats.length
      · exact .inl ⟨a,by rwa [List.getElem?_append_left hlt] at ha⟩
      · have hbound := (List.getElem?_eq_some_iff.mp ha).1
        simp at hbound
        omega
  · rw [hconnections,List.nodup_append]
    refine ⟨h.nodup,by simp,?_⟩
    intro a ha b hb
    rw [List.mem_singleton.mp hb]
    exact ne_of_mem_of_not_mem ha hnew
  · intro a
    have ha := h.counts a
    rw [hcounts,hseats,List.countP_append,hone]
    by_cases heq : a = address
    · subst heq
      simp [ha]
    · rw [JsMap.get_set_ne _ heq,ha]
      simp [heq]
  · intro a
    have ha := h.counts a
    have hle := h.within a
    rw [hseats,List.countP_append,hone]
    split
    · next heq =>
      subst heq
      omega
    · omega

theorem Counted.close {limit : Nat} {m : Image} (h : Counted limit m) {ws : Nat} {c : Core}
    (hc : m.conns[ws]? = some c) : Counted limit (m.close ws c) := by
  have hseat : m.seats[ws]? = some (c.closed,c.address) := by simp [Image.seats,hc]
  have hseats : (m.close ws c).seats = m.seats.modify ws fun seat => (true,seat.2) := by
    apply List.ext_getElem?
    intro v
    have hconns : (m.close ws c).conns = (m.update ws fun c => { c with closed := true }).conns := by
      unfold Image.close
      dsimp only
      split <;> rfl
    simp only [Image.seats,List.getElem?_map,hconns,getElem?_update,List.getElem?_modify]
    by_cases hv : ws = v
    · cases m.conns[v]? <;> simp [hv]
    · simp [hv]
  have hcount : ∀ a, (m.close ws c).seats.countP (taken a)+
      (if taken a (c.closed,c.address) then 1 else 0) = m.seats.countP (taken a) := by
    intro a
    have hmodify := countP_modify (taken a) (fun seat => (true,seat.2)) hseat
    rw [hseats]
    simpa [taken] using hmodify
  have hat : ∀ v, (m.close ws c).seats[v]? =
      if ws = v then some (true,c.address) else m.seats[v]? := by
    intro v
    rw [hseats,List.getElem?_modify]
    by_cases hv : ws = v
    · subst hv
      simp [hseat]
    · simp [hv]
  by_cases hmem : ws ∈ m.connections
  · obtain ⟨address,haddress⟩ := (h.live ws).mp hmem
    obtain ⟨hopen,rfl⟩ : c.closed = false ∧ c.address = address := by
      rw [hseat] at haddress
      simpa using haddress
    have hconnections : (m.close ws c).connections = m.connections.erase ws := by
      simp [Image.close,hmem,Image.update]
    have hper : (m.close ws c).perAddress =
        if (JsMap.get m.perAddress c.address).getD 1-1 = 0 then
          JsMap.delete m.perAddress c.address
        else JsMap.set m.perAddress c.address ((JsMap.get m.perAddress c.address).getD 1-1) := by
      simp [Image.close,hmem]
    constructor
    · intro v
      rw [hconnections,h.nodup.mem_erase_iff,h.live v,hat]
      by_cases hv : ws = v
      · simp [hv]
      · simp [hv,Ne.symm hv]
    · rw [hconnections]
      exact h.nodup.erase ws
    · intro a
      have ha := h.counts a
      have hless := hcount a
      rw [hper]
      by_cases heq : a = c.address
      · subst heq
        have hpos : taken c.address (c.closed,c.address) = true := by simp [taken,hopen]
        rw [if_pos hpos] at hless
        cases hget : JsMap.get m.perAddress c.address with
        | none =>
          rw [hget,Option.getD_none] at ha
          omega
        | some k =>
          rw [hget,Option.getD_some] at ha
          rw [Option.getD_some]
          split
          · rw [JsMap.get_delete_self,Option.getD_none]
            omega
          · simp
            omega
      · have hother : taken a (c.closed,c.address) = false := by simp [taken,Ne.symm heq]
        rw [hother] at hless
        have hget : JsMap.get (if (JsMap.get m.perAddress c.address).getD 1-1 = 0 then
            JsMap.delete m.perAddress c.address
          else JsMap.set m.perAddress c.address ((JsMap.get m.perAddress c.address).getD 1-1)) a =
            JsMap.get m.perAddress a := by
          split
          · exact JsMap.get_delete_ne heq
          · exact JsMap.get_set_ne _ heq _
        rw [hget,ha]
        simpa using hless.symm
    · intro a
      have hless := hcount a
      have hle := h.within a
      omega
  · have hclosed : c.closed = true := by
      by_contra hopen
      exact hmem ((h.live ws).mpr ⟨c.address,by simp [hseat,hopen]⟩)
    have hsame : (m.close ws c).seats = m.seats := by
      apply List.ext_getElem?
      intro v
      rw [hat]
      split
      · next hv =>
        subst hv
        rw [hseat,hclosed]
      · rfl
    exact h.of_eq hsame (by simp [Image.close,hmem,Image.update]) (by simp [Image.close,hmem,Image.update])

theorem Counted.move {ρ : Type} {cfg : Config ρ} {Signs : Bytes → Bytes → Prop} {m n : Image}
    (h : Counted cfg.maxConnectionsPerAddress m) (hm : Move cfg Signs m n) :
    Counted cfg.maxConnectionsPerAddress n := by
  have hupdate : ∀ {k : Image} (ws : Nat) (f : Core → Core),
      (∀ c, (f c).closed = c.closed ∧ (f c).address = c.address) →
      Counted cfg.maxConnectionsPerAddress k → Counted cfg.maxConnectionsPerAddress (k.update ws f) :=
    fun ws f hf hk => hk.of_eq (seats_update hf _ ws) rfl rfl
  have hlog : ∀ {k : Image} (e : Event), Counted cfg.maxConnectionsPerAddress k →
      Counted cfg.maxConnectionsPerAddress (k.log e) := fun e hk => hk.of_eq rfl rfl rfl
  cases hm with
  | idle => exact h
  | accept address host hroom =>
    exact h.accept hroom (by simp [Image.seats]) (by simp [seats_length]) rfl
  | unsaid => exact h.of_eq rfl rfl rfl
  | hello => exact hlog _ (hupdate _ _ (by simp) (h.of_eq rfl rfl rfl))
  | spend ws => exact hupdate ws _ (by simp [spent]) h
  | prove => exact hlog _ (hupdate _ _ (by simp [spent]) h)
  | @join ws now c id pubkey host replaced sessions =>
    have hproved : Counted cfg.maxConnectionsPerAddress (m.prove ws c.nonce id pubkey host) :=
      hlog _ (hupdate ws _ (by simp [spent]) h)
    have hprove : Counted cfg.maxConnectionsPerAddress
        { m.prove ws c.nonce id pubkey host with sessions := sessions } := hproved.of_eq rfl rfl rfl
    have hnamed := hupdate ws (named id) (by simp [named]) (hlog (.registered ws id) hprove)
    cases replaced with
    | none => exact hnamed
    | some old =>
      unfold Image.register Image.replace
      dsimp only
      split
      · exact hnamed
      · split
        · exact hupdate old _ (by simp [renamed]) (hlog _ hnamed)
        · exact hlog _ hnamed
  | relay => exact hlog _ h
  | touch => exact h.of_eq rfl rfl rfl
  | expire => exact h.of_eq rfl rfl rfl
  | close hc => exact h.close hc

end Counting

section Handshakes

def hellos (trace : List Event) : List (Nat × Bytes) :=
  trace.filterMap fun
    | .hello ws nonce => some (ws,nonce)
    | _ => none

def proofs (trace : List Event) : List (Nat × Bytes) :=
  trace.filterMap fun
    | .proved ws nonce _ _ _ => some (ws,nonce)
    | _ => none

def registrations (trace : List Event) : List (Nat × PeerId) :=
  trace.filterMap fun
    | .registered ws id => some (ws,id)
    | _ => none

@[simp] theorem hellos_append (t u : List Event) : hellos (t ++ u) = hellos t ++ hellos u :=
  List.filterMap_append

@[simp] theorem proofs_append (t u : List Event) : proofs (t ++ u) = proofs t ++ proofs u :=
  List.filterMap_append

@[simp] theorem registrations_append (t u : List Event) :
    registrations (t ++ u) = registrations t ++ registrations u := List.filterMap_append

theorem mem_proofs {trace : List Event} {e : Nat × Bytes} :
    e ∈ proofs trace ↔ ∃ id pubkey host, Event.proved e.1 e.2 id pubkey host ∈ trace := by
  obtain ⟨ws,nonce⟩ := e
  simp only [proofs,List.mem_filterMap]
  constructor
  · rintro ⟨event,hmem,h⟩
    cases event with
    | proved ws' nonce' id pubkey host =>
      cases h
      exact ⟨id,pubkey,host,hmem⟩
    | _ => cases h
  · rintro ⟨id,pubkey,host,hmem⟩
    exact ⟨_,hmem,rfl⟩

/-- A connection has proved to be a node. -/
def Proved (trace : List Event) (ws : Nat) (id : PeerId) : Prop :=
  ∃ nonce pubkey host, Event.proved ws nonce id pubkey host ∈ trace

theorem Proved.append {t : List Event} {ws : Nat} {id : PeerId} (h : Proved t ws id)
    (u : List Event) : Proved (t ++ u) ws id := by
  obtain ⟨nonce,pubkey,host,h⟩ := h
  exact ⟨nonce,pubkey,host,List.mem_append_left u h⟩

variable {ρ : Type} (cfg : Config ρ) (Signs : Bytes → Bytes → Prop)

/-- Where the connections stand with their nonces and ids. -/
structure Handshakes (m : Image) : Prop where
  greeting : m.greeting.Nodup
  waiting : ∀ ws ∈ m.greeting, ws < m.conns.length ∧ ws ∉ (hellos m.trace).map Prod.fst
  greeted : ∀ e ∈ hellos m.trace, e.1 < m.conns.length
  greetedOnce : ((hellos m.trace).map Prod.fst).Nodup
  unspent : ∀ ws c, m.conns[ws]? = some c → c.nonce ≠ [] →
    (ws,c.nonce) ∈ hellos m.trace ∧ ws ∉ (proofs m.trace).map Prod.fst
  spentOnce : ((proofs m.trace).map Prod.fst).Nodup
  good : ∀ ws nonce id pubkey host, Event.proved ws nonce id pubkey host ∈ m.trace →
    (ws,nonce) ∈ hellos m.trace ∧
      ∃ c, m.conns[ws]? = some c ∧ Good cfg Signs c.host nonce id pubkey host
  registered : (registrations m.trace).map Prod.fst ⊆ (proofs m.trace).map Prod.fst
  registeredOnce : ((registrations m.trace).map Prod.fst).Nodup
  known : ∀ ws c id, m.conns[ws]? = some c → c.peerId = some id → Proved m.trace ws id
  relayed : ∀ ws target id payload, Event.relayed ws target id payload ∈ m.trace →
    Proved m.trace ws id

variable {cfg Signs} {m : Image}

@[simp] theorem length_update (m : Image) (ws : Nat) (f : Core → Core) :
    (m.update ws f).conns.length = m.conns.length := by simp [Image.update]

@[simp] theorem greeting_update (m : Image) (ws : Nat) (f : Core → Core) :
    (m.update ws f).greeting = m.greeting := rfl

@[simp] theorem trace_update (m : Image) (ws : Nat) (f : Core → Core) :
    (m.update ws f).trace = m.trace := rfl

@[simp] theorem conns_log (m : Image) (e : Event) : (m.log e).conns = m.conns := rfl

@[simp] theorem greeting_log (m : Image) (e : Event) : (m.log e).greeting = m.greeting := rfl

@[simp] theorem trace_log (m : Image) (e : Event) : (m.log e).trace = m.trace ++ [e] := rfl

theorem conns_update {m : Image} {ws v : Nat} {f : Core → Core} {c : Core}
    (h : (m.update ws f).conns[v]? = some c) :
    ∃ d, m.conns[v]? = some d ∧ c = if ws = v then f d else d := by
  rw [getElem?_update] at h
  split at h
  · next hv =>
    obtain ⟨d,hd,rfl⟩ := Option.map_eq_some_iff.mp h
    exact ⟨d,hd,by simp [hv]⟩
  · next hv => exact ⟨c,h,by simp [hv]⟩

/-- A connection may lose its nonce or its id. -/
theorem Handshakes.update (h : Handshakes cfg Signs m) (ws : Nat) {f : Core → Core}
    (hf : ∀ c, (f c).host = c.host ∧ ((f c).nonce = c.nonce ∨ (f c).nonce = []) ∧
      ((f c).peerId = c.peerId ∨ (f c).peerId = none)) : Handshakes cfg Signs (m.update ws f) where
  greeting := h.greeting
  waiting := by simpa using h.waiting
  greeted := by simpa using h.greeted
  greetedOnce := h.greetedOnce
  unspent := by
    intro v c hc hn
    obtain ⟨d,hd,rfl⟩ := conns_update hc
    have hsame : (if ws = v then f d else d).nonce = d.nonce := by
      split at hn
      · next hv => rw [if_pos hv,(hf d).2.1.resolve_right hn]
      · next hv => rw [if_neg hv]
    rw [hsame] at hn ⊢
    exact h.unspent v d hd hn
  spentOnce := h.spentOnce
  good := by
    intro v nonce id pubkey host hmem
    obtain ⟨hhello,c,hc,hg⟩ := h.good v nonce id pubkey host hmem
    refine ⟨hhello,if ws = v then f c else c,by rw [getElem?_update,hc]; split <;> rfl,?_⟩
    split
    · rwa [(hf c).1]
    · exact hg
  registered := h.registered
  registeredOnce := h.registeredOnce
  known := by
    intro v c id hc hid
    obtain ⟨d,hd,rfl⟩ := conns_update hc
    split at hid
    · rcases (hf d).2.2 with hsame | hnone
      · exact h.known v d id hd (hsame ▸ hid)
      · simp [hnone] at hid
    · exact h.known v d id hd hid
  relayed := h.relayed

theorem Handshakes.named (h : Handshakes cfg Signs m) {ws : Nat} {id : PeerId}
    (hproved : Proved m.trace ws id) : Handshakes cfg Signs (m.update ws (named id)) where
  greeting := h.greeting
  waiting := by simpa using h.waiting
  greeted := by simpa using h.greeted
  greetedOnce := h.greetedOnce
  unspent := by
    intro v c hc hn
    obtain ⟨d,hd,rfl⟩ := conns_update hc
    have hsame : (if ws = v then TrackerServer.named id d else d).nonce = d.nonce := by
      split <;> rfl
    rw [hsame] at hn ⊢
    exact h.unspent v d hd hn
  spentOnce := h.spentOnce
  good := by
    intro v nonce id' pubkey host hmem
    obtain ⟨hhello,c,hc,hg⟩ := h.good v nonce id' pubkey host hmem
    refine ⟨hhello,if ws = v then TrackerServer.named id c else c,
      by rw [getElem?_update,hc]; split <;> rfl,?_⟩
    split <;> exact hg
  registered := h.registered
  registeredOnce := h.registeredOnce
  known := by
    intro v c id' hc hid
    obtain ⟨d,hd,rfl⟩ := conns_update hc
    split at hid
    · next hv =>
      obtain rfl : id = id' := by simpa [TrackerServer.named] using hid
      exact hv ▸ hproved
    · exact h.known v d id' hd hid
  relayed := h.relayed

/-- Events that are no part of a handshake. -/
theorem Handshakes.log (h : Handshakes cfg Signs m) {e : Event} (hhello : hellos [e] = [])
    (hproof : proofs [e] = [])
    (hregistered : ∀ r ∈ registrations [e],
      r.1 ∈ (proofs m.trace).map Prod.fst ∧ r.1 ∉ (registrations m.trace).map Prod.fst)
    (hrelayed : ∀ ws target id payload, e = .relayed ws target id payload → Proved m.trace ws id) :
    Handshakes cfg Signs (m.log e) where
  greeting := h.greeting
  waiting := by simpa [hhello] using h.waiting
  greeted := by simpa [hhello] using h.greeted
  greetedOnce := by simpa [hhello] using h.greetedOnce
  unspent := by simpa [hhello,hproof] using h.unspent
  spentOnce := by simpa [hproof] using h.spentOnce
  good := by
    intro ws nonce id pubkey host hmem
    rw [trace_log,List.mem_append] at hmem
    rcases hmem with hmem | hmem
    · simpa [hhello] using h.good ws nonce id pubkey host hmem
    · rw [← List.mem_singleton.mp hmem] at hproof
      simp [proofs] at hproof
  registered := by
    intro ws hws
    simp only [trace_log,registrations_append,List.map_append,List.mem_append,proofs_append,
      hproof,List.append_nil] at hws ⊢
    rcases hws with hws | hws
    · exact h.registered hws
    · obtain ⟨r,hr,rfl⟩ := List.mem_map.mp hws
      exact (hregistered r hr).1
  registeredOnce := by
    have hnew : ((registrations [e]).map Prod.fst).Nodup := by
      cases e <;> simp [registrations]
    rw [trace_log,registrations_append,List.map_append,List.nodup_append]
    refine ⟨h.registeredOnce,hnew,?_⟩
    intro a ha b hb
    obtain ⟨r,hr,rfl⟩ := List.mem_map.mp hb
    exact ne_of_mem_of_not_mem ha (hregistered r hr).2
  known := fun ws c id hc hid => (h.known ws c id hc hid).append [e]
  relayed := by
    intro ws target id payload hmem
    rw [trace_log,List.mem_append] at hmem
    rcases hmem with hmem | hmem
    · exact (h.relayed ws target id payload hmem).append [e]
    · exact (hrelayed ws target id payload (List.mem_singleton.mp hmem).symm).append [e]

theorem Handshakes.prove (h : Handshakes cfg Signs m) {ws : Nat} {c : Core} {id : PeerId}
    {pubkey : Bytes} {host : String} (hc : m.conns[ws]? = some c) (hn : c.nonce ≠ [])
    (hg : Good cfg Signs c.host c.nonce id pubkey host) :
    Handshakes cfg Signs (m.prove ws c.nonce id pubkey host) := by
  have hu : Handshakes cfg Signs (m.update ws spent) := h.update ws (by simp [spent])
  obtain ⟨hhello,hnew⟩ := h.unspent ws c hc hn
  have hproof : proofs [Event.proved ws c.nonce id pubkey host] = [(ws,c.nonce)] := rfl
  have hnone : hellos [Event.proved ws c.nonce id pubkey host] = [] ∧
      registrations [Event.proved ws c.nonce id pubkey host] = [] := ⟨rfl,rfl⟩
  constructor
  case greeting => exact hu.greeting
  case waiting => simpa [Image.prove,hnone] using hu.waiting
  case greeted => simpa [Image.prove,hnone] using hu.greeted
  case greetedOnce => simpa [Image.prove,hnone] using hu.greetedOnce
  case unspent =>
    intro v d hd hdn
    have hv : v ≠ ws := by
      rintro rfl
      obtain ⟨d',-,rfl⟩ := conns_update hd
      simp [spent] at hdn
    obtain ⟨hhello',hproofs⟩ := hu.unspent v d hd hdn
    have hrest : v ∉ (proofs m.trace).map Prod.fst := hproofs
    refine ⟨by simpa [Image.prove,hnone] using hhello',?_⟩
    simp only [Image.prove,trace_log,trace_update,proofs_append,hproof,List.map_append,List.mem_append]
    simp [hrest,hv]
  case spentOnce =>
    simp only [Image.prove,trace_log,trace_update,proofs_append,hproof,List.map_append]
    rw [List.nodup_append]
    refine ⟨h.spentOnce,by simp,?_⟩
    intro a ha b hb
    rw [show b = ws by simpa using hb]
    exact ne_of_mem_of_not_mem ha hnew
  case good =>
    intro v nonce id' pubkey' host' hmem
    rw [Image.prove,trace_log,List.mem_append] at hmem
    rcases hmem with hmem | hmem
    · simpa [Image.prove,hnone] using hu.good v nonce id' pubkey' host' hmem
    · obtain ⟨rfl,rfl,rfl,rfl,rfl⟩ := Event.proved.inj (List.mem_singleton.mp hmem)
      refine ⟨by simpa [Image.prove,hnone] using hhello,spent c,?_,hg⟩
      simp [Image.prove,getElem?_update,hc]
  case registered =>
    intro v hv
    simp only [Image.prove,trace_log,registrations_append,hnone,List.append_nil,proofs_append,
      List.map_append,List.mem_append] at hv ⊢
    exact .inl (h.registered hv)
  case registeredOnce => simpa [Image.prove,hnone] using h.registeredOnce
  case known => exact fun v d id' hd hid => (hu.known v d id' hd hid).append _
  case relayed =>
    intro v target id' payload hmem
    rw [Image.prove,trace_log,List.mem_append] at hmem
    rcases hmem with hmem | hmem
    · exact (h.relayed v target id' payload hmem).append _
    · simp at hmem

theorem Handshakes.unsaid (h : Handshakes cfg Signs m) {i ws : Nat} {rest : List Nat}
    (htask : Machine.takeTask m.greeting i = some (ws,rest)) :
    Handshakes cfg Signs { m with greeting := rest } ∧ ws ∉ rest := by
  obtain ⟨v,hv,he⟩ := Option.map_eq_some_iff.mp htask
  obtain ⟨rfl,rfl⟩ := Prod.mk.inj he
  obtain ⟨hi,rfl⟩ := List.getElem?_eq_some_iff.mp hv
  have herase : m.greeting.eraseIdx i = m.greeting.erase m.greeting[i] :=
    (h.greeting.erase_getElem i hi).symm
  refine ⟨{ h with
    greeting := h.greeting.sublist (List.eraseIdx_sublist _ _)
    waiting := fun v hv => h.waiting v (List.mem_of_mem_eraseIdx hv) },?_⟩
  rw [herase]
  exact h.greeting.not_mem_erase

theorem Handshakes.hello (h : Handshakes cfg Signs m) {i ws : Nat} {rest : List Nat}
    {nonce : Bytes} (htask : Machine.takeTask m.greeting i = some (ws,rest)) :
    Handshakes cfg Signs ((Image.update { m with greeting := rest } ws fun c =>
      { c with nonce := nonce }).log (.hello ws nonce)) := by
  obtain ⟨hr,hnot⟩ := h.unsaid htask
  obtain ⟨hlt,hnew⟩ := h.waiting ws (Machine.takeTask_mem htask).1
  have hhello : hellos [Event.hello ws nonce] = [(ws,nonce)] := rfl
  have hnone : proofs [Event.hello ws nonce] = [] ∧ registrations [Event.hello ws nonce] = [] :=
    ⟨rfl,rfl⟩
  have hunproved : ws ∉ (proofs m.trace).map Prod.fst := by
    intro hmem
    obtain ⟨e,he,rfl⟩ := List.mem_map.mp hmem
    obtain ⟨id,pubkey,host,he⟩ := mem_proofs.mp he
    exact hnew (List.mem_map_of_mem (h.good _ _ _ _ _ he).1)
  constructor
  case greeting => exact hr.greeting
  case waiting =>
    intro v hv
    obtain ⟨hlt',hnew'⟩ := hr.waiting v hv
    have hne : v ≠ ws := ne_of_mem_of_not_mem hv hnot
    simp only [conns_log,length_update,trace_log,trace_update,hellos_append,hhello]
    refine ⟨hlt',?_⟩
    simp only [List.map_append,List.mem_append,not_or]
    exact ⟨hnew',by simpa using hne⟩
  case greeted =>
    intro e he
    simp only [trace_log,trace_update,hellos_append,hhello,List.mem_append,List.mem_singleton] at he
    rw [conns_log,length_update]
    rcases he with he | rfl
    · exact h.greeted e he
    · exact hlt
  case greetedOnce =>
    simp only [trace_log,trace_update,hellos_append,hhello,List.map_append]
    rw [List.nodup_append]
    refine ⟨h.greetedOnce,by simp,?_⟩
    intro a ha b hb
    rw [show b = ws by simpa using hb]
    exact ne_of_mem_of_not_mem ha hnew
  case unspent =>
    intro v c hc hn
    rw [conns_log] at hc
    obtain ⟨d,hd,rfl⟩ := conns_update hc
    simp only [trace_log,trace_update,hellos_append,hhello,proofs_append,hnone,List.append_nil,
      List.mem_append]
    by_cases hv : ws = v
    · subst hv
      simpa using hunproved
    · rw [if_neg hv] at hn ⊢
      exact ⟨.inl (h.unspent v d hd hn).1,(h.unspent v d hd hn).2⟩
  case spentOnce => simpa [hnone] using h.spentOnce
  case good =>
    intro v nonce' id pubkey host hmem
    rw [trace_log,trace_update,List.mem_append] at hmem
    have hold : Event.proved v nonce' id pubkey host ∈ m.trace := by simpa using hmem
    obtain ⟨hsaid,c,hc,hg⟩ := h.good v nonce' id pubkey host hold
    simp only [conns_log,trace_log,trace_update,hellos_append,List.mem_append]
    refine ⟨.inl hsaid,if ws = v then { c with nonce := nonce } else c,?_,?_⟩
    · rw [getElem?_update,hc]
      split <;> rfl
    · split <;> exact hg
  case registered => simpa [hnone] using h.registered
  case registeredOnce => simpa [hnone] using h.registeredOnce
  case known =>
    intro v c id hc hid
    rw [conns_log] at hc
    obtain ⟨d,hd,rfl⟩ := conns_update hc
    have hid : d.peerId = some id := by
      split at hid <;> exact hid
    exact (h.known v d id hd hid).append _
  case relayed =>
    intro v target id payload hmem
    rw [trace_log,trace_update,List.mem_append] at hmem
    have hold : Event.relayed v target id payload ∈ m.trace := by simpa using hmem
    exact (h.relayed v target id payload hold).append _

theorem Handshakes.accept (h : Handshakes cfg Signs m) {n : Image} {host : Option String}
    {address : String} (hconns : n.conns = m.conns ++ [⟨false,[],host,address,none⟩])
    (hgreeting : n.greeting = m.greeting ++ [m.conns.length]) (htrace : n.trace = m.trace) :
    Handshakes cfg Signs n := by
  have hat : ∀ {v : Nat} {c : Core}, n.conns[v]? = some c →
      m.conns[v]? = some c ∨ c.nonce = [] ∧ c.peerId = none := by
    intro v c hc
    rw [hconns] at hc
    by_cases hv : v < m.conns.length
    · exact .inl (by rwa [List.getElem?_append_left hv] at hc)
    · rw [List.getElem?_append_right (by omega),List.getElem?_singleton] at hc
      split at hc
      · cases hc
        exact .inr ⟨rfl,rfl⟩
      · cases hc
  have hkeep : ∀ {v : Nat} {c : Core}, m.conns[v]? = some c → n.conns[v]? = some c := by
    intro v c hc
    rw [hconns,List.getElem?_append_left (List.getElem?_eq_some_iff.mp hc).1,hc]
  have hlength : n.conns.length = m.conns.length+1 := by simp [hconns]
  constructor
  case greeting =>
    rw [hgreeting,List.nodup_append]
    refine ⟨h.greeting,by simp,?_⟩
    intro a ha b hb
    have hlt := (h.waiting a ha).1
    rw [List.mem_singleton.mp hb]
    omega
  case waiting =>
    intro v hv
    rw [hgreeting,List.mem_append,List.mem_singleton] at hv
    rw [htrace,hlength]
    rcases hv with hv | rfl
    · exact ⟨Nat.lt_succ_of_lt (h.waiting v hv).1,(h.waiting v hv).2⟩
    · refine ⟨Nat.lt_succ_self _,?_⟩
      intro hmem
      obtain ⟨e,he,heq⟩ := List.mem_map.mp hmem
      have hlt := h.greeted e he
      omega
  case greeted =>
    intro e he
    rw [htrace] at he
    have hlt := h.greeted e he
    omega
  case greetedOnce => simpa only [htrace] using h.greetedOnce
  case unspent =>
    intro v c hc hn
    rw [htrace]
    rcases hat hc with hc | hnew
    · exact h.unspent v c hc hn
    · exact absurd hnew.1 hn
  case spentOnce => simpa only [htrace] using h.spentOnce
  case good =>
    intro v nonce id pubkey host hmem
    rw [htrace] at hmem ⊢
    obtain ⟨hsaid,c,hc,hg⟩ := h.good v nonce id pubkey host hmem
    exact ⟨hsaid,c,hkeep hc,hg⟩
  case registered => simpa only [htrace] using h.registered
  case registeredOnce => simpa only [htrace] using h.registeredOnce
  case known =>
    intro v c id hc hid
    rw [htrace]
    rcases hat hc with hc | hnew
    · exact h.known v c id hc hid
    · simp [hnew.2] at hid
  case relayed => simpa only [htrace] using h.relayed

theorem Handshakes.register (h : Handshakes cfg Signs m) {ws : Nat} {c : Core} {id : PeerId}
    {pubkey : Bytes} {host : String} (hc : m.conns[ws]? = some c) (hn : c.nonce ≠ [])
    (hg : Good cfg Signs c.host c.nonce id pubkey host) (replaced : Option Nat)
    (sessions : SessionManager) : Handshakes cfg Signs
      (Image.register { m.prove ws c.nonce id pubkey host with sessions := sessions } ws id
        replaced) := by
  have hp : Handshakes cfg Signs { m.prove ws c.nonce id pubkey host with sessions := sessions } :=
    { h.prove hc hn hg with }
  have hnew := (h.unspent ws c hc hn).2
  have hproved : Proved (m.prove ws c.nonce id pubkey host).trace ws id :=
    ⟨c.nonce,pubkey,host,by simp [Image.prove]⟩
  have hlog := hp.log (e := .registered ws id) rfl rfl (by
    intro r hr
    obtain rfl : r = (ws,id) := by simpa [registrations] using hr
    refine ⟨List.mem_map.mpr ⟨(ws,c.nonce),mem_proofs.mpr ⟨id,pubkey,host,?_⟩,rfl⟩,?_⟩
    · simp [Image.prove]
    · intro hmem
      exact hnew (h.registered (by simpa [Image.prove,registrations] using hmem))) (by simp)
  have hnamed := hlog.named (hproved.append [.registered ws id])
  have hreplaced : ∀ {k : Image} (old : Nat), Handshakes cfg Signs k →
      Handshakes cfg Signs (k.log (.replaced old)) := by
    intro k old hk
    exact hk.log rfl rfl (by simp [registrations]) (by simp)
  cases replaced with
  | none => exact hnamed
  | some old =>
    unfold Image.register Image.replace
    dsimp only
    split
    · exact hnamed
    · split
      · exact (hreplaced old hnamed).update old (by simp [renamed])
      · exact hreplaced old hnamed

theorem Handshakes.move {n : Image} (h : Handshakes cfg Signs m) (hm : Move cfg Signs m n) :
    Handshakes cfg Signs n := by
  cases hm with
  | idle => exact h
  | accept address host hroom => exact h.accept rfl rfl rfl
  | unsaid htask => exact (h.unsaid htask).1
  | hello htask hn => exact h.hello htask
  | spend ws => exact h.update ws (by simp [spent])
  | prove hc hn hg => exact h.prove hc hn hg
  | join hc hopen hid hn hg hr => exact h.register hc hn hg _ _
  | relay payload hc hid =>
    refine h.log rfl rfl (by simp [registrations]) ?_
    intro ws target id payload heq
    obtain ⟨rfl,rfl,rfl,rfl⟩ := Event.relayed.inj heq
    exact h.known _ _ _ hc hid
  | touch now ws => exact { h with }
  | expire now => exact { h with }
  | @close ws c hc =>
    have hu : Handshakes cfg Signs (m.update ws fun c => { c with closed := true }) :=
      h.update ws (by simp)
    unfold Image.close
    dsimp only
    split <;> exact { hu with }

end Handshakes

section Sessions

/-- The connection that was registered last under an id. -/
def latest (id : PeerId) (trace : List Event) : Option Nat :=
  ((registrations trace).filter fun r => r.2 == id).getLast?.map Prod.fst

/-- No connection speaks for a node after it was replaced. -/
def Silent (e f : Event) : Prop :=
  ∀ old target id payload, e = .replaced old → f ≠ .relayed old target id payload

structure Sessions (maxSessions : Nat) (m : Image) : Prop where
  keys : (JsMap.keys m.sessions.sessions).Nodup
  bounded : m.sessions.sessions.length ≤ maxSessions
  held : ∀ id session, JsMap.get m.sessions.sessions id = some session →
    session.1 ∈ m.connections ∧ (session.1,id) ∈ m.sessions.handlers ∧
      latest id m.trace = some session.1
  replaced : ∀ old, Event.replaced old ∈ m.trace → old ∈ (proofs m.trace).map Prod.fst ∧
    ∀ c, m.conns[old]? = some c → c.peerId = none
  silent : m.trace.Pairwise Silent

variable {limit : Nat} {m n : Image}

theorem latest_append {evs : List Event} (h : registrations evs = []) (id : PeerId)
    (trace : List Event) : latest id (trace ++ evs) = latest id trace := by simp [latest,h]

theorem latest_registered (id : PeerId) (ws : Nat) (trace : List Event) :
    latest id (trace ++ [.registered ws id]) = some ws := by
  simp [latest,registrations]

theorem latest_registered_ne {id id' : PeerId} (h : id' ≠ id) (ws : Nat) (trace : List Event) :
    latest id' (trace ++ [.registered ws id]) = latest id' trace := by
  simp [latest,registrations,Ne.symm h]

theorem registered_of_latest {id : PeerId} {ws : Nat} {trace : List Event}
    (h : latest id trace = some ws) : (ws,id) ∈ registrations trace := by
  obtain ⟨⟨v,id'⟩,hlast,rfl⟩ := Option.map_eq_some_iff.mp h
  have hmem := List.mem_filter.mp (List.mem_of_getLast? hlast)
  obtain rfl : id' = id := by simpa using hmem.2
  exact hmem.1

/-- What leaves the sessions alone. -/
theorem Sessions.frame (h : Sessions limit m) (hsessions : n.sessions = m.sessions)
    (hconnections : m.connections ⊆ n.connections)
    (hids : ∀ (ws : Nat) (c : Core), n.conns[ws]? = some c → c.peerId ≠ none →
      ∃ d : Core, m.conns[ws]? = some d ∧ d.peerId ≠ none)
    {evs : List Event} (htrace : n.trace = m.trace ++ evs) (hregistered : registrations evs = [])
    (hreplaced : ∀ old, Event.replaced old ∉ evs)
    (hrelayed : ∀ ws target id payload, Event.relayed ws target id payload ∈ evs →
      ∃ d : Core, m.conns[ws]? = some d ∧ d.peerId ≠ none) : Sessions limit n where
  keys := by simpa only [hsessions] using h.keys
  bounded := by simpa only [hsessions] using h.bounded
  held := by
    intro id session hget
    rw [hsessions] at hget ⊢
    obtain ⟨hlive,hhandler,hlast⟩ := h.held id session hget
    exact ⟨hconnections hlive,hhandler,by rw [htrace,latest_append hregistered,hlast]⟩
  replaced := by
    intro old hold
    rw [htrace,List.mem_append] at hold
    obtain ⟨hproof,hnone⟩ := h.replaced old (hold.resolve_right (hreplaced old))
    refine ⟨by rw [htrace,proofs_append,List.map_append]; exact List.mem_append_left _ hproof,?_⟩
    intro c hc
    by_contra hid
    obtain ⟨d,hd,hdid⟩ := hids old c hc hid
    exact hdid (hnone d hd)
  silent := by
    rw [htrace,List.pairwise_append]
    refine ⟨h.silent,List.pairwise_of_forall_mem_list ?_,?_⟩
    · rintro e he f - old target id payload rfl
      exact absurd he (hreplaced old)
    · rintro e he f hf old target id payload rfl rfl
      obtain ⟨d,hd,hid⟩ := hrelayed old target id payload hf
      exact hid ((h.replaced old he).2 d hd)

/-- What touches, ends or forgets sessions, but begins none. -/
theorem Sessions.shrink (h : Sessions limit m) (htrace : n.trace = m.trace)
    (hids : ∀ (ws : Nat) (c : Core), n.conns[ws]? = some c → c.peerId ≠ none →
      ∃ d : Core, m.conns[ws]? = some d ∧ d.peerId ≠ none)
    (hkeys : (JsMap.keys n.sessions.sessions).Nodup)
    (hlength : n.sessions.sessions.length ≤ m.sessions.sessions.length)
    (hhandlers : n.sessions.handlers = m.sessions.handlers)
    (hget : ∀ id session, JsMap.get n.sessions.sessions id = some session →
      session.1 ∈ n.connections ∧
        ∃ old, JsMap.get m.sessions.sessions id = some old ∧ old.1 = session.1) :
    Sessions limit n where
  keys := hkeys
  bounded := hlength.trans h.bounded
  held := by
    intro id session hs
    obtain ⟨hlive,old,hold,hsame⟩ := hget id session hs
    obtain ⟨-,hhandler,hlast⟩ := h.held id old hold
    rw [hsame] at hhandler hlast
    exact ⟨hlive,hhandlers ▸ hhandler,htrace ▸ hlast⟩
  replaced := by
    intro old hold
    rw [htrace] at hold ⊢
    obtain ⟨hproof,hnone⟩ := h.replaced old hold
    refine ⟨hproof,?_⟩
    intro c hc
    by_contra hid
    obtain ⟨d,hd,hdid⟩ := hids old c hc hid
    exact hdid (hnone d hd)
  silent := htrace ▸ h.silent

theorem drop_sublist (ws : Nat) (ids : List PeerId) (sessions : JsMap PeerId (Nat × Nat)) :
    (ids.foldl (SessionManager.drop ws) sessions).Sublist sessions := by
  induction ids generalizing sessions with
  | nil => exact List.Sublist.refl _
  | cons id ids ih =>
    refine (ih _).trans ?_
    unfold SessionManager.drop
    split
    · exact JsMap.delete_sublist _ _
    · exact List.Sublist.refl _

theorem get_drop {ws : Nat} {ids : List PeerId} {sessions : JsMap PeerId (Nat × Nat)} {id : PeerId}
    {session : Nat × Nat}
    (h : JsMap.get (ids.foldl (SessionManager.drop ws) sessions) id = some session) :
    JsMap.get sessions id = some session ∧ (id ∈ ids → session.1 ≠ ws) := by
  induction ids generalizing sessions with
  | nil => exact ⟨h,by simp⟩
  | cons id' ids ih =>
    obtain ⟨hget,hrest⟩ := ih h
    unfold SessionManager.drop at hget
    split at hget
    · have hne : id ≠ id' := by
        rintro rfl
        rw [JsMap.get_delete_self] at hget
        cases hget
      rw [JsMap.get_delete_ne hne] at hget
      exact ⟨hget,by simpa [hne] using hrest⟩
    · next hkeep =>
      refine ⟨hget,?_⟩
      intro hmem
      rcases List.mem_cons.mp hmem with rfl | hmem
      · simpa [hget] using hkeep
      · exact hrest hmem

/-- A pong changes no session but its time. -/
theorem touch_sessions (now ws : Nat) (ids : List PeerId) {sessions : JsMap PeerId (Nat × Nat)}
    (hn : (JsMap.keys sessions).Nodup) :
    (JsMap.keys (ids.foldl (SessionManager.touch now ws) sessions)).Nodup ∧
      (ids.foldl (SessionManager.touch now ws) sessions).length = sessions.length ∧
      ∀ id session, JsMap.get (ids.foldl (SessionManager.touch now ws) sessions) id = some session →
        ∃ old, JsMap.get sessions id = some old ∧ old.1 = session.1 := by
  induction ids generalizing sessions with
  | nil => exact ⟨hn,rfl,fun id session h => ⟨session,h,rfl⟩⟩
  | cons id' ids ih =>
    have hone : (JsMap.keys (SessionManager.touch now ws sessions id')).Nodup ∧
        (SessionManager.touch now ws sessions id').length = sessions.length ∧
        ∀ id session, JsMap.get (SessionManager.touch now ws sessions id') id = some session →
          ∃ old, JsMap.get sessions id = some old ∧ old.1 = session.1 := by
      unfold SessionManager.touch
      split
      · next htouch =>
        obtain ⟨old,hold,hws⟩ : ∃ old, JsMap.get sessions id' = some old ∧ (old.1 == ws) = true := by
          simpa [Option.any_eq_true] using htouch
        refine ⟨JsMap.nodup_keys_set hn id' _,?_,?_⟩
        · simp [JsMap.length_set,JsMap.has,hold]
        · intro id session hget
          by_cases hid : id = id'
          · subst hid
            rw [JsMap.get_set_self] at hget
            cases hget
            exact ⟨old,hold,by simpa using hws⟩
          · rw [JsMap.get_set_ne _ hid] at hget
            exact ⟨session,hget,rfl⟩
      · exact ⟨hn,rfl,fun id session h => ⟨session,h,rfl⟩⟩
    obtain ⟨hkeys,hlength,hget⟩ := ih hone.1
    refine ⟨hkeys,hlength.trans hone.2.1,?_⟩
    intro id session h
    obtain ⟨mid,hmid,hsame⟩ := hget id session h
    obtain ⟨old,hold,hsame'⟩ := hone.2.2 id mid hmid
    exact ⟨old,hold,hsame'.trans hsame⟩

theorem Sessions.touch (h : Sessions limit m) (now ws : Nat) :
    Sessions limit { m with sessions := m.sessions.onPong now ws } := by
  obtain ⟨hkeys,hlength,hget⟩ := touch_sessions now ws (m.sessions.idsOf ws) h.keys
  refine h.shrink rfl (fun v c hc hid => ⟨c,hc,hid⟩) hkeys hlength.le rfl ?_
  intro id session hs
  obtain ⟨old,hold,hsame⟩ := hget id session hs
  exact ⟨hsame ▸ (h.held id old hold).1,old,hold,hsame⟩

theorem Sessions.expire (h : Sessions limit m) (idleTimeoutMs now : Nat) :
    Sessions limit { m with sessions := (m.sessions.cleanupPings idleTimeoutMs now).2 } := by
  have hkeys : (JsMap.keys (m.sessions.sessions.filter fun e =>
      !SessionManager.idle idleTimeoutMs now e.2)).Nodup :=
    h.keys.sublist (List.filter_sublist.map Prod.fst)
  refine h.shrink rfl (fun v c hc hid => ⟨c,hc,hid⟩) hkeys (List.length_filter_le _ _) rfl ?_
  intro id session hs
  have hmem := (List.mem_filter.mp (JsMap.mem_of_get hs)).1
  have hget := JsMap.get_of_mem h.keys hmem
  exact ⟨(h.held id session hget).1,session,hget,rfl⟩

/-- With the close of its connection a session ends. -/
theorem Sessions.close (h : Sessions limit m) (hcounted : m.connections.Nodup) (ws : Nat)
    (c : Core) : Sessions limit (m.close ws c) := by
  have hconns : (m.close ws c).conns = (m.update ws fun c => { c with closed := true }).conns := by
    unfold Image.close
    dsimp only
    split <;> rfl
  have htrace : (m.close ws c).trace = m.trace := by
    unfold Image.close
    dsimp only
    split <;> rfl
  have hsessions : (m.close ws c).sessions = m.sessions.onClose ws := by
    unfold Image.close
    dsimp only
    split <;> rfl
  have hsub := drop_sublist ws (m.sessions.idsOf ws) m.sessions.sessions
  refine h.shrink htrace ?_ ?_ ?_ (by rw [hsessions]; rfl) ?_
  · intro v d hd hid
    rw [hconns] at hd
    obtain ⟨d',hd',rfl⟩ := conns_update hd
    refine ⟨d',hd',?_⟩
    split at hid <;> exact hid
  · rw [hsessions]
    exact h.keys.sublist (hsub.map Prod.fst)
  · rw [hsessions]
    exact hsub.length_le
  · intro id session hs
    rw [hsessions] at hs
    obtain ⟨hget,hne⟩ := get_drop hs
    obtain ⟨hlive,hhandler,-⟩ := h.held id session hget
    have hother : session.1 ≠ ws := by
      intro heq
      refine hne (List.mem_map.mpr ⟨(session.1,id),?_,rfl⟩) heq
      exact List.mem_filter.mpr ⟨hhandler,by simp [heq]⟩
    refine ⟨?_,session,hget,rfl⟩
    unfold Image.close
    dsimp only
    split
    · exact (hcounted.mem_erase_iff).mpr ⟨hother,hlive⟩
    · exact hlive

variable {ρ : Type} {cfg : Config ρ} {Signs : Bytes → Bytes → Prop}

/-- The state of the connections and the trace after a registration. -/
theorem register_eq (k : Image) (ws : Nat) (id : PeerId) (replaced : Option Nat)
    (hold : ∀ old, replaced = some old → old ≠ ws ∧ old ∈ k.connections) :
    (k.register ws id replaced).trace =
        k.trace ++ [.registered ws id] ++ replaced.toList.map Event.replaced ∧
      (k.register ws id replaced).sessions = k.sessions ∧
      (k.register ws id replaced).connections = k.connections ∧
      ∀ v, (k.register ws id replaced).conns[v]? = (k.conns[v]?).map fun c =>
        if ws = v then named id c else if replaced = some v then renamed c else c := by
  cases replaced with
  | none =>
    refine ⟨by simp [Image.register],rfl,rfl,?_⟩
    intro v
    simp only [Image.register,getElem?_update,conns_log]
    by_cases hv : ws = v <;> simp [hv]
  | some old =>
    obtain ⟨hne,hmem⟩ := hold old rfl
    have hmem' : old ∈ ((k.log (.registered ws id)).update ws (named id)).connections := hmem
    simp only [Image.register,Image.replace,if_neg hne,if_pos hmem']
    refine ⟨by simp,rfl,rfl,?_⟩
    intro v
    simp only [getElem?_update,conns_log]
    by_cases hv : ws = v
    · subst hv
      simp [hne]
    · by_cases ho : old = v <;> simp [hv,ho]

theorem silent_append {trace evs : List Event} (h : trace.Pairwise Silent)
    (hevs : ∀ e ∈ evs, ∀ ws target id payload, e ≠ .relayed ws target id payload) :
    (trace ++ evs).Pairwise Silent := by
  rw [List.pairwise_append]
  refine ⟨h,List.pairwise_of_forall_mem_list ?_,?_⟩
  · exact fun _ _ f hf old target id payload _ => hevs f hf old target id payload
  · exact fun _ _ f hf old target id payload _ => hevs f hf old target id payload

theorem registerSession_ok {k sessions : SessionManager} {ws now : Nat} {id : PeerId}
    {replaced : Option Nat}
    (h : k.registerSession limit now ws id = (.ok replaced,sessions)) :
    (∃ old, JsMap.get k.sessions id = some old ∧ old.1 = ws) ∨
      sessions = ⟨JsMap.set k.sessions id (ws,now),k.handlers ++ [(ws,id)]⟩ ∧
        ((∃ old, JsMap.get k.sessions id = some old ∧ old.1 ≠ ws ∧ replaced = some old.1) ∨
          JsMap.get k.sessions id = none ∧ k.sessions.length < limit ∧ replaced = none) := by
  unfold SessionManager.registerSession at h
  dsimp only at h
  split at h
  · next old hget =>
    split at h
    · next hws => exact .inl ⟨old,hget,hws⟩
    · next hws =>
      obtain ⟨hok,rfl⟩ := Prod.mk.inj h
      cases hok
      exact .inr ⟨rfl,.inl ⟨old,hget,hws,rfl⟩⟩
  · next hget =>
    split at h
    · simp at h
    · next hroom =>
      obtain ⟨hok,rfl⟩ := Prod.mk.inj h
      cases hok
      exact .inr ⟨rfl,.inr ⟨hget,by omega,rfl⟩⟩

theorem Sessions.join (h : Sessions cfg.maxSessions m) (hh : Handshakes cfg Signs m)
    (hl : Counted cfg.maxConnectionsPerAddress m) {ws now : Nat} {c : Core} {id : PeerId}
    {pubkey : Bytes} {host : String} {replaced : Option Nat} {sessions : SessionManager}
    (hc : m.conns[ws]? = some c) (hopen : c.closed = false) (hn : c.nonce ≠ [])
    (hr : m.sessions.registerSession cfg.maxSessions now ws id = (.ok replaced,sessions)) :
    Sessions cfg.maxSessions (Image.register
      { m.prove ws c.nonce id pubkey host with sessions := sessions } ws id replaced) := by
  have hnew := (hh.unspent ws c hc hn).2
  have hlive : ws ∈ m.connections := (hl.live ws).mpr ⟨c.address,by simp [Image.seats,hc,hopen]⟩
  have hproof : ∀ {v : Nat} {id' : PeerId}, latest id' m.trace = some v →
      v ∈ (proofs m.trace).map Prod.fst := by
    intro v id' hlast
    exact hh.registered (List.mem_map_of_mem (registered_of_latest hlast))
  rcases registerSession_ok hr with ⟨old,hget,rfl⟩ | ⟨rfl,hreplaced⟩
  · exact absurd (hproof (h.held id old hget).2.2) hnew
  have hold : ∀ old, replaced = some old →
      old ≠ ws ∧ old ∈ m.connections ∧ old ∈ (proofs m.trace).map Prod.fst := by
    intro old heq
    rcases hreplaced with ⟨session,hget,hne,rfl⟩ | ⟨-,-,rfl⟩
    · cases heq
      obtain ⟨hin,-,hlast⟩ := h.held id session hget
      exact ⟨hne,hin,hproof hlast⟩
    · cases heq
  obtain ⟨k,hk⟩ : ∃ k : Image, k = { m.prove ws c.nonce id pubkey host with
      sessions := ⟨JsMap.set m.sessions.sessions id (ws,now),
        m.sessions.handlers ++ [(ws,id)]⟩ } := ⟨_,rfl⟩
  have hktrace : k.trace = m.trace ++ [.proved ws c.nonce id pubkey host] := by rw [hk]; rfl
  have hkconnections : k.connections = m.connections := by rw [hk]; rfl
  have hksessions : k.sessions =
      ⟨JsMap.set m.sessions.sessions id (ws,now),m.sessions.handlers ++ [(ws,id)]⟩ := by rw [hk]
  have hkconns : ∀ v, ws ≠ v → k.conns[v]? = m.conns[v]? := by
    intro v hv
    have hsame : k.conns = (m.update ws spent).conns := by rw [hk]; rfl
    rw [hsame,getElem?_update,if_neg hv]
  rw [← hk]
  clear hk hr
  obtain ⟨htrace,hsessions,hconnections,hconns⟩ := register_eq k ws id replaced fun old heq =>
    ⟨(hold old heq).1,hkconnections ▸ (hold old heq).2.1⟩
  have hafter : registrations (replaced.toList.map Event.replaced) = [] := by
    cases replaced <;> rfl
  rw [hksessions] at hsessions
  rw [hkconnections] at hconnections
  rw [hktrace] at htrace
  constructor
  case keys =>
    rw [hsessions]
    exact JsMap.nodup_keys_set h.keys id _
  case bounded =>
    rw [hsessions]
    have hlength := JsMap.length_set m.sessions.sessions id (ws,now)
    have hbound := h.bounded
    rcases hreplaced with ⟨session,hget,-,-⟩ | ⟨hget,hroom,-⟩
    · simp only [JsMap.has,hget,Option.isSome_some,if_true] at hlength
      simp only
      omega
    · simp only [JsMap.has,hget,Option.isSome_none,Bool.false_eq_true,if_false] at hlength
      simp only
      omega
  case held =>
    intro id' session hs
    rw [hsessions] at hs ⊢
    rw [hconnections,htrace,latest_append hafter]
    by_cases hid : id' = id
    · subst hid
      rw [JsMap.get_set_self] at hs
      cases hs
      exact ⟨hlive,by simp,latest_registered _ _ _⟩
    · rw [JsMap.get_set_ne _ hid] at hs
      obtain ⟨hin,hhandler,hlast⟩ := h.held id' session hs
      refine ⟨hin,List.mem_append_left _ hhandler,?_⟩
      rw [latest_registered_ne hid,latest_append rfl,hlast]
  case replaced =>
    intro old hmem
    rw [htrace] at hmem ⊢
    have hcases : Event.replaced old ∈ m.trace ∨ replaced = some old := by
      cases replaced with
      | none => simpa using hmem
      | some old' => simpa [eq_comm] using hmem
    have hproved : old ∈ (proofs m.trace).map Prod.fst := by
      rcases hcases with hbefore | hnow
      · exact (h.replaced old hbefore).1
      · exact (hold old hnow).2.2
    have hne : ws ≠ old := (ne_of_mem_of_not_mem hproved hnew).symm
    refine ⟨by simp only [proofs_append,List.map_append,List.mem_append,hproved,true_or],?_⟩
    intro d hd
    rw [hconns,hkconns old hne] at hd
    obtain ⟨e,he,rfl⟩ := Option.map_eq_some_iff.mp hd
    rw [if_neg hne]
    rcases hcases with hbefore | hnow
    · split
      · rfl
      · exact (h.replaced old hbefore).2 e he
    · rw [if_pos hnow]
      rfl
  case silent =>
    rw [htrace,List.append_assoc,List.append_assoc]
    refine silent_append h.silent ?_
    rintro e he v target id' payload rfl
    cases replaced <;> simp at he

theorem Sessions.move (h : Sessions cfg.maxSessions m) (hh : Handshakes cfg Signs m)
    (hl : Counted cfg.maxConnectionsPerAddress m) (hm : Move cfg Signs m n) :
    Sessions cfg.maxSessions n := by
  have hsame : ∀ {k : Image}, k.conns = m.conns → ∀ (ws : Nat) (c : Core),
      k.conns[ws]? = some c → c.peerId ≠ none →
        ∃ d : Core, m.conns[ws]? = some d ∧ d.peerId ≠ none := by
    intro k hk ws c hc hid
    exact ⟨c,hk ▸ hc,hid⟩
  have hupdate : ∀ f : Core → Core, (∀ c, (f c).peerId = c.peerId) → ∀ (v ws : Nat) (c : Core),
      (m.update v f).conns[ws]? = some c → c.peerId ≠ none →
        ∃ d : Core, m.conns[ws]? = some d ∧ d.peerId ≠ none := by
    intro f hf v ws c hc hid
    obtain ⟨d,hd,rfl⟩ := conns_update hc
    refine ⟨d,hd,?_⟩
    split at hid
    · rwa [hf] at hid
    · exact hid
  cases hm with
  | idle => exact h
  | accept address host hroom =>
    refine h.frame rfl (by simp) ?_ (List.append_nil _).symm rfl (by simp) (by simp)
    intro ws c hc hid
    by_cases hlt : ws < m.conns.length
    · exact ⟨c,by rwa [List.getElem?_append_left hlt] at hc,hid⟩
    · rw [List.getElem?_append_right (by omega),List.getElem?_singleton] at hc
      split at hc
      · cases hc
        exact absurd rfl hid
      · cases hc
  | unsaid htask =>
    exact h.frame rfl (List.Subset.refl _) (hsame rfl) (List.append_nil _).symm rfl (by simp) (by simp)
  | @hello i ws rest nonce htask hn =>
    exact h.frame rfl (List.Subset.refl _)
      (hupdate (fun c => { c with nonce := nonce }) (fun _ => rfl) ws) rfl rfl (by simp) (by simp)
  | spend ws =>
    exact h.frame rfl (List.Subset.refl _) (hupdate spent (fun _ => rfl) ws)
      (List.append_nil _).symm rfl (by simp) (by simp)
  | prove hc hn hg =>
    exact h.frame rfl (List.Subset.refl _) (hupdate spent (fun _ => rfl) _) rfl rfl (by simp)
      (by simp)
  | join hc hopen hid hn hg hr => exact h.join hh hl hc hopen hn hr
  | @relay ws target c id payload hc hid =>
    refine h.frame rfl (List.Subset.refl _) (hsame rfl) rfl rfl (by simp) ?_
    intro v target' id' payload' hmem
    obtain ⟨rfl,-⟩ := Event.relayed.inj (List.mem_singleton.mp hmem)
    exact ⟨c,hc,by simp [hid]⟩
  | touch now ws => exact h.touch now ws
  | expire now => exact h.expire cfg.idleTimeoutMs now
  | close hc => exact h.close hl.nodup _ _

end Sessions

section Runs
variable {ρ : Type} (cfg : Config ρ) (Signs : Bytes → Bytes → Prop)

structure Inv (m : Image) : Prop where
  counted : Counted cfg.maxConnectionsPerAddress m
  handshakes : Handshakes cfg Signs m
  sessions : Sessions cfg.maxSessions m

/-- What holds of a tracker in every state: who relays, how often a nonce and a connection serve,
whose the sessions are and how many, and how many connections an address has. -/
structure Safe (s : State ρ) : Prop where
  authentic : ∀ ws target id payload, Event.relayed ws target id payload ∈ s.trace →
    ∃ c nonce pubkey host message, s.conns[ws]? = some c ∧ Event.hello ws nonce ∈ s.trace ∧
      derivePeerId cfg.sodium pubkey = id ∧ hostAccepted cfg c.host host = true ∧
      trackerJoinMessage cfg.lower nonce id host = .ok message ∧ Signs pubkey message
  spentOnce : ((proofs s.trace).map Prod.fst).Nodup
  nonceOnce : ((hellos s.trace).map Prod.snd).Nodup → ((proofs s.trace).map Prod.snd).Nodup
  joinOnce : ((registrations s.trace).map Prod.fst).Nodup
  oneSession : (JsMap.keys s.sessions.sessions).Nodup
  newest : ∀ id session, JsMap.get s.sessions.sessions id = some session →
    latest id s.trace = some session.1
  replacedSilent : ∀ before after old, s.trace = before ++ .replaced old :: after →
    ∀ target id payload, Event.relayed old target id payload ∉ after
  sessionLimit : s.sessions.sessions.length ≤ cfg.maxSessions
  counted : ∀ address, (JsMap.get s.perAddress address).getD 0 =
    s.conns.countP fun c => decide (c.readyState ≠ .closed) && c.address == address
  addressLimit : ∀ address, (JsMap.get s.perAddress address).getD 0 ≤ cfg.maxConnectionsPerAddress

variable {cfg Signs}

theorem Inv.initial (limiter : ρ) : Inv cfg Signs (State.image { limiter := limiter }) where
  counted :=
    { live := by simp [State.image,Image.seats]
      nodup := List.nodup_nil
      counts := by simp [State.image,Image.seats,JsMap.get]
      within := by simp [State.image,Image.seats] }
  handshakes := by
    constructor <;> simp [State.image,hellos,proofs,registrations]
  sessions := by
    constructor <;> simp [State.image,JsMap.keys,JsMap.get]

theorem Inv.step (hsigns : ∀ sig message key,
      cfg.sodium.verifyDetached sig message key = true → Signs key message)
    {s t : State ρ} {a : Action} (h : Inv cfg Signs s.image)
    (ht : TrackerServer.step cfg s a = some t) : Inv cfg Signs t.image := by
  have hm := step_move hsigns ht
  exact ⟨h.counted.move hm,h.handshakes.move hm,h.sessions.move h.handshakes h.counted hm⟩

/-- A nonce that was said to one connection only is not spent on two. -/
theorem Handshakes.nonceOnce {m : Image} (h : Handshakes cfg Signs m)
    (hn : ((hellos m.trace).map Prod.snd).Nodup) : ((proofs m.trace).map Prod.snd).Nodup := by
  have hsub : proofs m.trace ⊆ hellos m.trace := by
    intro e he
    obtain ⟨id,pubkey,host,he⟩ := mem_proofs.mp he
    exact (h.good _ _ _ _ _ he).1
  refine (List.Nodup.of_map _ h.spentOnce).map_on ?_
  intro a ha b hb hsame
  exact List.inj_on_of_nodup_map hn (hsub ha) (hsub hb) hsame

theorem Inv.safe {s : State ρ} (h : Inv cfg Signs s.image) : Safe cfg Signs s := by
  have hcount : ∀ address, s.image.seats.countP (taken address) =
      s.conns.countP fun c => decide (c.readyState ≠ .closed) && c.address == address := by
    intro address
    simp only [State.image,Image.seats,List.map_map,List.countP_map]
    refine List.countP_congr ?_
    intro c _
    simp [taken,Connection.core]
  constructor
  case authentic =>
    intro ws target id payload hmem
    obtain ⟨nonce,pubkey,host,hproved⟩ := h.handshakes.relayed ws target id payload hmem
    obtain ⟨hhello,c,hc,hid,hhost,message,hmessage,hsigned⟩ := h.handshakes.good _ _ _ _ _ hproved
    obtain ⟨conn,hconn,rfl⟩ : ∃ conn, s.conns[ws]? = some conn ∧ conn.core = c := by
      simpa [State.image] using hc
    have hsaid : Event.hello ws nonce ∈ s.trace := by
      obtain ⟨e,he,heq⟩ := List.mem_filterMap.mp hhello
      cases e with
      | hello v n =>
        cases heq
        exact he
      | _ => cases heq
    exact ⟨conn,nonce,pubkey,host,message,hconn,hsaid,hid,hhost,hmessage,hsigned⟩
  case spentOnce => exact h.handshakes.spentOnce
  case nonceOnce => exact h.handshakes.nonceOnce
  case joinOnce => exact h.handshakes.registeredOnce
  case oneSession => exact h.sessions.keys
  case newest => exact fun id session hs => (h.sessions.held id session hs).2.2
  case replacedSilent =>
    intro before after old heq target id payload hmem
    have hsilent : s.trace.Pairwise Silent := h.sessions.silent
    rw [heq,List.pairwise_append] at hsilent
    exact (List.pairwise_cons.mp hsilent.2.1).1 _ hmem old target id payload rfl rfl
  case sessionLimit => exact h.sessions.bounded
  case counted => exact fun address => (h.counted.counts address).trans (hcount address)
  case addressLimit =>
    exact fun address => (h.counted.counts address).trans_le (h.counted.within address)

/-- Over every interleaving of what may happen to its connections, a tracker is safe. -/
theorem safe_run (cfg : Config ρ) (Signs : Bytes → Bytes → Prop)
    (hsigns : ∀ sig message key,
      cfg.sodium.verifyDetached sig message key = true → Signs key message)
    (limiter : ρ) {as : List Action} {s : State ρ}
    (h : Machine.run (step cfg) { limiter := limiter } as = some s) : Safe cfg Signs s := by
  have hinv : Inv cfg Signs s.image :=
    Machine.invariant_run' (I := fun s : State ρ => Inv cfg Signs s.image)
      (fun _ _ _ hs ht => hs.step hsigns ht) (Inv.initial limiter) h
  exact hinv.safe

def lastBytes (bs : Bytes) : Bytes := (List.replicate 32 0 ++ bs).drop bs.length

def sampleConfig : Config Unit where
  sodium :=
    { sha256 := lastBytes
      pwhash := fun _ _ _ _ => []
      signDetached := fun message privateKey => privateKey ++ lastBytes message
      verifyDetached := fun signature message publicKey =>
        signature == publicKey ++ lastBytes message }
  lower := id
  limiter := ⟨fun _ _ _ => (true,()),fun _ _ => ()⟩
  powParams := ⟨0,1,1⟩
  allowedHosts := none
  maxSessions := 10
  idleTimeoutMs := 1000
  maxConnectionsPerAddress := 2
  peersPerJoin := 8

def sampleNonce : { bs : Bytes // bs.length = challengeBytes } := ⟨List.replicate 32 9,by decide⟩

/-- Two connections from one place, of which one says what is no message and one is closed. -/
def sampleRun : List Action :=
  [.accept "a" (some "h"),.accept "a" none,.accept "a" none,.hello 1 sampleNonce,
    .hello 0 sampleNonce,.message 0 none,.pong 1,.cleanupPings,.close 1]

theorem safe_run_sample : ∃ s, Machine.run (step sampleConfig) { limiter := () } sampleRun = some s ∧
    Safe sampleConfig (fun key message => ∃ sig,
      sampleConfig.sodium.verifyDetached sig message key = true) s := by
  obtain ⟨s,hs⟩ : ∃ s, Machine.run (step sampleConfig) { limiter := () } sampleRun = some s :=
    ⟨_,rfl⟩
  exact ⟨s,hs,safe_run sampleConfig _ (fun sig _ _ h => ⟨sig,h⟩) () hs⟩

end Runs

end TrackerServer
