import AetherLite.Lib.Bytes
import AetherLite.Lib.Shuffle

/-! Introducing neighbours to each other: which of them an answer names, and that chance
favours none. -/
set_option autoImplicit false

namespace PEXHandler

open Shuffle

abbrev PeerId := String

def maxPexEntries : Nat := 8

/-- The values of `Uint32Array`. -/
def wordSize : Nat := 0x100000000

structure Peer where
  peerId : PeerId
  isConnected : Bool
  isVerified : Bool
  /-- The claim, where it is known to be in the form of one. -/
  pubkey : Option Bytes
  powCounter : Option Nat
  deriving DecidableEq

/-- What is told of a neighbour. -/
inductive Entry where
  | claim (id : PeerId) (pubkey : Bytes) (powCounter : Nat)
  | bare (id : PeerId)
  deriving DecidableEq

def Entry.id : Entry → PeerId
  | .claim id _ _ | .bare id => id

instance : Inhabited Entry := ⟨.bare ""⟩

def entryOf (p : Peer) : Entry :=
  match p.pubkey,p.powCounter with
  | some pubkey,some powCounter => .claim p.peerId pubkey powCounter
  | _,_ => .bare p.peerId

/-- Whom an answer to `sender` may name. -/
def eligible (sender : PeerId) (p : Peer) : Bool :=
  p.peerId ≠ sender && p.isConnected && p.isVerified

def candidates (peers : List Peer) (sender : PeerId) : List Entry :=
  (peers.filter (eligible sender)).map entryOf

/-- The loop draws words until it keeps one; no word is drawn where there is no choice. -/
def secureRandomIndex (n : Nat) (words : List Nat) : Option Nat :=
  if n ≤ 1 then some 0
  else (words.find? fun w => w < limit wordSize n).map fun w => w % n

/-- `random n` are the words that the call for `n` choices draws, up to the one it keeps. -/
def handlePexRequest (peers : List Peer) (sender : PeerId) (random : Nat → List Nat) :
    List Entry :=
  let all := candidates peers sender
  (shuffle (fun i => (secureRandomIndex (i+1) (random (i+1))).getD 0) (all.length-1) all).take
    maxPexEntries

theorem entryOf_id (p : Peer) : (entryOf p).id = p.peerId := by
  unfold entryOf
  split
  · rfl
  · rfl

theorem candidates_nodup {peers : List Peer} (hn : (peers.map Peer.peerId).Nodup)
    (sender : PeerId) : (candidates peers sender).Nodup := by
  have hids : ((candidates peers sender).map Entry.id).Nodup := by
    rw [candidates,List.map_map]
    have hfun : Entry.id ∘ entryOf = Peer.peerId := funext entryOf_id
    rw [hfun]
    exact hn.sublist (List.filter_sublist.map _)
  exact List.Nodup.of_map _ hids

theorem secureRandomIndex_le (i : Nat) (words : List Nat) :
    (secureRandomIndex (i+1) words).getD 0 ≤ i := by
  unfold secureRandomIndex
  split
  · exact Nat.zero_le _
  · cases words.find? fun w => w < limit wordSize (i+1) with
    | none => exact Nat.zero_le _
    | some w => exact Nat.lt_succ_iff.mp (Nat.mod_lt w (Nat.succ_pos i))

/-- Whatever is drawn, the answer names as many neighbours as there are and as fit, each of
them once, and none that is not connected and verified or that asked. -/
theorem handlePexRequest_names {peers : List Peer} (hn : (peers.map Peer.peerId).Nodup)
    (sender : PeerId) (random : Nat → List Nat) :
    (handlePexRequest peers sender random).Nodup ∧
      (handlePexRequest peers sender random).length =
        min maxPexEntries (peers.filter (eligible sender)).length ∧
      ∀ e ∈ handlePexRequest peers sender random, ∃ p ∈ peers,
        eligible sender p = true ∧ e = entryOf p := by
  have hle : ∀ i, (secureRandomIndex (i+1) (random (i+1))).getD 0 ≤ i :=
    fun i => secureRandomIndex_le i _
  have hperm := shuffle_perm hle (i := (candidates peers sender).length-1)
    (l := candidates peers sender) (by omega)
  refine ⟨?_,?_,fun e he => ?_⟩
  · exact (hperm.nodup_iff.mpr (candidates_nodup hn sender)).sublist (List.take_sublist _ _)
  · rw [handlePexRequest,List.length_take,hperm.length_eq,candidates,List.length_map]
  · have hm := hperm.subset (List.mem_of_mem_take he)
    obtain ⟨p,hp,rfl⟩ := List.mem_map.mp hm
    obtain ⟨hp,he⟩ := List.mem_filter.mp hp
    exact ⟨p,hp,he,rfl⟩

/-- The words of each call: some that it does not keep, and one. -/
def drawn (skipped : Nat → List Nat) {n : Nat} (w : Words wordSize n) (k : Nat) : List Nat :=
  skipped k ++ if h : k-1 < n then [(w ⟨k-1,h⟩).1] else []

theorem secureRandomIndex_drawn {skipped : Nat → List Nat}
    (hskip : ∀ k, ∀ x ∈ skipped k, ¬x < limit wordSize k) {n : Nat} {w : Words wordSize n}
    (hw : w ∈ accepted wordSize n) {k : Nat} (h0 : 0 < k) (hk : k < n) :
    (secureRandomIndex (k+1) (drawn skipped w (k+1))).getD 0 = w.draws.at k := by
  have hkeep : (w ⟨k,hk⟩).1 < limit wordSize (k+1) := (Finset.mem_filter.mp hw).2 ⟨k,hk⟩
  have hdrawn : drawn skipped w (k+1) = skipped (k+1) ++ [(w ⟨k,hk⟩).1] := by
    simp only [drawn,Nat.add_sub_cancel,dif_pos hk]
  have hnone : (skipped (k+1)).find? (fun w => w < limit wordSize (k+1)) = none := by
    rw [List.find?_eq_none]
    intro x hx
    simpa using hskip (k+1) x hx
  rw [secureRandomIndex,if_neg (by omega),hdrawn,List.find?_append,hnone,Option.none_or,
    List.find?_cons_of_pos (by simpa using hkeep),Words.at_draws w hk]
  rfl

/-- No neighbour that may be named has a better chance than another: of the words that are
kept, the share that name it is the share of the entries that fit. -/
theorem handlePexRequest_fair {peers : List Peer} (hn : (peers.map Peer.peerId).Nodup)
    {sender : PeerId} {skipped : Nat → List Nat}
    (hskip : ∀ k, ∀ x ∈ skipped k, ¬x < limit wordSize k) {p : Peer} (hp : p ∈ peers)
    (he : eligible sender p = true) :
    (candidates peers sender).length*
        ((accepted wordSize (candidates peers sender).length).filter fun w =>
          entryOf p ∈ handlePexRequest peers sender (drawn skipped w)).card =
      min maxPexEntries (candidates peers sender).length*
        (accepted wordSize (candidates peers sender).length).card := by
  have hmem : entryOf p ∈ candidates peers sender :=
    List.mem_map_of_mem (List.mem_filter.mpr ⟨hp,he⟩)
  rw [← length_mul_card_words wordSize (candidates_nodup hn sender) hmem maxPexEntries]
  congr 2
  refine Finset.filter_congr fun w hw => ?_
  have hsame : shuffle (fun i => (secureRandomIndex (i+1) (drawn skipped w (i+1))).getD 0)
      ((candidates peers sender).length-1) (candidates peers sender) =
        shuffled (candidates peers sender) w.draws := by
    refine shuffle_congr (fun k h0 hk => ?_) _
    exact secureRandomIndex_drawn hskip hw h0 (by omega)
  rw [handlePexRequest,hsame]

def samplePeers : List Peer := [
  ⟨"a",true,true,some [1],some 7⟩,⟨"b",true,true,none,none⟩,⟨"c",true,false,none,none⟩,
  ⟨"d",true,true,none,some 3⟩,⟨"e",true,true,none,none⟩]

/-- Where there is a word that is not kept, the least of them comes first. -/
def sampleSkipped (k : Nat) : List Nat :=
  if limit wordSize k < wordSize then [limit wordSize k] else []

theorem handlePexRequest_fair_sample :
    (candidates samplePeers "e").length*
        ((accepted wordSize (candidates samplePeers "e").length).filter fun w =>
          entryOf ⟨"b",true,true,none,none⟩ ∈
            handlePexRequest samplePeers "e" (drawn sampleSkipped w)).card =
      min maxPexEntries (candidates samplePeers "e").length*
        (accepted wordSize (candidates samplePeers "e").length).card := by
  have hskip : ∀ k, ∀ x ∈ sampleSkipped k, ¬x < limit wordSize k := by
    intro k x hx
    unfold sampleSkipped at hx
    split at hx
    · rw [List.mem_singleton.mp hx]
      exact lt_irrefl _
    · cases hx
  exact handlePexRequest_fair (by decide) hskip (by decide) (by decide)

end PEXHandler
