import AetherLite.Lib.Shuffle
import AetherLite.Tracker.TrackerServer

/-! Whom the tracker introduces a node to. -/
set_option autoImplicit false

namespace SessionManager

open TrackerProtocol

def otherIds (m : SessionManager) (excludeId : PeerId) : List PeerId :=
  (JsMap.keys m.sessions).filter fun id => id != excludeId

theorem shuffle_eq (randomInt : Nat → Nat) (i : Nat) (ids : List PeerId) :
    shuffle randomInt i ids = Shuffle.shuffle (fun k => randomInt (k+1)) i ids := by
  induction i generalizing ids with
  | zero => rfl
  | succ i ih => exact ih _

/-- The draws of `randomInt`, one for each number of choices. -/
def randomInt {n : Nat} (d : Shuffle.Draws n) (k : Nat) : Nat := d.at (k-1)

theorem getRandomPeers_eq (m : SessionManager) (excludeId : PeerId) (maxPeers : Nat)
    (d : Shuffle.Draws (m.otherIds excludeId).length) :
    m.getRandomPeers excludeId maxPeers (randomInt d) =
      (Shuffle.shuffled (m.otherIds excludeId) d).take maxPeers := by
  show (shuffle (randomInt d) ((m.otherIds excludeId).length-1) (m.otherIds excludeId)).take
    maxPeers = _
  rw [shuffle_eq]
  rfl

/-- Early or late, a registered node is introduced in the same share of the draws. -/
theorem getRandomPeers_fair {m : SessionManager} (hn : (JsMap.keys m.sessions).Nodup)
    {id excludeId : PeerId} (hid : id ∈ JsMap.keys m.sessions) (hne : id ≠ excludeId)
    (maxPeers : Nat) :
    (m.otherIds excludeId).length*
        (Finset.univ.filter fun d : Shuffle.Draws (m.otherIds excludeId).length =>
          id ∈ m.getRandomPeers excludeId maxPeers (randomInt d)).card =
      min maxPeers (m.otherIds excludeId).length*(m.otherIds excludeId).length.factorial := by
  have hmem : id ∈ m.otherIds excludeId := List.mem_filter.mpr ⟨hid,by simpa using hne⟩
  have hids : (m.otherIds excludeId).Nodup := hn.filter _
  rw [← Shuffle.length_mul_card_draws hids hmem maxPeers]
  congr 2
  refine Finset.filter_congr fun d _ => ?_
  rw [getRandomPeers_eq]

def threeSessions : SessionManager := { sessions := [("a",0,0),("b",1,0),("c",2,5)] }

theorem getRandomPeers_fair_sample :
    (threeSessions.otherIds "a").length*
        (Finset.univ.filter fun d : Shuffle.Draws (threeSessions.otherIds "a").length =>
          "b" ∈ threeSessions.getRandomPeers "a" 1 (randomInt d)).card =
      min 1 (threeSessions.otherIds "a").length*(threeSessions.otherIds "a").length.factorial := by
  have hid : "b" ∈ JsMap.keys threeSessions.sessions := by decide
  have hne : "b" ≠ "a" := by decide
  exact getRandomPeers_fair (by decide) hid hne 1

end SessionManager
