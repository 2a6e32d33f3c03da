import AetherLite.Lib.JsValue

/-! What the two orchestrators read from the store and write to it. -/
set_option autoImplicit false

namespace Logic

open Js

def boardMetaThreadId : String := "__board_meta__"

/-- A row of the thread statistics. -/
structure ThreadRow where
  boardId : String
  threadId : Val
  maxPow : Number
  createdAt : Number

/-- A stored post. -/
structure PostRow where
  boardId : String
  threadId : String
  payload : Bytes
  timestamp : Nat

def getThreads (stored : List ThreadRow) (boardId : String) : List ThreadRow :=
  stored.filter fun r => r.boardId = boardId

def getPosts (stored : List PostRow) (boardId threadId : String) : List PostRow :=
  (stored.filter fun r => r.boardId = boardId ∧ r.threadId = threadId).mergeSort
    fun r q => r.timestamp ≤ q.timestamp

/-- A call of `db.save`: the payload is the raw body, or the JSON of the packet. -/
structure PostSave where
  boardId : String
  threadId : String
  payload : Bytes ⊕ Val
  parents : Val
  cumulativePow : Val
  threadRoot : Val
  createdAt : Val

/-- What a step reads from outside. -/
structure Env where
  now : Number := .fin 0
  degree : Nat := 0

/-- What an awaited promise resolved to. -/
inductive Awaited where
  | done
  | failed
  | threadRows (stored : List ThreadRow)
  | postRows (stored : List PostRow)
  | packet (packet : Val)

/-- `v || w` -/
def orElse (v w : Val) : Val := if v.truthy then v else w

theorem orElse_idem (v w : Val) : orElse (orElse v w) w = orElse v w := by
  by_cases hv : v.truthy = true
  · simp [orElse,hv]
  · simp [orElse,hv]

def packetTimestamp (packet : Val) : Number :=
  match packet.field "timestamp" with
  | .num n => n
  | _ => .nan

theorem getThreads_board {stored : List ThreadRow} {b : String} {r : ThreadRow}
    (h : r ∈ getThreads stored b) : r.boardId = b := by
  simpa using (List.mem_filter.mp h).2

end Logic
