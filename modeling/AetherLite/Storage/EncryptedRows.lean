import Mathlib.Data.List.Sort
import AetherLite.Storage.ThreadStats

/-! What an unlocked store reads from its rows and writes into them: the slots it keeps for others,
the posts, the keys of the boards and the settings. -/
set_option autoImplicit false

namespace Storage

open Js Program

namespace IndexedDBStore

section
variable (p : Primitives) (w : World)

/-- `v ?? undefined` -/
def orUndefined : Option Val → Val
  | some v => if v.isNullish then .undefined else v
  | none => .undefined

def readMailbox (topicHash : String) : Action Val := do
  let vault ← requireVault
  let k ← .lift (vault.index p "mailbox" topicHash)
  match ← read fun db => JsMap.get db.emailbox k with
  | none => pure .undefined
  | some row => do
    let opened ← .lift (vault.openRecord p row.blob ("emailbox:" ++ k))
    pure (orUndefined opened)

/-- `get` -/
def getMailbox (topicHash : String) : Action Val := do
  if (← get).opened = false then pure .undefined
  else do
    let record ← readMailbox p topicHash
    pure (record.field "entries")

/-- `Encoding.toHex`; what it makes of anything but bytes is given by `other`. -/
def hexOf (other : Val → Except Thrown String) : Val → Except Thrown String
  | .bytes bs => .ok (Bytes.toHex bs)
  | v => other v

/-- The entries that a record does not have yet. -/
def addedEntries (other : Val → Except Thrown String) (entries : List Val)
    (newEntries : List Bytes) : Except Thrown (List Bytes) := do
  let existingHexes ← entries.mapM (hexOf other)
  .ok (newEntries.filter fun e => !existingHexes.contains (Bytes.toHex e))

/-- `put`. A record that opens has the shape in which it was sealed. -/
def putMailbox (other : Val → Except Thrown String) (topicHash : String)
    (newEntries : List Bytes) : Action Unit := do
  if (← get).opened = false then pure ()
  else do
    let record ← readMailbox p topicHash
    if record.truthy then
      match mailboxRow? record with
      | none => throw (.typeError "record.entries.map is not a function")
      | some (topicHash,entries) => do
        let added ← .lift (addedEntries other entries newEntries)
        if added = [] then pure ()
        else do
          let now ← dateNow w
          writeMailbox p w ⟨topicHash,entries ++ added.map .bytes,.num (.ofNat now)⟩
    else do
      let now ← dateNow w
      writeMailbox p w ⟨topicHash,newEntries.map .bytes,.num (.ofNat now)⟩

/-- The rows with an index value, in the order of their ids. -/
def rowsOfThread (db : Database) (bt : String) : List PostRow :=
  (db.eposts.filter fun row => row.bt = bt).insertionSort fun r r' => r.id ≤ r'.id

def isOfThread (boardId threadId : String) (post : Val) : Bool :=
  post.truthy && (post.field "boardId").strictEq (.str boardId) &&
    (post.field "threadId").strictEq (.str threadId)

/-- `{ ...post, id }` -/
def withId (post : Val) (id : Nat) : Val :=
  match post with
  | .obj fs => .obj (JsMap.set fs "id" (.num (.ofNat id)))
  | _ => .obj [("id",.num (.ofNat id))]

def openPost (vault : DataVault) (boardId threadId bt : String) (row : PostRow) :
    Except Thrown (Option Val) := do
  let opened ← vault.openRecord p row.blob ("eposts:" ++ bt)
  .ok ((opened.filter (isOfThread boardId threadId)).map fun post => withId post row.id)

/-- `sort` by the difference of a property. As soon as there are two elements, each is compared. -/
def sortByField (key : String) (vs : List Val) : Except Thrown (List Val) :=
  if vs.length < 2 then .ok vs
  else do
    let keyed ← vs.mapM fun v => do .ok (v,← (v.field key).toNumber)
    .ok ((sortBy (fun a b => a.2.sub b.2) keyed).map Prod.fst)

def openPosts (vault : DataVault) (boardId threadId bt : String) (rows : List PostRow) :
    Except Thrown (List Val) := do
  let opened ← rows.mapM (openPost p vault boardId threadId bt)
  sortByField "timestamp" (opened.filterMap id)

def getPosts (boardId threadId : String) : Action (List Val) := do
  if (← get).opened = false then pure []
  else do
    let vault ← requireVault
    let bt ← .lift (postIndex p vault boardId threadId)
    let rows ← read fun db => rowsOfThread db bt
    .lift (openPosts p vault boardId threadId bt rows)

def boardRecord (boardId : String) (key : Bytes) (addedAt : Nat) : Val := .obj [
  ("boardId",.str boardId),
  ("key",.bytes key),
  ("addedAt",.num (.ofNat addedAt))]

def saveBoard (boardId : String) (key : Bytes) : Action Unit := do
  let vault ← requireVault
  let k ← .lift (vault.index p "boardkey" boardId)
  let addedAt ← dateNow w
  let blob ← sealRecord p w vault (boardRecord boardId key addedAt) ("boards:" ++ k)
  write fun db => { db with boards := JsMap.set db.boards k (.bytes blob) }

/-- The key in a record, if that is one of the board. -/
def keyOfBoard (boardId : String) : Option Val → Val
  | some r => if r.truthy && (r.field "boardId").strictEq (.str boardId) then r.field "key" else .null
  | none => .null

def getBoardKey (boardId : String) : Action Val := do
  let vault ← requireVault
  let k ← .lift (vault.index p "boardkey" boardId)
  match ← read fun db => JsMap.get db.boards k with
  | none => pure .null
  | some blob => do
    let opened ← .lift (vault.openRecord p blob ("boards:" ++ k))
    pure (keyOfBoard boardId opened)

def openBoards (vault : DataVault) (rows : List (String × Val)) : Except Thrown (List Val) := do
  let opened ← rows.mapM fun e => vault.openRecord p e.2 ("boards:" ++ e.1)
  sortByField "addedAt" ((opened.filterMap id).filter fun r => !r.strictEq .null)

def listBoards : Action (List Val) := do
  let vault ← requireVault
  let rows ← read fun db => db.boards.insertionSort fun e f => e.1 ≤ f.1
  .lift (openBoards p vault rows)

def removeBoard (boardId : String) : Action Unit := do
  let vault ← requireVault
  let k ← .lift (vault.index p "boardkey" boardId)
  write fun db => { db with boards := JsMap.delete db.boards k }

def getSetting (name : String) : Action Val := do
  let vault ← requireVault
  let k ← .lift (vault.index p "kv" name)
  match ← read fun db => JsMap.get db.kv k with
  | none => pure .undefined
  | some blob => do
    let opened ← .lift (vault.openRecord p blob ("kv:" ++ k))
    pure (orUndefined opened)

def setSetting (name : String) (value : Val) : Action Unit := do
  let vault ← requireVault
  let k ← .lift (vault.index p "kv" name)
  let blob ← sealRecord p w vault value ("kv:" ++ k)
  write fun db => { db with kv := JsMap.set db.kv k (.bytes blob) }

end

end IndexedDBStore

end Storage
