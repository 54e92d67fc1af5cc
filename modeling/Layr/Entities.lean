import Layr.Json
import Layr.Lib.Tables

/-!
# Sync entities

A model of the table `sync_entities` with its triggers (`sync_schema.sql`) and of its writers in
`sync_documents.rs`: an entity is written with the next number of the shared counter, a deleted one
stays as a tombstone, and `prune_entity_tombstones` removes the oldest tombstones above a limit and
raises the floor.

The triggers keep the number of tombstones, and the visibility fences: the number of the last write
that moved an entity into or out of the selection of an agent without leaving a row of its own in
that selection. While an entity is deleted, the fences that its restoration may have to raise are
kept with its tombstone.

The JSON functions of SQLite and the hash are parameters; the highest number of the other tables of
the counter is an input of a write.
-/

namespace Layr.Entities

open Tables

abbrev Key := String × String

structure Entity where
  seq : ℕ
  hash : String
  payload : Option String
  deleted : Bool
deriving DecidableEq, Repr

/-- A key of a fence: the elements of the JSON array in its name. -/
abbrev Fence := List String

/-- The table, and what `sync_entity_meta` holds: the floor, the number of tombstones, the fences,
and for each tombstone its old fences. -/
structure Db where
  entities : Std.ExtTreeMap Key Entity
  floor : ℕ
  count : Option ℤ
  fences : Fence → ℕ
  provenance : Key → List Fence

/-- The hash of a payload, and `$.value.agent` and `$.value.rootId` of a payload, which are texts or
missing in every stored one. -/
structure Env where
  hash : String → String
  agent : Option String → Option String
  rootId : Option String → Option String

def Db.empty : Db := ⟨∅, 0, some 0, fun _ => 0, fun _ => []⟩

/-- `collection LIKE 'transcript:%'`, which ignores the case of ASCII letters. -/
def isTranscript (collection : String) : Bool :=
  (collection.toList.take 11).map Char.toLower == "transcript:".toList

namespace Db

variable (db : Db)

def seqs : List ℕ := db.entities.toList.map fun e => e.2.seq

def entitySeqs : List ℕ :=
  select (fun key (e : Entity) => if isTranscript key.1 then none else some e.seq) db.entities

def entitySequence : ℕ := highest db.entitySeqs

/-- The next number of the shared counter, where the other tables hold numbers up to `others`. -/
def nextSequence (others : ℕ) : ℕ := max (highest db.seqs) others + 1

/-! ## The triggers -/

def counts (key : Key) (e : Entity) : Bool := e.deleted && !isTranscript key.1

/-- `UPDATE sync_entity_meta SET value=value+d`, which needs the counter to be there. -/
def addCount (d : ℤ) : Db := { db with count := db.count.map (· + d) }

def raise (keys : List Fence) (seq : ℕ) : Db :=
  { db with fences := fun k => if k ∈ keys then max (db.fences k) seq else db.fences k }

variable (env : Env)

def rootsOf (db : Db) (agent : Option String) : List String :=
  match agent with
  | none => []
  | some agent =>
    match db.entities[("agentSummary", agent)]? with
    | none => []
    | some e => if e.deleted then [] else (env.rootId e.payload).toList

/-- The fences that select a payload of a collection: its root, its agent and its agent's root. -/
def identities (db : Db) (collection : String) (payload : Option String) : List Fence :=
  (env.rootId payload).toList.map (fun root => [collection, root]) ++
    ((env.agent payload).toList ++ rootsOf env db (env.agent payload)).map fun s =>
      [collection, s, "team"]

/-- `sync_entity_scope_visibility_insert` -/
def visibilityInsert (db : Db) (key : Key) (new : Entity) : Db :=
  if key.1 = "agentSummary" ∧ new.deleted = false then
    db.raise ((env.rootId new.payload).toList.map fun root => ["*", root]) new.seq
  else db

def moved (db : Db) (collection : String) (old new : Entity) : List Fence :=
  let roots := if env.rootId old.payload = env.rootId new.payload then []
    else (env.rootId old.payload).toList ++ (env.rootId new.payload).toList
  let selectors := if env.agent old.payload = env.agent new.payload then []
    else (env.agent old.payload).toList ++ (env.agent new.payload).toList ++
      rootsOf env db (env.agent old.payload) ++ rootsOf env db (env.agent new.payload)
  roots.map (fun root => [collection, root]) ++ selectors.map fun s => [collection, s, "team"]

/-- The roots of an agent before and after a change. -/
def movedRoots (old new : Entity) : List String :=
  (if old.deleted then [] else (env.rootId old.payload).toList) ++
    if new.deleted then [] else (env.rootId new.payload).toList

/-- `sync_entity_scope_visibility_update` -/
def visibilityUpdate (db : Db) (key : Key) (old new : Entity) : Db :=
  let live := old.deleted = false ∧ new.deleted = false
  if (live ∧ (env.agent old.payload ≠ env.agent new.payload ∨
    env.rootId old.payload ≠ env.rootId new.payload)) ∨
      (key.1 = "agentSummary" ∧ old.deleted ≠ new.deleted) then
    let db := db.raise (if live then moved env db key.1 old new else []) new.seq
    db.raise (if key.1 = "agentSummary" then (movedRoots env old new).map fun root =>
      ["*", root] else []) new.seq
  else db

/-- `sync_entity_scope_tombstone_update` -/
def tombstoneUpdate (db : Db) (key : Key) (old new : Entity) : Db :=
  if old.deleted = new.deleted ∨ key.1 = "agentSummary" then db
  else if new.deleted then
    -- no row is written for an entity without fences; what an earlier deletion left is gone since
    -- then
    let selected := identities env db key.1 old.payload
    if selected = [] then db
      else { db with provenance := Function.update db.provenance key selected }
  else
    let old := db.provenance key
    let db := if ∃ fence ∈ old, fence ∉ identities env db key.1 new.payload then db.raise old
      new.seq else db
    { db with provenance := Function.update db.provenance key [] }

/-! ## Writing -/

def upsert (db : Db) (key : Key) (new : Entity) : Db :=
  let written := { db with entities := db.entities.insert key new }
  match db.entities[key]? with
  | none => visibilityInsert env (if counts key new then written.addCount 1 else written) key new
  | some old =>
    let counted := if counts key old = counts key new then written
      else written.addCount (if counts key new then 1 else -1)
    tombstoneUpdate env (visibilityUpdate env counted key old new) key old new

/-- Write the payload of an entity, unless it is stored already. -/
def putEntityPayload (db : Db) (collection id payload : String) (deleted : Bool)
    (others : ℕ) : Db :=
  let new : Entity := ⟨db.nextSequence others, env.hash payload, some payload, deleted⟩
  match db.entities[(collection, id)]? with
  | some current =>
    if current.hash = new.hash ∧ current.deleted = deleted then db else upsert env db
      (collection, id) new
  | none => upsert env db (collection, id) new

/-! ## Pruning -/

def entityTombstoneLimit : ℕ := 10000

def entityTombstonePruneBatch : ℕ := 500

def tombstoneOrder : List (Key × ℕ) :=
  (select (fun key (e : Entity) => if counts key e then some (key, e.seq) else none)
    db.entities).insertionSort
    fun a b => toLex (a.2, toLex a.1) ≤ toLex (b.2, toLex b.1)

def delete (key : Key) : Db :=
  match db.entities[key]? with
  | none => db
  | some old =>
    let db := if counts key old then db.addCount (-1) else db
    { db with
      entities := db.entities.erase key, provenance := Function.update db.provenance key [] }

/-- Delete tombstones, and raise the floor to the highest of their numbers. -/
def removeTombstones (rows : List (Key × ℕ)) : Db :=
  { (rows.map (·.1)).foldl delete db with floor := max db.floor (highest (rows.map (·.2))) }

/-- Remove one batch of the oldest tombstones above the limit, and raise the floor. -/
def pruneEntityTombstones : Db :=
  let count := db.count.getD db.tombstoneOrder.length
  let counted := { db with count := some count }
  let excess := count - entityTombstoneLimit
  if excess ≤ 0 then counted
  else
    match db.tombstoneOrder.take (min (entityTombstonePruneBatch : ℤ) excess).toNat with
    | [] => counted
    | rows => counted.removeTombstones rows

end Db

end Layr.Entities
