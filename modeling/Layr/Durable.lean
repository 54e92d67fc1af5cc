import Layr.Json
import Layr.Lib.Tables

/-!
# The durable change source

A model of `durable_seq.rs`: the change numbers of the rows of the main tables, the triggers that
give them, the tombstones of deleted rows with their floor, and `changes_since`, which a reader asks
for what is newer than its cursor. The numbers are one counter with those of `sync_entities`,
`sync_documents` and `sync_generation`: the next number is one above the highest that any of those
tables holds.

A statement on a main table is modelled together with its trigger. The database's clock is the time
that the statement carries.
-/

namespace Layr.Durable

open Tables

/-! ## The database -/

def tombstoneRetentionSeconds : ℤ := 90 * 24 * 60 * 60

/-- The main tables that feed the durable stream. -/
inductive DurableTable where
  | agents
  | requests
  | work
  | items
deriving DecidableEq, Repr

def DurableTable.name : DurableTable → String
  | agents => "runtime_agents"
  | requests => "runtime_requests"
  | work => "runtime_work"
  | items => "runtime_items"

def durableTables : List DurableTable := [.agents, .requests, .work, .items]

variable (t : DurableTable)

theorem mem_durableTables : t ∈ durableTables := by
  cases t <;> decide

structure Entry where
  seq : ℕ
  deleted : Bool
  time : ℤ
deriving DecidableEq, Repr

/-- The tables that the source reads and writes: the main tables with their payload column,
`durable_rows`, `durable_floor`, the numbers of `sync_entities` and `sync_documents`, and
`sync_generation`. -/
structure Db where
  tables : DurableTable → BTreeMap String
  rows : DurableTable → BTreeMap Entry
  floor : ℕ
  entities : Std.ExtTreeMap (String × String) ℕ
  documents : Std.ExtTreeMap (String × String) ℕ
  generation : ℕ

variable (db : Db) (t : DurableTable)

namespace Db

/-- The numbers that `durable_rows` holds for one table. -/
def seqs : List ℕ := (db.rows t).toList.map fun e => e.2.seq

def entitySeq : ℕ := highest (db.entities.toList.map fun e => e.2)

def documentSeq : ℕ := highest (db.documents.toList.map fun e => e.2)

def durableSeq : ℕ := highest (durableTables.flatMap db.seqs)

def high : ℕ := max (max db.entitySeq db.documentSeq) (max db.generation db.durableSeq)

def next : ℕ := db.high + 1

/-! ## The triggers -/

def put (id : String) (deleted : Bool) (time : ℤ) : Db :=
  { db with rows := Function.update db.rows t ((db.rows t).insert id ⟨db.next, deleted, time⟩) }

end Db

def expired (now : ℤ) (e : Entry) : Bool :=
  e.deleted && decide (e.time < now - tombstoneRetentionSeconds)

namespace Db

/-- The highest number of a tombstone that is older than the retention. -/
def expiredSeq (now : ℤ) : ℕ :=
  highest (durableTables.flatMap fun t =>
    (db.rows t).toList.filterMap fun e => if expired now e.2 then some e.2.seq else none)

/-- Raise the floor to the tombstones that are older than the retention, and remove them. -/
def prune (now : ℤ) : Db :=
  { db with
    floor := max db.floor (db.expiredSeq now)
    rows := fun t => (db.rows t).filter fun _ e => !expired now e }

def setRow (id payload : String) : Db :=
  { db with tables := Function.update db.tables t ((db.tables t).insert id payload) }

def removeRow (id : String) : Db :=
  { db with tables := Function.update db.tables t ((db.tables t).erase id) }

end Db

inductive Write where
  | insert (t : DurableTable) (id payload : String)
  | update (t : DurableTable) (id id' payload : String) (now : ℤ)
  | delete (t : DurableTable) (id : String) (now : ℤ)
  | entity (collection id : String)
  | document (scope id : String)
deriving DecidableEq, Repr

namespace Db

/-- A statement with its trigger, and the numbers that it gives out, the last one first. A statement
that breaks a primary key fails, and one that finds no row changes nothing. -/
def write : Write → Db × List ℕ
  | .insert t id payload =>
    if id ∈ db.tables t then (db, [])
    else ((db.setRow t id payload).put t id false 0, [db.next])
  | .update t id id' payload now =>
    if id ∉ db.tables t ∨ (id' ≠ id ∧ id' ∈ db.tables t) then (db, [])
    else
      let live := ((db.removeRow t id).setRow t id' payload).put t id' false 0
      if id = id' then (live, [db.next])
      else (live.put t id true now, [live.next, db.next])
  | .delete t id now =>
    if id ∉ db.tables t then (db, [])
    else
      let pruned := (db.removeRow t id).prune now
      (pruned.put t id true now, [pruned.next])
  | .entity collection id =>
    ({ db with entities := db.entities.insert (collection, id) db.next }, [db.next])
  | .document scope id =>
    ({ db with documents := db.documents.insert (scope, id) db.next }, [db.next])

end Db

/-! ## Reading the changes -/

structure DurableRow where
  id : String
  seq : ℕ
  payload : String
deriving DecidableEq, Repr

structure DurableTombstone where
  id : String
  seq : ℕ
deriving DecidableEq, Repr

inductive DurableChanges where
  | snapshot (rows : List DurableRow) (seq : ℕ)
  | delta (rows : List DurableRow) (tombstones : List DurableTombstone) (seq : ℕ)
deriving DecidableEq, Repr

inductive StoreError where
  | schemaMismatch (detail : String)
deriving DecidableEq, Repr

namespace Db

/-- The live rows with a number above `after` and not above `high`, in the order of their numbers.
-/
def liveRows (after high : ℕ) : List DurableRow :=
  (select (fun id (e : Entry) =>
    if e.deleted = false ∧ after < e.seq ∧ e.seq ≤ high then
      (db.tables t)[id]?.map fun payload => ⟨id, e.seq, payload⟩
    else none) (db.rows t)).insertionSort fun a b => a.seq ≤ b.seq

/-- The tombstones with a number above `after` and not above `high`, in the order of their numbers.
-/
def tombstones (after high : ℕ) : List DurableTombstone :=
  (select (fun id (e : Entry) =>
    if e.deleted = true ∧ after < e.seq ∧ e.seq ≤ high then some (⟨id, e.seq⟩ : DurableTombstone)
    else none) (db.rows t)).insertionSort fun a b => a.seq ≤ b.seq

end Db

/-- The states of the database at the statements of one call: the look at the counter, at the floor,
at the tombstones and at the rows. -/
structure Moments where
  counter : Db
  floor : Db
  tombstones : Db
  rows : Db

/-- Changes of a table, or a snapshot when the cursor is absent, in the future, or below the floor.
No read transaction spans the statements. -/
def changesSinceAt (m : Moments) (table : String) (cursor : Option ℕ) :
    Except StoreError DurableChanges :=
  match durableTables.find? fun t => t.name == table with
  | none => .error (.schemaMismatch (table ++ " is not a durable table"))
  | some t =>
    let high := m.counter.high
    match cursor.filter fun cursor => decide (m.floor.floor ≤ cursor ∧ cursor ≤ high) with
    | none => .ok (.snapshot (m.rows.liveRows t 0 high) high)
    | some after =>
      .ok (.delta (m.rows.liveRows t after high) (m.tombstones.tombstones t after high) high)

def changesSince : String → Option ℕ → Except StoreError DurableChanges :=
  changesSinceAt ⟨db, db, db, db⟩

/-! ## A reader -/

structure Reader where
  cursor : Option ℕ
  copy : BTreeMap String

def Reader.empty : Reader := ⟨none, ∅⟩

def Reader.accept (r : Reader) : DurableChanges → Reader
  | .snapshot rows seq => ⟨some seq, Maps.insertAll DurableRow.id DurableRow.payload ∅ rows⟩
  | .delta rows tombstones seq =>
    ⟨some seq, Maps.insertAll DurableRow.id DurableRow.payload
      (eraseAll DurableTombstone.id r.copy tombstones) rows⟩

/-- The reply of a call; an error changes nothing. -/
def Reader.take (r : Reader) : Except StoreError DurableChanges → Reader
  | .ok changes => r.accept changes
  | .error _ => r

def Reader.callAt (r : Reader) (m : Moments) (t : DurableTable) : Reader :=
  r.take (changesSinceAt m t.name r.cursor)

def Reader.call (r : Reader) (db : Db) (t : DurableTable) : Reader :=
  r.take (changesSince db t.name r.cursor)

theorem Reader.call_eq (r : Reader) (db : Db) (t : DurableTable) :
    r.call db t = r.callAt ⟨db, db, db, db⟩ t := rfl

end Layr.Durable
