import Layr.EntityScope

/-!
# Pulling the global entities

A model of `pull_entity_view` and `read_entity_page` of `sync_documents.rs` for the global list
view, of the page loop `pull_entities` of the HTTP route, and of a client that pulls: it starts
without a copy, asks with `fresh` until the checkpoint is the highest number, passes back the
checkpoint and the `initialHigh` of the last reply, and then asks for deltas. A reset makes it start
again.

The schema check of a row's payload is a function `hasDocument`; a document carries the payload of
its row.
-/

namespace Layr.Entities

open Tables List

def syncEntityPageLimit : ℕ := 500

def globalEntityCollections : List String :=
  ["accounts", "agentSummary", "annotation", "chat", "complaint", "edge", "event",
    "messageReceipt", "model", "peerTeam", "plan", "project", "questionHistory", "queue",
      "rateLimit", "request", "retainedWorktree", "room",
    "rule", "studioError", "uiPreferences", "work", "workspace"]

def isGlobal (key : Key) : Bool := !isTranscript key.1 && decide (key.1 ∈ globalEntityCollections)

def EntityRow.Prior (priorityId : Option String) (row : EntityRow) : Prop :=
  row.collection = "agentSummary" ∧ some row.id = priorityId

instance (priorityId : Option String) (row : EntityRow) : Decidable (row.Prior priorityId) :=
  inferInstanceAs (Decidable (_ ∧ _))

/-- The row of the priority id comes first, then the numbers count. -/
def pageOrder (priorityId : Option String) (row : EntityRow) : ℕ ×ₗ ℕ :=
  toLex (if row.Prior priorityId then 0 else 1, row.sequence)

def EntityRow.of (key : Key) (e : Entity) : EntityRow := ⟨key.1, key.2, e.seq, e.payload, e.deleted⟩

namespace Db

/-- The rows above `after` in the order of a page: no tombstone that the floor covers, and in an
initial pull none that was there when it began. -/
def pageRows (db : Db) (after : ℕ) (fresh : Bool) (initialHigh : ℕ) (priorityId : Option String) :
    List EntityRow :=
  (select (fun key (e : Entity) =>
    if isGlobal key ∧ after < e.seq ∧ (e.deleted = false ∨ db.floor < e.seq) ∧
        (fresh = false ∨ e.deleted = false ∨ initialHigh < e.seq) then
      some (EntityRow.of key e)
    else none) db.entities).insertionSort fun a b => pageOrder priorityId a ≤ pageOrder priorityId b

def readEntityPage (db : Db) (after : ℕ) (fresh : Bool) (initialHigh limit : ℕ)
    (priorityId : Option String) :
    List EntityRow :=
  (db.pageRows after fresh initialHigh priorityId).take limit

def pageLimit (limit : ℕ) : ℕ := max 1 (min limit syncEntityPageLimit)

def pullGlobalEntities (db : Db) (after limit : ℕ) (fresh : Bool) (initialHigh : ℕ)
    (resetSupport : Bool) (priorityId : Option String) : EntityPage :=
  let maxSequence := max db.entitySequence db.floor
  let initialHigh :=
    if fresh then (if 0 < initialHigh then min maxSequence initialHigh else maxSequence) else 0
  if resetSupport ∧ fresh = false ∧ 0 < after ∧ (after < db.floor ∨ maxSequence < after) then
    { rows := [], maxSequence, tombstoneFloor := db.floor, initialHigh, checkpoint := maxSequence,
      reset := true }
  else
    let rows := db.readEntityPage after fresh initialHigh (pageLimit limit)
      (if after = 0 ∧ fresh then priorityId else none)
    { rows
      maxSequence
      tombstoneFloor := db.floor
      initialHigh
      checkpoint := if rows.length = pageLimit limit then (rows.getLast?.map (·.sequence)).getD
        after else maxSequence
      reset := false }

end Db

/-! ## The page loop of the route -/

structure Scan where
  documents : List EntityRow
  seen : List ℕ
  checkpoint : ℕ

/-- Put the rows of a page that have a document into the reply, until it is full. -/
def scanRows (hasDocument : EntityRow → Bool) (limit : ℕ) : List EntityRow → Scan → Scan × Bool
  | [], scan => (scan, false)
  | row :: rows, scan =>
    if row.sequence ∈ scan.seen then scanRows hasDocument limit rows
      { scan with checkpoint := row.sequence }
    else if hasDocument row then
      let scan := ⟨scan.documents ++ [row], row.sequence :: scan.seen, row.sequence⟩
      if scan.documents.length = limit then (scan, true) else scanRows hasDocument limit rows scan
    else scanRows hasDocument limit rows ⟨scan.documents, row.sequence :: scan.seen, row.sequence⟩

section
variable {db : Db} {after limit initialHigh : ℕ} {fresh resetSupport : Bool}
  {priorityId : Option String} {row : EntityRow} {key : Key} {e : Entity}

namespace Db

theorem mem_pageRows : row ∈ db.pageRows after fresh initialHigh priorityId ↔
    ∃ key e, db.entities[key]? = some e ∧ row = .of key e ∧ isGlobal key ∧ after < e.seq ∧
      (e.deleted = false ∨ db.floor < e.seq) ∧
        (fresh = false ∨ e.deleted = false ∨ initialHigh < e.seq) := by
  rw [pageRows, mem_insertionSort, mem_select]
  constructor
  · rintro ⟨key, e, he, hrow⟩
    split at hrow
    · next h => exact ⟨key, e, he, (some.inj hrow).symm, h⟩
    · cases hrow
  · rintro ⟨key, e, he, rfl, h⟩
    exact ⟨key, e, he, if_pos h⟩

theorem not_isTranscript_of_isGlobal (h : isGlobal key = true) : isTranscript key.1 = false := by
  simp only [isGlobal, Bool.and_eq_true, Bool.not_eq_true'] at h
  exact h.1

theorem sequence_le_of_mem
    (h : row ∈ (db.pullGlobalEntities after limit fresh initialHigh resetSupport priorityId).rows) :
    row.sequence ≤ db.entitySequence := by
  unfold pullGlobalEntities at h
  simp only at h
  split at h
  · cases h
  · obtain ⟨key, e, he, rfl, hglobal, -⟩ := mem_pageRows.1 (mem_of_mem_take h)
    exact seq_le_entitySequence he (not_isTranscript_of_isGlobal hglobal)

theorem pageLimit_pos (limit : ℕ) : 0 < pageLimit limit := by
  unfold pageLimit
  omega

end Db

end

/-- Read pages in one transaction until the reply is full or the rows end. -/
def pullPages (hasDocument : EntityRow → Bool) (db : Db) (limit : ℕ) (fresh : Bool)
    (initialHigh : ℕ) (resetSupport : Bool) (page : EntityPage)
    (_ : ∀ row ∈ page.rows, row.sequence ≤ db.entitySequence)
    (scanAfter : ℕ) (scan : Scan) : Scan :=
  match scanRows hasDocument (Db.pageLimit limit) page.rows scan with
  | (scan, true) => scan
  | (scan, false) =>
    if page.rows.length < Db.pageLimit limit then { scan with checkpoint := page.checkpoint }
    else
      let nextAfter := (page.rows.getLast?.map (·.sequence)).getD scan.checkpoint
      if nextAfter ≤ scanAfter then { scan with checkpoint := page.maxSequence }
      else
        let next := db.pullGlobalEntities nextAfter limit fresh initialHigh resetSupport none
        if next.rows = [] then { scan with checkpoint := next.checkpoint }
        else
          pullPages hasDocument db limit fresh initialHigh resetSupport
            next (fun _ => Db.sequence_le_of_mem) nextAfter
            { scan with checkpoint := nextAfter }
termination_by db.entitySequence - scanAfter
decreasing_by
  have hpage : ∀ row ∈ page.rows, row.sequence ≤ db.entitySequence := ‹_›
  have hlast : (page.rows.getLast?.map (·.sequence)).getD scan.checkpoint ≤ db.entitySequence := by
    match hrow : page.rows.getLast? with
    | none =>
      have hfull : ¬ page.rows.length < Db.pageLimit limit := ‹_›
      rw [getLast?_eq_none_iff.1 hrow, length_nil] at hfull
      exact absurd (Db.pageLimit_pos limit) hfull
    | some row => exact hpage row (mem_of_getLast? hrow)
  omega

structure PullResponse where
  documents : List EntityRow
  checkpoint : ℕ
  maxSequence : ℕ
  initialHigh : ℕ
  reset : Bool

def pullEntities (hasDocument : EntityRow → Bool) (db : Db) (after limit : ℕ) (fresh : Bool)
    (initialHigh : ℕ) (resetSupport : Bool) (priorityId : Option String) : PullResponse :=
  let page := db.pullGlobalEntities after limit fresh initialHigh resetSupport priorityId
  if page.reset then ⟨[], page.checkpoint, page.maxSequence, page.initialHigh, true⟩
  else
    let scan := pullPages hasDocument db limit fresh page.initialHigh resetSupport page
      (fun _ => Db.sequence_le_of_mem) after ⟨[], [], after⟩
    ⟨scan.documents, scan.checkpoint, page.maxSequence, page.initialHigh, false⟩

/-! ## A client -/

/-- A client: its copy, its checkpoint, and whether its initial pull is not complete yet. -/
structure Client where
  copy : Copy
  after : ℕ
  initialHigh : ℕ
  fresh : Bool

def Client.start : Client := ⟨∅, 0, 0, true⟩

def Client.receive (client : Client) (response : PullResponse) : Client :=
  if response.reset then .start
  else
    { copy := client.copy.accept response.documents
      after := response.checkpoint
      initialHigh := response.initialHigh
      fresh := client.fresh && decide (response.checkpoint ≠ response.maxSequence) }

structure World where
  db : Db
  client : Client

def World.start : World := ⟨.empty, .start⟩

inductive Event where
  | write (w : Write)
  | pull (limit : ℕ) (priorityId : Option String)

def World.reply (hasDocument : EntityRow → Bool) (w : World) (limit : ℕ)
    (priorityId : Option String) : PullResponse :=
  pullEntities hasDocument w.db w.client.after limit w.client.fresh w.client.initialHigh true
    priorityId

def World.step (env : Env) (hasDocument : EntityRow → Bool) (w : World) : Event → World
  | .write x => { w with db := w.db.write env x }
  | .pull limit priorityId =>
    { w with client := w.client.receive (w.reply hasDocument limit priorityId) }

def Db.liveGlobal (db : Db) : Copy :=
  db.entities.filterMap fun key e => if isGlobal key ∧
    e.deleted = false then some e.payload else none

/-- A pull that reports the highest number leaves the client with the live entities. -/
def World.Exact (env : Env) (hasDocument : EntityRow → Bool) (w : World) : Event → Prop
  | .write _ => True
  | .pull limit priorityId =>
    let response := w.reply hasDocument limit priorityId
    response.reset = false → response.checkpoint = response.maxSequence →
      (w.step env hasDocument (.pull limit priorityId)).client.copy = w.db.liveGlobal

end Layr.Entities
