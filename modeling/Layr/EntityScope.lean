import Layr.EntitiesSteps
import Layr.Lib.Sorted

/-!
# Entity scopes

A model of the readers of an agent's view in `sync_documents.rs` (`resume_entity_scope`,
`continue_entity_scope`, `entity_scope_visibility_revision`) and of the transfer of
`entity_transfer.rs`, which takes a client's cursor if no movement fence is above it and reads pages
in one transaction until the checkpoint is the highest number.
-/

namespace Layr.Entities

open Tables List

/-- A selection of entities: collections, optionally one id, and an agent with or without its team.
-/
structure Scope where
  collections : List String
  id : Option String
  agent : String
  includeTeamMembers : Bool
deriving DecidableEq, Repr

structure EntityRow where
  collection : String
  id : String
  sequence : ℕ
  payload : Option String
  deleted : Bool
deriving DecidableEq, Repr

def EntityRow.key (row : EntityRow) : Key := (row.collection, row.id)

structure EntityPage where
  rows : List EntityRow
  maxSequence : ℕ
  tombstoneFloor : ℕ
  initialHigh : ℕ
  checkpoint : ℕ
  reset : Bool
deriving DecidableEq, Repr

def syncEntityStreamMaxDocuments : ℕ := 512

namespace Scope

def covers (scope : Scope) (key : Key) : Bool :=
  !isTranscript key.1 && decide (key.1 ∈ scope.collections) && scope.id.all fun id => id == key.2

def selects (scope : Scope) (env : Env) (db : Db) (payload : Option String) : Bool :=
  (scope.includeTeamMembers && (env.agent payload == some scope.agent ||
    decide (scope.agent ∈ db.rootsOf env (env.agent payload)))) ||
  env.rootId payload == some scope.agent

/-- The rows of a page: numbers above `after` and not above `through`, without tombstones in a
snapshot. -/
def rows (scope : Scope) (env : Env) (db : Db) (snapshot : Bool) (after through : ℕ) :
    List EntityRow :=
  (select (fun key (e : Entity) =>
    if scope.covers key ∧ (scope.selects env db e.payload ∨ e.deleted) ∧ after < e.seq ∧
      e.seq ≤ through ∧
        (snapshot = true → e.deleted = false) then
      some (⟨key.1, key.2, e.seq, e.payload, e.deleted⟩ : EntityRow)
    else none) db.entities).insertionSort fun a b => a.sequence ≤ b.sequence

def continueEntityScope (scope : Scope) (env : Env) (db : Db) (interval : EntityPage) (limit : ℕ) :
    EntityPage :=
  let limit := max 1 (min limit syncEntityStreamMaxDocuments)
  let rows := (scope.rows env db interval.reset interval.checkpoint interval.maxSequence).take
    (limit + 1)
  let page := rows.take limit
  { rows := page
    maxSequence := interval.maxSequence
    tombstoneFloor := interval.tombstoneFloor
    initialHigh := if interval.reset then interval.maxSequence else 0
    checkpoint := if limit < rows.length then (page.getLast?.map (·.sequence)).getD
      interval.checkpoint
      else interval.maxSequence
    reset := interval.reset }

/-- The first page of a transfer: a snapshot if there is no cursor, or it is below the floor or
above the highest number. -/
def resumeEntityScope (scope : Scope) (env : Env) (db : Db) (since : Option ℕ) (limit : ℕ) :
    EntityPage :=
  let maxSequence := max db.entitySequence db.floor
  let kept := since.filter fun seq => decide (db.floor ≤ seq ∧ seq ≤ maxSequence)
  scope.continueEntityScope env db
    { rows := []
      maxSequence
      tombstoneFloor := db.floor
      initialHigh := if kept.isNone then maxSequence else 0
      checkpoint := kept.getD 0
      reset := kept.isNone } limit

/-- The last movement that the scope does not see in its rows. -/
def visibilityRevision (scope : Scope) (db : Db) : ℕ :=
  highest ((scope.collections.map (fun collection => [collection, scope.agent]) ++
    if scope.includeTeamMembers then
      scope.collections.map (fun collection => [collection, scope.agent, "team"]) ++
        [["*", scope.agent]]
    else []).map db.fences)

/-! ## A transfer -/

variable {scope : Scope} {env : Env} {db : Db} {snapshot : Bool} {after through limit : ℕ}
  {row : EntityRow} {interval page : EntityPage}

theorem mem_rows : row ∈ scope.rows env db snapshot after through ↔
    db.entities[row.key]?.map (fun e => (e.seq, e.payload, e.deleted)) =
      some (row.sequence, row.payload, row.deleted) ∧
      scope.covers row.key ∧ (scope.selects env db row.payload ∨ row.deleted) ∧
        after < row.sequence ∧
      row.sequence ≤ through ∧ (snapshot = true → row.deleted = false) := by
  rw [rows, mem_insertionSort, mem_select, map_eq_some_iff]
  constructor
  · rintro ⟨key, e, he, hrow⟩
    split at hrow
    · next h =>
      cases hrow
      exact ⟨⟨e, he, rfl⟩, h⟩
    · cases hrow
  · rintro ⟨⟨e, he, heq⟩, h⟩
    simp only [Prod.mk.injEq] at heq
    obtain ⟨hseq, hpayload, hdeleted⟩ := heq
    refine ⟨row.key, e, he, ?_⟩
    rw [hseq, hpayload, hdeleted, if_pos h]
    rfl

/-- A page goes on: its checkpoint is above the one before. -/
theorem lt_checkpoint_continue (scope : Scope) (env : Env) (db : Db) (limit : ℕ)
    (hlt : interval.checkpoint < interval.maxSequence) :
    interval.checkpoint < (scope.continueEntityScope env db interval limit).checkpoint := by
  unfold continueEntityScope
  simp only
  split
  · next hmore =>
    match hlast : (List.take (max 1 (min limit syncEntityStreamMaxDocuments)) _).getLast? with
    | none =>
      rw [getLast?_eq_none_iff, take_eq_nil_iff] at hlast
      rcases hlast with hzero | hnil
      · omega
      · rw [hnil] at hmore
        cases hmore
    | some row =>
      have hmem := mem_of_mem_take (mem_of_mem_take (mem_of_getLast? hlast))
      exact (mem_rows.1 hmem).2.2.2.1
  · exact hlt

/-- The rows of a page and of those after it, until the checkpoint is the highest number. -/
def transferRows (scope : Scope) (env : Env) (db : Db) (limit : ℕ) (page : EntityPage) :
    List EntityRow :=
  if page.checkpoint < page.maxSequence then
    page.rows ++ transferRows scope env db limit (scope.continueEntityScope env db page limit)
  else page.rows
termination_by page.maxSequence - page.checkpoint
decreasing_by
  have hlt := lt_checkpoint_continue scope env db limit ‹_›
  have hmax : (scope.continueEntityScope env db page limit).maxSequence = page.maxSequence := rfl
  omega

/-- The cursor of a client is taken if no movement is above it. -/
def transfer (scope : Scope) (env : Env) (db : Db) (since : Option ℕ) (limit : ℕ) :
    Bool × List EntityRow :=
  let page := scope.resumeEntityScope env db
    (since.filter fun seq => decide (scope.visibilityRevision db ≤ seq)) limit
  (page.reset, scope.transferRows env db limit page)

end Scope

abbrev Copy := Std.ExtTreeMap Key (Option String)

def Copy.accept (copy : Copy) (rows : List EntityRow) : Copy :=
  rows.foldl (fun copy row => if row.deleted then copy.erase row.key
    else copy.insert row.key row.payload) copy

/-- A snapshot replaces the copy, a delta patches it. -/
def Copy.receive (copy : Copy) (reply : Bool × List EntityRow) : Copy :=
  Copy.accept (if reply.1 then ∅ else copy) reply.2

def Scope.liveRows (scope : Scope) (env : Env) (db : Db) : Copy :=
  db.entities.filterMap fun key e =>
    if scope.covers key ∧ e.deleted = false ∧
      scope.selects env db e.payload then some e.payload else none

end Layr.Entities
