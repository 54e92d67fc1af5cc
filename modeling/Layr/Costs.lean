import Layr.Lib.Sorted
import Layr.Lib.Tables

/-!
# The session-cost aggregate

Model of `repositories/cost_aggregate.rs` of `runtime-store`: the table `analytics_cost_rows` with
the cost facts of each usage row, and the table `analytics_cost_groups` with the number of counted
rows of each root per model, account and token counts.

* `contributions` decides which rows of a scope are counted and under which model;
* `Db.applyUsageWrite` brings both tables up to date after one usage row was written. It recomputes
  only the rows that the write can affect (`Db.scopeRows`);
* `backfill` makes both tables from the usage rows.

What a usage record says (`UsageCostFields` and the observation of `cost_observation`) is a column
of the usage row here. Amounts are the `f64` values of token counters, and times are from any linear
order.
-/

namespace Layr.Costs

open Std Tables

/-! ## Rows -/

/-- Token counts of one usage row as priced; `none` is an unreported count. -/
structure CostTokens where
  inputTokens : Option ℚ
  cachedInputTokens : Option ℚ
  cacheWriteInputTokens : Option ℚ
  cacheWriteInput1hTokens : Option ℚ
  outputTokens : Option ℚ
  deriving DecidableEq

inductive UsageEvidence where
  | live
  | recovered
  | legacy
  deriving DecidableEq

/-- What a usage record observes. Cumulative counters and gaps never contribute costs. -/
inductive UsageObservation where
  | response (responseId model : String) (tokens : CostTokens) (evidence : UsageEvidence)
  | other

/-- The members of a usage record that decide a row's cost. -/
structure UsageCostFields where
  model : Option String
  accountKey : Option String
  responseId : Option String

structure Usage (Time : Type) where
  root : Option String
  agent : String
  thread : Option String
  turn : Option String
  seq : ℤ
  time : Time
  fields : UsageCostFields
  observation : Option UsageObservation

structure CostRow (Time : Type) where
  id : String
  agent : String
  thread : Option String
  turn : Option String
  seq : ℤ
  time : Time
  model : Option String
  accountKey : Option String
  response : Option String
  tokens : CostTokens
  uncached : Bool
  /-- `none` for a row of before response eligibility was recorded. -/
  eligible : Option Bool
  finalEvidence : Bool
  deriving DecidableEq

structure GroupKey where
  model : Option String
  account : String
  input : Option ℚ
  cached : Option ℚ
  cacheWrite : Option ℚ
  cacheWrite1h : Option ℚ
  output : Option ℚ
  uncached : Bool
  deriving DecidableEq

/-- The account key of a usage row without `accountKey`. -/
def defaultAccount : String := "default"

variable {Time : Type}

def CostRow.groupKey (row : CostRow Time) (model : Option String) : GroupKey where
  model := model
  account := row.accountKey.getD defaultAccount
  input := row.tokens.inputTokens
  cached := row.tokens.cachedInputTokens
  cacheWrite := row.tokens.cacheWriteInputTokens
  cacheWrite1h := row.tokens.cacheWriteInput1hTokens
  output := row.tokens.outputTokens
  uncached := row.uncached

def costRow (id : String) (usage : Usage Time) : CostRow Time where
  id := id
  agent := usage.agent
  thread := usage.thread
  turn := usage.turn
  seq := usage.seq
  time := usage.time
  model := match usage.observation with
    | some (.response _ model _ _) => if model ≠ "" then some model else usage.fields.model
    | _ => usage.fields.model
  accountKey := usage.fields.accountKey
  response := match usage.observation with
    | some (.response responseId _ _ _) => some responseId
    | _ => usage.fields.responseId.filter (· ≠ "")
  tokens := match usage.observation with
    | some (.response _ _ tokens _) => tokens
    | _ => ⟨none, none, none, none, none⟩
  uncached := true
  eligible := match usage.observation with
    | some (.response ..) => some true
    | _ => some false
  finalEvidence := match usage.observation with
    | some (.response _ _ _ evidence) => evidence ≠ .legacy
    | _ => false

/-! ## Counting rules -/

/-- Final evidence takes the place of provisional evidence. -/
def supersedes (previous incoming : UsageEvidence) : Bool :=
  previous = .legacy && incoming ≠ .legacy

def CostRow.evidence (row : CostRow Time) : UsageEvidence :=
  if row.finalEvidence then .live else .legacy

/-- Does a row take the place of the candidate for its response? -/
def CostRow.beats (row candidate : CostRow Time) : Bool :=
  supersedes candidate.evidence row.evidence ||
    (row.finalEvidence = candidate.finalEvidence && row.seq < candidate.seq)

def CostRow.newer [LinearOrder Time] (row current : CostRow Time) : Bool :=
  current.time < row.time || (current.time = row.time && current.seq < row.seq)

section
variable (included : CostRow Time → Bool) (rows : List (CostRow Time))

def winners : String × String → Option (CostRow Time) :=
  Best.keepBest (fun row => row.response.map (row.agent, ·)) CostRow.beats
    (rows.filter fun row => included row && row.eligible = some true)

def respondedTurns : List (String × Option String × Option String) :=
  (rows.filter fun row => included row && row.eligible ≠ some false && row.response.isSome).map
    fun row => (row.agent, row.thread, row.turn)

/-- Is a row left out because another row is counted in its place? -/
def suppressed (row : CostRow Time) : Bool :=
  match row.eligible with
  | some false => true
  | some true => row.response.all fun response =>
      (winners included rows (row.agent, response)).all (·.id ≠ row.id)
  | none =>
    match row.response with
    | some response => (winners included rows (row.agent, response)).isSome
    | none => (row.agent, row.thread, row.turn) ∈ respondedTurns included rows

variable [LinearOrder Time]

/-- The latest row with a model of each turn or thread of an agent, if some row has no model. -/
def models (part : CostRow Time → Option String) : String × Option String → Option (CostRow Time) :=
  if rows.any (·.model.isNone) then
    Best.keepBest (fun row => row.model.map fun _ => (row.agent, part row)) CostRow.newer
      (rows.filter fun row => included row && !suppressed included rows row)
  else fun _ => none

def turnModels : String × Option String → Option (CostRow Time) := models included rows CostRow.turn

def threadModels : String × Option String → Option (CostRow Time) :=
  models included rows CostRow.thread

/-- The contribution of one row of a scope: `none` if the row is not counted, else the model it is
counted under. -/
def contribution (row : CostRow Time) : Option (Option String) :=
  if !included row || suppressed included rows row then none
  else some (row.model.or (((turnModels included rows (row.agent, row.turn)).or
      (threadModels included rows (row.agent, row.thread))).bind (·.model)))

/-- The contribution of every row of a closed scope that `included` keeps. -/
def contributions : List (Option (Option String)) := rows.map (contribution included rows)

end

/-! ## Tables -/

/-- A row of `analytics_cost_rows`: the cost facts, and the contribution that the groups hold for
them. -/
structure Stored (Time : Type) where
  root : String
  row : CostRow Time
  counted : Option (Option String)
  deriving DecidableEq

/-- `analytics_cost_groups`: the number of rows of each group of a root. -/
abbrev Groups := String → GroupKey → Option ℤ

structure Db (Time : Type) where
  usage : ExtTreeMap String (Usage Time)
  rows : ExtTreeMap String (Stored Time)
  groups : Groups

def Groups.set (groups : Groups) (root : String) (key : GroupKey) (count : Option ℤ) : Groups :=
  fun root' key' => if root' = root ∧ key' = key then count else groups root' key'

/-- Add rows to one group of a root, deleting a group that reaches zero. -/
def Groups.addToGroup (groups : Groups) (root : String) (key : GroupKey) (delta : ℤ) : Groups :=
  groups.set root key <| match groups root key with
    | none => some delta
    | some count => if delta < 0 ∧ count + delta ≤ 0 then none else some (count + delta)

def Groups.count (groups : Groups) (root : String) (row : CostRow Time)
    (contribution : Option (Option String)) (delta : ℤ) : Groups :=
  match contribution with
  | some model => groups.addToGroup root (row.groupKey model) delta
  | none => groups

def setCounted (rows : ExtTreeMap String (Stored Time)) (id : String)
    (counted : Option (Option String)) :
    ExtTreeMap String (Stored Time) :=
  match rows[id]? with
  | some stored => rows.insert id { stored with counted := counted }
  | none => rows

def agentRows (rows : ExtTreeMap String (Stored Time)) (root agent : String) : List (Stored Time) :=
  select (fun _ stored => if stored.root = root ∧
    stored.row.agent = agent then some stored else none) rows

/-- Changed turn and response identities: thread, turn and response of the changed rows. -/
abbrev TurnScopes := List (Option String × Option String × Option String)

/-- The rows whose contributions a change in `turns` of an agent in a root can affect: the changed
turns and the rows with the same responses, or the whole agent if one of its rows needs a model of
another row. -/
def scopeRows (rows : ExtTreeMap String (Stored Time)) (root agent : String) (turns : TurnScopes) :
    List (Stored Time) :=
  let scope := agentRows rows root agent
  if scope.any fun stored => stored.row.model.isNone && stored.row.eligible ≠ some false then scope
  else if turns.isEmpty then []
  else
    let touched := scope.filter fun stored =>
      turns.any fun turn => stored.row.thread = turn.1 && stored.row.turn = turn.2.1
    let affected := touched.filterMap (·.row.response) ++ turns.filterMap (·.2.2)
    scope.filter fun stored => touched.any (·.row.id = stored.row.id) ||
      stored.row.response.any (affected.contains ·)

/-- Move one row to the group of its new contribution. -/
def Db.refreshRow (root : String) (db : Db Time) (entry : Stored Time × Option (Option String)) :
    Db Time :=
  if entry.1.counted = entry.2 then db
  else
    { db with
      groups := (db.groups.count root entry.1.row entry.1.counted (-1)).count root entry.1.row
        entry.2 1
      rows := setCounted db.rows entry.1.row.id entry.2 }

/-- Recompute the scopes of `turns` and move every changed contribution between groups. -/
def Db.refreshScope [LinearOrder Time] (db : Db Time) (root agent : String) (turns : TurnScopes) :
    Db Time :=
  let rows := scopeRows db.rows root agent turns
  (rows.zip (contributions (fun _ => true) (rows.map (·.row)))).foldl (Db.refreshRow root) db

abbrev Scopes := ExtTreeMap (String × String) TurnScopes

def Scopes.add (scopes : Scopes) (root : String) (row : CostRow Time) : Scopes :=
  scopes.insert (root, row.agent)
    ((scopes[(root, row.agent)]?.getD []) ++ [(row.thread, row.turn, row.response)])

def Db.removePrevious (db : Db Time) (id : String) : Db Time :=
  match db.rows[id]? with
  | some previous =>
    { db with
      groups := db.groups.count previous.root previous.row previous.counted (-1)
      rows := db.rows.erase id }
  | none => db

def Db.insertRow (db : Db Time) (id : String) (usage : Usage Time) : Db Time :=
  match usage.root with
  | some root => { db with rows := db.rows.insert id ⟨root, costRow id usage, none⟩ }
  | none => db

def scopesOf (id : String) (usage : Usage Time) (previous : Option (Stored Time)) : Scopes :=
  let scopes : Scopes := match usage.root with
    | some root => Scopes.add ∅ root (costRow id usage)
    | none => ∅
  match previous with
  | some previous => scopes.add previous.root previous.row
  | none => scopes

def Db.empty : Db Time := ⟨∅, ∅, fun _ _ => none⟩

section
variable [LinearOrder Time]

/-- Bring the aggregate up to date with a usage row that the caller just upserted. -/
def Db.applyUsageWrite (db : Db Time) (id : String) (usage : Usage Time) : Db Time :=
  (scopesOf id usage db.rows[id]?).toList.foldl
    (fun db scope => db.refreshScope scope.1.1 scope.1.2 scope.2)
    ((db.removePrevious id).insertRow id usage)

/-- Upsert a usage row and bring the aggregate up to date, in one transaction. -/
def Db.upsert (db : Db Time) (write : String × Usage Time) : Db Time :=
  Db.applyUsageWrite { db with usage := db.usage.insert write.1 write.2 } write.1 write.2

def Db.run (writes : List (String × Usage Time)) : Db Time := writes.foldl Db.upsert Db.empty

end

/-! ## Backfill -/

/-- The rows of a list that is ordered by root and agent, scope by scope. -/
def scopes (scopeRoot : String) (scope : List (Stored Time)) : List (Stored Time) →
    List (String × List (Stored Time))
  | [] => [(scopeRoot, scope)]
  | fact :: facts =>
    if fact.root ≠ scopeRoot || scope.head?.any (·.row.agent ≠ fact.row.agent) then
      (scopeRoot, scope) :: scopes fact.root [fact] facts
    else scopes scopeRoot (scope ++ [fact]) facts

def Db.countRow (root : String) (db : Db Time) (entry : Stored Time × Option (Option String)) :
    Db Time :=
  match entry.2 with
  | none => db
  | some model =>
    let key := entry.1.row.groupKey model
    { db with
      groups := db.groups.set root key (some ((db.groups root key).getD 0 + 1))
      rows := setCounted db.rows entry.1.row.id (some model) }

def Db.countScope [LinearOrder Time] (db : Db Time) (scope : String × List (Stored Time)) :
    Db Time :=
  (scope.2.zip (contributions (fun _ => true) (scope.2.map (·.row)))).foldl (Db.countRow scope.1) db

def Stored.scopeKey (stored : Stored Time) : String ×ₗ String :=
  toLex (stored.root, stored.row.agent)

def backfill [LinearOrder Time] (usage : ExtTreeMap String (Usage Time)) : Db Time :=
  let rows := usage.filterMap fun id usage => usage.root.map fun root =>
    ⟨root, costRow id usage, none⟩
  let facts := (rows.toList.map (·.2)).insertionSort fun a b => a.scopeKey ≤ b.scopeKey
  (scopes "" [] facts).foldl Db.countScope ⟨usage, rows, fun _ _ => none⟩

end Layr.Costs
