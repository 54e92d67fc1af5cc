import Layr.Requests

/-!
# The command path

A model of `runtime-services/src/commands.rs` and `principal.rs`: authorization by the permission
table, `begin`, `finish` and `execute_sync`, which runs a `withdraw` or a `stop` with its record in
one transaction. What a command does to the rows of agents and queues is a parameter (`Env`), as are
the SHA-256 of a command's JSON and the `uuid` crate.
-/

namespace Layr.Commands

open Requests

/-! ## Principals and commands -/

inductive Grant where
  | full
  | observe
deriving DecidableEq, Repr

inductive Principal where
  | owner
  | device (id : String) (grant : Grant)
  | peer (server : String)
  | agent (id : String) (epoch : ℕ)
  | federated (peer : String)
  | policy
deriving DecidableEq, Repr

inductive CommandClass where
  | read
  | chatControl
  | spawn
  | host
  | ownerOnly
  | federation
deriving DecidableEq, Repr

/-- The row check that is left to the caller. -/
inductive Scope where
  | descendant
  | linkWorker
  | ownLink
  | rootLead
  | approvedRoom
deriving DecidableEq, Repr

inductive Access where
  | allow
  | deny
  | scoped (scope : Scope)
deriving DecidableEq, Repr

def access : Principal → CommandClass → Access
  | _, .read => .allow
  | .owner, .federation => .deny
  | .owner, _ => .allow
  | .device _ .full, .ownerOnly => .deny
  | .device _ .full, .federation => .deny
  | .device _ .full, _ => .allow
  | .device _ .observe, _ => .deny
  | .peer _, .chatControl => .scoped .linkWorker
  | .peer _, .spawn => .scoped .ownLink
  | .peer _, .host => .allow
  | .agent _ _, .chatControl => .scoped .descendant
  | .agent _ _, .spawn => .scoped .rootLead
  | .federated _, .federation => .scoped .approvedRoom
  | .policy, .chatControl => .allow
  | _, _ => .deny

def principalKey : Principal → String
  | .owner => "owner"
  | .device id _ => "device:" ++ id
  | .peer server => "peer:" ++ server
  | .agent id _ => "agent:" ++ id
  | .federated peer => "federated:" ++ peer
  | .policy => "policy"

/-- An agent or the policy runs in the process and brings ids that are no UUIDs. -/
def trusted : Principal → Bool
  | .agent _ _ | .policy => true
  | _ => false

structure SendBody where
  text : String
  assets : List String
  delivery : Option String
deriving DecidableEq, Repr

inductive Command where
  | send (target : String) (body : SendBody)
  | withdraw (target message : String)
  | stop (target : String) (descendants : Bool)
deriving DecidableEq, Repr

namespace Command

def name : Command → String
  | send _ _ => "send"
  | withdraw _ _ => "withdraw"
  | stop _ _ => "stop"

def target : Command → String
  | send target _ | withdraw target _ | stop target _ => target

end Command

/-- Every command of this version controls a chat. -/
def classOf (_ : Command) : CommandClass := .chatControl

/-- A create command makes a row with the request id, which is its receipt. -/
def isCreate : Command → Bool
  | .send _ _ => true
  | _ => false

structure CommandRequest where
  id : String
  client : String
  number : ℕ
  command : Command
deriving DecidableEq, Repr

inductive CommandError where
  | forbidden
  | tooOld
  | invalid (text : String)
  | conflict (text : String)
  | notFound
  | requestResult (e : RequestResultError)
  | store (text : String)
  | rolledBack
deriving DecidableEq, Repr

/-! ## The database -/

/-- The replay records, the watermarks of the clients, and all other rows. -/
structure Db (D S : Type) where
  results : Results D
  watermarks : BTreeMap ℤ
  rest : S

/-- What the commands do to the other rows, and the code outside. -/
structure Env (D S : Type) where
  crate : UuidCrate
  /-- SHA-256 of the JSON of a principal's key and a command. -/
  digest : String → Command → D
  isDescendant : S → String → String → Option Bool
  /-- The agent, if it is there, and the server of its `remoteWorker`. -/
  worker : S → String → Except String (Option (Option String))
  withdraw : S → String → String → Except CommandError (S × RequestReference × String)
  serverDraft : S → String → String → ℤ → Except CommandError S
  stop : S → Option (String × ℕ) → String → Bool → ℤ → Except CommandError S
  agentReference : S → String → Except CommandError RequestReference

variable {D S : Type} [DecidableEq D] (env : Env D S)

/-- Check the principal against the permission table and the rows that a scoped answer names. -/
def authorize (rest : S) (principal : Principal) (command : Command) : Except CommandError Unit :=
  match access principal (classOf command) with
  | .allow => .ok ()
  | .deny => .error .forbidden
  | .scoped .descendant =>
    match principal with
    | .agent id _ =>
      match env.isDescendant rest id command.target with
      | none => .error (.invalid "Invalid stored agent ancestry")
      | some below => ensure below .forbidden
    | _ => .error .forbidden
  | .scoped .linkWorker =>
    match principal with
    | .peer server =>
      match env.worker rest command.target with
      | .error text => .error (.store text)
      | .ok none => .error .forbidden
      | .ok (some linked) => ensure (linked == some server) .forbidden
    | _ => .error .forbidden
  | .scoped _ => .error .forbidden

variable (db : Db D S)

def applied (client : String) : ℤ := db.watermarks[client]?.getD 0

def advance (client : String) (number : ℤ) : Db D S :=
  { db with
    watermarks := db.watermarks.insert client (max (db.watermarks[client]?.getD number) number) }

/-! ## The steps of a command -/

def commandClientIdMaxChars : ℕ := 128

/-- A command that passed `begin` and has not run yet. -/
structure Begun (D : Type) where
  identity : RequestIdentity
  signature : D
  client : String
  number : ℤ
  records : Bool

inductive Start (D : Type) where
  | replay (reference : RequestReference)
  | fresh (begun : Begun D)

/-- The identity of a request: opaque for a trusted principal, a UUIDv7 for others. -/
def identityOf (principal : Principal) (request : CommandRequest) (nowMs : ℤ) :
    Except RequestIdentityError RequestIdentity :=
  if trusted principal then
    .ok (.opaqueId "command" [principalKey principal] request.id [request.command.name] nowMs)
  else RequestIdentity.new env.crate "command" [principalKey principal] request.id
    [request.command.name]

/-- The number of a command: the server numbers those of a trusted principal. -/
def numberOf (principal : Principal) (request : CommandRequest) (client : String) :
    Except CommandError ℤ :=
  if trusted principal then .ok (applied db client + 1)
  else if 1 ≤ request.number ∧ request.number < 2 ^ 63 then .ok request.number
  else .error (.invalid "Command numbers start at 1")

/-- Step 1, inside the writer transaction, before any effect. -/
def begin (principal : Principal) (request : CommandRequest) (nowMs : ℤ) :
    Except CommandError (Start D) := do
  authorize env db.rest principal request.command
  let who := principalKey principal
  let client := who ++ "/" ++ request.client
  ensure (request.client ≠ "" ∧ request.client.length ≤ commandClientIdMaxChars)
    (.invalid "Invalid command client id")
  let number ← numberOf db principal request client
  let identity ← (identityOf env principal request nowMs).mapError fun e =>
    .requestResult (.identity e)
  let signature := env.digest who request.command
  let floor := if trusted principal then 0 else db.results.expiredBeforeMs
  match identity.validate nowMs floor with
  | .error (.expired issued before) =>
    if number ≤ applied db client then .error .tooOld
    else .error (.requestResult (.identity (.expired issued before)))
  | .error e => .error (.requestResult (.identity e))
  | .ok () =>
    let records := !isCreate request.command
    if records then
      match ← (db.results.replayReference identity.id signature nowMs).mapError .requestResult with
      | some reference => return .replay reference
      | none => return .fresh ⟨identity, signature, client, number, records⟩
    else return .fresh ⟨identity, signature, client, number, records⟩

/-- Step 3, in the transaction that applied the command. -/
def finish (begun : Begun D) (reference : RequestReference) :
    Except CommandError (Db D S × RequestReference) :=
  if begun.records then do
    let (results, reference) ← (db.results.settleReference begun.identity.id begun.signature
      begun.identity.issuedMs reference).mapError .requestResult
    return (advance { db with results } begun.client begun.number, reference)
  else return (advance db begun.client begun.number, reference)

structure Executed where
  reference : RequestReference
  replayed : Bool
deriving DecidableEq, Repr

/-- Step 2: what the command does to the other rows. -/
def runCommand (rest : S) (principal : Principal) (nowMs : ℤ) : Command →
    Except CommandError (S × RequestReference)
  | .withdraw target message => do
    let (rest, reference, text) ← env.withdraw rest target message
    let rest ← env.serverDraft rest target text nowMs
    return (rest, reference)
  | .stop target descendants => do
    let sender := match principal with
      | .agent id epoch => some (id, epoch)
      | _ => none
    let rest ← env.stop rest sender target descendants nowMs
    let reference ← env.agentReference rest target
    return (rest, reference)
  | .send _ _ => .error (.invalid "A send command runs through the message path")

/-- Steps 1 to 3 for the commands that run inside one transaction. -/
def executeSync (principal : Principal) (request : CommandRequest) (nowMs : ℤ) :
    Except CommandError (Db D S × Executed) := do
  ensure (!isCreate request.command) (.invalid "A send command runs through the message path")
  match ← begin env db principal request nowMs with
  | .replay reference => return (db, ⟨reference, true⟩)
  | .fresh begun =>
    let (rest, reference) ← runCommand env db.rest principal nowMs request.command
    let (db, reference) ← finish { db with rest } begun reference
    return (db, ⟨reference, false⟩)

end Layr.Commands
