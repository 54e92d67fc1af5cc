import Layr.Upload

/-!
# Pushes and collections of one store

Machines push states to a store, and `gc` deletes the data objects that no tree refers to
(`push_locked` and `upload_state_journal` in `store_remote/writer.rs`, `gc` in
`store_remote/reader.rs`). Any number of pushes and collections run at the same time. A step is one
access to the store, to the clock or to the journal of a machine; between two steps of a process all
others can take theirs, and time passes. A push that fails or crashes keeps nothing but its journal
and its index.

The choices that the repository makes are part of the step: which state is next, whether a base was
found for it, and in which order a walk meets the files. The content of a tree object is its tree;
encryption, signatures and the records are left out.
-/

namespace Layr

namespace Push

open Format

/-! ## The store -/

structure Object where
  data : Bytes
  modified : Int

structure Published where
  state : String
  attempt : String
  base : Option (String × String)
  tree : Tree
  modified : Int

/-- The number of trees that a tree is a delta of, one over the other. -/
def treeDepth (trees : BTreeMap Published) : Nat → String × String → Option Nat
  | 0, _ => none
  | fuel + 1, at_ => do
    let p ← trees[treeName at_.1 at_.2]?
    match p.base with
    | none => return 0
    | some base => return (← treeDepth trees fuel base) + 1

def readFrame (parts : BTreeMap Object) (l : Link) : Option Bytes := do
  let part ← parts[l.object]?
  let stop := l.offset.toNat + l.length.toNat
  guard (stop < 2 ^ 64 ∧ stop ≤ part.data.length)
  return (part.data.drop l.offset.toNat).take l.length.toNat

/-- Decode a chain, from the full frame at its end on. The first frame of the chain has its own
limit. -/
def readChain (env : Env) (parts : BTreeMap Object) : Nat → List Link → Option Bytes
  | _, [] => some []
  | limit, l :: chain => do
    let base ← readChain env parts decodeLimit chain
    env.decompressWithLimit (← readFrame parts l)
      (if l.kind == "delta" then some base else none) limit

def read (env : Env) (parts : BTreeMap Object) (e : Entry) : Option Bytes := do
  let data ← readChain env parts e.size.toNat e.chain
  guard (data.length = e.size.toNat ∧ env.sha data = e.sha)
  return data

/-! ## The state of a push -/

/-- A published state in the index of a machine. The tree is there if its root is in the cache. -/
structure Cached where
  attempt : String
  depth : Nat
  tree : Option Tree

def validCached (state : String) (c : Cached) : Bool :=
  isUuid state && validAttempt c.attempt && c.depth < fullTreeEvery

/-- What a push has in memory: the known frames, the index, and the tree of the last state or of the
selected parent. -/
structure Session where
  hashes : ContentHashes := {}
  index : BTreeMap Cached := ∅
  base : Option (String × Pushed) := none
  states : Nat := 0

inductive Phase where
  | idle
  /-- It looks for states that another push has published. -/
  | opening (s : Session) (resuming : Bool) (recovered : List String)
  /-- It validates the parts of earlier attempts. -/
  | seeding (s : Session) (pending : List (String × PendingRow)) (recovered : List String)
  | ready (s : Session)
  | uploading (s : Session) (u : Upload) (todo : List (String × Meta))
  /-- The journal has the current part, and the store does not. -/
  | putting (s : Session) (u : Upload) (todo : List (String × Meta))
  /-- The tree was checked against its deadline. -/
  | checked (s : Session) (u : Upload) (time : Int)
  /-- The store has the tree. -/
  | published (s : Session) (u : Upload)

structure Machine where
  journal : Option Journal := none
  saved : BTreeMap Cached := ∅
  phase : Phase := .idle

/-- A crash, and also every error of a push. -/
def Machine.abort (m : Machine) : Machine :=
  { m with journal := m.journal.map Journal.rollback, phase := .idle }

def Machine.rows (m : Machine) : Rows := (m.journal.getD {}).rows

def Machine.write (m : Machine) (f : Journal → Journal) : Machine :=
  { m with journal := some (f (m.journal.getD {})) }

/-! ## The state of a collection -/

inductive Collection where
  | idle
  | reading (listed : Int) (objects : List (String × Int)) (todo : List String)
      (referenced : List String)
  | sweeping (cutoff : Int) (objects : List (String × Int)) (referenced : List String)
  /-- The object is not referred to, and its own attempt has no tree. -/
  | deleting (cutoff : Int) (object : String) (objects : List (String × Int))
      (referenced : List String)

/-! ## All of it -/

/-- The store, the processes and the clock. All that was ever uploaded and all that `gc` deleted is
kept as history. -/
structure World where
  now : Int := 0
  parts : BTreeMap Object := ∅
  trees : BTreeMap Published := ∅
  machines : String → Machine := fun _ => {}
  collections : String → Collection := fun _ => .idle
  uploaded : BTreeMap Object := ∅
  deleted : List String := []

variable (w : World) (i : String)

def World.setMachine (m : Machine) : World :=
  { w with machines := Function.update w.machines i m }

def World.setCollection (c : Collection) : World :=
  { w with collections := Function.update w.collections i c }

/-- The objects under `states/`, with the times of their upload. -/
def World.listing : List (String × Int) :=
  w.trees.toList.map (fun e => (e.1, e.2.modified)) ++ w.parts.toList.map fun e =>
    (e.1, e.2.modified)

def World.complete (id : String) : Option String :=
  ((w.trees.toList.filterMap fun e => parseTreeName e.1).find? (·.1 == id)).map (·.2)

/-! ## The steps of a push -/

/-- The index with the states that the journal has. -/
def openIndex (saved : BTreeMap Cached) (completed : BTreeMap (String × Nat)) : BTreeMap Cached :=
  (completed.toList.foldl (fun (index : BTreeMap Cached) done =>
    let tree := (index[done.1]?.filter fun c => c.attempt == done.2.1).bind (·.tree)
    index.insert done.1 ⟨done.2.1, done.2.2, tree⟩) saved).filter validCached

def openPush (m : Machine) : Option Machine :=
  match m.phase with
  | .idle =>
    let index := openIndex m.saved m.rows.completed
    let opened : Machine := m.write id
    some { opened with phase := .opening { index := index } m.journal.isSome [] }
  | _ => none

/-- An advertised tip whose tree the store does not have. -/
def recheck (m : Machine) (tip : String) : Option Machine :=
  match m.phase with
  | .opening s resuming recovered =>
    let missing := s.index[tip]?.any fun c => !w.trees.contains (treeName tip c.attempt)
    let s := if missing then { s with index := s.index.erase tip } else s
    some { m with phase := .opening s resuming recovered }
  | _ => none

/-- A state of the repository that the index does not have. -/
def discover (m : Machine) (id : String) : Option Machine :=
  match m.phase with
  | .opening s resuming recovered =>
    if s.index.contains id then none
    else
      match w.complete id with
      | none => some m
      | some attempt =>
        let s := { s with index := s.index.insert id ⟨attempt, fullTreeEvery - 1, none⟩ }
        some { m with
          phase := .opening s resuming (if resuming then recovered ++ [id] else recovered) }
  | _ => none

def loadHashes (m : Machine) : Option Machine :=
  match m.phase with
  | .opening s _ recovered =>
    let s := { s with hashes := { entries := m.rows.hashes } }
    some { m with phase := .seeding s m.rows.pending.toList recovered }
  | _ => none

/-- A part of an earlier attempt: its frames are taken again in the first 12 hours. -/
def validate (env : Env) (w : World) (m : Machine) : Option Machine :=
  match m.phase with
  | .seeding s ((object, row) :: pending) recovered =>
    let modified := (w.parts[object]?.map (·.modified)).filter fun modified => w.now - modified <
      12 * 3600
    match modified.filter fun _ => row.entries.all fun e => (read env w.parts e).isSome with
    | some modified =>
      let s := { s with hashes := s.hashes.pendingPart object modified row.entries }
      some { m.write (·.validatePart object modified) with phase := .seeding s pending recovered }
    | none => some { m.write (·.discardPart object) with phase := .seeding s pending recovered }
  | _ => none

/-- After a tree is published: its frames are in the journal. -/
def checkpointTree (m : Machine) (s : Session) (state attempt : String) (depth : Nat)
    (h : ContentHashes) (referred : List String) : Machine × Session :=
  (m.write (·.checkpoint state attempt depth h.dirty referred),
    { s with hashes := { h with dirty := ∅ } })

/-- A state that the store had when the push was opened again. -/
def recover (m : Machine) : Option Machine :=
  match m.phase with
  | .seeding s [] (id :: recovered) => do
    let c ← s.index[id]?
    match w.trees[treeName id c.attempt]?, treeDepth w.trees fullTreeEvery (id, c.attempt) with
    | some p, some depth =>
      let h := (s.hashes.protect p.tree).seedTree p.tree
      let (m, s) := checkpointTree m s id c.attempt depth h (s.hashes.referredParts p.tree)
      let s := { s with index := s.index.insert id { c with depth := depth } }
      return { m with phase := .seeding s [] recovered }
    | _, _ => return m.abort
  | _ => none

def ready (m : Machine) : Option Machine :=
  match m.phase with
  | .seeding s [] [] => some { m with phase := .ready s }
  | _ => none

/-- The tree of a state in the index, from the cache or from the store. -/
def hydrate (id : String) (c : Cached) : Option Pushed :=
  match c.tree with
  | some tree => some ⟨c.attempt, tree, c.depth⟩
  | none => do
    let p ← w.trees[treeName id c.attempt]?
    return ⟨c.attempt, p.tree, ← treeDepth w.trees fullTreeEvery (id, c.attempt)⟩

def selectParent (m : Machine) (id : String) : Option Machine :=
  match m.phase with
  | .ready s => do
    let c ← s.index[id]?
    match hydrate w id c with
    | none => return m.abort
    | some pushed =>
      let s := { s with
        index := s.index.insert id ⟨pushed.attempt, pushed.depth, some pushed.tree⟩
        hashes := s.hashes.seedTree pushed.tree
        base := some (id, pushed) }
      return { m with phase := .ready s }
  | _ => none

/-- The upload of the next state, with or without the parent as its base. A walk meets the files in
some order. -/
def beginUpload (repo : Repo) (w : World) (m : Machine) (state attempt : String) (useBase : Bool)
    (order : List (String × Meta)) : Option Machine :=
  match m.phase with
  | .ready s => do
    guard (isUuid state && validAttempt attempt && !s.index.contains state)
    let base := if useBase then s.base else none
    guard (order.isPerm (visits repo state base))
    return { m with phase := .uploading s (startUpload repo state attempt w.now base) order }
  | _ => none

/-- The current part goes into the journal, before it goes to the store. -/
def prepare (m : Machine) (s : Session) (u : Upload) (todo : List (String × Meta)) : Machine :=
  { m.write (·.preparePart u.state u.attempt u.part u.partEntries) with phase := .putting s u todo }

def visitNext (env : Env) (repo : Repo) (m : Machine) : Option Machine :=
  match m.phase with
  | .uploading s u ((path, file) :: todo) =>
    match visit env repo s.hashes u path file with
    | .error _ => some m.abort
    | .ok none => some (prepare m s u ((path, file) :: todo))
    | .ok (some (h, u)) => some { m with phase := .uploading { s with hashes := h } u todo }
  | _ => none

def flush (m : Machine) : Option Machine :=
  match m.phase with
  | .uploading s u [] => if u.current.isEmpty then none else some (prepare m s u [])
  | _ => none

def Upload.tree (u : Upload) : Tree := ⟨u.files⟩

def checkDeadline (m : Machine) : Option Machine :=
  match m.phase with
  | .uploading s u [] =>
    if !u.current.isEmpty then none
    else if 23 * 3600 ≤ w.now - u.startedAt ∨ s.hashes.deadline u.tree u.startedAt ≤ w.now then
      some m.abort
    else some { m with phase := .checked s u w.now }
  | _ => none

def Upload.deltaBase (u : Upload) : Option (String × Pushed) :=
  u.base.filter fun b => b.2.depth + 1 < fullTreeEvery

def Upload.pushed (u : Upload) : Pushed :=
  ⟨u.attempt, u.tree, (u.deltaBase.map fun b => b.2.depth + 1).getD 0⟩

def indexStates : Nat := 16384
def checkpointStates : Nat := 128

def savedIndex (index : BTreeMap Cached) : BTreeMap Cached :=
  Std.ExtTreeMap.ofList (index.toList.drop (index.size - indexStates)) compare

def checkpoint (m : Machine) : Option Machine :=
  match m.phase with
  | .published s u =>
    let h := s.hashes.protect u.tree
    let (m, s) :=
      checkpointTree m s u.state u.attempt u.pushed.depth h (s.hashes.referredParts u.tree)
    let index := s.index.insert u.state ⟨u.attempt, u.pushed.depth, some u.tree⟩
    let saved := if (s.states + 1) % checkpointStates = 0 then savedIndex index else m.saved
    let s := { s with index := index, base := some (u.state, u.pushed), states := s.states + 1 }
    some { m with saved := saved, phase := .ready s }
  | _ => none

/-- The index file of a push that has no state left. -/
def saveIndex (m : Machine) : Option Machine :=
  match m.phase with
  | .ready s => some { m with saved := savedIndex s.index }
  | _ => none

def finish (m : Machine) : Option Machine :=
  match m.phase with
  | .ready s => some { journal := none, saved := savedIndex s.index, phase := .idle }
  | _ => none

def putPart : Option World :=
  let m := w.machines i
  match m.phase with
  | .putting s u todo =>
    let key := dataName u.state u.attempt (.ofNat u.part)
    if maxParts ≤ u.part ∨ w.parts.contains key then some (w.setMachine i m.abort)
    else
      let object : Object := ⟨u.current, w.now⟩
      let u := { u with current := [], partEntries := [], part := u.part + 1 }
      let w := w.setMachine i { m with phase := .uploading s u todo }
      some { w with parts := w.parts.insert key object, uploaded := w.uploaded.insert key object }
  | _ => none

def publish : Option World :=
  let m := w.machines i
  match m.phase with
  | .checked s u _ =>
    let key := treeName u.state u.attempt
    if w.trees.contains key then some (w.setMachine i m.abort)
    else
      let tree : Published :=
        ⟨u.state, u.attempt, u.deltaBase.map fun b => (b.1, b.2.attempt), u.tree, w.now⟩
      let w := w.setMachine i { m with phase := .published s u }
      some { w with trees := w.trees.insert key tree }
  | _ => none

/-! ## The steps of a collection -/

def listObjects : Option World :=
  match w.collections i with
  | .idle =>
    let trees := w.listing.filterMap fun e => (parseTreeName e.1).map fun _ => e.1
    some (w.setCollection i (.reading w.now w.listing trees []))
  | _ => none

def readTree : Option World :=
  match w.collections i with
  | .reading listed found (key :: todo) referenced =>
    match w.trees[key]? with
    | some p => some (w.setCollection i (.reading listed found todo (objects p.tree ++ referenced)))
    | none => some (w.setCollection i .idle)
  | _ => none

def takeCutoff : Option World :=
  match w.collections i with
  | .reading _ found [] referenced =>
    some (w.setCollection i (.sweeping (w.now - 86400) found referenced))
  | _ => none

def keeps (cutoff : Int) (referenced : List String) (key : String) (modified : Int) : Bool :=
  match parseDataName key with
  | none => true
  | some (state, attempt, _) => cutoff ≤ modified || referenced.contains key ||
    w.trees.contains (treeName state attempt)

def examine : Option World :=
  match w.collections i with
  | .sweeping _ [] _ => some (w.setCollection i .idle)
  | .sweeping cutoff ((key, modified) :: found) referenced =>
    if keeps w cutoff referenced key modified then
      some (w.setCollection i (.sweeping cutoff found referenced))
    else some (w.setCollection i (.deleting cutoff key found referenced))
  | _ => none

def deleteObject : Option World :=
  match w.collections i with
  | .deleting cutoff key found referenced =>
    let w := w.setCollection i (.sweeping cutoff found referenced)
    some { w with parts := w.parts.erase key, deleted := key :: w.deleted }
  | _ => none

/-! ## Runs -/

inductive Action where
  | openPush
  | recheck (tip : String)
  | discover (id : String)
  | loadHashes
  | validate
  | recover
  | ready
  | selectParent (id : String)
  | beginUpload (state attempt : String) (useBase : Bool) (order : List (String × Meta))
  | visitNext
  | flush
  | checkDeadline
  | checkpoint
  | saveIndex
  | finish
  | crash

/-- The steps that change nothing but the machine. -/
def act (env : Env) (repo : Repo) (w : World) (m : Machine) : Action → Option Machine
  | .openPush => openPush m
  | .recheck tip => recheck w m tip
  | .discover id => discover w m id
  | .loadHashes => loadHashes m
  | .validate => validate env w m
  | .recover => recover w m
  | .ready => ready m
  | .selectParent id => selectParent w m id
  | .beginUpload state attempt useBase order => beginUpload repo w m state attempt useBase order
  | .visitNext => visitNext env repo m
  | .flush => flush m
  | .checkDeadline => checkDeadline w m
  | .checkpoint => checkpoint m
  | .saveIndex => saveIndex m
  | .finish => finish m
  | .crash => some m.abort

inductive Label where
  | tick (seconds : Nat)
  | act (machine : String) (action : Action)
  | putPart (machine : String)
  | publish (machine : String)
  | listObjects (collection : String)
  | readTree (collection : String)
  | takeCutoff (collection : String)
  | examine (collection : String)
  | deleteObject (collection : String)

def step (env : Env) (repo : Repo) (w : World) : Label → Option World
  | .tick seconds => some { w with now := w.now + seconds }
  | .act i action => (act env repo w (w.machines i) action).map (w.setMachine i)
  | .putPart i => putPart w i
  | .publish i => publish w i
  | .listObjects i => listObjects w i
  | .readTree i => readTree w i
  | .takeCutoff i => takeCutoff w i
  | .examine i => examine w i
  | .deleteObject i => deleteObject w i

def run (env : Env) (repo : Repo) (w : World) (labels : List Label) : Option World :=
  labels.foldlM (step env repo) w

end Push

end Layr
