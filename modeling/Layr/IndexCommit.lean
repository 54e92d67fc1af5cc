import Layr.Lib.Crash
import Layr.Validation

/-!
# Moving an index into a state

The commit of a staged tree on APFS (`src/apfs_commit.rs`, with `set_readonly` and `set_writable` of
`src/apfs.rs`). The staged tree is not copied: it is moved to the place of the new state and made
immutable, the record is written in one transaction, and a journal says what is going on. Whoever
takes the project's lock next puts things right (`recover`).

A tree is what these functions see of it: its identity, the marker that says whether it is
read-only, the mode of its root and the immutable flag of each of its entries. Flags are changed
entry by entry, by several threads; a fault can leave any part of them changed. What is synced is
not modelled: a write is there once it is done.
-/

namespace Layr

open Crash (Prog)

namespace IndexCommit

/-- An entry below the root of a tree, in a folder of the tree. -/
structure Entry where
  folder : List String
  name : String
  isDir : Bool
  immutable : Bool
deriving DecidableEq

/-- A tree. The marker of its root has the id, the base of a thin layer and the read-only flag. -/
structure Tree where
  isDir : Bool
  device : Nat
  inode : Nat
  uuid : String
  base : Option String
  readonly : Bool
  mode : BitVec 12
  immutable : Bool
  entries : List Entry
deriving DecidableEq

inductive Place where
  | stage (line : String)
  | state (id : String)
  | delta (id : String)
deriving DecidableEq

structure Journal where
  version : Nat
  project : String
  line : String
  state : String
  subvol : String
  device : Nat
  inode : Nat
  mode : Nat
  /-- The index is a thin layer: the state goes to `deltas`. -/
  thin : Bool
deriving DecidableEq

/-- What the database knows of a state. -/
structure Saved where
  subvol : String
  line : Option String
deriving DecidableEq

/-- A project: its trees, the base files of its staged trees, the journal and the recorded states.
-/
structure World where
  trees : Place → Option Tree
  base : String → Bool
  journal : Option Journal
  states : String → Option Saved

def World.modify (w : World) (x : Place) (f : Tree → Tree) : World :=
  { w with trees := Function.update w.trees x ((w.trees x).map f) }

/-! ## One call each -/

variable (x : Place)

def change (allowed : Tree → Bool) (f : Tree → Tree) : Prog World Unit :=
  .act fun w => (w.trees x).bind fun t => if allowed t then some [fun w => w.modify x f] else none

def setFlag (v : Bool) : Prog World Unit :=
  change x (fun _ => true) fun t => { t with immutable := v }

/-- `fs::set_permissions` on the root. An immutable root keeps its mode. -/
def setPermissions (mode : BitVec 12) : Prog World Unit :=
  change x (fun t => !t.immutable) fun t => { t with mode := mode }

def ownerWrite : BitVec 12 := 0o200#12

/-- `apfs_marker` with a new read-only flag. The root has to be writable. -/
def writeMarker (readonly : Bool) : Prog World Unit :=
  change x (fun t => !t.immutable && t.mode &&& ownerWrite != 0#12) fun t =>
    { t with readonly := readonly }

/-- `apfs_immutable` on each entry that is chosen, in parallel. -/
def setFlags (p : Entry → Bool) (v : Bool) : Prog World Unit :=
  .act fun w => (w.trees x).map fun t => (t.entries.filter p).map fun e => fun w =>
    w.modify x fun t => { t with entries := t.entries.map fun d =>
      if d.folder = e.folder ∧ d.name = e.name then { d with immutable := v } else d }

/-- `apfs_publish`: a rename that never replaces an entry. An immutable root cannot be renamed. -/
def publish (src dst : Place) : Prog World Unit :=
  .act fun w => (w.trees src).bind fun t =>
    if (w.trees dst).isNone && !t.immutable && t.mode &&& ownerWrite != 0#12 then
      some [fun w => { w with
        trees := Function.update (Function.update w.trees src none) dst (w.trees src) }]
    else none

def sync : Prog World Unit := .act fun _ => some []

def treeAt : Prog World Tree := .read fun w => w.trees x

/-! ## `apfs.rs` -/

def updateReadonly (readonly : Bool) : Prog World Unit := do
  let _ ← treeAt x
  setFlag x false
  let mode := (← treeAt x).mode
  setPermissions x (mode ||| ownerWrite)
  -- The mode comes back also when the marker cannot be written.
  (writeMarker x readonly).onError (setPermissions x mode)
  setPermissions x mode

def Tree.depth (t : Tree) : Nat := (t.entries.map (·.folder.length + 1)).foldl max 0

/-- `seal` with `readonly` false: clear the flags, level by level from the root. -/
def openTree : Prog World Unit := do
  let t ← treeAt x
  setFlag x false
  (List.range t.depth).forM fun d => do
    setFlags x (fun e => !e.isDir && e.folder.length == d) false
    setFlags x (fun e => e.isDir && e.folder.length == d) false

/-- `seal` with `readonly` true: set the flags, of the files, then of the folders from the deepest
level on, and of the root. -/
def closeTree : Prog World Unit := do
  let t ← treeAt x
  if t.isDir then
    setFlags x (fun e => !e.isDir) true
    ((List.range t.depth).reverse).forM fun d =>
      setFlags x (fun e => e.isDir && e.folder.length == d) true
  setFlag x true

def setReadonly : Prog World Unit := do
  updateReadonly x true
  -- Never advertise a partially sealed tree as immutable.
  (closeTree x).onError (updateReadonly x false)

def setWritable : Prog World Unit := do
  openTree x
  updateReadonly x false

/-! ## `apfs_commit.rs` -/

variable (j : Journal)

def target : Place := if j.thin then .delta j.state else .state j.state

variable (project : String)

def Journal.valid (j : Journal) : Bool :=
  j.version == 1 && j.project == project && isUuid j.line && isUuid j.state && isUuid j.subvol &&
    decide (j.mode < 0o10000)

def readJournal : Prog World (Option Journal) := do
  let j ← Prog.read fun w => some w.journal
  Prog.guard (j.all (Journal.valid project))
  return j

def Journal.names (t : Tree) : Bool :=
  t.isDir && t.device == j.device && t.inode == j.inode && t.uuid == j.subvol

def verifyTree : Prog World Unit := do
  Prog.guard (j.names (← treeAt x))

def moveTree (src dst : Place) (mode : BitVec 12) : Prog World Unit := do
  setFlag src false
  setPermissions src (mode ||| ownerWrite)
  publish src dst
  setPermissions dst mode
  sync
  sync

def removeBase (line : String) : Prog World Unit :=
  .act fun _ => some [fun w => { w with base := Function.update w.base line false }]

def removeJournal : Prog World Unit := .act fun _ => some [fun w => { w with journal := none }]

def exists? : Prog World Bool := .read fun w => some (w.trees x).isSome

/-- The state of the journal is recorded: it keeps its tree. -/
def recoverSaved (rec : Saved) : Prog World Unit := do
  let staged ← exists? (.stage j.line)
  Prog.guard (rec.subvol == j.subvol && rec.line == some j.line && !staged)
  verifyTree (target j) j
  Prog.guard (← treeAt (target j)).readonly
  removeBase j.line
  sync

/-- The state of the journal is not recorded: the tree goes back to the index. -/
def recoverIndex : Prog World Unit := do
  let staged ← exists? (.stage j.line)
  let moved ← exists? (target j)
  match staged, moved with
  | true, false => verifyTree (.stage j.line) j
  | false, true => do
    verifyTree (target j) j
    setWritable (target j)
    moveTree (target j) (.stage j.line) (.ofNat 12 j.mode)
  | _, _ => Prog.fail
  -- This also handles interruption while sealing or restoring the index.
  setWritable (.stage j.line)
  setPermissions (.stage j.line) (.ofNat 12 j.mode)
  sync
  sync

/-- Reconcile the journal against the committed database record. -/
def recover : Prog World Unit := do
  match ← readJournal project with
  | none => return ()
  | some j => do
    match ← Prog.read fun w => some (w.states j.state) with
    | some rec => recoverSaved j rec
    | none => recoverIndex j
    removeJournal
    sync

def journalOf (project line id : String) (t : Tree) : Journal where
  version := 1
  project := project
  line := line
  state := id
  subvol := t.uuid
  device := t.device
  inode := t.inode
  mode := t.mode.toNat
  thin := t.base.isSome

def writeJournal : Prog World Unit :=
  .act fun _ => some [fun w => { w with journal := some j }]

/-- Write the journal, then move the tree and make it immutable. `id` is the new state's. Once the
journal is there, a failure recovers. -/
def prepare (project line id : String) : Prog World Journal := do
  let pending ← Prog.read fun w => some w.journal.isSome
  Prog.guard (isUuid line && !pending)
  let t ← treeAt (.stage line)
  Prog.guard (t.isDir && !t.readonly)
  let j := journalOf project line id t
  writeJournal j
  Prog.onError (do
    moveTree (.stage line) (target j) (.ofNat 12 j.mode)
    setReadonly (target j)
    sync
    sync
    return j) (recover project)

def saveRecord : Prog World Unit :=
  .act fun w => (w.trees (target j)).map fun t =>
    [fun w => { w with states := Function.update w.states j.state (some ⟨t.uuid, some j.line⟩) }]

def finish (j : Journal) : Prog World Unit := do
  Prog.guard (← Prog.read fun w => some (w.states j.state)).isSome
  recover project

def rollback : Prog World Unit := recover project

/-- A commit of what is staged: the record is written, or the commit is given up. What fails on the
way is recovered when the commit is dropped. -/
def commit (project line id : String) (save : Bool) : Prog World Unit := do
  let j ← prepare project line id
  Prog.onError (if save then do
      saveRecord j
      finish project j
    else rollback project) (recover project)

end IndexCommit

end Layr
