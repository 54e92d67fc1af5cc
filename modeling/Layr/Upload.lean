import Layr.PushJournal

/-!
# The upload of a state

One state of a push (`upload_state_journal` in `store_remote/writer.rs`): its files, found by a walk
or taken from the tree of a base and a list of changes, become entries of a tree. The content of a
file is a frame in a data object, or the frames of an equal content that is known already.

The hash and the frames are parameters. A state's folder is a map from path to node; the order in
which a walk meets its files is not fixed here.
-/

namespace Layr

namespace Push

open Format

abbrev Bytes := List UInt8

def partLimit : Nat := 16 * 2 ^ 20
def deltaLimit : Nat := 32 * 2 ^ 20

/-- The decoded size that is the limit where a tree does not say the size. -/
def decodeLimit : Nat := 4 * 2 ^ 30

/-- What the writer takes from outside: the hash of a content, and the frames of `zstd` for a
content and a base. -/
structure Env where
  sha : Bytes → String
  compress : Bytes → Option Bytes → Bytes
  decompress : Bytes → Option Bytes → Option Bytes

def Env.decompressWithLimit (env : Env) (frame : Bytes) (base : Option Bytes) (limit : Nat) :
    Option Bytes :=
  (env.decompress frame base).filter (·.length ≤ limit)

/-! ## The files of a state -/

inductive FType where
  | file
  | dir
  | symlink
  | special
deriving DecidableEq

structure Meta where
  ftype : FType
  executable : Bool
deriving DecidableEq

def Meta.gitMode (m : Meta) : String :=
  match m.ftype with
  | .symlink => "120000"
  | .dir => "40000"
  | _ => if m.executable then "100755" else "100644"

/-- What is at a path. A folder can be a subvolume of its own. -/
inductive Node where
  | file (executable : Bool) (data : Bytes)
  | symlink (target : Bytes)
  | special
  | dir (subvolume : Bool)
deriving DecidableEq

def Node.meta : Node → Meta
  | .file executable _ => ⟨.file, executable⟩
  | .symlink _ => ⟨.symlink, true⟩
  | .special => ⟨.special, false⟩
  | .dir _ => ⟨.dir, true⟩

abbrev Snapshot := BTreeMap Node

def content (root : Snapshot) (path mode : String) : Option Bytes :=
  match root[path]? with
  | some (.symlink target) => if mode == "120000" then some target else none
  | some (.file _ data) => if mode == "120000" then none else some data
  | _ => none

/-! The names of `Repo` that no state has. -/

def cacheJournalName (name : String) : Bool :=
  (stripPrefix name ".layr-cache-replace-").any fun name =>
    let name := (stripSuffix name ".tmp").getD name
    (stripSuffix name ".json").any fun hash => hash.toList.length == 64 &&
      hash.toList.all isHexDigit

def skipPath (p : String) : Bool := p == ".git" || startsWith p ".git/" || cacheJournalName p

def descends (root : Snapshot) (folder : String) : Bool :=
  match root[folder]? with
  | some (.dir false) => !skipPath folder
  | _ => false

/-- The walk comes to this path. It visits no subvolume. -/
def reached (root : Snapshot) (path : String) (node : Node) : Bool :=
  node != .dir true && ((parents path).filter (· ≠ "")).all (descends root)

def walkState (root : Snapshot) : List (String × Meta) :=
  (root.toList.filter fun e => reached root e.1 e.2).map fun e => (e.1, e.2.meta)

structure Change where
  path : String
  oldPath : Option String
  new : Option Meta

/-- The states of a repository, whether they are subvolumes, and the lists of changes between two.
-/
structure Repo where
  root : String → Snapshot
  subvolume : String → Bool
  changes : String → String → List Change

/-! ## The upload -/

structure Pushed where
  attempt : String
  tree : Tree
  depth : Nat

structure Upload where
  state : String
  attempt : String
  startedAt : Int
  base : Option (String × Pushed)
  files : BTreeMap Entry
  current : Bytes
  partEntries : List Entry
  part : Nat

/-- The base whose tree the upload starts from, with the changes since. -/
def deltaRoot (repo : Repo) (state : String) (base : Option (String × Pushed)) :
    Option (String × Pushed) :=
  base.filter fun b => repo.subvolume b.1 && repo.subvolume state

def keptFiles (files : BTreeMap Entry) (changes : List Change) : BTreeMap Entry :=
  changes.foldl (fun files change =>
    ((change.oldPath.map files.erase).getD files).erase change.path) files

def startUpload (repo : Repo) (state attempt : String) (now : Int)
    (base : Option (String × Pushed)) : Upload where
  state := state
  attempt := attempt
  startedAt := now
  base := base
  files := match deltaRoot repo state base with
    | some b => keptFiles b.2.tree.files (repo.changes b.1 state)
    | none => ∅
  current := []
  partEntries := []
  part := 0

def visits (repo : Repo) (state : String) (base : Option (String × Pushed)) :
    List (String × Meta) :=
  match deltaRoot repo state base with
  | some b =>
    (repo.changes b.1 state).filterMap fun change => change.new.map fun m => (change.path, m)
  | none => walkState (repo.root state)

def frame (env : Env) (repo : Repo) (base : Option (String × Pushed)) (path : String)
    (data : Bytes) :
    Bytes × List Link :=
  let full := env.compress data none
  let delta : Option (Bytes × List Link) := do
    let (id, pushed) ← base
    let previous ← pushed.tree.files[path]?
    guard (previous.chain.length ≤ maxFileDeltas ∧ data.length ≤ deltaLimit ∧
      previous.size.toNat ≤ deltaLimit)
    let old ← content (repo.root id) path previous.mode
    guard (old ≠ [] ∧ env.sha old = previous.sha)
    let delta := env.compress data (some old)
    guard (delta.length < full.length)
    return (delta, previous.chain)
  delta.getD (full, [])

def nextLink (u : Upload) (frame : Bytes) (chain : List Link) : Link :=
  ⟨u.state, u.attempt, .ofNat u.part, .ofNat u.current.length, .ofNat frame.length,
    if chain.isEmpty then "full" else "delta"⟩

def addFrame (u : Upload) (path : String) (frame : Bytes) (entry : Entry) : Upload :=
  { u with
    current := u.current ++ frame
    partEntries := u.partEntries ++ [entry]
    files := u.files.insert path entry }

def full (u : Upload) (frame : Bytes) : Bool :=
  !u.current.isEmpty && partLimit < u.current.length + frame.length

/-- One file. `none` says that the current part goes to the store first. -/
def visit (env : Env) (repo : Repo) (h : ContentHashes) (u : Upload) (path : String) (m : Meta) :
    Except String (Option (ContentHashes × Upload)) := do
  if skipPath path || m.ftype == .dir then
    return some (h, u)
  ensure (safePath path) "state has an unsafe path"
  ensure (m.ftype != .special) ("state has a special file: " ++ path)
  match content (repo.root u.state) path m.gitMode with
  | none => throw "state contains a special file"
  | some data =>
    let sha := env.sha data
    match h.get sha with
    | some chain =>
      let entry : Entry := ⟨m.gitMode, .ofNat data.length, sha, chain⟩
      return some (h, { u with files := u.files.insert path entry })
    | none =>
      let (frame, chain) := frame env repo u.base path data
      if full u frame then
        return none
      let chain := nextLink u frame chain :: chain
      return some
        (h.insert sha chain, addFrame u path frame ⟨m.gitMode, .ofNat data.length, sha, chain⟩)

end Push

end Layr
