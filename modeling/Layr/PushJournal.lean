import Layr.Format
import Layr.Lib.Maps

/-!
# What a push remembers

The frames that a push knows for a content (`ContentHashes` in `store_remote/writer.rs`), and the
journal that keeps its progress over a crash of the process (`store_remote/push_journal.rs`).

A chain of frames is in `entries` when the frames are the push's own or those of a published tree.
The frames of an attempt that was not published are in `tentative`, with the time at which their
part was uploaded, until a published tree refers to that part.
-/

namespace Layr

namespace Push

open Format

def objects (t : Tree) : List String := t.files.toList.flatMap fun e => e.2.chain.map Link.object

/-! ## Known contents -/

structure ContentHashes where
  entries : BTreeMap (List Link) := ∅
  dirty : BTreeMap (List Link) := ∅
  tentative : BTreeMap (List Link × Int) := ∅
  pending : BTreeMap (List Entry) := ∅

namespace ContentHashes

def get (h : ContentHashes) (sha : String) : Option (List Link) :=
  h.entries[sha]?.or (h.tentative[sha]?.map (·.1))

def insert (h : ContentHashes) (sha : String) (links : List Link) : ContentHashes :=
  { h with dirty := h.dirty.insert sha links, entries := h.entries.insert sha links }

def seed (h : ContentHashes) (sha : String) (links : List Link) : ContentHashes :=
  if h.entries.contains sha then h else h.insert sha links

def seedTree (h : ContentHashes) (t : Tree) : ContentHashes :=
  t.files.toList.foldl (fun h e => h.seed e.2.sha e.2.chain) h

def pendingPart (h : ContentHashes) (object : String) (modified : Int) (entries : List Entry) :
    ContentHashes :=
  { h with
    tentative := entries.foldl (fun t e =>
      if h.entries.contains e.sha then t else t.insert e.sha (e.chain, modified)) h.tentative
    pending := h.pending.insert object entries }

/-- An entry of a part that a published tree refers to. -/
def protectEntry (h : ContentHashes) (e : Entry) : ContentHashes :=
  { h with tentative := h.tentative.erase e.sha }.seed e.sha e.chain

def protectPart (h : ContentHashes) (object : String) : ContentHashes :=
  (h.pending[object]?.getD []).foldl protectEntry { h with pending := h.pending.erase object }

def referredParts (h : ContentHashes) (t : Tree) : List String :=
  h.pending.keys.filter ((objects t).contains ·)

def protect (h : ContentHashes) (t : Tree) : ContentHashes :=
  (h.referredParts t).foldl protectPart h

/-- The time at which a tree can no longer be published: 23 hours after the start of its upload, or
after the upload of the oldest unpublished part that it may refer to. -/
def deadline (h : ContentHashes) (t : Tree) (started : Int) : Int :=
  (t.files.toList.filterMap fun e => h.tentative[e.2.sha]?.map (·.2)).foldl min started + 23 * 3600

end ContentHashes

/-! ## The journal -/

structure PendingRow where
  state : String
  attempt : String
  entries : List Entry
  modified : Option Int

structure Rows where
  hashes : BTreeMap (List Link) := ∅
  completed : BTreeMap (String × Nat) := ∅
  pending : BTreeMap PendingRow := ∅

def Rows.insertHashes (r : Rows) (hashes : BTreeMap (List Link)) : Rows :=
  { r with hashes := hashes.toList.foldl (fun m e => m.insertIfNew e.1 e.2) r.hashes }

/-- The tables as the connection sees them, and those that a crash leaves. -/
structure Journal where
  rows : Rows := {}
  committed : Rows := {}
  stagedStates : Nat := 0

namespace Journal

variable (j : Journal)

/-- A crash, or an error that closes the connection, takes back what was not committed. -/
def rollback : Journal := { rows := j.committed, committed := j.committed }

def transaction (state commit : Bool) (apply : Rows → Rows) : Journal :=
  let rows := apply j.rows
  let staged := j.stagedStates + state.toNat
  if commit || 32 ≤ staged then { rows := rows, committed := rows }
  else { j with rows := rows, stagedStates := staged }

def preparePart (state attempt : String) (part : Nat) (entries : List Entry) : Journal :=
  j.transaction false true fun r =>
    let row : PendingRow := ⟨state, attempt, entries, none⟩
    { r with pending := r.pending.insert (dataName state attempt (.ofNat part)) row }

def validatePart (object : String) (modified : Int) : Journal :=
  j.transaction false true fun r =>
    match r.pending[object]? with
    | none => r
    | some row =>
      { r with pending := r.pending.insert object { row with modified := some modified } }

def discardPart (object : String) : Journal :=
  j.transaction false true fun r => { r with pending := r.pending.erase object }

def checkpoint (state attempt : String) (depth : Nat) (hashes : BTreeMap (List Link))
    (referred : List String) : Journal :=
  j.transaction true false fun r =>
    let r := r.insertHashes hashes
    let own := r.pending.filter fun _ row => !(row.state == state && row.attempt == attempt)
    { r with
      completed := r.completed.insert state (attempt, depth)
      pending := referred.foldl (fun m object => m.erase object) own }

end Journal

end Push

end Layr
