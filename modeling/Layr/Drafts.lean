import Layr.Lib.Sorted
import Layr.Lib.Texts
import Layr.Validation

/-!
# Draft branches

The versions of a draft branch, as a client merges and edits them (`client-domain/src/drafts.rs`). A
branch is named by its id. A version carries the texts of other versions that were merged into it
(`alternatives`) and, for each branch, the time up to which its author saw that branch (`seen`).
-/

namespace Layr.Drafts

open Canonical

def maxDraftTextCodepoints : Nat := 2_000_000

def maxDraftIdBytes : Nat := 300

def maxSafeInteger : Nat := 9_007_199_254_740_991

structure DraftVersion where
  id : String
  session : String
  device : String
  text : String
  updated : Nat
  alternatives : List String
  seen : BTreeMap Nat
  /-- Fields of older payloads, kept as they are. -/
  extra : BTreeMap Json

/-- `DraftVersion::validate`: the id names the device and the session, with or without a writer
between them, and the numbers and sizes are in range. -/
def DraftVersion.validate (v : DraftVersion) : Except String Unit :=
  let legacyId := v.device ++ ":" ++ v.session
  let writerId := ((stripPrefix v.id (v.device ++ ":")).bind (stripSuffix · (":" ++ v.session))).any
    fun writer => writer != "" && !writer.toList.contains ':'
  ensure (!(v.device == "" || v.session == "" || (v.id != legacyId && !writerId) ||
      maxDraftIdBytes < v.id.utf8ByteSize || maxDraftTextCodepoints < v.text.length ||
      maxSafeInteger < v.updated || v.seen.toList.any fun e => maxSafeInteger < e.2))
    "Invalid draft identity or version."

/-- The winner of a merge and the other one. Equal times leave the master in place. -/
def ranked (master fork : DraftVersion) : DraftVersion × DraftVersion :=
  if fork.updated > master.updated then (fork, master) else (master, fork)

/-- The author of the winner saw the other version and replaced its text. -/
def replaced (winner other : DraftVersion) : Bool :=
  winner.seen[other.id]?.any fun time => other.updated ≤ time

def combine (master fork : DraftVersion) : DraftVersion :=
  let (winner, other) := ranked master fork
  let texts := master.alternatives ++ fork.alternatives ++ if replaced winner other then []
    else [other.text]
  { winner with
    alternatives := canonical utf16Le (texts.filter fun text => text != "" && text != winner.text) }

def merge (master fork : DraftVersion) : Except String DraftVersion := do
  master.validate
  fork.validate
  ensure (master.id == fork.id) "Only versions of the same draft branch can merge."
  return combine master fork

def raise (seen : BTreeMap Nat) (e : String × Nat) : BTreeMap Nat :=
  seen.insert e.1 ((seen[e.1]?).elim e.2 fun old => max old e.2)

/-- One round of the loop of `edit`: the clock, and what the versions of the session saw. -/
def editStep (session : String) (acc : Nat × BTreeMap Nat) (v : DraftVersion) :
    Except String (Nat × BTreeMap Nat) := do
  v.validate
  ensure (v.updated + 1 < 2 ^ 64) "Draft clock overflow."
  let updated := max acc.1 (v.updated + 1)
  if v.session != session then
    return (updated, acc.2)
  return (updated, (v.seen.toList ++ [(v.id, v.updated)]).foldl raise acc.2)

/-- `edit`: a new version of a device's own branch, later than all the versions it is made from. -/
def edit (device session text : String) (versions : List DraftVersion) (now : Nat) :
    Except String DraftVersion := do
  let (updated, seen) ← versions.foldlM (editStep session) (now, ∅)
  let id := device ++ ":" ++ session
  let version : DraftVersion :=
    { id, session, device, text, updated, seen := seen.insertIfNew id 0, alternatives := [],
      extra := ∅ }
  version.validate
  return version

end Layr.Drafts
