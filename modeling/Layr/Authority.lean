import Layr.Validation

/-!
# Overlay authority

Who manages the keys of an overlay (`layr-model/src/authority.rs`). The parent project has one
signed record that creates the overlay, and one record for each change of its managers. A change is
a signed record of its own, carried as a text in the parent's record, and names the change before
it. The parent's lines come in any order; the links between the changes, not the clocks, give their
order.
-/

namespace Layr

structure Authority where
  machines : BTreeSet
  previous : Option String
  retained : BTreeMap String
  changes : BTreeMap String
deriving DecidableEq

structure Change where
  parent : String
  overlay : String
  name : String
  machines : BTreeSet
  previous : Option String
  retained : BTreeMap String
deriving DecidableEq

open Serde in
def Change.decode (j : Json) : Option Change := do
  let s ← source 6 j
  return { parent := ← s.req 0 "parent" string, overlay := ← s.req 1 "overlay" string,
           name := ← s.req 2 "name" string, machines := ← s.req 3 "machines" textSet,
           previous := ← s.opt 4 "previous" string,
           retained := ← s.req 5 "retained" (map string) }

namespace Authority

/-- The authority right after the creation: the creator alone. -/
def created (creator : String) : Authority where
  machines := (∅ : BTreeSet).insert creator
  previous := none
  retained := ∅
  changes := ∅

/-- Accept a current manager or one exact record retained by a valid manager change. -/
def permits (c : Codec) (a : Authority) (record : Record) (line : String) : Bool :=
  a.machines.contains record.machine || a.retained[record.id]? == some (c.digest line)

def require (a : Authority) (machine : String) : Except String Unit :=
  ensure (a.machines.contains machine) ("machine " ++ machine ++ " is not an overlay key manager")

end Authority

/-- The records of an overlay that only a key manager may write. -/
def isProtected (record : Record) : Bool :=
  let setting (k : String) := ((record.data.idx "config").get k).isSome
  record.op == "overlay.show-to-project" || record.op == "overlay.key" ||
    record.op == "overlay.readers" || record.op == "overlay.mode" ||
    setting "overlay.access-mode" || setting "access" || setting "deny" ||
    setting "overlay.revocation" || setting "overlay"

section

variable (c : Codec)

/-- Verify every signature and refuse unproved manager changes and unauthorized key records. -/
def Authority.validate (a : Authority) (lines : List String) (overlay : String)
    (keys : BTreeMap c.Key) : Except String Unit :=
  lines.forM fun line => do
    let record ← c.parse line none
    let key ← context keys[record.machine]?
      ("overlay signer " ++ record.machine ++ " is not trusted")
    let record ← c.parse line (some key)
    Layr.validate c record
    ensure (record.project == overlay) "overlay record belongs to another project"
    if record.op = "overlay.managers" then
      ensure (a.changes[record.id]? == some (c.digest line))
        ("overlay manager record from " ++ record.machine ++ " has no valid parent authority proof")
    else
      ensure (!isProtected record || a.permits c record line)
        ("overlay record " ++ record.op ++ " signer " ++ record.machine ++ " is not a key manager")

/-- The order in which the records are read: time, machine, sequence number. -/
def recordLe (a b : Record) : Bool :=
  a.time < b.time ||
    (a.time == b.time && (a.machine < b.machine || (a.machine == b.machine && a.seq ≤ b.seq)))

/-- A manager change that waits for its predecessor: the signed record, its text and the change. -/
structure Pending where
  record : Record
  line : String
  change : Change
deriving DecidableEq

/-- What the first pass over the records collects. -/
structure FoldState where
  authorities : BTreeMap Authority := ∅
  ids : BTreeMap (Option String) := ∅
  pending : List Pending := []

variable (parent : String)

/-- The creator of an overlay: the signer of the record, or of the hidden origin it carries. -/
def creatorOf (keys : BTreeMap c.Key) (record : Record) (name : String) (id : Option String) :
    Except String String :=
  match (record.data.idx "hidden_origin").asStr with
  | none => .ok record.machine
  | some origin => do
    let originRecord ← c.parse origin none
    let key ← context keys[originRecord.machine]? "overlay origin signer is not trusted"
    let originRecord ← c.parse origin (some key)
    Layr.validate c originRecord
    let d := originRecord.data
    ensure (originRecord.op == "overlay.create" && some originRecord.project == id &&
      d.idx "parent" == .str parent && d.idx "name" == .str name &&
      ((d.idx "config").idx ("overlay." ++ name)).idx "hidden" == .bool true)
      "invalid hidden overlay origin"
    return originRecord.machine

def managerProof (keys : BTreeMap c.Key) (record : Record) :
    Except String Pending := do
  let signed ← context (record.data.idx "authority").asStr "overlay authority proof is missing"
  let change ← c.parse signed none
  let key ← context keys[change.machine]? "overlay manager signer is not trusted"
  let change ← c.parse signed (some key)
  Layr.validate c change
  ensure (change.op == "overlay.managers") "invalid overlay authority proof"
  let data ← context (Change.decode change.data) "overlay manager change does not decode"
  ensure (data.parent == parent && change.project == data.overlay && isUuid data.overlay &&
    !data.machines.isEmpty && data.machines.toList.all isUuid &&
    (record.data.idx "name").asStr == some data.name)
    "overlay manager proof has invalid project bindings"
  return ⟨change, signed, data⟩

def overlayId (record : Record) (name : String) : Option String :=
  (((record.data.idx "config").idx ("overlay." ++ name)).idx "id").asStr

def foldRecord (keys : BTreeMap c.Key) (s : FoldState) (record : Record) :
    Except String FoldState :=
  if record.op = "overlay.create" then do
    let name ← context (record.data.idx "name").asStr "overlay creation has no name"
    checkName "overlay" name
    ensure (!s.authorities.contains name) ("conflicting overlay creator for " ++ name)
    let id := overlayId record name
    let creator ← creatorOf c parent keys record name id
    return { s with ids := s.ids.insert name id,
                    authorities := s.authorities.insert name (.created creator) }
  else do
    let p ← managerProof c parent keys record
    return { s with pending := s.pending ++ [p] }

/-- Whether the change names the last change of its overlay as its predecessor. -/
def follows (authorities : BTreeMap Authority) (p : Pending) : Bool :=
  authorities[p.change.name]?.any fun a => a.previous == p.change.previous

def Authority.apply (a : Authority) (p : Pending) : Authority where
  machines := p.change.machines
  previous := some p.record.id
  retained := p.change.retained
  changes := a.changes.insert p.record.id (c.digest p.line)

/-- One round of the loop over the pending changes: check the change and apply it. -/
def applyChange (ids : BTreeMap (Option String)) (authorities : BTreeMap Authority) (p : Pending) :
    Except String (BTreeMap Authority) := do
  let change := p.change
  let authority ← context authorities[change.name]? "unknown overlay authority"
  ensure ((ids[change.name]?.bind fun id => id).all (· == change.overlay))
    "overlay manager proof names another overlay"
  authority.require p.record.machine
  ensure (change.machines.contains p.record.machine)
    ("a remaining key manager must sign manager removal: " ++ p.record.machine)
  authority.retained.toList.forM fun e =>
    ensure (change.retained[e.1]? == some e.2) "overlay manager change loses authenticated history"
  ensure (change.retained.toList.all fun e =>
    e.2.utf8ByteSize == 64 && allChars isHexDigit e.2) "invalid retained overlay record digest"
  return authorities.insert change.name (authority.apply c p)

/-- The signed link to the previous record gives the causal order, regardless of machine clocks. -/
def applyPending (ids : BTreeMap (Option String)) (authorities : BTreeMap Authority)
    (pending : List Pending) : Except String (BTreeMap Authority) :=
  if pending = [] then .ok authorities
  else
    match h : pending.findIdx? (follows authorities) with
    | none => .error "overlay manager history has a gap or a fork"
    | some i =>
      have hi : i < pending.length := (List.findIdx?_eq_some_iff_getElem.1 h).1
      match applyChange c ids authorities pending[i] with
      | .error e => .error e
      | .ok authorities => applyPending ids authorities (pending.eraseIdx i)
termination_by pending.length
decreasing_by
  rw [List.length_eraseIdx_of_lt hi]
  omega

/-- Authority from the creations and manager changes among the records. -/
def foldRecords (records : List Record) (keys : BTreeMap c.Key) :
    Except String (BTreeMap Authority) := do
  let records := records.insertionSort (recordLe · ·)
  let s ← records.foldlM (foldRecord c parent keys) {}
  applyPending c s.ids s.authorities s.pending

/-- The record of one of the parent's lines, when it says something about overlays. -/
def lineRecord (keys : BTreeMap c.Key) (line : String) :
    Except String (Option Record) := do
  let record ← c.parse line none
  if record.op = "overlay.create" ∨ record.op = "overlay.authority" then do
    let key ← context keys[record.machine]? "overlay authority signer is not trusted"
    let _ ← c.parse line (some key)
    ensure (record.project == parent) "overlay authority record belongs to another parent project"
    return some record
  else return none

/-- The records of the parent's lines that say something about overlays. -/
def authorityRecords (lines : List String) (keys : BTreeMap c.Key) : Except String (List Record) :=
  lines.foldlM (fun records line => do return records ++ (← lineRecord c parent keys line).toList)
    []

/-- Derive authority from the parent project's signed creation and nested manager proofs. -/
def fromLines (lines : List String) (keys : BTreeMap c.Key) :
    Except String (BTreeMap Authority) := do
  let records ← authorityRecords c parent lines keys
  foldRecords c parent records keys

/-- The record of one of an overlay's own lines, checked against the overlay. -/
def overlayRecord (overlay : String) (keys : BTreeMap c.Key) (line : String) :
    Except String Record := do
  let record ← c.parse line none
  let key ← context keys[record.machine]? "hidden overlay signer is not trusted"
  let record ← c.parse line (some key)
  Layr.validate c record
  ensure (record.project == overlay) "hidden overlay record belongs to another project"
  return record

def overlayOrigin (origin : Option String × Option String) (record : Record) :
    Except String (Option String × Option String) :=
  if record.op = "project" then do
    let metadata := (record.data.idx "config").idx "overlay"
    ensure (metadata.idx "project" == .str parent && metadata.idx "hidden" == .bool true &&
      metadata.idx "mode" == .str "follow") "hidden overlay has invalid parent or mode"
    return ((metadata.idx "name").asStr, some record.machine)
  else .ok origin

/-- What the parent's record about an overlay's creation or manager change would be. -/
def asParentRecord (parent line : String) (record : Record) : Option Record :=
  if record.op = "overlay.create" then some { record with project := parent }
  else if record.op = "overlay.managers" then
    some { record with
      op := "overlay.authority"
      project := parent
      data := .obj [("authority", .str line), ("name", record.data.idx "name")] }
  else none

/-- Hidden authority comes from the overlay's own authenticated creation and manager chain. -/
def fromOverlayLines (parent overlay : String) (lines : List String) (keys : BTreeMap c.Key) :
    Except String (String × Authority) := do
  let (origin, records) ← lines.foldlM (fun st line => do
    let record ← overlayRecord c overlay keys line
    let origin ← overlayOrigin parent st.1 record
    return (origin, st.2 ++ (asParentRecord parent line record).toList))
      ((none, none), ([] : List Record))
  let name ← context origin.1 "hidden overlay has no project record"
  let created ← context (records.find? (·.op == "overlay.create"))
    "hidden overlay has no creation record"
  let d := created.data
  let entry := (d.idx "config").idx ("overlay." ++ name)
  ensure (d.idx "parent" == .str parent && d.idx "name" == .str name &&
    entry.idx "id" == .str overlay && entry.idx "hidden" == .bool true &&
    some created.machine == origin.2) "hidden overlay creation differs from its project"
  let authorities ← foldRecords c parent records keys
  ensure (authorities.size == 1) "hidden overlay has conflicting creations"
  let authority ← context authorities[name]? "hidden overlay name differs from creation"
  authority.validate c lines overlay keys
  return (name, authority)

end

end Layr
