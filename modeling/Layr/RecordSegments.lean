import Layr.Format
import Layr.Lib.Tables
import Layr.Lib.Texts
import Layr.Store

/-!
# Record segments of a remote store

A remote store has the records of each machine in segments: objects under `records/` whose name says
the machine and the first and last sequence number, and whose encrypted text is the lines between
them. `push_locked` of `store_remote/writer.rs` publishes the records that a writer holds beyond the
last number that it finds in the store, in bounded segments; a writer that may not read the store
publishes all that it holds. `records_with_local` of `store_remote/reader.rs` merges all segments.

Each step of a push that touches the store is an event of its own: it lists the segments of one
machine, or publishes one segment. Pushes of any number of writers take turns, and a push can stop
between two events.
-/

namespace Layr

open Tables TextLines

/-! ## Names of segments -/

namespace Format

def segmentName (machine : String) (first last : ℕ) : String :=
  "records/" ++ machine ++ "/" ++ padded 20 first ++ "-" ++ padded 20 last ++ ".age"

/-- A number of twenty digits that fits into 64 bits. -/
def parseSequence (digits : String) : Option ℕ := do
  guard (digits.toList.length == 20 && digits.toList.all Char.isDigit)
  let n := Nat.ofDigitChars 10 digits.toList 0
  guard (n < 2 ^ 64)
  return n

def parseSegmentName (key : String) : Option (String × ℕ × ℕ) := do
  let (machine, range) ← splitOnce (← stripPrefix key "records/") '/'
  let (first, last) ← splitOnce (← stripSuffix range ".age") '-'
  guard (isUuid machine)
  let first ← parseSequence first
  let last ← parseSequence last
  guard (0 < first ∧ first ≤ last)
  return (machine, first, last)

end Format

namespace Segments

open Format

/-- `keys::encrypt` for the recipient of the store, with what is random about it, and
`keys::decrypt` with the identity. -/
structure Keys (B : Type) where
  encrypt : ℕ → String → B
  decrypt : B → Except String String
  decrypt_encrypt : ∀ n text, decrypt (encrypt n text) = .ok text

/-- The objects of a store whose names start with a text, in the order of their names. -/
def listPrefix {B : Type} (objects : BTreeMap B) (start : String) : List (String × B) :=
  objects.toList.filter fun object => startsWith object.1 start

/-! ## The writer -/

def recordSegmentBytes : ℕ := 4 * 2 ^ 20

/-- A push: the records that the writer holds, the machines that it has not come to, and the lines
of a machine that it has not published. -/
structure Push where
  /-- The writer of a layer that may not read the store. -/
  blindLayer : Bool
  db : Db
  machines : List String
  machine : String
  lines : List String

def joining (size : ℕ) : List String → ℕ
  | [] => 0
  | line :: lines =>
    if size + line.utf8ByteSize + 1 ≤ recordSegmentBytes then joining
      (size + line.utf8ByteSize + 1) lines + 1 else 0

/-- The number of lines of the next segment. A line that is too long is a segment of its own. -/
def segmentLength : List String → ℕ
  | [] => 0
  | line :: lines => joining (line.utf8ByteSize + 1) lines + 1

section
variable {B : Type} (c : Codec) (ks : Keys B)

/-- The last sequence number of a machine in the store. -/
def lastPublished (objects : BTreeMap B) (machine : String) : Except String ℕ :=
  (listPrefix objects ("records/" ++ machine ++ "/")).foldlM (fun last object => do
    let (m, _, stop) ← context (parseSegmentName object.1) "invalid remote segment name"
    ensure (m == machine) "segment is outside its machine prefix"
    return max last stop) 0

def beginPush (blindLayer : Bool) (db : Db) : Except String Push := do
  let _ ← verifyRecords c db
  return { blindLayer, db, machines := db.recordMachines, machine := "", lines := [] }

def publishAfter (objects : BTreeMap B) (push : Push) (machine : String) : Except String ℕ :=
  if push.blindLayer then .ok 0 else lastPublished objects machine

def nextMachine (objects : BTreeMap B) (push : Push) (machine : String) (rest : List String) :
    Except String Push := do
  let last ← publishAfter objects push machine
  return { push with
    machines := rest, machine := machine, lines := push.db.linesAfter machine last }

def publish (objects : BTreeMap B) (push : Push) (nonce : ℕ) :
    Except String (BTreeMap B × Push) := do
  let n := segmentLength push.lines
  let segment := push.lines.take n
  let first ← c.parse (← context segment.head? "no lines") none
  let last ← c.parse (← context segment.getLast? "no lines") none
  let name := segmentName push.machine first.seq last.seq
  return (objects.insertIfNew name (ks.encrypt nonce (text segment)),
    { push with lines := push.lines.drop n })

/-! ## The reader -/

abbrev BySeq := Std.ExtTreeMap ℕ String

structure Records where
  lines : List String := []
  keys : BTreeMap c.Key := ∅
  overlaps : ℕ := 0
  gaps : List String := []

/-- Put a line at its place. A line that is there already has to be the same. -/
def addLine (machine : String) (expected : ℕ) (line : String) (machines : BTreeMap BySeq)
    (overlaps : ℕ) :
    Except String (BTreeMap BySeq × ℕ) :=
  let bySeq := machines[machine]?.getD ∅
  match bySeq[expected]? with
  | some previous =>
    if previous = line then .ok (machines, overlaps + 1)
    else .error ("conflicting history of machine " ++ machine ++ ", record " ++ toString expected)
  | none => .ok (machines.insert machine (bySeq.insert expected line), overlaps)

def readLine (project key machine : String) (last : ℕ) (st : ℕ × BTreeMap BySeq × ℕ)
    (line : String) :
    Except String (ℕ × BTreeMap BySeq × ℕ) := do
  let r ← c.parse line none
  ensure (r.machine == machine && r.seq == st.1 && st.1 ≤ last)
    ("segment " ++ key ++ " has an invalid sequence")
  ensure (r.project == project) ("segment " ++ key ++ " belongs to another project")
  validate c r
  let added ← addLine machine st.1 line st.2.1 st.2.2
  ensure (st.1 + 1 < 2 ^ 64) "record sequence overflow"
  return (st.1 + 1, added.1, added.2)

def readSegment (project : String) (st : BTreeMap BySeq × ℕ) (object : String × B) :
    Except String (BTreeMap BySeq × ℕ) := do
  let (machine, first, last) ← context (parseSegmentName object.1) "invalid record segment name"
  let body ← ks.decrypt object.2
  let (expected, machines, overlaps) ← (lines body).foldlM
    (readLine c project object.1 machine last) (first, st.1, st.2)
  ensure (expected - 1 == last) ("segment " ++ object.1 ++ " is incomplete")
  return (machines, overlaps)

/-- Two lines for one record: the history of the machine is forked. A first record with another key
is named as such. -/
def conflict {α : Type} (r : Record) (existing : String) : Except String α := do
  if r.seq = 1 then
    let remote ← c.parse existing none
    ensure (c.keyText (← machineKey c remote) == c.keyText (← machineKey c r))
      ("remote machine " ++ r.machine ++ ": first-record key does not match the known public key")
  .error ("conflicting history of machine " ++ r.machine ++ ", record " ++ toString r.seq)

def addLocal (project : String) (machines : BTreeMap BySeq) (line : String) :
    Except String (BTreeMap BySeq) := do
  let r ← c.parse line none
  ensure (r.project == project) "local records belong to another project"
  let bySeq := machines[r.machine]?.getD ∅
  match bySeq[r.seq]? with
  | some existing => if existing = line then return machines else conflict c r existing
  | none => return machines.insert r.machine (bySeq.insert r.seq line)

/-- The lines from a sequence number on without a gap, and the number after them. -/
def contiguous (bySeq : BySeq) : ℕ → ℕ → List String × ℕ
  | 0, seq => ([], seq)
  | fuel + 1, seq =>
    match bySeq[seq]? with
    | some line => let (rest, stop) := contiguous bySeq fuel (seq + 1); (line :: rest, stop)
    | none => ([], seq)

/-- Verify the records of one machine and take those without a gap before them. -/
def readMachine (out : Records c) (entry : String × BySeq) : Except String (Records c) :=
  let (machine, bySeq) := entry
  match bySeq[1]? with
  | none => .ok { out with gaps := out.gaps ++ ["machine " ++ machine ++ ": missing record 1"] }
  | some first => do
    let r ← c.parse first none
    ensure (r.op == "machine") ("machine " ++ machine ++ ": first record is not its key")
    let key ← machineKey c r
    bySeq.toList.forM fun e => do let _ ← c.parse e.2 (some key)
    let (lines, seq) := contiguous bySeq (highest bySeq.keys + 1) 1
    let gap := bySeq.keys.getLast?.any (seq ≤ ·)
    return { out with
      lines := out.lines ++ lines
      keys := out.keys.insert machine key
      gaps := out.gaps ++ if gap then ["machine " ++ machine ++ ": missing record " ++ toString seq]
        else [] }

/-- The records of the store and of the reader, in the order of their time, machine and sequence
number. -/
def recordsWithLocal (project : String) (objects : BTreeMap B) (own : List String) :
    Except String (Records c) := do
  let (machines, overlaps) ← (listPrefix objects "records/").foldlM
    (readSegment c ks project) (∅, 0)
  let machines ← own.foldlM (addLocal c project) machines
  let out ← machines.toList.foldlM (readMachine c) { overlaps }
  let rows ← readRows c out.lines
  return { out with lines := (rows.insertionSort (Db.applyLe · ·)).map (·.raw) }

def records (project : String) (objects : BTreeMap B) : Except String (Records c) :=
  recordsWithLocal c ks project objects []

/-! ## Runs -/

/-- The logs of all machines, the store, and the pushes that run. -/
structure World (B : Type) where
  logs : String → List String
  objects : BTreeMap B
  pushes : List Push

inductive Event where
  | sign (machine line : String)
  /-- A writer begins to push the records that it holds. -/
  | start (blindLayer : Bool) (db : Db)
  /-- A push lists the segments of its next machine. -/
  | list (i : ℕ)
  /-- A push publishes its next segment. -/
  | publish (i nonce : ℕ)
  /-- A push is interrupted. -/
  | stop (i : ℕ)

namespace World

def endPush (w : World B) (i : ℕ) : World B := { w with pushes := w.pushes.eraseIdx i }

def list (w : World B) (i : ℕ) (push : Push) : World B :=
  match push.lines, push.machines with
  | [], machine :: rest =>
    match nextMachine w.objects push machine rest with
    | .ok push => { w with pushes := w.pushes.set i push }
    | .error _ => w.endPush i
  | _, _ => w

def publish (w : World B) (i nonce : ℕ) (push : Push) : World B :=
  match push.lines with
  | [] => w
  | _ :: _ =>
    match Segments.publish c ks w.objects push nonce with
    | .ok (objects, push) => { w with objects := objects, pushes := w.pushes.set i push }
    | .error _ => w.endPush i

def step (w : World B) : Event → World B
  | .sign machine line =>
    { w with logs := fun m => if m = machine then w.logs m ++ [line] else w.logs m }
  | .start blindLayer db =>
    match beginPush c blindLayer db with
    | .ok push => { w with pushes := w.pushes ++ [push] }
    | .error _ => w
  | .list i =>
    match w.pushes[i]? with
    | some push => w.list i push
    | none => w
  | .publish i nonce =>
    match w.pushes[i]? with
    | some push => w.publish c ks i nonce push
    | none => w
  | .stop i => w.endPush i

end World

end

end Segments

end Layr
