import Layr.Authority
import Layr.Db

/-!
# Taking records from other machines

`Project::import_lines` and `Project::verify_records` of `src/store.rs`. A batch of signed lines is
checked as a whole: each machine's chain continues what is stored, under the key of the machine's
first record, and every machine is trusted. The new records are then stored with their derived rows
in one transaction.
-/

namespace Layr

open List Option

/-- Run a write in one transaction: all or nothing. -/
def withTx {α : Type} (f : Db → Except String α × Db) (db : Db) : Except String α × Db :=
  match f db with
  | (.ok v, db') => (.ok v, db')
  | (.error e, _) => (.error e, db)

/-- Which machines an import takes records from: this machine, machines this project trusts, and
machines vouched for by a `machine.trust` record of a trusted machine in the same batch. -/
inductive Trust where
  | known
  /-- Also this machine with this key, for this batch only. -/
  | peer (machine key : String)
  /-- Every machine of the batch. -/
  | all
deriving DecidableEq

/-- What an overlay's import reads of the parent project. -/
structure OverlayParent (c : Codec) where
  id : String
  /-- The overlay's name in the parent. -/
  name : String
  lines : List String
  keys : BTreeMap c.Key

/-- Where records are taken: the machine of the store with its key, and the project, with its parent
when it is an overlay. -/
structure Site (c : Codec) where
  machine : String
  key : c.Key
  /-- The id of the project; empty while it has no records. -/
  project : String
  parent : Option (Except String (OverlayParent c)) := none

section

variable (c : Codec)

def machineKey (r : Record) : Except String c.Key := do
  let text ← context (r.data.idx "public_key").asStr "machine record without key"
  context (c.decodeKey text) "bad key"

/-! ## The checks of a batch -/

def readRows (lines : List String) : Except String (List Row) :=
  lines.mapM fun l => do return ⟨← c.parse l none, l⟩

theorem readRows_eq_ok {c : Codec} {lines : List String} {rows : List Row}
    (h : readRows c lines = .ok rows) :
    rows.map (·.raw) = lines ∧ ∀ row ∈ rows, c.body row.raw = some row.record := by
  have hf := mapM_eq_ok.1 h
  simp only [bind_eq_ok, Codec.parse_eq_ok, pure_eq_ok] at hf
  clear h
  induction hf with
  | nil => simp
  | cons hrow _ ih =>
    obtain ⟨r, ⟨hbody, -⟩, rfl⟩ := hrow
    exact ⟨by rw [map_cons, ih.1], forall_mem_cons.2 ⟨hbody, ih.2⟩⟩

def Db.exportLines (db : Db) : List String := db.recordMachines.flatMap fun m => db.linesAfter m 0

variable (site : Site c)

def overlayIdOf (incoming : List String) : Except String String :=
  if site.project ≠ "" then .ok site.project
  else
    match incoming with
    | [] => .ok ""
    | line :: _ => (c.parse line none).map (·.project)

/-- An overlay takes only what its parent's authority, or its own, accepts. -/
def validateImport (db : Db) (incoming : List String) : Except String Unit :=
  match site.parent with
  | none => .ok ()
  | some parent => do
    let parent ← parent
    let lines := ((db.exportLines ++ incoming).insertionSort (· ≤ ·)).dedup
    let id ← overlayIdOf c site incoming
    match (← fromLines c parent.id parent.lines parent.keys)[parent.name]? with
    | some authority => authority.validate c lines id parent.keys
    | none => do
      let (found, _) ← fromOverlayLines c parent.id id lines parent.keys
      ensure (found == parent.name) "hidden overlay name differs from its project"

def projectOf (rows : List Row) : String :=
  if site.project = "" then
    ((rows.find? (·.record.op == "project")).bind fun s => (s.record.data.idx "id").asStr).getD ""
  else site.project

/-- Every record of the batch is valid and of the project. -/
def checkRows (project : String) (rows : List Row) : Except String Unit :=
  rows.forM fun s => do
    validate c s.record
    ensure (project == "" || s.record.project == project)
      ("record " ++ toString s.record.seq ++ " of machine " ++ s.record.machine ++
        " belongs to another project (" ++ s.record.project ++ ")")

def machinesOf (rows : List Row) : List String :=
  ((rows.map (·.record.machine)).insertionSort (· ≤ ·)).dedup

/-- The records of one machine in a batch, by sequence number. -/
def rowsOf (rows : List Row) (machine : String) : List Row :=
  (rows.filter (·.record.machine == machine)).insertionSort (·.record.seq ≤ ·.record.seq)

/-- The key of a machine's chain: from its first record, which is stored or the first of the batch.
-/
def chainKey (db : Db) (machine : String) (rows : List Row) : Except String c.Key :=
  if 0 < db.lastSeq machine then do
    let first ← context (db.recordLine machine 1) "no records"
    machineKey c (← c.parse first none)
  else
    match rows with
    | [] => .error "no records"
    | f :: _ => do
      ensure (f.record.op == "machine" && f.record.seq == 1)
        ("records of machine " ++ machine ++ " do not start with its key")
      machineKey c f.record

/-- Take the next record of a machine's chain. A record that is stored already must be the same
line. -/
def takeRow (db : Db) (machine : String) (key : c.Key) (st : Nat × List Row) (s : Row) :
    Except String (Nat × List Row) :=
  let (last, fresh) := st
  let name := "record " ++ toString s.record.seq ++ " of machine " ++ machine
  if s.record.seq ≤ last then do
    ensure (db.recordLine machine s.record.seq == some s.raw)
      (name ++ " differs from the stored record (changed or forked history)")
    return st
  else do
    ensure (s.record.seq == last + 1)
      ("gap in the records of machine " ++ machine ++ ": have " ++ toString last ++ ", got " ++
        toString s.record.seq)
    let _ ← c.parse s.raw (some key)
    s.record.states.forM fun state => do
      let stored ← db.state state.id
      ensure (!(stored.isSome || fresh.any fun f => f.record.states.any (·.id == state.id)))
        (name ++ " reuses state id " ++ state.id)
    return (s.record.seq, fresh ++ [s])

/-- What the chains of a batch give: the new records and the text of each machine's key. -/
structure Intake where
  fresh : List Row := []
  keys : BTreeMap String := ∅

def takeChain (db : Db) (rows : List Row) (st : Intake) (machine : String) :
    Except String Intake := do
  let recs := rowsOf rows machine
  let key ← chainKey c db machine recs
  ensure (!(machine == site.machine && c.keyText key != c.keyText site.key))
    "records claim this machine's id with another key"
  let (_, fresh) ← recs.foldlM (takeRow c db machine key) (db.lastSeq machine, st.fresh)
  return { fresh := fresh, keys := st.keys.insert machine (c.keyText key) }

/-! ## Trust -/

def trustedBefore (db : Db) (trust : Trust) (keys : BTreeMap String) :
    Except String BTreeSet := do
  let trusted ← keys.toList.foldlM (fun (t : BTreeSet) e => do
    let known ← db.trustedKey e.1
    return if known = some e.2 then t.insert e.1 else t) ∅
  let trusted := match trust with
    | .peer m k => if keys[m]? = some k then trusted.insert m else trusted
    | _ => trusted
  return trusted.insert site.machine

def vouchedBy (keys : BTreeMap String) (r : Record) : Option String :=
  if r.op = "machine.trust" then
    let m := (r.data.idx "machine").asStr.getD ""
    if keys[m]? = some ((r.data.idx "public_key").asStr.getD "") then some m else none
  else none

/-- Who a trusted machine vouches for becomes trusted. -/
def vouchStep (keys : BTreeMap String) (t : BTreeSet) (s : Row) : BTreeSet :=
  if t.contains s.record.machine then
    match vouchedBy keys s.record with
    | some m => t.insert m
    | none => t
  else t

def vouch (keys : BTreeMap String) (fresh : List Row) (trusted : BTreeSet) : BTreeSet :=
  fresh.foldl (vouchStep keys) trusted

/-- The machines of the batch that are not trusted yet. -/
def untrusted (keys : BTreeMap String) (trusted : BTreeSet) : List String :=
  keys.keys.filter (· ∉ trusted)

variable {keys : BTreeMap String} {t : BTreeSet} {m : String}

theorem mem_vouchStep {s : Row} : m ∈ vouchStep keys t s ↔
      m ∈ t ∨ (s.record.machine ∈ t ∧ vouchedBy keys s.record = some m) := by
  unfold vouchStep
  by_cases hs : s.record.machine ∈ t
  · rw [if_pos (Std.ExtTreeSet.contains_iff_mem.2 hs)]
    cases hv : vouchedBy keys s.record with
    | none => simp
    | some n =>
      simp only [Std.ExtTreeSet.mem_insert, compare_eq_iff_eq, hs, true_and, some.injEq]
      exact or_comm
  · rw [if_neg (fun h => hs (Std.ExtTreeSet.contains_iff_mem.1 h))]
    simp [hs]

theorem mem_of_vouchedBy {r : Record} (h : vouchedBy keys r = some m) : m ∈ keys := by
  unfold vouchedBy at h
  split at h
  · simp only [Option.ite_none_right_eq_some, some.injEq] at h
    obtain ⟨hk, rfl⟩ := h
    exact Std.ExtTreeMap.isSome_getElem?_iff_mem.1 (by rw [hk]; rfl)
  · cases h

variable {fresh : List Row}

theorem mem_vouch_of_mem (h : m ∈ t) : m ∈ vouch keys fresh t :=
  List.foldlRecOn (motive := (m ∈ ·)) _ _ h fun _ h _ _ => mem_vouchStep.2 (.inl h)

theorem mem_vouch (h : m ∈ vouch keys fresh t) : m ∈ t ∨ m ∈ keys := by
  induction fresh generalizing t with
  | nil => exact .inl h
  | cons s fresh ih =>
    rcases ih h with h | h
    · exact (mem_vouchStep.1 h).imp_right fun h => mem_of_vouchedBy h.2
    · exact .inr h

/-- A round that makes the set larger leaves fewer machines untrusted. -/
theorem untrusted_vouch_lt (h : (vouch keys fresh t).size ≠ t.size) :
    (untrusted keys (vouch keys fresh t)).length < (untrusted keys t).length := by
  have hsub : (untrusted keys (vouch keys fresh t)).Sublist (untrusted keys t) := by
    refine monotone_filter_right _ fun m hm => ?_
    simp only [decide_eq_true_eq] at hm ⊢
    exact fun hmem => hm (mem_vouch_of_mem hmem)
  refine lt_of_le_of_ne hsub.length_le fun hlen => h ?_
  have heq := hsub.eq_of_length hlen
  congr 1
  refine Std.ExtTreeSet.ext_mem fun m => ⟨fun hm => ?_, mem_vouch_of_mem⟩
  by_contra hnot
  have hmem : m ∈ untrusted keys t := by
    simp only [untrusted, mem_filter, Std.ExtTreeMap.mem_keys, decide_eq_true_eq]
    exact ⟨(mem_vouch hm).resolve_left hnot, hnot⟩
  rw [← heq] at hmem
  simp [untrusted, hm] at hmem

/-- The rounds go on until nobody becomes trusted. -/
def trustLoop (keys : BTreeMap String) (fresh : List Row) (trusted : BTreeSet) : BTreeSet :=
  let after := vouch keys fresh trusted
  if after.size = trusted.size then after else trustLoop keys fresh after
termination_by (untrusted keys trusted).length
decreasing_by exact untrusted_vouch_lt ‹_›

/-- The display form of an id: bytes 10 to 16, 6 to 10 and 0 to 6 of the UUID. -/
def displayId (id : String) : String :=
  if isUuid id then
    let digits := id.toList.filter (· != '-')
    String.ofList (digits.drop 20 ++ (digits.drop 12).take 8 ++ digits.take 12)
  else id

def showUntrusted (keys : BTreeMap String) (m : String) : String :=
  String.ofList ((displayId m).toList.take 8) ++ " (key " ++ keys[m]?.getD "" ++ ")"

def checkTrust (db : Db) (trust : Trust) (intake : Intake) : Except String Unit :=
  if trust = .all then .ok ()
  else do
    let before ← trustedBefore c site db trust intake.keys
    let trusted := trustLoop intake.keys intake.fresh before
    ensure (untrusted intake.keys trusted == []) ("records of untrusted machine(s): " ++
        ", ".intercalate ((untrusted intake.keys trusted).map (showUntrusted intake.keys)) ++
        ". If you trust them, run: layr machines trust <id> --key <key>")

/-! ## Storing a batch -/

/-- Store new records with their derived rows, one after the other. A record that exists already is
left out. -/
def storeRows (here : String) : List Row → Db → Except String Unit × Db
  | [], db => (.ok (), db)
  | s :: rows, db =>
    let (new, db) := db.insertRecord s
    if new then
      match db.derive c here s.record with
      | .ok db => storeRows here rows db
      | .error e => (.error e, db)
    else storeRows here rows db

def checkBatch (db : Db) (lines : List String) (trust : Trust) :
    Except String (List Row) := do
  validateImport c site db lines
  let rows ← readRows c lines
  checkRows c (projectOf c site rows) rows
  let intake ← (machinesOf rows).foldlM (takeChain c site db rows) {}
  checkTrust c site db trust intake
  return intake.fresh.insertionSort (Db.applyLe · ·)

/-- Records of other machines: check each machine's chain and the project id, then store them with
their derived rows in one transaction. Returns the number of new records. -/
def importLines (lines : List String) (trust : Trust) (db : Db) : Except String Nat × Db :=
  match checkBatch c site db lines trust with
  | .error e => (.error e, db)
  | .ok fresh =>
    withTx (fun db =>
      match storeRows c site.machine fresh db with
      | (.ok _, db) => (.ok fresh.length, db)
      | (.error e, db) => (.error e, db)) db

/-! ## Verifying what is stored -/

/-- Check the lines of one machine: key, sequence numbers, signatures. Returns the last number. -/
def verifyChain (lines : List String) : Except String Nat := do
  let first ← context lines.head? "no records"
  let first ← c.parse first none
  ensure (first.op == "machine") "the first record is not its key"
  let key ← machineKey c first
  lines.foldlM (fun seq l => do
    let r ← c.parse l (some key)
    ensure (r.seq == seq + 1) ("sequence gap at " ++ toString r.seq)
    return r.seq) 0

def verifyRecords (db : Db) : Except String (List (String × Nat)) :=
  db.recordMachines.mapM fun m => do return (m, ← verifyChain c (db.linesAfter m 0))

def rebuildIndex (here : String) (db : Db) : Except String Db :=
  db.allLines.foldlM (fun db row => db.derive c here row.record) { records := db.records }

end

end Layr
