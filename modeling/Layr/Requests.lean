import Layr.JsonParse
import Layr.Lib.Tables

/-!
# Request identities and their recorded results

A model of `RequestIdentity` (`runtime-schema/src/persistence.rs`) and of the part of
`request_results.rs` that records entity references: replay, settlement and garbage collection.
Clocks and ages are `i64` milliseconds whose sums saturate.

The `uuid` crate is a parameter (`UuidCrate`): its parser may accept any texts, and its canonical
text names the UUID. The identity's text is the JSON of a tuple of strings, as `serde_json` writes
it.
-/

namespace Layr.Requests

open JsonText Tables List Option

/-! ## The text of an identity -/

def serdeChar (c : Char) : List Char :=
  if c = '"' then ['\\', '"']
  else if c = '\\' then ['\\', '\\']
  else if c = Char.ofNat 8 then ['\\', 'b']
  else if c = '\t' then ['\\', 't']
  else if c = '\n' then ['\\', 'n']
  else if c = Char.ofNat 12 then ['\\', 'f']
  else if c = '\r' then ['\\', 'r']
  else if c.toNat < 0x20 then '\\' :: 'u' :: hex4 c.toNat
  else [c]

def serdeString (s : String) : List Char := '"' :: s.toList.flatMap serdeChar ++ ['"']

def serdeStrings (xs : List String) : List Char := '[' :: commas (xs.map serdeString) ++ [']']

/-- `serde_json::to_string(&(namespace, authority, root, operation))` -/
@[irreducible] def identityText (ns : String) (authority : List String) (root : String)
    (operation : List String) : String :=
  String.ofList
    ('[' :: commas [serdeString ns, serdeStrings authority, serdeString root,
    serdeStrings operation] ++ [']'])

theorem charText_serdeChar (c : Char) : CharText c (serdeChar c) := by
  have hshort : ∀ e, (c, e) ∈ shortEscapes → CharText c ['\\', e] := fun e => .short
  unfold serdeChar
  iterate 7
    split
    · next h => exact hshort _ (by rw [h]; decide)
  split
  · next h => exact .unit (isUnit_hex4 (h.trans (by decide)))
  · next hquote hback _ _ _ _ _ h => exact .plain (not_lt.1 h) hquote hback

theorem denotes_serdeString (s : String) : Denotes (.str s) (serdeString s) := by
  refine .str ⟨s.toList.map serdeChar, ?_, by rw [serdeString, flatMap_def]⟩
  rw [forall₂_map_right_iff]
  exact forall₂_same.2 fun c _ => charText_serdeChar c

theorem denotes_serdeStrings (xs : List String) :
    Denotes (.arr (xs.map .str)) (serdeStrings xs) := by
  refine .arr ?_
  rw [forall₂_map_left_iff, forall₂_map_right_iff]
  exact forall₂_same.2 fun s _ => denotes_serdeString s

theorem identityText_inj {ns ns' root root' : String}
    {authority authority' operation operation' : List String}
    (h : identityText ns authority root operation =
    identityText ns' authority' root' operation') :
    ns = ns' ∧ authority = authority' ∧ root = root' ∧ operation = operation' := by
  have hparse : ∀ ns authority root operation,
    parse (identityText ns authority root operation).toList =
        some (.arr [.str ns, .arr (authority.map .str), .str root, .arr (operation.map .str)]) := by
    intro ns authority root operation
    rw [identityText, String.toList_ofList]
    exact parse_of_denotes
      (.arr
        (.cons (denotes_serdeString ns)
        (.cons (denotes_serdeStrings authority)
        (.cons (denotes_serdeString root) (.cons (denotes_serdeStrings operation) .nil)))))
  have hstr : Function.Injective Json.str := fun _ _ heq => Json.str.inj heq
  have heq := (hparse ns authority root operation).symm.trans
    (h ▸ hparse ns' authority' root' operation')
  simp only [some.injEq, Json.arr.injEq, List.cons.injEq, Json.str.injEq, and_true] at heq
  exact ⟨heq.1, hstr.list_map heq.2.1, heq.2.2.1, hstr.list_map heq.2.2.2⟩

/-! ## Identities -/

def requestResultTtlMs : ℤ := 2592000000

def requestIdFutureSkewMs : ℤ := 120000

def saturatingSub (a b : ℤ) : ℤ := max (a - b) (-2 ^ 63)

def saturatingAdd (a b : ℤ) : ℤ := min (a + b) (2 ^ 63 - 1)

/-- What the `uuid` crate does: the parser and the canonical text. -/
structure UuidCrate where
  parseStr : String → Option (BitVec 128)
  text : BitVec 128 → String

namespace Uuid

def versionNum (u : BitVec 128) : ℕ := u.toNat / 2 ^ 76 % 16

def isRfc4122 (u : BitVec 128) : Bool := u.toNat / 2 ^ 62 % 4 == 2

/-- The seconds and nanoseconds of the time that a UUIDv7 starts with. -/
def toUnix (u : BitVec 128) : ℕ × ℕ :=
  let millis := u.toNat / 2 ^ 80
  (millis / 1000, millis % 1000 * 1000000)

def issuedMs (u : BitVec 128) : ℤ := (toUnix u).1 * 1000 + ((toUnix u).2 / 1000000 : ℕ)

end Uuid

structure RequestIdentity where
  id : String
  issuedMs : ℤ
deriving DecidableEq, Repr

inductive RequestIdentityError where
  | invalidUuidV7 (text : String)
  | expired (issuedMs expiredBeforeMs : ℤ)
  | futureTimestamp (issuedMs latestMs : ℤ)
deriving DecidableEq, Repr

namespace RequestIdentity

def new (crate : UuidCrate) (ns : String) (authority : List String) (root : String)
    (operation : List String) :
    Except RequestIdentityError RequestIdentity :=
  match (crate.parseStr root).filter fun u => Uuid.versionNum u == 7 && Uuid.isRfc4122 u with
  | none => .error (.invalidUuidV7 root)
  | some u => .ok ⟨identityText ns authority (crate.text u) operation, Uuid.issuedMs u⟩

/-- The identity of a caller in the process: issued when it is admitted. -/
def opaqueId (ns : String) (authority : List String) (root : String) (operation : List String)
    (admittedMs : ℤ) :
    RequestIdentity :=
  ⟨identityText ns authority root operation, admittedMs⟩

def validate (identity : RequestIdentity) (nowMs expiredBeforeMs : ℤ) :
    Except RequestIdentityError Unit :=
  let floor := max (saturatingSub nowMs requestResultTtlMs) expiredBeforeMs
  let latestMs := saturatingAdd nowMs requestIdFutureSkewMs
  if identity.issuedMs ≤ floor then .error (.expired identity.issuedMs floor)
  else if latestMs < identity.issuedMs then .error (.futureTimestamp identity.issuedMs latestMs)
  else .ok ()

end RequestIdentity

/-! ## Recorded results -/

inductive RequestReferenceKind where
  | agent
  | annotation
  | complaint
  | message
  | project
  | room
  | work
deriving DecidableEq, Repr

/-- The entity and the revision recorded when a command was applied. -/
structure RequestReference where
  kind : RequestReferenceKind
  id : String
  revision : ℤ
deriving DecidableEq, Repr

/-- A row of `request_results` without its id. A row whose result is a body has no reference. -/
structure Row (D : Type) where
  signature : D
  refKind : Option RequestReferenceKind
  refId : Option String
  refRev : Option ℤ
  created : ℤ
deriving DecidableEq, Repr

def Row.ofReference {D : Type} (signature : D) (reference : RequestReference)
    (created : ℤ) : Row D :=
  ⟨signature, some reference.kind, some reference.id, some reference.revision, created⟩

/-- The table and the setting `expired_before_ms`. -/
structure Results (D : Type) where
  rows : BTreeMap (Row D)
  expiredBeforeMs : ℤ

inductive RequestResultError where
  | identity (e : RequestIdentityError)
  | conflict (id : String)
  | invalidQuery
deriving DecidableEq, Repr

/-- Rows that one run of the collection removes at most. -/
def requestResultGcBatchRows : ℕ := 500

namespace Results

variable {D : Type} [DecidableEq D] (r : Results D)

def replayReference (id : String) (signature : D) (nowMs : ℤ) :
    Except RequestResultError (Option RequestReference) :=
  match r.rows[id]? with
  | none => .ok none
  | some row =>
    let floor := saturatingSub nowMs requestResultTtlMs
    if row.signature ≠ signature then .error (.conflict id)
    else if row.created ≤ floor then .error (.identity (.expired row.created floor))
    else
      match row.refKind, row.refId, row.refRev with
      | some kind, some id, some revision => .ok (some ⟨kind, id, revision⟩)
      | none, none, none => .ok none
      | _, _, _ => .error .invalidQuery

def record (id : String) (row : Row D) : Results D := { r with rows := r.rows.insert id row }

def settleReference (id : String) (signature : D) (created : ℤ) (reference : RequestReference) :
    Except RequestResultError (Results D × RequestReference) :=
  match r.rows[id]? with
  | some row =>
    if row.signature ≠ signature then .error (.conflict id)
    else do
      match ← r.replayReference id signature created with
      | some reference => return (r, reference)
      | none => .error (.conflict id)
  | none =>
    .ok (r.record id (.ofReference signature reference created), reference)

/-- The ids of the rows that a collection removes, the oldest first. -/
def gcBatch (cutoff : ℤ) : List String :=
  (((select (fun id (row : Row D) => if row.created ≤ cutoff then some (row.created, id) else none)
    r.rows).insertionSort fun a b => a.1 < b.1 ∨ (a.1 = b.1 ∧ a.2 ≤ b.2)).take
      requestResultGcBatchRows).map (·.2)

/-- Remove rows that are older than the time to live, and raise the floor with them. -/
def gc (nowMs : ℤ) : Results D :=
  let cutoff := saturatingSub nowMs requestResultTtlMs
  { rows := eraseAll (fun id => id) r.rows (r.gcBatch cutoff)
    expiredBeforeMs := max cutoff r.expiredBeforeMs }

variable {signature : D} {r : Results D} {nowMs : ℤ} {id : String}

theorem replayReference_absent (h : r.rows[id]? = none) :
    r.replayReference id signature nowMs = .ok none := by
  rw [replayReference, h]

variable {o : Option RequestReference} {created : ℤ}

/-- The record of a reference gives it back to the same content, while it is not too old. -/
theorem replayReference_ofReference {signature' : D} {reference : RequestReference}
    (h : r.rows[id]? = some (.ofReference signature reference created))
    (hok : r.replayReference id signature' nowMs = .ok o) :
    signature = signature' ∧ o = some reference := by
  simp only [replayReference, h, Row.ofReference] at hok
  split at hok
  · cases hok
  next heq =>
  split at hok
  · cases hok
  · cases hok
    exact ⟨not_not.1 heq, rfl⟩

theorem refKind_of_replayReference {row : Row D}
    (h : r.rows[id]? = some row) (hok : r.replayReference id signature nowMs = .ok o) :
    row.refKind = o.map (·.kind) := by
  simp only [replayReference, h] at hok
  split at hok
  · cases hok
  split at hok
  · cases hok
  split at hok
  · next hkind _ _ =>
    cases hok
    exact hkind
  · next hkind _ _ =>
    cases hok
    exact hkind
  · cases hok

/-- A record that gives no reference back is not settled again. -/
theorem settleReference_ok {r' : Results D}
    {reference reference' : RequestReference}
    (hreplay : r.replayReference id signature nowMs = .ok none)
    (h : r.settleReference id signature created reference = .ok (r', reference')) :
    r.rows[id]? = none ∧ reference' = reference ∧
      r' = r.record id (.ofReference signature reference created) := by
  match hrow : r.rows[id]? with
  | none =>
    simp only [settleReference, hrow, Except.ok.injEq, Prod.mk.injEq] at h
    exact ⟨rfl, h.2.symm, h.1.symm⟩
  | some row =>
    simp only [settleReference, hrow] at h
    split at h
    · cases h
    obtain ⟨o, ho, h⟩ := bind_eq_ok.1 h
    cases o with
    | none => cases h
    | some reference =>
      cases (refKind_of_replayReference hrow hreplay).symm.trans
        (refKind_of_replayReference hrow ho)

omit [DecidableEq D] in
/-- A collection keeps a row, or removes one whose time is then not above the floor. -/
theorem gc_cases (r : Results D) (nowMs : ℤ) (id : String) : (r.gc nowMs).rows[id]? = r.rows[id]? ∨
      (r.gc nowMs).rows[id]? = none ∧ ∃ row, r.rows[id]? = some row ∧
        row.created ≤ (r.gc nowMs).expiredBeforeMs := by
  by_cases hmem : id ∈ r.gcBatch (saturatingSub nowMs requestResultTtlMs)
  · refine .inr ⟨getElem?_eraseAll_of_mem (by simpa using hmem), ?_⟩
    obtain ⟨⟨created, id'⟩, hbatch, rfl⟩ := mem_map.1 hmem
    obtain ⟨k, row, hrow, hselect⟩ :=
      mem_select.1 (mem_insertionSort _ |>.1 (mem_of_mem_take hbatch))
    split at hselect
    · next hle =>
      obtain ⟨rfl, rfl⟩ := Prod.mk.inj (some.inj hselect)
      exact ⟨row, hrow, hle.trans (le_max_left _ _)⟩
    · cases hselect
  · exact .inl (getElem?_eraseAll_of_notMem (by simpa using hmem))

end Results

end Layr.Requests
