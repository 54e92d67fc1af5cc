import Layr.Json

/-!
# Reading typed values out of JSON

What `serde_json::from_value` does for the derived `Deserialize` of the record types: a structure is
read from an object by field name, or from an array by field position. A missing optional field is
`None` in an object; in an array it is an error unless the field has a default.
-/

namespace Layr.Serde

open Json

def string : Json → Option String := asStr

def u32 (j : Json) : Option Nat := j.asU64.filter (· < 2 ^ 32)

/-- An integer in the range of `u64` (and of `usize`). -/
def u64 : Json → Option Nat := asU64

def i64 : Json → Option Int := asI64

def vec {α : Type} (dec : Json → Option α) (j : Json) : Option (List α) :=
  j.asArray.bind fun xs => xs.mapM dec

def map {α : Type} (dec : Json → Option α) (j : Json) : Option (BTreeMap α) :=
  j.asObject.bind fun kvs =>
    (kvs.mapM fun e => (dec e.2).map fun v => (e.1, v)).map fun es => Std.ExtTreeMap.ofList es

def textSet (j : Json) : Option BTreeSet :=
  (vec string j).map fun xs => Std.ExtTreeSet.ofList xs

inductive Source where
  | fields (kvs : List (String × Json))
  | elems (xs : List Json)

/-- The source of a structure with `n` fields: an object, or an array that is not too long. -/
def source (n : Nat) : Json → Option Source
  | .obj kvs => some (.fields kvs)
  | .arr xs => if xs.length ≤ n then some (.elems xs) else none
  | _ => none

/-- `deny_unknown_fields`: an object has no other fields than these. -/
def strictSource (names : List String) (j : Json) : Option Source :=
  match source names.length j with
  | some (.fields kvs) => if kvs.all fun e => names.contains e.1 then some (.fields kvs) else none
  | s => s

namespace Source

variable {α : Type} (s : Source) (i : Nat) (k : String)

/-- The value of the field at a position, with a name. -/
def at? : Option Json :=
  match s with
  | .fields kvs => kvs.lookup k
  | .elems xs => xs[i]?

def req (dec : Json → Option α) : Option α := (s.at? i k).bind dec

/-- An `Option` field with `#[serde(default)]`. -/
def optDefault (dec : Json → Option α) : Option (Option α) :=
  match s.at? i k with
  | none => some none
  | some .null => some none
  | some j => (dec j).map some

def opt (dec : Json → Option α) : Option (Option α) :=
  match s.at? i k, s with
  | none, .elems _ => none
  | _, _ => s.optDefault i k dec

def default (d : α) (dec : Json → Option α) : Option α :=
  match s.at? i k with
  | none => some d
  | some j => dec j

end Source

end Layr.Serde
