import Mathlib

/-!
# Texts, maps and JSON values

The values the records carry. A Rust `String` is a Lean `String`: both compare by code point, and
the byte order of UTF-8 is that order. `BTreeMap<String, V>` is the standard library's extensional
tree map, which has one value for each finite map and lists its entries in key order.

`Json` is `serde_json::Value` without the `preserve_order` feature: an object has one entry for
each key, in key order. An integer is any `i64` or `u64`. A float is finite and is kept by its bits:
its text shows them, and only `==` looks at the number (`unsigned`).
-/

namespace Layr

abbrev BTreeMap (V : Type) := Std.ExtTreeMap String V

abbrev BTreeSet := Std.ExtTreeSet String

/-! ## Texts -/

def startsWith (s pre : String) : Bool := pre.toList.isPrefixOf s.toList

def stripPrefix (s pre : String) : Option String :=
  if startsWith s pre then some (String.ofList (s.toList.drop pre.toList.length)) else none

def endsWith (s suf : String) : Bool := suf.toList.isSuffixOf s.toList

/-- `str::split_once` for a character: the parts before and after its first occurrence. -/
def splitOnce (s : String) (c : Char) : Option (String × String) :=
  match s.toList.span (· != c) with
  | (a, _ :: b) => some (String.ofList a, String.ofList b)
  | (_, []) => none

def isHexDigit (c : Char) : Bool :=
  c.isDigit || ('a' ≤ c && c ≤ 'f') || ('A' ≤ c && c ≤ 'F')

def isLowerHexDigit (c : Char) : Bool := c.isDigit || ('a' ≤ c && c ≤ 'f')

/-! ## JSON values -/

inductive Json where
  | null
  | bool (b : Bool)
  | int (n : Int)
  | float (bits : UInt64)
  | str (s : String)
  | arr (xs : List Json)
  | obj (kvs : List (String × Json))
deriving Repr, Inhabited

namespace Json

mutual

def beq : Json → Json → Bool
  | null, null => true
  | bool a, bool b => a == b
  | int a, int b => a == b
  | float a, float b => a == b
  | str a, str b => a == b
  | arr xs, arr ys => beqList xs ys
  | obj xs, obj ys => beqFields xs ys
  | _, _ => false

def beqList : List Json → List Json → Bool
  | [], [] => true
  | x :: xs, y :: ys => beq x y && beqList xs ys
  | _, _ => false

def beqFields : List (String × Json) → List (String × Json) → Bool
  | [], [] => true
  | (k, x) :: xs, (l, y) :: ys => (k == l && beq x y) && beqFields xs ys
  | _, _ => false
end

mutual

theorem beq_iff : ∀ a b : Json, beq a b = true ↔ a = b
  | null, b => by cases b <;> simp [beq]
  | bool _, b => by cases b <;> simp [beq]
  | int _, b => by cases b <;> simp [beq]
  | float _, b => by cases b <;> simp [beq]
  | str _, b => by cases b <;> simp [beq]
  | arr xs, b => by
    cases b with
    | arr ys => simp [beq, beqList_iff xs ys]
    | _ => simp [beq]
  | obj xs, b => by
    cases b with
    | obj ys => simp [beq, beqFields_iff xs ys]
    | _ => simp [beq]

theorem beqList_iff : ∀ xs ys : List Json, beqList xs ys = true ↔ xs = ys
  | [], ys => by cases ys <;> simp [beqList]
  | x :: xs, ys => by
    cases ys with
    | nil => simp [beqList]
    | cons y ys => simp [beqList, beq_iff x y, beqList_iff xs ys]

theorem beqFields_iff : ∀ xs ys : List (String × Json), beqFields xs ys = true ↔ xs = ys
  | [], ys => by cases ys <;> simp [beqFields]
  | (k, x) :: xs, ys => by
    cases ys with
    | nil => simp [beqFields]
    | cons y ys => simp [beqFields, beq_iff x y.2, beqFields_iff xs ys, Prod.ext_iff]
end

instance : DecidableEq Json := fun a b => decidable_of_iff _ (beq_iff a b)

mutual

/-- The value with 0.0 for each -0.0. Two values are `==` exactly when these are equal, because
floats are compared as numbers. -/
def unsigned : Json → Json
  | float bits => float (if bits = 2 ^ 63 then 0 else bits)
  | arr xs => arr (unsignedList xs)
  | obj kvs => obj (unsignedFields kvs)
  | j => j

def unsignedList : List Json → List Json
  | [] => []
  | x :: xs => unsigned x :: unsignedList xs

def unsignedFields : List (String × Json) → List (String × Json)
  | [] => []
  | (k, x) :: xs => (k, unsigned x) :: unsignedFields xs
end

def asObject : Json → Option (List (String × Json))
  | obj kvs => some kvs
  | _ => none

/-- `Value::get` with a key: nothing for a value that is no object. -/
def get (j : Json) (k : String) : Option Json := j.asObject.bind (·.lookup k)

/-- `Value` indexed with a key: `null` for a missing key or a value that is no object. -/
def idx (j : Json) (k : String) : Json := (j.get k).getD null

def asStr : Json → Option String
  | str s => some s
  | _ => none

def asBool : Json → Option Bool
  | bool b => some b
  | _ => none

/-- `Value::as_i64`: an integer in the range of `i64`. -/
def asI64 : Json → Option Int
  | int n => if -(2 ^ 63) ≤ n ∧ n < 2 ^ 63 then some n else none
  | _ => none

/-- `Value::as_u64`: an integer in the range of `u64`. -/
def asU64 : Json → Option Nat
  | int n => if 0 ≤ n ∧ n < 2 ^ 64 then some n.toNat else none
  | _ => none

def asArray : Json → Option (List Json)
  | arr xs => some xs
  | _ => none

def isNull : Json → Bool
  | null => true
  | _ => false

def strAt (j : Json) (k : String) : Option String := (j.get k).bind asStr

/-- Indexing and reading a text is the text at the key. -/
theorem asStr_idx (j : Json) (k : String) : (j.idx k).asStr = j.strAt k := by
  unfold idx strAt
  cases j.get k <;> rfl

end Json

end Layr
