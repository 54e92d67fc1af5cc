import Layr.Json
import Layr.Lib.Fallible

/-!
# JSON in text

The canonical encoding of a value (`layr-store/src/canonical.rs`): keys in order, no spaces, every
character outside printable ASCII escaped. `Denotes` is the grammar of compact JSON: what a parser
has to read. `denotes_of_write`: the encoding of a value is a text of that value.
-/

namespace Layr

open List

namespace JsonText

/-! ## The encoder -/

def hexDigit (n : Nat) : Char := if n < 10 then Char.ofNat (48 + n) else Char.ofNat (87 + n)

def hex4 (n : Nat) : List Char :=
  [hexDigit (n / 4096 % 16), hexDigit (n / 256 % 16), hexDigit (n / 16 % 16), hexDigit (n % 16)]

def encodeUtf16 (c : Char) : List Nat :=
  if c.toNat < 0x10000 then [c.toNat]
  else [0xd800 + (c.toNat - 0x10000) / 0x400, 0xdc00 + (c.toNat - 0x10000) % 0x400]

/-- A character as Python writes it with `ensure_ascii`. -/
def char (c : Char) : List Char :=
  if c = '"' then ['\\', '"']
  else if c = '\\' then ['\\', '\\']
  else if c = '\n' then ['\\', 'n']
  else if c = '\r' then ['\\', 'r']
  else if c = '\t' then ['\\', 't']
  else if c.toNat = 8 then ['\\', 'b']
  else if c.toNat = 12 then ['\\', 'f']
  else if ' ' ≤ c ∧ c ≤ '~' then [c]
  else (encodeUtf16 c).flatMap fun u => '\\' :: 'u' :: hex4 u

def string (s : String) : List Char := '"' :: s.toList.flatMap char ++ ['"']

def commas (xs : List (List Char)) : List Char := List.intercalate [','] xs

mutual

/-- `canonical::write`. The entries of an object are in the order of their keys, whatever the order
of the map is. -/
def write (showFloat : UInt64 → String) : Json → Except String (List Char)
  | .null => .ok "null".toList
  | .bool b => .ok (if b then "true" else "false").toList
  | .int n => .ok (toString n).toList
  | .float x => .error ("the vault format has no fractional numbers: " ++ showFloat x)
  | .str s => .ok (string s)
  | .arr xs => do return '[' :: commas (← writeList showFloat xs) ++ [']']
  | .obj kvs => do
    let es := (← writeFields showFloat kvs).insertionSort fun a b => a.1 ≤ b.1
    return '{' :: commas (es.map fun e => string e.1 ++ ':' :: e.2) ++ ['}']

def writeList (showFloat : UInt64 → String) : List Json → Except String (List (List Char))
  | [] => .ok []
  | x :: xs => do return (← write showFloat x) :: (← writeList showFloat xs)

def writeFields (showFloat : UInt64 → String) : List (String × Json) →
    Except String (List (String × List Char))
  | [] => .ok []
  | (k, x) :: kvs => do return (k, ← write showFloat x) :: (← writeFields showFloat kvs)

end

def canonical (showFloat : UInt64 → String) (v : Json) : Except String ByteArray := do
  return (String.ofList (← write showFloat v)).toUTF8

/-! ## The grammar -/

def hexValue (c : Char) : Option Nat :=
  if '0' ≤ c ∧ c ≤ '9' then some (c.toNat - 48)
  else if 'a' ≤ c ∧ c ≤ 'f' then some (c.toNat - 87)
  else if 'A' ≤ c ∧ c ≤ 'F' then some (c.toNat - 55)
  else none

def IsUnit (n : Nat) (ds : List Char) : Prop :=
  ∃ a b c d w x y z, ds = [a, b, c, d] ∧ hexValue a = some w ∧ hexValue b = some x ∧
    hexValue c = some y ∧ hexValue d = some z ∧ n = 4096 * w + 256 * x + 16 * y + z

def shortEscapes : List (Char × Char) :=
  [('"', '"'), ('\\', '\\'), ('/', '/'), (Char.ofNat 8, 'b'), (Char.ofNat 12, 'f'), ('\n', 'n'),
    ('\r', 'r'), ('\t', 't')]

inductive CharText (c : Char) : List Char → Prop where
  | plain (hprint : 0x20 ≤ c.toNat) (hquote : c ≠ '"') (hback : c ≠ '\\') : CharText c [c]
  | short {e : Char} (h : (c, e) ∈ shortEscapes) : CharText c ['\\', e]
  | unit {ds : List Char} (h : IsUnit c.toNat ds) : CharText c ('\\' :: 'u' :: ds)
  | pair {ds ds' : List Char} {hi lo : Nat} (h : IsUnit hi ds) (h' : IsUnit lo ds')
      (hhi : 0xd800 ≤ hi ∧ hi < 0xdc00) (hlo : 0xdc00 ≤ lo ∧ lo < 0xe000)
      (hc : c.toNat = 0x10000 + 0x400 * (hi - 0xd800) + (lo - 0xdc00)) :
      CharText c ('\\' :: 'u' :: ds ++ '\\' :: 'u' :: ds')

def StringText (s : String) (t : List Char) : Prop :=
  ∃ ts, List.Forall₂ CharText s.toList ts ∧ t = '"' :: ts.flatten ++ ['"']

/-- A text of a value in compact JSON, with the entries of an object in the order of its keys. -/
inductive Denotes : Json → List Char → Prop where
  | null : Denotes .null "null".toList
  | true : Denotes (.bool true) "true".toList
  | false : Denotes (.bool false) "false".toList
  | int {n : Int} (h : -2 ^ 63 ≤ n ∧ n < 2 ^ 64) : Denotes (.int n) (toString n).toList
  | str {s : String} {t : List Char} (h : StringText s t) : Denotes (.str s) t
  | arr {xs : List Json} {ts : List (List Char)} (h : List.Forall₂ Denotes xs ts) :
      Denotes (.arr xs) ('[' :: commas ts ++ [']'])
  | obj {kvs : List (String × Json)} {ks vs : List (List Char)}
      (hkeys : (kvs.map (·.1)).Pairwise (· < ·))
      (hks : List.Forall₂ StringText (kvs.map (·.1)) ks)
      (hvs : List.Forall₂ Denotes (kvs.map (·.2)) vs) :
      Denotes (.obj kvs) ('{' :: commas (List.zipWith (fun k v => k ++ ':' :: v) ks vs) ++ ['}'])

/-! ## The encoding is a text of the value -/

variable {n : Nat}

theorem hexValue_hexDigit (h : n < 16) : hexValue (hexDigit n) = some n := by
  have hall : ∀ k : Fin 16, hexValue (hexDigit k) = some k.val := by decide
  exact hall ⟨n, h⟩

theorem isUnit_hex4 (h : n < 0x10000) : IsUnit n (hex4 n) := by
  refine ⟨_, _, _, _, n / 4096 % 16, n / 256 % 16, n / 16 % 16, n % 16, rfl, ?_, ?_, ?_, ?_,
    by omega⟩
  all_goals exact hexValue_hexDigit (Nat.mod_lt _ (by decide))

theorem toNat_lt (c : Char) : c.toNat < 0x110000 := by
  rcases c.valid with h | ⟨-, h⟩
  · exact Nat.lt_trans h (by decide)
  · exact h

theorem eq_ofNat {c : Char} (h : c.toNat = n) : c = Char.ofNat n := by
  rw [← h, Char.ofNat_toNat]

/-- A character above the first plane is a surrogate pair. -/
theorem charText_escaped (c : Char) :
    CharText c ((encodeUtf16 c).flatMap fun u => '\\' :: 'u' :: hex4 u) := by
  have hlt := toNat_lt c
  unfold encodeUtf16
  split
  · next h =>
    exact .unit (isUnit_hex4 h)
  · next h =>
    refine .pair (isUnit_hex4 ?_) (isUnit_hex4 ?_) ?_ ?_ ?_ <;> omega

theorem charText_char (c : Char) : CharText c (char c) := by
  have hshort : ∀ e, (c, e) ∈ shortEscapes → CharText c ['\\', e] := fun e => .short
  unfold char
  iterate 5
    split
    · next h => exact hshort _ (by rw [h]; decide)
  iterate 2
    split
    · next h => exact hshort _ (by rw [eq_ofNat h]; decide)
  split
  · next hquote hback _ _ _ _ _ h => exact .plain h.1 hquote hback
  · exact charText_escaped c

theorem stringText_string (s : String) : StringText s (string s) := by
  refine ⟨s.toList.map char, ?_, by rw [string, flatMap_def]⟩
  rw [forall₂_map_right_iff]
  exact forall₂_same.2 fun c _ => charText_char c

mutual

/-- The integers fit, and the keys of each object are in order. -/
def Ordered : Json → Prop
  | .int n => -2 ^ 63 ≤ n ∧ n < 2 ^ 64
  | .arr xs => OrderedList xs
  | .obj kvs => (kvs.map (·.1)).Pairwise (· < ·) ∧ OrderedFields kvs
  | _ => True

def OrderedList : List Json → Prop
  | [] => True
  | x :: xs => Ordered x ∧ OrderedList xs

def OrderedFields : List (String × Json) → Prop
  | [] => True
  | (_, x) :: kvs => Ordered x ∧ OrderedFields kvs

end

variable {showFloat : UInt64 → String}

theorem writeFields_keys : ∀ {kvs : List (String × Json)} {es : List (String × List Char)},
    writeFields showFloat kvs = .ok es → es.map (·.1) = kvs.map (·.1)
  | [], es, h => by
    cases h
    rfl
  | (k, x) :: kvs, es, h => by
    simp only [writeFields, bind_eq_ok, pure_eq_ok] at h
    obtain ⟨t, -, es', hes', rfl⟩ := h
    rw [map_cons, map_cons, writeFields_keys hes']

theorem insertionSort_fields {es : List (String × List Char)}
    (h : (es.map (·.1)).Pairwise (· < ·)) :
    es.insertionSort (fun a b => a.1 ≤ b.1) = es := by
  refine List.Pairwise.insertionSort_eq ?_
  rw [pairwise_map] at h
  exact h.imp fun hlt => Std.le_of_lt hlt

theorem zipWith_fields (es : List (String × List Char)) :
    List.zipWith (fun k v => k ++ ':' :: v) ((es.map (·.1)).map string) (es.map (·.2)) =
      es.map fun e => string e.1 ++ ':' :: e.2 := by
  rw [map_map, zipWith_map, zipWith_self]
  rfl

mutual

theorem denotes_of_write : ∀ {v : Json} {t : List Char}, Ordered v → write showFloat v = .ok t →
    Denotes v t
  | .null, t, _, h => by
    cases h
    exact .null
  | .bool b, t, _, h => by
    cases h
    cases b with
    | true => exact .true
    | false => exact .false
  | .int n, t, hv, h => by
    cases h
    exact .int hv
  | .float x, t, _, h => by cases h
  | .str s, t, _, h => by
    cases h
    exact .str (stringText_string s)
  | .arr xs, t, hv, h => by
    simp only [write, bind_eq_ok, pure_eq_ok] at h
    obtain ⟨ts, hts, rfl⟩ := h
    exact .arr (denotesList_of_write hv hts)
  | .obj kvs, t, hv, h => by
    simp only [write, bind_eq_ok, pure_eq_ok] at h
    obtain ⟨es, hes, rfl⟩ := h
    have hkeys := writeFields_keys hes
    rw [insertionSort_fields (hkeys ▸ hv.1), ← zipWith_fields es, hkeys]
    refine .obj hv.1 ?_ (denotesFields_of_write hv.2 hes)
    rw [forall₂_map_right_iff]
    exact forall₂_same.2 fun k _ => stringText_string k

theorem denotesList_of_write : ∀ {xs : List Json} {ts : List (List Char)}, OrderedList xs →
    writeList showFloat xs = .ok ts → List.Forall₂ Denotes xs ts
  | [], ts, _, h => by
    cases h
    exact .nil
  | x :: xs, ts, hv, h => by
    simp only [writeList, bind_eq_ok, pure_eq_ok] at h
    obtain ⟨t, ht, ts', hts', rfl⟩ := h
    exact .cons (denotes_of_write hv.1 ht) (denotesList_of_write hv.2 hts')

theorem denotesFields_of_write : ∀ {kvs : List (String × Json)} {es : List (String × List Char)},
    OrderedFields kvs → writeFields showFloat kvs = .ok es →
      List.Forall₂ Denotes (kvs.map (·.2)) (es.map (·.2))
  | [], es, _, h => by
    cases h
    exact .nil
  | (k, x) :: kvs, es, hv, h => by
    simp only [writeFields, bind_eq_ok, pure_eq_ok] at h
    obtain ⟨t, ht, es', hes', rfl⟩ := h
    exact .cons (denotes_of_write hv.1 ht) (denotesFields_of_write hv.2 hes')

end

end JsonText

end Layr
