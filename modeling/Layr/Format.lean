import Layr.JsonText
import Layr.Lib.Texts
import Layr.Validation

/-!
# The trees of a store

The tree of a pushed state (`layr-store/src/format.rs`): its files with their modes, hashes and
chains of frames. A tree is stored as canonical JSON, which signatures cover, so `Tree.parse` takes
nothing but the bytes that `Tree.canonical` writes.

The JSON parser is a parameter, as is the way a text is shown in a message.
-/

namespace Layr

namespace Format

open JsonText (string commas)

/-- One frame: the data object it is in, where it is there, and `full` or `delta`. -/
structure Link where
  state : String
  attempt : String
  part : UInt32
  offset : UInt64
  length : UInt64
  kind : String
deriving DecidableEq

/-- A file: its mode, its size, the SHA-256 of its content, and the chain of frames it is read from.
-/
structure Entry where
  mode : String
  size : UInt64
  sha : String
  chain : List Link
deriving DecidableEq

structure Tree where
  files : BTreeMap Entry

def fullTreeEvery : Nat := 32
def maxFileDeltas : Nat := 16
def maxParts : Nat := 10000

/-! ## Names -/

def validAttempt (attempt : String) : Bool :=
  attempt.toList.length == 8 && attempt.toList.all isLowerHexDigit

def treeName (state attempt : String) : String :=
  "states/" ++ state ++ "/" ++ attempt ++ ".tree.age"

def dataName (state attempt : String) (part : UInt32) : String :=
  "states/" ++ state ++ "/" ++ attempt ++ "." ++ padded 4 part.toNat ++ ".data.age"

def Link.object (l : Link) : String := dataName l.state l.attempt l.part

def parseTreeName (key : String) : Option (String × String) := do
  let (state, rest) ← splitOnce (← stripPrefix key "states/") '/'
  let attempt ← stripSuffix rest ".tree.age"
  guard (isUuid state && validAttempt attempt)
  return (state, attempt)

def parseDataName (key : String) : Option (String × String × UInt32) := do
  let (state, rest) ← splitOnce (← stripPrefix key "states/") '/'
  let (attempt, part) ← splitOnce (← stripSuffix rest ".data.age") '.'
  guard (isUuid state && validAttempt attempt && part.toList.length == 4 &&
    part.toList.all Char.isDigit)
  return (state, attempt, .ofNat (Nat.ofDigitChars 10 part.toList 0))

/-! ## The encoding -/

def numberText (n : Nat) : List Char := (toString n).toList

def Link.text (l : Link) : List Char :=
  '[' :: string l.state ++ ',' :: string l.attempt ++
    [l.part.toNat, l.offset.toNat, l.length.toNat].flatMap (fun n => ',' :: numberText n) ++
    ',' :: string l.kind ++ [']']

def Entry.text (path : String) (e : Entry) : List Char :=
  string path ++ [':', '['] ++ string e.mode ++ ',' :: numberText e.size.toNat ++ ',' ::
    string e.sha ++ [',', '['] ++ commas (e.chain.map Link.text) ++ [']', ']']

/-- The encoding as text. It has nothing but ASCII. -/
def Tree.text (t : Tree) : List Char :=
  ['\x7b', '"', 'f', 'i', 'l', 'e', 's', '"', ':', '\x7b'] ++
    commas (t.files.toList.map fun e => e.2.text e.1) ++ ['\x7d', '\x7d']

def Tree.canonical (t : Tree) : ByteArray := (String.ofList t.text).toUTF8

/-! ## The same value for `serde_json` -/

def Link.toValue (l : Link) : Json :=
  .arr [.str l.state, .str l.attempt, .int l.part.toNat, .int l.offset.toNat, .int l.length.toNat,
    .str l.kind]

def Entry.toValue (e : Entry) : Json :=
  .arr [.str e.mode, .int e.size.toNat, .str e.sha, .arr (e.chain.map Link.toValue)]

def Tree.toValue (t : Tree) : Json :=
  .obj [("files", .obj (t.files.toList.map fun e => (e.1, e.2.toValue)))]

def Link.ofValue : Json → Option Link
  | .arr [state, attempt, part, offset, length, kind] => do
    return ⟨← Serde.string state, ← Serde.string attempt, .ofNat (← Serde.u32 part),
      .ofNat (← Serde.u64 offset), .ofNat (← Serde.u64 length), ← Serde.string kind⟩
  | _ => none

def Entry.ofValue : Json → Option Entry
  | .arr [mode, size, sha, chain] => do
    return ⟨← Serde.string mode, .ofNat (← Serde.u64 size), ← Serde.string sha, ← Serde.vec
      Link.ofValue chain⟩
  | _ => none

def Tree.ofValue (j : Json) : Option Tree := do
  let s ← Serde.source 1 j
  return ⟨← s.req 0 "files" (Serde.map Entry.ofValue)⟩

/-! ## The parser -/

def components (path : String) : List (List Char) := path.toList.splitOn '/'

def safePath (path : String) : Bool :=
  path != "" && !path.toList.any (fun c => c == '\\' || c.toNat == 0) &&
    !((components path).any fun s => s.isEmpty || s == ['.'] || s == ['.', '.']) &&
    (checkRel path).toOption.isSome

/-- `hex::decode` takes the text of 32 bytes. -/
def validSha (sha : String) : Bool := sha.toList.length == 64 && sha.toList.all isHexDigit

/-- The folders above a safe path, from the nearest on, as `Path::parent` gives them. The last is
the empty path. -/
def parents (path : String) : List String :=
  (Paths.parents '/' path.toList).map String.ofList

structure Env where
  fromSlice : ByteArray → Except String Json
  debug : String → String

def checkLink (last : Bool) (l : Link) : Except String Unit := do
  ensure (isUuid l.state && validAttempt l.attempt && l.part.toNat < maxParts && l.length != 0)
    "invalid frame address"
  ensure (l.kind == if last then "full" else "delta") "file chain must end with one full frame"
  ensure (decide (l.offset.toNat + l.length.toNat < 2 ^ 64)) "frame range overflow"

def checkEntry (env : Env) (t : Tree) (path : String) (e : Entry) : Except String Unit := do
  ensure (safePath path) ("unsafe tree path " ++ env.debug path)
  ensure (["100644", "100755", "120000"].contains e.mode) "invalid file mode"
  ensure (validSha e.sha) "invalid SHA-256"
  ensure (!e.chain.isEmpty && decide (e.chain.length ≤ maxFileDeltas + 1))
    "invalid file chain length"
  forM e.chain.zipIdx fun l => checkLink (l.2 + 1 == e.chain.length) l.1
  -- No file can be the parent folder of another file, including a symlink.
  forM (parents path) fun p =>
    ensure (!t.files.contains p) ("tree path has a file parent: " ++ path)

def Tree.parse (env : Env) (bytes : ByteArray) : Except String Tree := do
  let j ← env.fromSlice bytes
  let t ← context (Tree.ofValue j) "invalid tree"
  ensure (decide (t.canonical = bytes)) "noncanonical tree"
  forM t.files.toList fun e => checkEntry env t e.1 e.2
  return t

end Format

section
open List

/-! ## The names are read back

The name of a tree is read back as the state and the attempt it was made from, and no name is that
of a tree and of a data object. -/

theorem stripPrefix_append (pre t : String) : stripPrefix (pre ++ t) pre = some t := by
  have hstarts : startsWith (pre ++ t) pre = true := by
    rw [startsWith, String.toList_append, isPrefixOf_iff_prefix]
    exact prefix_append _ _
  rw [stripPrefix, if_pos hstarts, String.toList_append, drop_left, String.ofList_toList]

theorem stripSuffix_append (t suf : String) : stripSuffix (t ++ suf) suf = some t := by
  have hends : endsWith (t ++ suf) suf = true := by
    rw [endsWith, String.toList_append, isSuffixOf_iff_suffix]
    exact suffix_append _ _
  rw [stripSuffix, if_pos hends, String.toList_append, length_append, Nat.add_sub_cancel,
    take_left, String.ofList_toList]

theorem suffix_of_stripSuffix {s suf t : String} (h : stripSuffix s suf = some t) :
    suf.toList <:+ s.toList := by
  unfold stripSuffix at h
  split at h
  case isTrue hends => exact isSuffixOf_iff_suffix.1 hends
  case isFalse => cases h

theorem splitOnce_append {a : String} (b : String) {c : Char} (h : c ∉ a.toList) :
    splitOnce (a ++ String.singleton c ++ b) c = some (a, b) := by
  have htake : ∀ x ∈ a.toList, (x != c) = true := fun x hx => by
    rw [bne_iff_ne]
    rintro rfl
    exact h hx
  have hspan : ((a ++ String.singleton c ++ b).toList).span (· != c) =
      (a.toList, c :: b.toList) := by
    rw [span_eq_takeWhile_dropWhile, String.toList_append, String.toList_append,
      String.toList_singleton, append_assoc, takeWhile_append_of_pos htake,
      dropWhile_append_of_pos htake]
    simp
  rw [splitOnce, hspan]
  simp

namespace Format

theorem slash_notMem_of_isUuid {s : String} (h : isUuid s = true) : '/' ∉ s.toList := by
  intro hmem
  rw [isUuid, Bool.and_eq_true, all_eq_true] at h
  obtain ⟨i, hi, hget⟩ := mem_iff_getElem.1 hmem
  have hdigit := h.2 ('/', i) (mem_zipIdx_iff_getElem?.2 (by rw [getElem?_eq_getElem hi, hget]))
  split at hdigit
  · cases hdigit
  · exact absurd (show isLowerHexDigit '/' = true from hdigit) (by decide)

theorem parseTreeName_treeName {state attempt : String} (hs : isUuid state = true)
    (ha : validAttempt attempt = true) :
    parseTreeName (treeName state attempt) = some (state, attempt) := by
  have hname : treeName state attempt = "states/" ++
      (state ++ String.singleton '/' ++ (attempt ++ ".tree.age")) := by
    simp only [treeName, String.append_assoc]
    rfl
  rw [parseTreeName, hname, stripPrefix_append]
  change (splitOnce _ '/').bind _ = _
  rw [splitOnce_append _ (slash_notMem_of_isUuid hs)]
  change (stripSuffix _ _).bind _ = _
  rw [stripSuffix_append]
  simp [hs, ha]

theorem parseTreeName_eq_none {key : String} {d : String × String × UInt32}
    (h : parseDataName key = some d) : parseTreeName key = none := by
  simp only [parseDataName, parseTreeName, Option.bind_eq_bind, Option.bind_eq_some_iff,
    Option.bind_eq_none_iff] at h ⊢
  obtain ⟨text, htext, ⟨state, rest⟩, hrest, data, hdata, -⟩ := h
  intro text' htext' e hsplit attempt htree
  cases htext.symm.trans htext'
  cases hrest.symm.trans hsplit
  have hsame := suffix_of_suffix_length_le (suffix_of_stripSuffix hdata)
    (suffix_of_stripSuffix htree) (by decide)
  exact absurd (hsame.eq_of_length (by decide)) (by decide)

end Format

end

end Layr
