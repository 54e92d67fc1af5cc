import Layr.Lib.Fallible

/-!
# Checked btrfs streams

The check that every btrfs send stream from outside goes through on its way to the receiver
(`src/recv.rs`), and how the attributes of a command are read in `src/stream.rs`.

A stream is a list of bytes. The operating system is in `Os`: what `symlink_metadata` says of a
path, and how bytes are shown in a message.
-/

namespace Layr

namespace Recv

abbrev Bytes := List UInt8

/-! ## Numbers and attributes -/

variable (b : Bytes)

def byteAt (i : Nat) : Nat := (b.getD i 0).toNat

def le16 : Nat := byteAt b 0 + 256 * byteAt b 1

def le32 : Nat := le16 b + 65536 * le16 (b.drop 2)

def le64 : Nat := le32 b + 4294967296 * le32 (b.drop 4)

def magic : Bytes := [98, 116, 114, 102, 115, 45, 115, 116, 114, 101, 97, 109, 0]

def maxCmd : Nat := 16 * 2 ^ 20

/-! The commands that the check knows apart. -/

def subvol : Nat := 1
def snapshot : Nat := 2
def link : Nat := 10
def clone : Nat := 16
def endCmd : Nat := 21

/-- The highest command number of send stream version 3 (enable verity). -/
def lastCmd : Nat := 26

/-! The attributes that the check reads. -/

def aUuid : Nat := 1
def aCtransid : Nat := 2
def aPath : Nat := 15
def aPathTo : Nat := 16
def aPathLink : Nat := 17
def aData : Nat := 19
def aCloneUuid : Nat := 20
def aCloneCtransid : Nat := 21
def aClonePath : Nat := 22

abbrev Attr := Nat × Bytes

/-- Attributes of one command. In stream version 2 and later the data attribute has no length and
takes the rest of the command. -/
def attrs (version : Nat) (body : Bytes) : Except String (List Attr) :=
  if body.length = 0 then .ok []
  else if body.length < 2 then .error "truncated attribute"
  else if le16 body = aData ∧ 2 ≤ version then .ok [(aData, body.drop 2)]
  else if body.length < 4 then .error "truncated attribute"
  else if body.length < 4 + le16 (body.drop 2) then .error "truncated attribute"
  else do
    let rest ← attrs version (body.drop (4 + le16 (body.drop 2)))
    return (le16 body, (body.drop 4).take (le16 (body.drop 2))) :: rest
termination_by body.length
decreasing_by
  rw [List.length_drop]
  omega

def get (ats : List Attr) (k : Nat) : Option Bytes := (ats.find? fun a => a.1 == k).map (·.2)

def hexDigit (n : Nat) : Char := "0123456789abcdef".toList.getD n '0'

def uuidText : Except String String :=
  if b.length = 16 then
    let digits := b.flatMap fun x => [hexDigit (x.toNat / 16), hexDigit (x.toNat % 16)]
    .ok (String.ofList (digits.take 8 ++ ['-'] ++ (digits.drop 8).take 4 ++ ['-'] ++
      (digits.drop 12).take 4 ++ ['-'] ++ (digits.drop 16).take 4 ++ ['-'] ++ digits.drop 20))
  else .error "bad UUID in the stream"

/-! ## What a stream must be -/

inductive FileType where
  | file
  | symlink
  | other
deriving DecidableEq

structure Os where
  /-- The entry at a path below a root, by components. -/
  symlinkMetadata : String → List Bytes → Except String FileType
  /-- How a path is shown. -/
  debug : Bytes → String

structure Expect where
  /-- The name of the new subvolume. -/
  name : String
  /-- The UUID the signed record names for it. -/
  uuid : String
  /-- The local subvolume of a state of this project, by the UUID its signed record names. -/
  parent : String → Option String
  /-- Extra immutable sources: the UUID, the send transaction of a received one, the path. -/
  clones : List (String × Option Nat × String)

def components (p : Bytes) : List Bytes := p.splitOn 47

/-- A path inside the new subvolume: relative, no empty, `.` or `..` component. The empty path is
the subvolume root. -/
def safePath (p : Bytes) : Bool :=
  p.isEmpty || (components p).all fun c => !c.isEmpty && c != [46] && c != [46, 46]

def checkPath (os : Os) (p : Bytes) : Except String Unit :=
  ensure (safePath p) ("stream path " ++ os.debug p ++ " leaves the subvolume")

def checkCloneFile (os : Os) (root : String) (path : Bytes) : Except String Unit := do
  forM (components path).inits.tail fun front => do
    ensure ((← os.symlinkMetadata root front) != .symlink)
      "clone source path contains a symbolic link"
  ensure ((← os.symlinkMetadata root (components path)) == .file)
    "clone source is not a regular file"

/-! ## The check -/

/-- A subvolume in a stream: its UUID and transaction. -/
abbrev Source := Bytes × Bytes

/-- The new subvolume and its parent, as far as the stream has named them. -/
structure State where
  own : Option Source
  parent : Option Source
  parentPath : Option String

def checkSubvol (e : Expect) (st : State) (code : Nat) (ats : List Attr) : Except String State := do
  ensure st.own.isNone "the stream holds more than one subvolume"
  ensure (get ats aPath == some e.name.toUTF8.toList) ("the stream is not " ++ e.name)
  let uuid ← context (get ats aUuid) "stream without a UUID"
  ensure ((← uuidText uuid) == e.uuid)
    ("the stream of " ++ e.name ++ " is not the subvolume its record names")
  let own : Source := (uuid, (get ats aCtransid).getD [])
  if code = snapshot then do
    let pu ← context (get ats aCloneUuid) "snapshot without a parent"
    let path ← context (e.parent (← uuidText pu))
      ("the parent of " ++ e.name ++ " is not a state of this project")
    return ⟨some own, some (pu, (get ats aCloneCtransid).getD []), some path⟩
  else return { st with own := some own }

def transid : Except String Nat :=
  if b.length = 8 then .ok (le64 b) else .error "bad clone transaction"

def isClone (uuid : String) (transid : Nat) (c : String × Option Nat × String) : Bool :=
  c.1 == uuid && c.2.1.all (· == transid)

def checkClone (e : Expect) (os : Os) (st : State) (ats : List Attr) : Except String Unit :=
  let source : Source := ((get ats aCloneUuid).getD [], (get ats aCloneCtransid).getD [])
  if some source ≠ st.own ∧ some source ≠ st.parent then do
    let uuid ← uuidText source.1
    let transid ← transid source.2
    let c ← context (e.clones.find? (isClone uuid transid))
      "the stream clones from a subvolume outside this state and its allowed sources"
    let path ← context (get ats aClonePath) "clone without a source path"
    checkCloneFile os c.2.2 path
  else .ok ()

structure Command where
  code : Nat
  attrs : List Attr
deriving DecidableEq

def checkCommand (e : Expect) (os : Os) (st : State) (c : Command) : Except String State := do
  forM [aPath, aPathTo, aClonePath] fun k =>
    match get c.attrs k with
    | some p => checkPath os p
    | none => .ok ()
  if c.code = subvol ∨ c.code = snapshot then checkSubvol e st c.code c.attrs
  else do
    ensure st.own.isSome "the stream does not start with a subvolume"
    if c.code = link then checkPath os ((get c.attrs aPathLink).getD [])
    else if c.code = clone then checkClone e os st c.attrs
    else .ok ()
    return st

/-- The commands, from the rest of the source. What is written to `out` comes first in the result.
-/
def checkLoop (e : Expect) (os : Os) (version : Nat) (st : State) (src out : Bytes) :
    Bytes × Except String (Option String) :=
  if src.length < 10 then (out, .error "failed to fill whole buffer")
  else
    let len := le32 src
    let code := le16 (src.drop 4)
    let rest := src.drop 10
    if maxCmd < len then (out, .error ("stream command of " ++ toString len ++ " bytes"))
    else if code = 0 ∨ lastCmd <
      code then (out, .error ("unknown stream command " ++ toString code))
    else if rest.length < len then (out, .error "failed to fill whole buffer")
    else
      match attrs version (rest.take len) with
      | .error m => (out, .error m)
      | .ok ats =>
        match checkCommand e os st ⟨code, ats⟩ with
        | .error m => (out, .error m)
        | .ok st =>
          let out := out ++ src.take 10 ++ rest.take len
          if code = endCmd then
            if (rest.drop len).isEmpty then (out, .ok st.parentPath)
            else (out, .error "data after the end of the stream")
          else checkLoop e os version st (rest.drop len) out
termination_by src.length
decreasing_by
  simp only [List.length_drop]
  omega

/-- Check a stream while copying it. What was copied comes with the local parent of an incremental
stream. -/
def check (e : Expect) (os : Os) (src : Bytes) : Bytes × Except String (Option String) :=
  if src.length < 17 then ([], .error "failed to fill whole buffer")
  else if src.take 13 ≠ magic then ([], .error "not a btrfs send stream")
  else
    let version := le32 (src.drop 13)
    if version < 1 ∨ 3 < version then
      ([], .error ("unsupported send stream version " ++ toString version))
    else checkLoop e os version ⟨none, none, none⟩ (src.drop 17) (src.take 17)

end Recv

namespace Stream

open Recv (Bytes Attr le16)

/-- The attributes of a command as `parse` finds them, in order: what does not fit is left. -/
def attrs (body : Bytes) : List Attr :=
  if body.length < 4 then []
  else if body.length < 4 + le16 (body.drop 2) then []
  else (le16 body, (body.drop 4).take (le16 (body.drop 2))) ::
    attrs (body.drop (4 + le16 (body.drop 2)))
termination_by body.length
decreasing_by
  rw [List.length_drop]
  omega

/-- The map of attributes of `parse`: each one is inserted, so the last of a kind stays. -/
def get (ats : List Attr) (k : Nat) : Option Bytes :=
  (ats.reverse.find? fun a => a.1 == k).map (·.2)

end Stream

end Layr
