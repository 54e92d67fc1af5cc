import Layr.Lib.Maps
import Layr.Record

/-!
# Who wrote a line

`blame` follows the lines of the newest version of a file back through its older versions, for any
diff of neighbours: each line belongs to the version where its way ends (`blame_follows`).
-/

namespace Layr.Blame

open List

/-- One step of a diff, of which only the equal lines count here. -/
inductive DiffOp where
  | equal (oldIndex newIndex len : ℕ)
  | other

/-- The lossy decoding of a text, and the diff of an older and a newer text. -/
structure Crates where
  fromUtf8Lossy : List UInt8 → String
  fromLines : String → String → List DiffOp

/-- `state` is missing for the working content. -/
structure FileVersion where
  state : Option StateRec
  bytes : List UInt8

structure BlameLine where
  line : ℕ
  state : Option String
  text : String
  boundary : Bool
  version : ℕ

/-- The new and old numbers of the lines that a step keeps. -/
def DiffOp.kept : DiffOp → List (ℕ × ℕ)
  | .equal old new len => (List.range len).map fun k => (new + k, old + k)
  | .other => []

variable (c : Crates)

/-- The lines that a diff keeps, by their new and old numbers. -/
def kept (newer older : FileVersion) : List (ℕ × ℕ) :=
  (c.fromLines (c.fromUtf8Lossy older.bytes) (c.fromUtf8Lossy newer.bytes)).flatMap DiffOp.kept

def newToOld (newer older : FileVersion) : Std.ExtTreeMap ℕ ℕ :=
  Maps.insertAll Prod.fst Prod.snd ∅ (kept c newer older)

/-- A line of the newest version: where it is in the current one, and the last version that has it.
-/
structure Row where
  pos : Option ℕ
  owner : ℕ

def Row.step (newToOld : Std.ExtTreeMap ℕ ℕ) (vi : ℕ) (row : Row) : Row :=
  match row.pos with
  | none => row
  | some m =>
    match newToOld[m]? with
    | some o => ⟨some o, vi⟩
    | none => ⟨none, row.owner⟩

/-- The rows after the versions older than `newer`, which has the number `vi`. -/
def walk (vi : ℕ) (newer : FileVersion) : List FileVersion → List Row → List Row
  | [], rows => rows
  | older :: rest, rows =>
    walk (vi + 1) older rest (rows.map (Row.step (newToOld c newer older) (vi + 1)))

def splitInclusive (text : String) : List (List Char) := text.toList.splitBy fun ch _ => ch != '\n'

def blame : List FileVersion → Except String (List BlameLine)
  | [] => .error "no such path"
  | newest :: rest =>
    let lines := splitInclusive (c.fromUtf8Lossy newest.bytes)
    let rows := walk c 0 newest rest ((List.range lines.length).map fun i => ⟨some i, 0⟩)
    .ok ((lines.zip rows).mapIdx fun i (text, row) =>
      let state := (newest :: rest)[row.owner]?.bind (·.state)
      { line := i + 1
        state := state.map (·.id)
        text := String.ofList (text.rdropWhile (· == '\n'))
        boundary := row.owner == rest.length && state.any (·.parents.isEmpty)
        version := row.owner })

/-! ## The way of a line -/

variable (versions : List FileVersion)

/-- The line `p` of a version is the line `o` of the version after it. -/
def Matched (v p o : ℕ) : Prop :=
  ∃ newer older, versions[v]? = some newer ∧ versions[v + 1]? = some older ∧
    (p, o) ∈ kept c newer older

/-- The line `i` of the newest version is carried through every version down to line `p` of `v`. -/
inductive Carried (i : ℕ) : ℕ → ℕ → Prop
  | newest : Carried i 0 i
  | older {v p o : ℕ} : Carried i v p → Matched c versions v p o → Carried i (v + 1) o

def Ends (i v : ℕ) : Prop := ∃ p, Carried c versions i v p ∧ ∀ o, ¬Matched c versions v p o

def Known (n i : ℕ) (row : Row) : Prop :=
  match row.pos with
  | some p => row.owner = n ∧ Carried c versions i n p
  | none => Ends c versions i row.owner

variable {c versions}

theorem of_newToOld {newer older : FileVersion} {p o : ℕ}
    (h : (newToOld c newer older)[p]? = some o) :
    (p, o) ∈ kept c newer older :=
  Maps.Every.insertAll (P := fun p o => (p, o) ∈ kept c newer older) .empty (fun _ he => he) p o h

/-- A row that is found in the older version goes on there. The way of any other row ends. -/
theorem Known.step {n i : ℕ} {newer older : FileVersion} {row : Row}
    (hnewer : versions[n]? = some newer) (holder : versions[n + 1]? = some older)
    (h : Known c versions n i row) :
    Known c versions (n + 1) i (row.step (newToOld c newer older) (n + 1)) := by
  obtain ⟨pos, owner⟩ := row
  cases pos with
  | none => exact h
  | some p =>
    obtain ⟨rfl, hp⟩ := h
    simp only [Row.step]
    cases ho : (newToOld c newer older)[p]? with
    | some o => exact ⟨rfl, hp.older ⟨newer, older, hnewer, holder, of_newToOld ho⟩⟩
    | none =>
      refine ⟨p, hp, ?_⟩
      rintro o ⟨newer', older', hn, hold, hmem⟩
      cases hnewer.symm.trans hn
      cases holder.symm.trans hold
      have hin : p ∈ newToOld c newer older := Maps.mem_insertAll.2 (.inr ⟨(p, o), hmem, rfl⟩)
      rw [mem_iff_isSome_getElem?, ho] at hin
      cases hin

variable {n : ℕ} {newer : FileVersion} {rest : List FileVersion} {rows : List Row}

theorem length_walk : (walk c n newer rest rows).length = rows.length := by
  induction rest generalizing n newer rows with
  | nil => rfl
  | cons older rest ih => exact ih.trans (length_map _)

/-- After the oldest version every way has ended. -/
theorem walk_ends (hv : versions.drop n = newer :: rest)
    (h : ∀ i row, rows[i]? = some row → Known c versions n i row) :
    ∀ i row, (walk c n newer rest rows)[i]? = some row → Ends c versions i row.owner := by
  have hrest : versions.drop (n + 1) = rest := by rw [← tail_drop, hv, tail_cons]
  induction rest generalizing n newer rows with
  | nil =>
    intro i row hrow
    have hk := h i row hrow
    obtain ⟨_ | p, owner⟩ := row
    · exact hk
    · obtain ⟨rfl, hp⟩ := hk
      refine ⟨p, hp, ?_⟩
      rintro o ⟨_, _, _, hold, _⟩
      rw [← head?_drop, hrest] at hold
      cases hold
  | cons older rest ih =>
    refine ih hrest (fun i row hrow => ?_) (by rw [← tail_drop, hrest, tail_cons])
    rw [getElem?_map, map_eq_some_iff] at hrow
    obtain ⟨row, hrow, rfl⟩ := hrow
    exact (h i row hrow).step (by rw [← head?_drop, hv, head?_cons])
      (by rw [← head?_drop, hrest, head?_cons])

/-- There is one entry for each line of the newest version, in order. Its version is the one that
the line can be followed to and not beyond. -/
theorem blame_follows (c : Crates) (newest : FileVersion) (rest : List FileVersion) :
    ∃ out, blame c (newest :: rest) = .ok out ∧
      out.length = (splitInclusive (c.fromUtf8Lossy newest.bytes)).length ∧
      ∀ i b, out[i]? = some b → b.line = i + 1 ∧ Ends c (newest :: rest) i b.version ∧
        ∃ text, (splitInclusive (c.fromUtf8Lossy newest.bytes))[i]? = some text ∧
          b.text = String.ofList (text.rdropWhile (· == '\n')) := by
  refine ⟨_, rfl, by simp [length_walk], fun i b hb => ?_⟩
  rw [getElem?_mapIdx] at hb
  obtain ⟨⟨text, row⟩, hz, rfl⟩ := map_eq_some_iff.1 hb
  obtain ⟨ht, hrow⟩ := getElem?_zip_eq_some.1 hz
  refine ⟨rfl, walk_ends rfl (fun i row hrow => ?_) i row hrow, text, ht, rfl⟩
  obtain ⟨hi, rfl⟩ := List.getElem?_eq_some_iff.1 hrow
  rw [getElem_map, getElem_range]
  exact ⟨rfl, .newest⟩

end Layr.Blame
