import Layr.DbRuns

/-!
# Lines in a run

What a run leaves of one line is a fold over the records that change it (`tables_lines`). Three
kinds of lines do not depend on the order of arrival (`LineSettled`): those that only one machine
changes, those that are never at this machine, where the largest order key counts, and those that
this machine keeps from its first change on, where the records of other machines are left out.
-/

namespace Layr

open List
open Register (Stamped write writeOpt)

variable {c : Codec} {here j : String}

/-- What a reader sees of a line: nothing when it is deleted. -/
def LineRow.view (row : LineRow) : Option LineState :=
  if row.deleted then none else some ⟨row.name, row.head, row.owner, row.machine⟩

namespace Db

/-! ## One line -/

/-- What a record does to a line: an update, a delete, or nothing. -/
def lineAfter (j : String) (r : Record) : Option (Option LineState) := r.lines[j]?.map (·.after)

def lineAt (here j : String) (x : Option (Stamped String LineRow)) (r : Record) :
    Option (Stamped String LineRow) :=
  match lineAfter j r with
  | none => x
  | some after =>
    if r.machine ≠ here ∧ x.map (·.val.machine) = some here then x
    else some (lineRow here r x after)

variable {r : Record}

theorem getElem?_lineStep_ne {lines : BTreeMap (Stamped String LineRow)}
    {e : String × LineChange} (h : e.1 ≠ j) : (lineStep here r lines e)[j]? = lines[j]? := by
  unfold lineStep
  simp only
  split
  · rfl
  · rw [Maps.getElem?_insert_ne h]

theorem getElem?_lineStep_self (r : Record) (lines : BTreeMap (Stamped String LineRow))
    (e : String × LineChange) : (lineStep here r lines e)[e.1]? =
      if r.machine ≠ here ∧ lines[e.1]?.map (·.val.machine) = some here then lines[e.1]?
      else some (lineRow here r lines[e.1]? e.2.after) := by
  unfold lineStep
  simp only
  split
  · rfl
  · rw [getElem?_insert_self]

/-- A record changes the row of each line it has, once. -/
theorem getElem?_foldl_lineStep (r : Record) (lines : BTreeMap (Stamped String LineRow)) :
    (r.lines.toList.foldl (lineStep here r) lines)[j]? = lineAt here j lines[j]? r := by
  rw [Maps.getElem?_foldl_toList (fun _ _ _ h => getElem?_lineStep_ne h)
    (g := fun x e => if r.machine ≠ here ∧ x.map (·.val.machine) = some here then x
      else some (lineRow here r x e.2.after)) (getElem?_lineStep_self r)]
  unfold lineAt lineAfter
  cases r.lines[j]? <;> rfl

abbrev rowAt (here j : String) (x : Option (Stamped String LineRow)) (row : Row) :
    Option (Stamped String LineRow) :=
  lineAt here j x row.record

theorem tables_lines (rows : List Row) :
    (tables c here rows).lines[j]? = rows.foldl (rowAt here j) none := by
  have hfold := tables_eq_foldl c here (fun db => db.lines[j]?) (lineAt here j)
    (fun db r => getElem?_foldl_lineStep r db.lines) rows
  rwa [getElem?_empty] at hfold

variable {x : Option (Stamped String LineRow)}

theorem lineAt_of_none (h : lineAfter j r = none) : lineAt here j x r = x := by
  unfold lineAt
  rw [h]

variable {rows : List Row}

theorem foldl_lineAt_filter {p : Row → Bool}
    (h : ∀ row ∈ rows, p row = false → lineAfter j row.record = none)
        (x : Option (Stamped String LineRow)) : rows.foldl (rowAt here j) x =
        (rows.filter p).foldl (rowAt here j) x := by
  induction rows generalizing x with
  | nil => rfl
  | cons row rows ih =>
    have ih := fun x => ih (fun r hr => h r (mem_cons_of_mem _ hr)) x
    cases hp : p row with
    | true => rw [filter_cons_of_pos hp, foldl_cons, foldl_cons, ih]
    | false =>
      rw [filter_cons_of_neg (by simp [hp]), foldl_cons, ih, rowAt,
        lineAt_of_none (h row mem_cons_self hp)]

/-! ## Lines that are not at this machine -/

def Away (here : String) (x : Option (Stamped String LineRow)) : Prop :=
  x.map (·.val.machine) ≠ some here

/-- A record leaves a line at its machine, updates it, or deletes a line that is not known. -/
theorem machine_lineAt (here j : String) (x : Option (Stamped String LineRow)) (r : Record) :
    (lineAt here j x r).map (·.val.machine) = x.map (·.val.machine) ∨
      (∃ a, lineAfter j r = some (some a) ∧ (lineAt here j x r).map (·.val.machine) =
        some a.machine) ∨
      x = none ∧ lineAfter j r = some none ∧ (lineAt here j x r).map (·.val.machine) =
        some r.machine := by
  unfold lineAt
  cases hafter : lineAfter j r with
  | none => exact .inl rfl
  | some after =>
    simp only
    split
    · exact .inl rfl
    cases x with
    | none => cases after <;> simp [lineRow]
    | some old =>
      cases after <;> simp only [lineRow] <;> split <;> simp

section

variable (hx : Away here x) (hupdate : ∀ a, lineAfter j r = some (some a) → a.machine ≠ here)
include hx hupdate

/-- A line comes to this machine only by an update that says so, or when this machine deletes a line
it does not know. -/
theorem Away.lineAt
    (hdelete : x = none → lineAfter j r = some none → r.machine ≠ here) :
    Away here (lineAt here j x r) := by
  unfold Away
  rcases machine_lineAt here j x r with heq | ⟨a, ha, heq⟩ | ⟨hnone, hdel, heq⟩
  · rwa [heq]
  · simpa [heq] using hupdate a ha
  · simpa [heq] using hdelete hnone hdel

/-- For a line that is not at this machine the larger order key counts. -/
theorem Away.view_lineAt : (Db.lineAt here j x r).map (Stamped.map LineRow.view) =
      writeOpt (x.map (Stamped.map LineRow.view)) r.ord (lineAfter j r) := by
  unfold Db.lineAt
  cases hafter : lineAfter j r with
  | none => rfl
  | some after =>
    have hnot : ¬ (r.machine ≠ here ∧ x.map (·.val.machine) = some here) := fun h => hx h.2
    simp only [if_neg hnot]
    cases x with
    | none => cases after <;> rfl
    | some old =>
      have hcond : ∀ a, after = some a →
          (old.ord < r.ord ∨ (old.val.machine ≠ a.machine ∧ a.machine = here) ↔
              old.ord < r.ord) := by
        intro a ha
        exact or_iff_left fun h => hupdate a (ha ▸ hafter) h.2
      by_cases hlt : old.ord < r.ord
      · cases after with
        | none | some => simp [lineRow, writeOpt, write, hlt, LineRow.view, Stamped.map]
      cases after with
      | none => simp [lineRow, writeOpt, write, hlt]
      | some a =>
        simp only [lineRow, if_neg (mt (hcond a rfl).1 hlt), writeOpt, Option.map_some]
        exact (Register.write_some_of_le (not_lt.1 hlt)).symm

end

/-- A run that never brings the line to this machine: the largest order key counts. -/
theorem view_foldl_lineAt
    (hupdate : ∀ row ∈ rows, ∀ a, lineAfter j row.record = some (some a) → a.machine ≠ here)
    (hdelete : ∀ l₁ row l₂, rows = l₁ ++ row :: l₂ → lineAfter j row.record = some none →
      row.record.machine = here → ∃ o ∈ l₁, (lineAfter j o.record).isSome = true) :
    Away here (rows.foldl (rowAt here j) none) ∧
    (rows.foldl (rowAt here j) none).map (Stamped.map LineRow.view) =
      rows.foldl (fun x row => writeOpt x row.record.ord (lineAfter j row.record)) none ∧
    (rows.foldl (rowAt here j) none = none → ∀ row ∈ rows, lineAfter j row.record = none) := by
  induction rows using List.reverseRecOn with
  | nil => simp [Away]
  | append_singleton rows last ih =>
    obtain ⟨haway, hview, hnone⟩ := ih (fun row hrow => hupdate row (by simp [hrow]))
      fun l₁ row l₂ hl => hdelete l₁ row (l₂ ++ [last]) (by simp [hl])
    have hlast := hupdate last (by simp)
    rw [foldl_concat, foldl_concat]
    refine ⟨haway.lineAt hlast fun hx hdel hmach => ?_, ?_, fun hx => ?_⟩
    · obtain ⟨o, ho, hsome⟩ := hdelete rows last [] (by simp) hdel hmach
      rw [hnone hx o ho] at hsome
      cases hsome
    · rw [haway.view_lineAt hlast, hview]
    · rw [rowAt, Db.lineAt] at hx
      cases hafter : lineAfter j last.record with
      | none =>
        rw [hafter] at hx
        intro row hrow
        rcases mem_append.1 hrow with hrow | hrow
        · exact hnone hx row hrow
        · rwa [mem_singleton.1 hrow]
      | some after =>
        rw [hafter] at hx
        simp only at hx
        split at hx
        · next h => exact absurd h.2 haway
        · cases hx

/-! ## Lines that this machine keeps -/

def Keeps (here j : String) (rows : List Row) : Prop :=
  ∀ row ∈ rows, row.record.machine = here → ∀ a, lineAfter j row.record = some (some a) →
    a.machine = here

/-- While the line is at this machine, and its own records keep it there, those of other machines
are left out. -/
theorem foldl_lineAt_here (hx : x.map (·.val.machine) = some here) (hlocal : Keeps here j rows) :
    rows.foldl (rowAt here j) x = (rows.filter (·.record.machine == here)).foldl
      (rowAt here j) x := by
  induction rows generalizing x with
  | nil => rfl
  | cons row rows ih =>
    have hlocal' : Keeps here j rows := fun r hr => hlocal r (mem_cons_of_mem row hr)
    by_cases hm : row.record.machine = here
    · have hkeep : (lineAt here j x row.record).map (·.val.machine) = some here := by
        rcases machine_lineAt here j x row.record with heq | ⟨a, ha, heq⟩ | ⟨rfl, -⟩
        · rw [heq, hx]
        · rw [heq, hlocal row mem_cons_self hm a ha]
        · cases hx
      rw [filter_cons_of_pos (by simp [hm]), foldl_cons, foldl_cons, ih hkeep hlocal']
    · have hskip : lineAt here j x row.record = x := by
        unfold lineAt
        split
        · rfl
        · rw [if_pos ⟨hm, hx⟩]
      rw [filter_cons_of_neg (by simp [hm]), foldl_cons, rowAt, hskip, ih hx hlocal']

/-- This machine takes a line that is not here by an update that says so. -/
theorem Away.lineAt_take {a : LineState}
    (hx : Away here x) (ha : lineAfter j r = some (some a)) (hhere : a.machine = here) :
    Db.lineAt here j x r = some ⟨r.ord, a.name, a.owner, a.machine, a.head, false⟩ := by
  have hnot : ¬ (r.machine ≠ here ∧ x.map (·.val.machine) = some here) := fun h => hx h.2
  simp only [Db.lineAt, ha, if_neg hnot]
  cases x with
  | none => rfl
  | some old =>
    have hold : old.val.machine ≠ a.machine := by
      rw [hhere]
      simpa [Away] using hx
    have hcond : old.ord < r.ord ∨ (old.val.machine ≠ a.machine ∧ a.machine = here) :=
      .inr ⟨hold, hhere⟩
    simp only [lineRow, if_pos hcond]

/-! ## Lines that settle -/

/-- The changes of a line by this machine and by others keep apart: the others do not give it to
this machine, this machine does not begin with a delete, and its updates all keep the line here or
all leave it elsewhere. -/
structure LineApart (here : String) (rows : List Row) (j : String) : Prop where
  foreign : ∀ row ∈ rows, row.record.machine ≠ here → ∀ a, lineAfter j row.record = some (some a) →
    a.machine ≠ here
  start : ∀ row ∈ rows, row.record.machine = here → lineAfter j row.record = some none →
    ∃ o ∈ rows, o.record.machine = here ∧ o.record.seq < row.record.seq ∧
      (lineAfter j o.record).isSome = true
  updates : (∀ row ∈ rows, row.record.machine = here → ∀ a, lineAfter j row.record = some (some a) →
    a.machine = here) ∨
    ∀ row ∈ rows, row.record.machine = here → ∀ a, lineAfter j row.record = some (some a) →
      a.machine ≠ here

/-- The line does not depend on the order of arrival: only one machine changes it, or the changes
keep apart. -/
def LineSettled (here : String) (rows : List Row) (j : String) : Prop :=
  (∃ m, ∀ row ∈ rows, (lineAfter j row.record).isSome = true → row.record.machine = m) ∨
    LineApart here rows j

/-- The lines are read off what is seen of each line. -/
theorem lineList_eq (db : Db) : db.lineList =
    ((db.lines.toList.filterMap fun e => e.2.val.view.map fun v => (e.1, v)).map fun e =>
      Line.mk e.1 e.2.name e.2.head e.2.owner e.2.machine) := by
  unfold lineList
  rw [map_filterMap]
  congr 1
  congr 1
  funext e
  unfold lineOf LineRow.view
  split <;> rfl

section

variable {rows o : List Row}

/-- A line that this machine keeps is what its own records make of it. -/
theorem foldl_lineAt_kept (ho : Arrives rows o) (h : LineApart here rows j)
    (hkeep : Keeps here j rows)
    (hsome : ∃ row ∈ rows, row.record.machine = here ∧ (lineAfter j row.record).isSome = true) :
    o.foldl (rowAt here j) none = (o.filter (·.record.machine == here)).foldl
        (rowAt here j) none := by
  -- Split the run at the first change by this machine.
  let p : Row → Bool := fun row => row.record.machine == here && (lineAfter j row.record).isSome
  have hfind : (o.find? p).isSome = true := by
    obtain ⟨row, hrow, hm, hch⟩ := hsome
    rw [find?_isSome]
    exact ⟨row, ho.mem_iff.2 hrow, by simp [p, hm, hch]⟩
  obtain ⟨a, ha⟩ := isSome_iff_exists.1 hfind
  obtain ⟨hpa, l₁, l₂, rfl, hl₁⟩ := find?_eq_some_iff_append.1 ha
  simp only [p, Bool.and_eq_true, beq_iff_eq] at hpa
  have hmem : ∀ row ∈ l₁ ++ a :: l₂, row ∈ rows := fun row hrow => ho.mem_iff.1 hrow
  have hforeign : ∀ row ∈ l₁, row.record.machine = here → lineAfter j row.record = none := by
    intro row hrow hm
    simpa [p, hm] using hl₁ row hrow
  -- The first change is an update that takes the line.
  obtain ⟨st, hst⟩ : ∃ st, lineAfter j a.record = some (some st) := by
    obtain ⟨after, hafter⟩ := isSome_iff_exists.1 hpa.2
    cases after with
    | some st => exact ⟨st, hafter⟩
    | none =>
      obtain ⟨b, hb, hbm, hseq, hbs⟩ := h.start a (hmem a (by simp)) hpa.1 hafter
      have hbl := ho.mem_init_of_seq_lt hb (hbm.trans hpa.1.symm) hseq
      rw [hforeign b hbl hbm] at hbs
      cases hbs
  have hhere : st.machine = here := hkeep a (hmem a (by simp)) hpa.1 st hst
  have haway : Away here (l₁.foldl (rowAt here j) none) := by
    refine (view_foldl_lineAt (fun row hrow st hst => ?_) fun k₁ row k₂ hk hdel hm => ?_).1
    · by_cases hm : row.record.machine = here
      · rw [hforeign row hrow hm] at hst
        cases hst
      · exact h.foreign row (hmem row (by simp [hrow])) hm st hst
    · rw [hforeign row (by simp [hk]) hm] at hdel
      cases hdel
  have hinit : (l₁.filter (·.record.machine == here)).foldl (rowAt here j) none = none := by
    rw [foldl_lineAt_filter (p := fun _ => false) (fun row hrow _ => ?_)]
    · simp
    · rw [mem_filter, beq_iff_eq] at hrow
      exact hforeign row hrow.1 hrow.2
  rw [filter_append, filter_cons_of_pos (by simp [hpa.1]), foldl_append,
    foldl_cons, foldl_append, foldl_cons, rowAt, rowAt, haway.lineAt_take hst hhere, hinit,
    Away.lineAt_take (by simp [Away]) hst hhere]
  exact foldl_lineAt_here (by simp [hhere]) fun row hrow => hkeep row (hmem row (by simp [hrow]))

/-- What a reader sees of a line that settles is the same for all orders of arrival. -/
theorem lines_eq_of_settled {o' : List Row} (hv : ValidRows c rows) (ho : Arrives rows o)
    (ho' : Arrives rows o') (h : LineSettled here rows j) :
    (tables c here o).lines[j]?.bind (·.val.view) = (tables c here o').lines[j]?.bind
      (·.val.view) := by
  rw [tables_lines, tables_lines]
  rcases h with ⟨m, halone⟩ | h
  · have hfilter := ho.filter_eq ho' (p := fun row => (lineAfter j row.record).isSome) halone
    have hall : ∀ o : List Row, ∀ row ∈ o, (lineAfter j row.record).isSome = false →
        lineAfter j row.record = none := fun o row _ hrow => by simpa using hrow
    rw [foldl_lineAt_filter (hall o), foldl_lineAt_filter (hall o'), hfilter]
  by_cases hsome : (∃ row ∈ rows, row.record.machine = here ∧
    (lineAfter j row.record).isSome = true) ∧
      Keeps here j rows
  · rw [foldl_lineAt_kept ho h hsome.2 hsome.1, foldl_lineAt_kept ho' h hsome.2 hsome.1,
      ho.filter_eq ho' (s := here) fun row _ hrow => by simpa using hrow]
  have hupdate : ∀ row ∈ rows, ∀ a, lineAfter j row.record = some (some a) → a.machine ≠ here := by
    intro row hrow a ha
    by_cases hm : row.record.machine = here
    · rcases h.updates with hkeep | haway
      · exact absurd ⟨⟨row, hrow, hm, by simp [ha]⟩, hkeep⟩ hsome
      · exact haway row hrow hm a ha
    · exact h.foreign row hrow hm a ha
  have hview : ∀ o, Arrives rows o → (o.foldl (rowAt here j) none).map (Stamped.map LineRow.view) =
      o.foldl (fun x row => writeOpt x row.record.ord (lineAfter j row.record)) none := by
    intro o ho
    refine (view_foldl_lineAt (fun row hrow => hupdate row (ho.mem_iff.1 hrow))
      fun l₁ row l₂ hl hdel hm => ?_).2.1
    subst hl
    obtain ⟨b, hb, hbm, hseq, hbs⟩ := h.start row (ho.mem_iff.1 (by simp)) hm hdel
    exact ⟨b, ho.mem_init_of_seq_lt hb (hbm.trans hm.symm) hseq, hbs⟩
  have hbind : ∀ x : Option (Stamped String LineRow), x.bind (·.val.view) =
      (x.map (Stamped.map LineRow.view)).bind (·.val) := by
    intro x
    cases x <;> rfl
  have hperm := ho.perm.trans ho'.perm.symm
  rw [hbind, hbind, hview o ho, hview o' ho', Register.foldl_writeOpt, Register.foldl_writeOpt,
    Register.foldl_write_filterMap_perm hperm
      (fun a ha b hb => hv.eq_of_ord (ho.mem_iff.1 ha) (ho.mem_iff.1 hb))]

end

end Db

end Layr
