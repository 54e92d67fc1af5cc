import Layr.Lib.Fallible
import Layr.Lib.Maps
import Layr.Lib.Runs

/-!
# Online migration of a table

A table is copied to another in small transactions while its rows are written
(`online_migration.rs`). The mark is the highest key copied. Triggers record a key at or below the
mark that a write touches; a batch copies recorded keys again, then rows above the mark, and
completes when it finds neither. `Copied` is what the batches keep, for any clock and wherever they
stop. A completed migration has no triggers, and a batch does not ask whether it is complete: rows
written after it are lost for the batches that a restart runs.
-/

namespace Layr.OnlineMigration

open List Option
open Std (ExtTreeMap ExtTreeSet)
open Maps Runs

abbrev Table (V : Type) := ExtTreeMap ℕ+ V

inductive MigrationStatus
  | running
  | complete
  | error
deriving DecidableEq

/-- The row `online:<NAME>` of `runtime_payload_migrations`. -/
structure Progress where
  cursor : ℕ := 0
  complete : Bool := false
  status : MigrationStatus := .running
  error : Option String := none

structure Db (Row Out : Type) where
  source : Table Row
  target : Table Out := ∅
  progress : Option Progress := none
  dirty : ExtTreeSet ℕ+ := ∅
  triggers : Bool := false

variable {Row Out : Type}

def Db.mark (s : Db Row Out) : ℕ := (s.progress.getD {}).cursor

def Db.finished (s : Db Row Out) : Bool := (s.progress.getD {}).complete

/-- A write to the source table. The triggers record the old and the new keys at or below the mark.
-/
def Db.changed (s : Db Row Out) (source : Table Row) (keys : List ℕ+) : Db Row Out :=
  { s with
    source
    dirty := if s.triggers then s.dirty.insertMany (keys.filter fun key : ℕ+ => (key : ℕ) ≤ s.mark)
      else s.dirty }

inductive Write (Row : Type)
  | insert (key : ℕ+) (row : Row)
  | update (key newKey : ℕ+) (row : Row)
  | delete (key : ℕ+)

def Db.write (s : Db Row Out) : Write Row → Db Row Out
  | .insert key row => s.changed (s.source.insert key row) [key]
  | .update key newKey row =>
    if key ∈ s.source then s.changed ((s.source.erase key).insert newKey row) [key, newKey] else s
  | .delete key => if key ∈ s.source then s.changed (s.source.erase key) [key] else s

def Db.begin (s : Db Row Out) : Db Row Out :=
  { s with progress := some (s.progress.getD {}), triggers := s.triggers || !s.finished }

def batchTimeLimit : ℕ := 50000000

def batchMaxRows : ℕ := 500

structure Budget where
  clock : ℕ → ℕ
  reads : ℕ := 1
  started : ℕ := clock 0
  slowest : ℕ := 0
  rows : ℕ := 0

def Budget.allowsNext (b : Budget) : Bool × Budget :=
  if b.rows = 0 then (true, b)
  else (b.clock b.reads - b.started + b.slowest < batchTimeLimit, { b with reads := b.reads + 1 })

def Budget.timed (b : Budget) : Budget :=
  { b with
    slowest := max b.slowest (b.clock (b.reads + 1) - b.clock b.reads)
    rows := b.rows + 1
    reads := b.reads + 2 }

/-- Up to `limit` rows with a key above `after`, ordered by key. -/
def readAfter (source : Table Row) (after limit : ℕ) : List (ℕ+ × Row) :=
  (source.toList.filter fun e => after < (e.1 : ℕ)).take limit

inductive Step
  | progress
  | complete
deriving DecidableEq

section
variable (transform : Row → Except String Out)

/-- Write the image of the row, or remove the target row when the source row is gone. -/
def Db.copy (s : Db Row Out) (key : ℕ+) : Option Row → Except String (Db Row Out)
  | some row => do return { s with target := s.target.insert key (← transform row) }
  | none => return { s with target := s.target.erase key }

/-- Copy recorded keys again; whether the time ended first. -/
def recopy : List ℕ+ → Budget → Db Row Out → Except String (Bool × Budget × Db Row Out)
  | [], b, s => return (false, b, s)
  | key :: keys, b, s =>
    if b.allowsNext.1 then do
      let s ← s.copy transform key s.source[key]?
      recopy keys b.allowsNext.2.timed { s with dirty := s.dirty.erase key }
    else return (true, b.allowsNext.2, s)

def copyRows : List (ℕ+ × Row) → Budget → ℕ → Db Row Out → Except String (ℕ × Db Row Out)
  | [], _, mark, s => return (mark, s)
  | (key, row) :: rows, b, mark, s =>
    if b.allowsNext.1 then do
      let s ← s.copy transform key (some row)
      copyRows rows b.allowsNext.2.timed key s
    else return (mark, s)

def step (clock : ℕ → ℕ) (s : Db Row Out) : Except String (Step × Db Row Out) := do
  let dirty := s.dirty.toList.take batchMaxRows
  let r ← recopy transform dirty { clock } s
  let dirtyLeft := dirty.length == batchMaxRows || r.1
  let p ← context r.2.2.progress
    "invalid JSON-record table contract: online migration was not begun"
  let rows := if dirtyLeft then [] else readAfter r.2.2.source p.cursor batchMaxRows
  let c ← copyRows transform rows r.2.1 p.cursor r.2.2
  let done := !dirtyLeft && rows.isEmpty
  let status := if done then MigrationStatus.complete else .running
  return (if done then .complete else .progress,
    { c.2 with
      triggers := c.2.triggers && !done
      progress := some { cursor := c.1, complete := done, status } })

def Db.failed (s : Db Row Out) (message : String) : Db Row Out :=
  { s with progress := s.progress.map ({ · with status := .error, error := some message }) }

/-- One transaction. A batch may fail for a reason outside the model; a crash records nothing. -/
inductive Event (Row : Type)
  | begin
  | step (clock : ℕ → ℕ)
  | fail (message : Option String)
  | write (w : Write Row)

def Db.apply (s : Db Row Out) : Event Row → Db Row Out
  | .begin => s.begin
  | .step clock =>
    match step transform clock s with
    | .ok (_, s') => s'
    | .error message => s.failed message
  | .fail none => s
  | .fail (some message) => s.failed message
  | .write w => s.write w

/-- The target row is the image of the source row, or absent with it. -/
def Matches (s : Db Row Out) (key : ℕ+) : Prop :=
  (s.source[key]?).map transform = (s.target[key]?).map .ok

/-- What is not recorded is copied up to the mark, and nothing is above it. -/
def Copied (mark : ℕ) (s : Db Row Out) : Prop :=
  ∀ key : ℕ+, ((key : ℕ) ≤ mark → key ∉ s.dirty → Matches transform s key) ∧
    (mark < key → key ∉ s.dirty ∧ s.target[key]? = none)

structure Inv (s : Db Row Out) : Prop where
  copied : Copied transform s.mark s
  live : s.progress.isSome → s.finished = false → s.triggers = true
  done : s.finished = true → ∀ key, key ∉ s.dirty ∧ Matches transform s key

end

variable {transform : Row → Except String Out} {s s' : Db Row Out} {source : Table Row} {mark : ℕ}
  {key : ℕ+}

variable {keys : List ℕ+}

/-- A write that the triggers see at every key it changes. -/
theorem Inv.changed (h : Inv transform s) (hfinished : s.finished = false)
    (hkeys : ∀ key ∉ keys, source[key]? = s.source[key]?) :
    Inv transform (s.changed source keys) := by
  have hdirty : ∀ key, key ∈ (s.changed source keys).dirty ↔
      key ∈ s.dirty ∨ s.triggers = true ∧ key ∈ keys ∧ (key : ℕ) ≤ s.mark := by
    intro key
    rw [Db.changed]
    split
    · next ht => simp [ht, ExtTreeSet.mem_insertMany_list]
    · next ht => simp [ht]
  refine ⟨fun key => ⟨fun hle hkey => ?_, fun hlt => ?_⟩, h.live, fun hd => ?_⟩
  · -- without triggers the migration has not begun, and no key is at or below its mark
    have htriggers : s.triggers = true := by
      refine h.live ?_ hfinished
      cases hp : s.progress with
      | some p => rfl
      | none =>
        have hpos := key.pos
        simp only [Db.changed, Db.mark, hp, getD_none] at hle
        omega
    rw [hdirty, not_or] at hkey
    show (source[key]?).map transform = _
    rw [hkeys key fun hmem => hkey.2 ⟨htriggers, hmem, hle⟩]
    exact (h.copied key).1 hle hkey.1
  · obtain ⟨hclean, htarget⟩ := (h.copied key).2 hlt
    refine ⟨fun hkey => ?_, htarget⟩
    rcases (hdirty key).1 hkey with hkey | ⟨-, -, hle⟩
    · exact hclean hkey
    · exact absurd hle hlt.not_ge
  · exact absurd (hfinished.symm.trans hd) (by decide)

theorem Inv.write {w : Write Row} (h : Inv transform s) (hfinished : s.finished = false) :
    Inv transform (s.write w) := by
  cases w with
  | insert key row =>
    exact h.changed hfinished fun k hk => getElem?_insert_ne (Ne.symm (ne_of_not_mem_cons hk))
  | update key newKey row =>
    rw [Db.write]
    split
    · refine h.changed hfinished fun k hk => ?_
      simp only [mem_cons, not_mem_nil, or_false, not_or] at hk
      rw [getElem?_insert_ne (Ne.symm hk.2), getElem?_erase, if_neg (by simpa using Ne.symm hk.1)]
    · exact h
  | delete key =>
    rw [Db.write]
    split
    · refine h.changed hfinished fun k hk => ?_
      rw [getElem?_erase, if_neg (by simpa using Ne.symm (ne_of_not_mem_cons hk))]
    · exact h

theorem copy_ok (h : s.copy transform key s.source[key]? = .ok s') :
    Matches transform s' key ∧ ∃ target, s' = { s with target } ∧
      ∀ k ≠ key, target[k]? = s.target[k]? := by
  cases hrow : s.source[key]? with
  | some row =>
    rw [hrow] at h
    simp only [Db.copy, bind_eq_ok, pure_eq_ok] at h
    obtain ⟨out, hout, rfl⟩ := h
    refine ⟨?_, _, rfl, fun k hk => getElem?_insert_ne hk.symm⟩
    simp [Matches, hrow, hout]
  | none =>
    rw [hrow] at h
    cases h
    refine ⟨by simp [Matches, hrow], _, rfl, fun k hk => ?_⟩
    rw [getElem?_erase, if_neg (by simpa using hk.symm)]

theorem recopy_ok {b : Budget} {r : Bool × Budget × Db Row Out}
    (h : recopy transform keys b s = .ok r) (hc : Copied transform mark s)
    (hkeys : ∀ key ∈ keys, (key : ℕ) ≤ mark) :
    Copied transform mark r.2.2 ∧ (∃ target dirty, r.2.2 = { s with target, dirty }) ∧
      ∀ key ∈ r.2.2.dirty, key ∈ s.dirty ∧ (r.1 = false → key ∉ keys) := by
  induction keys generalizing b s with
  | nil =>
    cases h
    exact ⟨hc, ⟨_, _, rfl⟩, fun key hkey => ⟨hkey, fun _ => not_mem_nil⟩⟩
  | cons key keys ih =>
    rw [recopy] at h
    split at h
    · obtain ⟨s₁, hs₁, h⟩ := bind_eq_ok.1 h
      obtain ⟨hmatch, target, rfl, hother⟩ := copy_ok hs₁
      have hmem : ∀ k, k ∈ s.dirty.erase key ↔ k ≠ key ∧ k ∈ s.dirty := by
        intro k
        rw [ExtTreeSet.mem_erase, Ne, compare_eq_iff_eq, eq_comm]
      have hc₁ : Copied transform mark { s with target, dirty := s.dirty.erase key } := by
        intro k
        rcases eq_or_ne k key with rfl | hne
        · exact ⟨fun _ _ => hmatch, fun hlt => absurd (hkeys k mem_cons_self) hlt.not_ge⟩
        obtain ⟨hbelow, habove⟩ := hc k
        rw [Matches, ← hother k hne] at hbelow
        rw [← hother k hne] at habove
        exact ⟨fun hle hk => hbelow hle fun hd => hk ((hmem k).2 ⟨hne, hd⟩),
          fun hlt => ⟨fun hk => (habove hlt).1 ((hmem k).1 hk).2, (habove hlt).2⟩⟩
      obtain ⟨hc₂, ⟨target', dirty', heq⟩, hd⟩ :=
        ih h hc₁ fun k hk => hkeys k (mem_cons_of_mem _ hk)
      refine ⟨hc₂, ⟨target', dirty', heq⟩, fun k hk => ?_⟩
      obtain ⟨hk₁, hk₂⟩ := hd k hk
      obtain ⟨hne, hk₁⟩ := (hmem k).1 hk₁
      exact ⟨hk₁, fun hr => not_mem_cons_of_ne_of_not_mem hne (hk₂ hr)⟩
    · cases h
      exact ⟨hc, ⟨_, _, rfl⟩, fun k hk => ⟨hk, nofun⟩⟩

structure Page (source : Table Row) (mark : ℕ) (rows : List (ℕ+ × Row)) : Prop where
  sorted : rows.Pairwise fun a b => a.1 < b.1
  row : ∀ e ∈ rows, mark < (e.1 : ℕ) ∧ source[e.1]? = some e.2
  rest : ∀ (k : ℕ+) row, mark < (k : ℕ) → source[k]? = some row → (k, row) ∈ rows ∨
    ∀ e ∈ rows, e.1 < k

theorem page_readAfter {limit : ℕ} : Page source mark (readAfter source mark limit) := by
  have hmem : ∀ e, e ∈ source.toList.filter (fun e => mark < (e.1 : ℕ)) ↔
      mark < (e.1 : ℕ) ∧ source[e.1]? = some e.2 := by
    intro e
    rw [mem_filter, ← mem_toList_iff_getElem?_eq_some, decide_eq_true_eq, and_comm]
  have hsorted := (ExtTreeMap.ordered_keys_toList (t := source)).filter fun e => mark < (e.1 : ℕ)
  refine ⟨(hsorted.imp compare_lt_iff_lt.1).sublist (take_sublist _ _),
    fun e he => (hmem e).1 (mem_of_mem_take he), fun k row hlt hrow => ?_⟩
  have hin := (hmem (k, row)).2 ⟨hlt, hrow⟩
  rw [← take_append_drop limit (source.toList.filter _)] at hin hsorted
  rcases mem_append.1 hin with hin | hin
  · exact .inl hin
  · exact .inr fun e he => compare_lt_iff_lt.1 ((pairwise_append.1 hsorted).2.2 e he _ hin)

/-- By induction on the rows: each moves the mark to its key, and none is between. -/
theorem copyRows_ok {rows : List (ℕ+ × Row)} {b : Budget} {r : ℕ × Db Row Out}
    (h : copyRows transform rows b mark s = .ok r) (hc : Copied transform mark s)
    (hrows : Page s.source mark rows) :
    Copied transform r.1 r.2 ∧ ∃ target, r.2 = { s with target } := by
  induction rows generalizing b mark s with
  | nil =>
    cases h
    exact ⟨hc, _, rfl⟩
  | cons e rows ih =>
    obtain ⟨key, row⟩ := e
    obtain ⟨hfirst, hsorted⟩ := pairwise_cons.1 hrows.sorted
    obtain ⟨hlt, hrow⟩ := hrows.row (key, row) mem_cons_self
    rw [copyRows] at h
    split at h
    · rw [← show s.source[key]? = some row from hrow] at h
      obtain ⟨s₁, hs₁, h⟩ := bind_eq_ok.1 h
      obtain ⟨hmatch, target, rfl, hother⟩ := copy_ok hs₁
      have hc₁ : Copied transform key { s with target } := by
        intro k
        rcases lt_trichotomy k key with hk | rfl | hk
        · refine ⟨fun _ hd => ?_, fun hgt => absurd hgt hk.not_gt⟩
          show _ = (target[k]?).map _
          rw [hother k hk.ne]
          rcases le_or_gt (k : ℕ) mark with hle | hgt
          · exact (hc k).1 hle hd
          -- no row is between the mark and the first row above it
          rw [((hc k).2 hgt).2, map_none, map_eq_none_iff, eq_none_iff_forall_ne_some]
          intro r hr
          rcases hrows.rest k r hgt hr with hin | hall
          · rcases mem_cons.1 hin with heq | hin
            · cases heq
              exact lt_irrefl _ hk
            · exact lt_asymm hk (hfirst _ hin)
          · exact lt_asymm hk (hall _ mem_cons_self)
        · exact ⟨fun _ _ => hmatch, fun hgt => absurd hgt (lt_irrefl _)⟩
        · refine ⟨fun hle => absurd hk hle.not_gt, fun _ => ?_⟩
          rw [hother k hk.ne']
          exact (hc k).2 (hlt.trans hk)
      have hpage : Page s.source key rows := by
        refine ⟨hsorted, fun e he => ⟨hfirst e he, (hrows.row e (mem_cons_of_mem _ he)).2⟩,
          fun k r hk hr => ?_⟩
        rcases hrows.rest k r (hlt.trans hk) hr with hin | hall
        · exact .inl ((mem_cons.1 hin).resolve_left fun heq => by cases heq; exact lt_irrefl _ hk)
        · exact .inr fun e he => hall e (mem_cons_of_mem _ he)
      obtain ⟨hc₂, target', heq⟩ := ih h hc₁ hpage
      exact ⟨hc₂, target', heq⟩
    · cases h
      exact ⟨hc, _, rfl⟩

/-- A batch keeps the invariant, and completes with the image of every row. -/
theorem step_ok {clock : ℕ → ℕ} {o : Step} (h : Inv transform s)
    (hs : step transform clock s = .ok (o, s')) :
    Inv transform s' ∧
      (o = .complete → s'.source = s.source ∧ ∀ key, Matches transform s' key) := by
  simp only [step, bind_eq_ok, context_eq_ok, pure_eq_ok, Prod.mk.injEq] at hs
  obtain ⟨⟨stopped, b, s₁⟩, hr, p, hp, ⟨mark, s₂⟩, hrows, rfl, rfl⟩ := hs
  set dirty := s.dirty.toList.take batchMaxRows with hdirty
  have hmem : ∀ key ∈ dirty, key ∈ s.dirty :=
    fun key hkey => ExtTreeSet.mem_toList.1 (mem_of_mem_take hkey)
  obtain ⟨hc₁, ⟨target, dirty', rfl⟩, hleft⟩ := recopy_ok hr h.copied fun key hkey =>
    not_lt.1 fun hlt => ((h.copied key).2 hlt).1 (hmem key hkey)
  have hmark : s.mark = p.cursor := by rw [Db.mark, show s.progress = some p from hp]; rfl
  rw [hmark] at hc₁
  generalize hl : (dirty.length == batchMaxRows || stopped) = left at hrows ⊢
  generalize hrow : (if left = true then [] else readAfter s.source p.cursor batchMaxRows) =
    rows at hrows ⊢
  have hpage : Page s.source p.cursor rows := by
    rw [← hrow]
    split
    · exact ⟨.nil, by simp, by simp⟩
    · exact page_readAfter
  obtain ⟨hc₂, target', rfl⟩ := copyRows_ok hrows hc₁ hpage
  have hdone : (!left && rows.isEmpty) = true → ∀ key, key ∉ dirty' ∧
      (s.source[key]?).map transform = (target'[key]?).map .ok := by
    intro hd key
    simp only [Bool.and_eq_true, Bool.not_eq_true', List.isEmpty_iff] at hd
    obtain ⟨rfl, rfl⟩ := hd
    simp only [Bool.or_eq_false_iff, beq_eq_false_iff_ne] at hl
    have hall : s.dirty.toList = dirty := by
      refine (take_of_length_le ?_).symm
      rw [hdirty, length_take] at hl
      omega
    have hclean : key ∉ dirty' := fun hkey =>
      (hleft key hkey).2 hl.2 (hall ▸ ExtTreeSet.mem_toList.2 (hleft key hkey).1)
    cases hrows
    refine ⟨hclean, ?_⟩
    rcases le_or_gt (key : ℕ) p.cursor with hle | hlt
    · exact (hc₂ key).1 hle hclean
    · rw [show target[key]? = none from ((hc₂ key).2 hlt).2, map_none, map_eq_none_iff]
      have hnil := (take_eq_nil_iff.1 hrow).resolve_left (by decide)
      refine eq_none_iff_forall_ne_some.2 fun row hsome => ?_
      exact filter_eq_nil_iff.1 hnil (key, row) (mem_toList_iff_getElem?_eq_some.2 hsome)
        (by simpa using hlt)
  -- a completed migration finds nothing to do
  have hagain : s.finished = true → (!left && rows.isEmpty) = true := by
    intro hf
    have hnil : dirty = [] := eq_nil_iff_forall_not_mem.2 fun key hkey =>
      (h.done hf key).1 (hmem key hkey)
    rw [hnil] at hr hl
    obtain rfl : false = stopped := congrArg Prod.fst (Except.ok.inj hr)
    subst hl
    cases rows with
    | nil => rfl
    | cons e rows =>
      obtain ⟨hlt, hsome⟩ := hpage.row e mem_cons_self
      have hmatch := (h.done hf e.1).2
      rw [Matches, hsome, ((h.copied e.1).2 (hmark ▸ hlt)).2] at hmatch
      cases hmatch
  refine ⟨⟨hc₂, fun _ hd => ?_, hdone⟩, fun ho => ⟨rfl, fun key => (hdone ?_ key).2⟩⟩
  · have hd' : (!left && rows.isEmpty) = false := hd
    rw [hd'] at hagain ⊢
    rw [Bool.not_false, Bool.and_true]
    exact h.live (by rw [show s.progress = some p from hp]; rfl)
      (Bool.eq_false_iff.2 fun hf => by cases hagain hf)
  · split at ho
    · assumption
    · cases ho

theorem Inv.begin (h : Inv transform s) : Inv transform s.begin := by
  refine ⟨h.copied, fun _ hf => ?_, h.done⟩
  rw [show s.begin.triggers = (s.triggers || !s.finished) from rfl, show s.finished = false from hf]
  exact Bool.or_true _

theorem Inv.failed {message : String} (h : Inv transform s) : Inv transform (s.failed message) := by
  obtain ⟨source, target, progress, dirty, triggers⟩ := s
  cases progress with
  | none => exact h
  | some p => exact { __ := h }

/-- Every transaction keeps the invariant, unless it writes a row after the end. -/
theorem Inv.apply {e : Event Row} (h : Inv transform s)
    (hw : ∀ w, e = .write w → s.finished = false) :
    Inv transform (s.apply transform e) := by
  cases e with
  | begin => exact h.begin
  | step clock =>
    rw [Db.apply]
    split
    · next hs => exact (step_ok h hs).1
    · exact h.failed
  | fail message =>
    cases message with
    | none => exact h
    | some message => exact h.failed
  | write w => exact h.write (hw w rfl)

/-- When no row is written once the migration is complete, every transaction leaves the rows up to
the mark copied, and a batch that completes leaves the image of all rows. -/
theorem complete_exact {es : List (Event Row)}
    (h : Along (Db.apply transform) (fun s e => ∀ w, e = .write w → s.finished = false)
      { source } es) :
    Copied transform (es.foldl (Db.apply transform) { source }).mark
      (es.foldl (Db.apply transform) { source }) ∧
      ∀ clock s', step transform clock (es.foldl (Db.apply transform) { source }) =
        .ok (.complete, s') →
        s'.source = (es.foldl (Db.apply transform) { source }).source ∧
          ∀ key, Matches transform s' key := by
  have hI : Inv transform (es.foldl (Db.apply transform) { source }) := by
    refine h.invariant ⟨fun key => ⟨fun hle => ?_, fun _ => ?_⟩, nofun, nofun⟩ fun s e => Inv.apply
    · exact absurd hle key.pos.not_ge
    · exact ⟨ExtTreeSet.not_mem_empty, getElem?_empty⟩
  exact ⟨hI.copied, fun clock s' hs => (step_ok hI hs).2 rfl⟩

/-- Two rows are copied, then the key of one is changed and the other one is deleted, and a batch
fails. -/
def moved : List (Event ℕ) :=
  [.begin, .write (.insert 2 7), .write (.insert 3 9), .step fun _ => 0, .write (.update 2 1 5),
    .write (.delete 3), .fail (some "disk")]

/-- The next batch completes with the image of the row that is left. -/
theorem complete_exact_update :
    Along (Db.apply .ok) (fun s e => ∀ w, e = .write w → s.finished = false) { source := ∅ } moved ∧
      ∃ s', step .ok (fun _ => 0) (moved.foldl (Db.apply .ok) { source := ∅ }) =
        .ok (.complete, s') ∧
        s'.target.toList = [(1, 5)] ∧ ∀ key, Matches .ok s' key := by
  have h : Along (Db.apply .ok) (fun s e => ∀ w, e = .write w → s.finished = false)
      { source := ∅ } moved := by
    refine ⟨nofun, fun w _ => ?_, fun w _ => ?_, nofun, fun w _ => ?_, fun w _ => ?_, nofun,
      trivial⟩ <;>
      decide +kernel
  have hstep : (step .ok (fun _ => 0) (moved.foldl (Db.apply .ok) { source := ∅ })).map
      (fun r => (r.1, r.2.target.toList)) = .ok (.complete, [(1, 5)]) := by decide +kernel
  cases hs : step .ok (fun _ => 0) (moved.foldl (Db.apply .ok) { source := ∅ }) with
  | error e =>
    rw [hs] at hstep
    cases hstep
  | ok r =>
    obtain ⟨done, s'⟩ := r
    rw [hs] at hstep
    obtain ⟨rfl, htarget⟩ := Prod.mk.inj (Except.ok.inj hstep)
    exact ⟨h, s', rfl, htarget, ((complete_exact h).2 _ s' hs).2⟩

/-- A row written after the migration completed: the batch of the next start completes with the old
image. -/
theorem complete_stale :
    (step .ok (fun _ => 0) ([.begin, .write (.insert 1 (7 : ℕ)), .step fun _ => 0, .step fun _ => 0,
        .write (.update 1 1 5), .begin].foldl (Db.apply .ok) { source := ∅ })).map
      (fun r => (r.1, r.2.source[(1 : ℕ+)]?, r.2.target[(1 : ℕ+)]?)) =
          .ok (.complete, some 5, some 7) := by
  decide +kernel

end Layr.OnlineMigration
