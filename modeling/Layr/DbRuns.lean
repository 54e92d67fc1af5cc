import Layr.Lib.Replay
import Layr.StoreImport
import Layr.ValidRecord

/-!
# Whole runs of the database

Records arrive one after the other and are stored with what is derived from them (`arrive`). A run
succeeds exactly when each record is accepted by the tables before it (`AcceptsAll`), and then
leaves the tables that the effects of the records leave (`tables`). The tables in which the largest
order key counts are the same for all orders of the records, since the keys of valid records are
different (`ord_inj`).
-/

namespace Layr

open List
open Register (Stamped write writeOpt put putAll)

/-! ## Order keys -/

theorem isLowerHexDigit_colon : isLowerHexDigit ':' = false := by decide

theorem colon_notMem_of_isUuid {s : String} (h : isUuid s = true) : ':' ∉ s.toList := by
  intro hmem
  simp only [isUuid, Bool.and_eq_true, all_eq_true] at h
  obtain ⟨i, hi, hc⟩ := getElem_of_mem hmem
  have hall := h.2 (':', i) (by
    rw [mk_mem_zipIdx_iff_getElem?, getElem?_eq_getElem hi, hc])
  split at hall
  · simp at hall
  · rw [isLowerHexDigit_colon] at hall
    cases hall

theorem colon_notMem_padded (w n : Nat) : ':' ∉ (padded w n).toList := by
  intro hmem
  have hdigit := isDigit_of_mem_padded hmem
  revert hdigit
  decide

theorem Record.toList_ord (r : Record) : r.ord.toList =
    (padded 16 (max r.time 0).toNat).toList ++ ':' ::
      (r.machine.toList ++ ':' :: (padded 12 r.seq).toList) := by
  simp [Record.ord]

/-- The order key determines the place of a record. -/
theorem ord_inj {a b : Record} (ha : isUuid a.machine = true) (hb : isUuid b.machine = true)
    (h : a.ord = b.ord) : a.machine = b.machine ∧ a.seq = b.seq := by
  have hlist := congrArg String.toList h
  rw [Record.toList_ord, Record.toList_ord] at hlist
  obtain ⟨-, hrest⟩ :=
    append_cons_inj (colon_notMem_padded _ _) (colon_notMem_padded _ _) hlist
  obtain ⟨hmachine, hseq⟩ :=
    append_cons_inj (colon_notMem_of_isUuid ha) (colon_notMem_of_isUuid hb) hrest
  exact ⟨String.toList_inj.1 hmachine, padded_inj (String.toList_inj.1 hseq)⟩

/-! ## Records -/

/-- A set of valid records: no two have the same id or the same place. -/
structure ValidRows (c : Codec) (rows : List Row) : Prop where
  unique : rows.Pairwise fun a b => ¬ a.Clash b
  valid : ∀ row ∈ rows, validate c row.record = .ok ()

/-- The records arrive so that those of one machine are in the order of their sequence numbers. -/
abbrev Arrives (rows o : List Row) : Prop :=
  Replay.Arrival (fun row : Row => row.record.machine) (fun row => row.record.seq) rows o

namespace ValidRows

variable {c : Codec} {rows : List Row}

section

variable (h : ValidRows c rows)
include h

theorem record {row : Row} (hrow : row ∈ rows) : ValidRecord c row.record :=
  validRecord_of_validate (h.valid row hrow)

theorem perm {o : List Row} (hp : o.Perm rows) : ValidRows c o where
  unique := h.unique.perm hp.symm fun hab hba => hab hba.symm
  valid row hrow := h.valid row (hp.mem_iff.1 hrow)

theorem eq_of_clash {a b : Row} (ha : a ∈ rows) (hb : b ∈ rows)
    (hab : a.Clash b) : a = b := Row.eq_of_clash h.unique ha hb hab

theorem eq_of_ord {a b : Row} (ha : a ∈ rows) (hb : b ∈ rows)
    (hord : a.record.ord = b.record.ord) : a = b :=
  h.eq_of_clash ha hb (.inr (ord_inj (h.record ha).machine (h.record hb).machine hord))

theorem eq_of_id {a b : Row} (ha : a ∈ rows) (hb : b ∈ rows)
    (hid : a.record.id = b.record.id) : a = b := h.eq_of_clash ha hb (.inl hid)

end

theorem id_ne {last : Row} (h : ValidRows c (rows ++ [last])) :
    ∀ row ∈ rows, row.record.id ≠ last.record.id := fun row hrow hid =>
  (pairwise_append.1 h.unique).2.2 row hrow last (mem_singleton_self _) (.inl hid)

theorem init {last : Row} (h : ValidRows c (rows ++ [last])) : ValidRows c rows where
  unique := (pairwise_append.1 h.unique).1
  valid row hrow := h.valid row (by simp [hrow])

theorem last {last : Row} (h : ValidRows c (rows ++ [last])) : ValidRecord c last.record :=
  h.record (by simp)

end ValidRows

/-! ## The order of a rebuild -/

namespace Db

def applyKey (row : Row) : Int ×ₗ String ×ₗ Nat :=
  toLex (row.record.time, toLex (row.record.machine, row.record.seq))

theorem applyLe_iff {a b : Row} : applyLe a b = true ↔ applyKey a ≤ applyKey b := by
  simp only [applyLe, applyKey, Prod.Lex.toLex_le_toLex, Bool.or_eq_true, Bool.and_eq_true,
    decide_eq_true_eq, beq_iff_eq]

instance : Std.Total fun a b : Row => applyLe a b = true :=
  ⟨fun a b => by simpa only [applyLe_iff] using le_total (applyKey a) (applyKey b)⟩

instance : IsTrans Row fun a b => applyLe a b = true :=
  ⟨fun a b d => by simpa only [applyLe_iff] using le_trans⟩

theorem allLines_perm (db : Db) : db.allLines.Perm db.records := perm_insertionSort _ _

theorem allLines_pairwise (db : Db) : db.allLines.Pairwise fun a b => applyKey a ≤ applyKey b :=
  (pairwise_insertionSort _ _).imp applyLe_iff.1

end Db

def ClocksRun (rows : List Row) : Prop :=
  ∀ a ∈ rows, ∀ b ∈ rows, a.record.machine = b.record.machine → a.record.seq < b.record.seq →
    a.record.time ≤ b.record.time

variable {db : Db} {rows : List Row}

/-- While times do not go back, a rebuild takes the records in an order in which they could have
arrived. -/
theorem allLines_arrives {c : Codec} (hv : ValidRows c rows)
    (hclocks : ClocksRun rows) (hperm : db.records.Perm rows) : Arrives rows db.allLines := by
  have hall := db.allLines_perm.trans hperm
  refine ⟨hall, ?_⟩
  have hpair := db.allLines_pairwise.and (hv.perm hall).unique
  refine hpair.imp_of_mem fun {a b} ha hb hab hm => ?_
  by_contra hnot
  have hne : a.record.seq ≠ b.record.seq := fun heq => hab.2 (.inr ⟨hm, heq⟩)
  have hlt : b.record.seq < a.record.seq := by omega
  have htime := hclocks b (hall.mem_iff.1 hb) a (hall.mem_iff.1 ha) hm.symm hlt
  have hle := hab.1
  simp only [Db.applyKey, Prod.Lex.toLex_le_toLex] at hle
  rcases hle with h | ⟨-, h | ⟨-, h⟩⟩
  · omega
  · exact absurd h (hm ▸ lt_irrefl _)
  · omega

/-! ## Runs -/

section

variable {c : Codec} {here : String}

/-- Store the records one after the other, from an empty database. -/
def arrive (c : Codec) (here : String) (rows : List Row) : Except String Db :=
  match storeRows c here rows {} with
  | (.ok _, db) => .ok db
  | (.error e, _) => .error e

namespace Db

/-- The tables that records leave which are accepted in this order. -/
def tables (c : Codec) (here : String) (rows : List Row) : Db :=
  rows.foldl (fun db row => effect c here db row.record) {}

theorem tables_append_singleton (rows : List Row) (row : Row) :
    tables c here (rows ++ [row]) = effect c here (tables c here rows) row.record := by
  simp [tables]

/-- Each record is accepted after those before it. -/
def AcceptsAll (c : Codec) (here : String) (rows : List Row) : Prop :=
  ∀ l₁ row l₂, rows = l₁ ++ row :: l₂ → Accepts (tables c here l₁).states row.record

theorem foldl_effect_records (rows : List Row) (db : Db) (rs : List Row) :
    rows.foldl (fun db row => effect c here db row.record) { db with records := rs } =
      { rows.foldl (fun db row => effect c here db row.record) db with records := rs } := by
  induction rows generalizing db with
  | nil => rfl
  | cons row rows ih => exact ih (effect c here db row.record)

theorem foldl_effect_append (rows : List Row) (db : Db) :
    rows.foldl (fun db row => effect c here { db with records := db.records ++ [row] } row.record)
      db =
      { rows.foldl (fun db row => effect c here db row.record) db with
        records := db.records ++ rows } := by
  induction rows generalizing db with
  | nil => simp
  | cons row rows ih =>
    rw [foldl_cons, ih, foldl_cons]
    have hrec := @foldl_effect_records c here rows (effect c here db row.record)
      (db.records ++ [row])
    have heff : effect c here { db with records := db.records ++ [row] } row.record =
        { effect c here db row.record with records := db.records ++ [row] } := rfl
    rw [heff, hrec]
    simp

end Db

/-- Records that clash with none are all stored, each with what is derived from it. -/
theorem storeRows_eq_ok {db' : Db} (hold : ∀ s ∈ rows, ∀ o ∈ db.records, ¬ o.Clash s)
    (hrows : rows.Pairwise fun a b => ¬ a.Clash b) : storeRows c here rows db = (.ok (), db') ↔
      rows.foldlM
        (fun db row => Db.derive c here { db with records := db.records ++ [row] } row.record)
        db = .ok db' := by
  induction rows generalizing db with
  | nil =>
    rw [storeRows, foldlM_nil, pure_eq_ok, Prod.mk.injEq]
    exact ⟨fun h => h.2, fun h => ⟨rfl, h⟩⟩
  | cons s rows ih =>
    rw [pairwise_cons] at hrows
    have hnew : ¬ ∃ o ∈ db.records, o.Clash s := by
      rintro ⟨o, ho, hclash⟩
      exact hold s mem_cons_self o ho hclash
    rw [storeRows, insertRecord_eq, if_neg hnew, foldlM_cons, bind_eq_ok]
    simp only [if_true]
    cases hd : Db.derive c here { db with records := db.records ++ [s] } s.record with
    | error e => simp
    | ok d =>
      simp only [Except.ok.injEq, exists_eq_left']
      obtain ⟨-, rfl⟩ := Db.derive_eq_ok.1 hd
      refine ih (fun t ht o ho => ?_) hrows.2
      rcases mem_append.1 ho with ho | ho
      · exact hold t (mem_cons_of_mem _ ht) o ho
      · rw [mem_singleton.1 ho]
        exact hrows.1 t ht

/-- A run succeeds exactly when each record is accepted, and then leaves what is derived. -/
theorem arrive_eq_ok {o : List Row} (ho : o.Pairwise fun a b => ¬ a.Clash b) :
    arrive c here o = .ok db ↔
      Db.AcceptsAll c here o ∧ db = { Db.tables c here o with records := o } := by
  have hstore : arrive c here o = .ok db ↔ storeRows c here o {} = (.ok (), db) := by
    unfold arrive
    rcases storeRows c here o {} with ⟨_ | _, d⟩ <;> simp
  rw [hstore, storeRows_eq_ok (fun _ _ _ h => absurd h not_mem_nil) ho,
    foldlM_eq_ok_iff fun _ _ _ => Db.derive_eq_ok, Db.foldl_effect_append]
  refine and_congr (forall_congr' fun l₁ => forall_congr' fun row => forall_congr' fun l₂ =>
    imp_congr_right fun _ => ?_) (by simp [Db.tables])
  rw [Db.foldl_effect_append]
  rfl

/-- The index is rebuilt exactly when each record is accepted in the order of the rebuild. -/
theorem rebuildIndex_eq_ok {db' : Db} : rebuildIndex c here db = .ok db' ↔
    Db.AcceptsAll c here db.allLines ∧
      db' = { Db.tables c here db.allLines with records := db.records } := by
  unfold rebuildIndex
  rw [foldlM_eq_ok_iff fun _ _ _ => Db.derive_eq_ok]
  refine and_congr (forall_congr' fun l₁ => forall_congr' fun row => forall_congr' fun l₂ =>
    imp_congr_right fun _ => ?_) ?_
  · rw [Db.foldl_effect_records l₁ {} db.records]
    rfl
  · rw [Db.foldl_effect_records _ {} db.records]
    rfl

/-! ## The tables in which the largest key counts -/

/-- What a reader sees of a tag: nothing when it is deleted. -/
def TagRow.view (t : TagRow) : Option (Option String × Option String) :=
  if t.deleted then none else some (t.state, t.message)

namespace Db

/-- A part of the database that depends on nothing else is a fold of its own. -/
theorem tables_eq_foldl (c : Codec) (here : String) {σ : Type} (π : Db → σ) (f : σ → Record → σ)
    (h : ∀ db r, π (effect c here db r) = f (π db) r) (o : List Row) :
    π (tables c here o) = o.foldl (fun s row => f s row.record) (π {}) :=
  (foldl_hom π fun db row => (h db row.record).symm).symm

def tagWrite (name : String) (r : Record) : Option (Option (Option String × Option String)) :=
  if r.data.strAt "name" ≠ some name then none
  else if r.op = "tag" then some (some (r.data.strAt "state", r.data.strAt "message"))
  else if r.op = "tag.delete" then some none
  else none

theorem getElem?_tagStep (r : Record) (tags : BTreeMap (Stamped String TagRow)) (j : String) :
    (tagStep r tags)[j]?.map (Stamped.map TagRow.view) =
      writeOpt (tags[j]?.map (Stamped.map TagRow.view)) r.ord (tagWrite j r) := by
  have hdeleted : ∀ t : TagRow, TagRow.view { t with deleted := true } =
      TagRow.view ⟨none, none, true⟩ :=
    fun _ => rfl
  have hdelete : r.op = "tag.delete" → r.op ≠ "tag" := fun h => by simp [h]
  unfold tagStep tagWrite
  cases r.data.strAt "name" with
  | none => rfl
  | some name =>
    by_cases hj : name = j
    · subst hj
      by_cases htag : r.op = "tag"
      · simp only [htag, if_true, ne_eq, not_true_eq_false, if_false, put]
        rw [Register.getElem?_upsert TagRow.view fun _ => rfl, if_pos rfl]
        rfl
      by_cases hdel : r.op = "tag.delete"
      · simp only [if_neg (hdelete hdel), if_pos hdel, ne_eq, not_true_eq_false, if_false]
        rw [Register.getElem?_upsert TagRow.view hdeleted, if_pos rfl]
        rfl
      · simp only [htag, hdel, ne_eq, not_true_eq_false, if_false]
        rfl
    · simp only [ne_eq, some.injEq, hj, not_false_eq_true, if_true]
      split
      · rw [put, Register.getElem?_upsert TagRow.view fun _ => rfl, if_neg hj]
        rfl
      · split
        · rw [Register.getElem?_upsert TagRow.view hdeleted, if_neg hj]
          rfl
        · rfl

theorem tables_tags (o : List Row) (j : String) :
    (tables c here o).tags[j]?.map (Stamped.map TagRow.view) =
      (o.filterMap fun row => (tagWrite j row.record).map fun v =>
        Stamped.mk row.record.ord v).foldl write none := by
  have hfold := tables_eq_foldl c here (fun db => db.tags[j]?.map (Stamped.map TagRow.view))
    (fun x r => writeOpt x r.ord (tagWrite j r)) (fun db r => getElem?_tagStep r db.tags j) o
  rw [hfold, Register.foldl_writeOpt, getElem?_empty, Option.map_none]

theorem tables_namelessTags (o : List Row) : (tables c here o).namelessTags =
    o.countP fun row => row.record.op = "tag" ∧ row.record.data.strAt "name" = none := by
  have hcount : ∀ (o : List Row) (n : Nat), o.foldl (fun n row =>
      if row.record.op = "tag" ∧ row.record.data.strAt "name" = none then n + 1 else n) n =
      n + o.countP fun row => row.record.op = "tag" ∧ row.record.data.strAt "name" = none := by
    intro o
    induction o with
    | nil => intro n; rfl
    | cons row o ih =>
      intro n
      rw [foldl_cons, ih, countP_cons]
      simp only [decide_eq_true_eq]
      split <;> omega
  have hfold := tables_eq_foldl c here (fun db => db.namelessTags) (fun n r =>
    if r.op = "tag" ∧ r.data.strAt "name" = none then n + 1 else n) (fun _ _ => rfl) o
  rw [hfold, hcount]
  exact Nat.zero_add _

/-- The list of tags is read off what is seen of each tag. -/
theorem tagList_eq (db : Db) : db.tagList = (do
    ensure (db.namelessTags == 0) "a tag has no name"
    (db.tags.toList.filterMap fun e => e.2.val.view.map fun v => (e.1, v)).mapM fun e => do
      let state ← context e.2.1 "a tag has no state"
      return (e.1, state, e.2.2)) := by
  have hmap : ∀ l : List (String × Stamped String TagRow),
      ((l.filter (!·.2.val.deleted)).mapM fun e => do
        let state ← context e.2.val.state "a tag has no state"
        return (e.1, state, e.2.val.message) : Except String _) =
      (l.filterMap fun e => e.2.val.view.map fun v => (e.1, v)).mapM fun e => do
        let state ← context e.2.1 "a tag has no state"
        return (e.1, state, e.2.2) := by
    intro l
    induction l with
    | nil => rfl
    | cons e l ih =>
      cases hdel : e.2.val.deleted
      · simp only [filter_cons, filterMap_cons, TagRow.view, hdel, Bool.not_false, if_true,
          Bool.false_eq_true, if_false, Option.map_some, mapM_cons, ih]
      · simpa [filter_cons, filterMap_cons, TagRow.view, hdel] using ih
  unfold tagList
  simp only [hmap]

end Db

end

end Layr
