import Layr.DbSteps
import Layr.Lib.Tables
import Layr.Store

/-!
# What an import keeps

An import that fails changes nothing. One that succeeds never changes a stored record and takes
records only of machines that are reached by trust. Whether it stores the whole batch and keeps
every machine's chain is another question: the chains are checked by machine and sequence number,
but a record whose id is taken is silently left out when the batch is stored.
-/

namespace Layr

open List

section

variable {c : Codec}

/-! ## The table of records -/

def Row.SameId (a b : Row) : Prop := a.record.id = b.record.id

def Row.SamePlace (a b : Row) : Prop :=
  a.record.machine = b.record.machine ∧ a.record.seq = b.record.seq

def Row.Clash (a b : Row) : Prop := a.SameId b ∨ a.SamePlace b

instance (a b : Row) : Decidable (a.Clash b) :=
  inferInstanceAs (Decidable (a.record.id = b.record.id ∨
    (a.record.machine = b.record.machine ∧ a.record.seq = b.record.seq)))

variable {a b : Row}

theorem Row.Clash.symm (h : a.Clash b) : b.Clash a :=
  h.imp (fun h => Eq.symm h) fun h => ⟨h.1.symm, h.2.symm⟩

variable {rows : List Row}

/-- In a list without clashes, two records that clash are the same. -/
theorem Row.eq_of_clash (h : rows.Pairwise fun a b => ¬ a.Clash b)
    (ha : a ∈ rows) (hb : b ∈ rows) (hab : a.Clash b) : a = b := by
  have hsymm : Std.Symm fun a b : Row => ¬ a.Clash b := ⟨fun _ _ hab hba => hab hba.symm⟩
  by_contra hne
  exact h.forall ha hb hne hab

/-- What holds of every table of records: its keys are unique, the columns are those of the line,
and sequence numbers start at 1. -/
structure Stored (c : Codec) (db : Db) : Prop where
  unique : db.records.Pairwise fun a b => ¬ a.Clash b
  read : ∀ row ∈ db.records, c.body row.raw = some row.record
  positive : ∀ row ∈ db.records, 0 < row.record.seq

theorem Stored.empty : Stored c {} := ⟨.nil, fun _ h => (nomatch h), fun _ h => (nomatch h)⟩

variable {db : Db}

theorem Stored.eq_of_clash (hs : Stored c db) (ha : a ∈ db.records) (hb : b ∈ db.records)
    (h : a.Clash b) : a = b :=
  Row.eq_of_clash hs.unique ha hb h

theorem Stored.eq_of_samePlace (hs : Stored c db) (ha : a ∈ db.records)
    (hb : b ∈ db.records) (h : a.SamePlace b) : a = b := hs.eq_of_clash ha hb (.inr h)

theorem insertRecord_eq (db : Db) (row : Row) : db.insertRecord row = if ∃ o ∈ db.records,
    o.Clash row then (false, db)
    else (true, { db with records := db.records ++ [row] }) := by
  unfold Db.insertRecord
  have hiff : (db.records.any fun o => o.record.id == row.record.id ||
      (o.record.machine == row.record.machine && o.record.seq == row.record.seq)) = true ↔
      ∃ o ∈ db.records, o.Clash row := by
    simp [Row.Clash, Row.SameId, Row.SamePlace]
  by_cases h : ∃ o ∈ db.records, o.Clash row
  · rw [if_pos (hiff.2 h), if_pos h]
  · rw [if_neg (fun h' => h (hiff.1 h')), if_neg h]

/-! ## Storing rows -/

/-- The rows that are stored, when some are stored already: those that clash with none before. -/
def keep (old : List Row) : List Row → List Row
  | [] => []
  | s :: rows => if ∃ o ∈ old, o.Clash s then keep old rows else s :: keep (old ++ [s]) rows

theorem keep_sublist (old rows : List Row) : (keep old rows).Sublist rows := by
  induction rows generalizing old with
  | nil => exact .slnil
  | cons s rows ih =>
    rw [keep]
    split
    · exact (ih old).cons s
    · exact (ih _).cons_cons s

theorem keep_eq_self {old : List Row} (hold : ∀ s ∈ rows, ∀ o ∈ old, ¬ o.Clash s)
    (hrows : rows.Pairwise fun a b => ¬ a.Clash b) : keep old rows = rows := by
  induction rows generalizing old with
  | nil => rfl
  | cons s rows ih =>
    rw [pairwise_cons] at hrows
    rw [keep, if_neg (by simpa using hold s mem_cons_self)]
    refine congrArg _ (ih (fun t ht o ho => ?_) hrows.2)
    rcases mem_append.1 ho with ho | ho
    · exact hold t (mem_cons_of_mem _ ht) o ho
    · rw [mem_singleton.1 ho]
      exact hrows.1 t ht

theorem keep_unique {old : List Row} (hold : old.Pairwise fun a b => ¬ a.Clash b) :
    (old ++ keep old rows).Pairwise fun a b => ¬ a.Clash b := by
  induction rows generalizing old with
  | nil => simpa [keep] using hold
  | cons s rows ih =>
    rw [keep]
    split
    · exact ih hold
    next hs =>
    have hold' : (old ++ [s]).Pairwise fun a b => ¬ a.Clash b := by
      refine pairwise_append.2 ⟨hold, pairwise_singleton _ _, fun o ho t ht => ?_⟩
      rw [mem_singleton.1 ht]
      exact fun h => hs ⟨o, ho, h⟩
    simpa using ih hold'

theorem storeRows_records {here : String} {db' : Db}
    (h : storeRows c here rows db = (.ok (), db')) :
    db'.records = db.records ++ keep db.records rows := by
  induction rows generalizing db with
  | nil =>
    cases h
    simp [keep]
  | cons s rows ih =>
    rw [storeRows, insertRecord_eq] at h
    rw [keep]
    by_cases hs : ∃ o ∈ db.records, o.Clash s
    · simp only [if_pos hs, Bool.false_eq_true, if_false] at h
      rw [if_pos hs]
      exact ih h
    simp only [if_neg hs, if_true] at h
    rw [if_neg hs]
    split at h
    · next d hd =>
      obtain ⟨-, rfl⟩ := Db.derive_eq_ok.1 hd
      rw [ih h]
      simp [Db.effect]
    · cases h

/-! ## The chain of a machine -/

def Of (db : Db) (m : String) (row : Row) : Prop := row ∈ db.records ∧ row.record.machine = m

variable {m : String} {row : Row}

theorem le_lastSeq (h : Of db m row) : row.record.seq ≤ db.lastSeq m := by
  refine Tables.le_highest (mem_map.2 ⟨row, mem_filter.2 ⟨h.1, ?_⟩, rfl⟩)
  simpa using h.2

theorem exists_lastSeq (h : 0 < db.lastSeq m) :
    ∃ row, Of db m row ∧ row.record.seq = db.lastSeq m := by
  rcases Tables.highest_eq_zero_or_mem
    ((db.records.filter (·.record.machine == m)).map (·.record.seq)) with h0 | hin
  · exact absurd h0 (Nat.ne_of_gt h)
  · obtain ⟨row, hrow, hseq⟩ := mem_map.1 hin
    obtain ⟨hrow, hm⟩ := mem_filter.1 hrow
    exact ⟨row, ⟨hrow, by simpa using hm⟩, hseq⟩

theorem recordLine_eq_some (hs : Stored c db) {k : Nat} {line : String} :
    db.recordLine m k = some line ↔ ∃ row, Of db m row ∧ row.record.seq = k ∧ row.raw = line := by
  unfold Db.recordLine
  rw [map_eq_some_iff]
  constructor
  · rintro ⟨row, hrow, rfl⟩
    have hp := find?_some hrow
    simp only [Bool.and_eq_true, beq_iff_eq] at hp
    exact ⟨row, ⟨mem_of_find?_eq_some hrow, hp.1⟩, hp.2, rfl⟩
  · rintro ⟨row, ⟨hrow, rfl⟩, rfl, rfl⟩
    cases hfind : db.records.find? fun o =>
        o.record.machine == row.record.machine && o.record.seq == row.record.seq with
    | none => simpa using find?_eq_none.1 hfind row hrow
    | some o =>
      have hp := find?_some hfind
      simp only [Bool.and_eq_true, beq_iff_eq] at hp
      exact ⟨o, rfl, congrArg Row.raw (hs.eq_of_samePlace (mem_of_find?_eq_some hfind) hrow hp)⟩

/-- The chain of a machine is complete: from its key record on without a gap, all signed by the
key. -/
structure ChainOk (c : Codec) (db : Db) (m : String) (key : c.Key) : Prop where
  first : ∃ row, Of db m row ∧ row.record.seq = 1 ∧ row.record.op = "machine" ∧
    machineKey c row.record = .ok key
  signed : ∀ row, Of db m row → 0 < row.record.seq → c.verifies key row.raw = true
  gapless : ∀ row, Of db m row → ∀ k, 0 < k → k ≤ row.record.seq → ∃ o, Of db m o ∧ o.record.seq = k

/-- A strictly increasing list of positive numbers without a gap counts from one. -/
theorem eq_range' {l : List Nat} (hlt : l.Pairwise (· < ·)) (hpos : ∀ k ∈ l, 0 < k)
    (hgap : ∀ n ∈ l, ∀ k, 0 < k → k ≤ n → k ∈ l) : l = List.range' 1 l.length := by
  have hM : ∀ k, k ∈ l ↔ 0 < k ∧ k ≤ Tables.highest l := by
    refine fun k => ⟨fun h => ⟨hpos k h, Tables.le_highest h⟩, fun h => hgap _ ?_ k h.1 h.2⟩
    exact (Tables.highest_eq_zero_or_mem l).resolve_left (by omega)
  have hperm : l.Perm (List.range' 1 (Tables.highest l)) := by
    refine (perm_ext_iff_of_nodup (hlt.imp fun h => h.ne) nodup_range').2 fun k => ?_
    rw [hM, mem_range'_1]
    omega
  have hlen : l.length = Tables.highest l := by simpa using hperm.length_eq
  rw [hlen]
  refine hperm.eq_of_pairwise ?_ hlt (pairwise_lt_range' ..)
  intro a b _ _ hab hba
  omega

/-! ## What verifying finds -/

def chainRows (db : Db) (m : String) : List Row :=
  (db.records.filter fun o => o.record.machine == m && 0 < o.record.seq).insertionSort
    (·.record.seq ≤ ·.record.seq)

theorem mem_chainRows : row ∈ chainRows db m ↔ Of db m row ∧ 0 < row.record.seq := by
  simp [chainRows, Of, and_assoc]

theorem chainRows_pairwise (hs : Stored c db) (m : String) :
    ((chainRows db m).map (·.record.seq)).Pairwise (· < ·) := by
  have hne : (chainRows db m).Pairwise fun a b => a.record.seq ≠ b.record.seq := by
    have hperm := perm_insertionSort (fun a b : Row => a.record.seq ≤ b.record.seq)
      (db.records.filter fun o => o.record.machine == m && 0 < o.record.seq)
    refine (hperm.pairwise_iff fun h => h.symm).2 ?_
    refine List.Pairwise.imp_of_mem (fun ha hb hab hseq => hab (.inr ⟨?_, hseq⟩))
      (hs.unique.filter _)
    simp only [mem_filter, Bool.and_eq_true, beq_iff_eq] at ha hb
    exact ha.2.1.trans hb.2.1.symm
  have hle : (chainRows db m).Pairwise fun a b => a.record.seq ≤ b.record.seq :=
    pairwise_insertionSort (fun a b : Row => a.record.seq ≤ b.record.seq) _
  rw [pairwise_map]
  exact (hle.and hne).imp fun h => lt_of_le_of_ne h.1 h.2

variable {n : Nat} {key : c.Key}

theorem verifyFold_eq_ok {s : Nat} (hread : ∀ row ∈ rows, c.body row.raw = some row.record) :
    (rows.map (·.raw)).foldlM (fun seq l => do
        let r ← c.parse l (some key)
        ensure (r.seq == seq + 1) ("sequence gap at " ++ toString r.seq)
        return r.seq) s = Except.ok n ↔
      (∀ row ∈ rows, c.verifies key row.raw = true) ∧
        rows.map (·.record.seq) = List.range' (s + 1) rows.length ∧ n = s + rows.length := by
  induction rows generalizing s with
  | nil =>
    rw [map_nil, foldlM_nil, pure_eq_ok]
    simp only [not_mem_nil, false_implies, implies_true, map_nil, length_nil, range'_zero,
      Nat.add_zero, true_and]
    exact eq_comm
  | cons row rows ih =>
    rw [forall_mem_cons] at hread
    rw [map_cons, foldlM_cons, bind_eq_ok]
    simp only [bind_eq_ok, ensure_eq_ok, pure_eq_ok, Codec.parse_eq_ok, hread.1, some.injEq,
      Option.mem_def, forall_eq', beq_iff_eq, exists_const, map_cons,
      length_cons, range'_succ, List.cons.injEq, forall_mem_cons]
    constructor
    · rintro ⟨seq, ⟨r, ⟨rfl, hv⟩, hseq, rfl⟩, h⟩
      rw [ih hread.2, hseq] at h
      exact ⟨⟨hv, h.1⟩, ⟨hseq, h.2.1⟩, by omega⟩
    · rintro ⟨⟨hv, hall⟩, ⟨hseq, hrange⟩, hn⟩
      refine ⟨_, ⟨_, ⟨rfl, hv⟩, hseq, rfl⟩, ?_⟩
      rw [ih hread.2, hseq]
      exact ⟨hall, hrange, by omega⟩

/-- The lines of a machine verify exactly if its chain is complete. -/
theorem verifyChain_iff (hs : Stored c db) :
    (∃ n, verifyChain c (db.linesAfter m 0) = .ok n) ↔ ∃ key, ChainOk c db m key := by
  have hlines : db.linesAfter m 0 = (chainRows db m).map (·.raw) := rfl
  have hread : ∀ row ∈ chainRows db m, c.body row.raw = some row.record :=
    fun row h => hs.read row (mem_chainRows.1 h).1.1
  have hlt := chainRows_pairwise hs m
  rw [hlines]
  unfold verifyChain
  simp only [bind_eq_ok, context_eq_ok, ensure_eq_ok, exists_const, verifyFold_eq_ok hread]
  constructor
  · rintro ⟨n, l, hl, r, hr, hop, key, hkey, hsigned, hrange, -⟩
    have hseq : ∀ k, (∃ row ∈ chainRows db m, row.record.seq = k) ↔
        0 < k ∧ k ≤ (chainRows db m).length := by
      intro k
      rw [← mem_map, hrange, mem_range'_1]
      omega
    refine ⟨key, ?_, fun row hrow hpos => hsigned row (mem_chainRows.2 ⟨hrow, hpos⟩), ?_⟩
    · cases hrows : chainRows db m with
      | nil =>
        rw [hrows] at hl
        cases hl
      | cons first rest =>
        rw [hrows] at hl hrange hread
        cases hl
        obtain ⟨hbody, -⟩ := Codec.parse_eq_ok.1 hr
        rw [hread first mem_cons_self] at hbody
        cases hbody
        have h1 : first.record.seq = 1 := by
          have := congrArg List.head? hrange
          simpa [range'_succ] using this
        have hof : Of db m first := (mem_chainRows.1 (hrows ▸ mem_cons_self)).1
        exact ⟨first, hof, h1, by simpa using hop, hkey⟩
    · intro row hrow k hk hle
      have hpos : 0 < row.record.seq := by omega
      have hlen := ((hseq row.record.seq).1 ⟨row, mem_chainRows.2 ⟨hrow, hpos⟩, rfl⟩).2
      obtain ⟨o, ho, hok⟩ := (hseq k).2 ⟨hk, by omega⟩
      exact ⟨o, (mem_chainRows.1 ho).1, hok⟩
  · rintro ⟨key, ⟨first, hfirst, hseq, hop, hkey⟩, hsigned, hgap⟩
    have hrange := eq_range' hlt (fun k hk => by
        obtain ⟨row, hrow, rfl⟩ := mem_map.1 hk
        exact (mem_chainRows.1 hrow).2)
      (fun n hn k hk hle => by
        obtain ⟨row, hrow, rfl⟩ := mem_map.1 hn
        obtain ⟨o, ho, rfl⟩ := hgap row (mem_chainRows.1 hrow).1 k hk hle
        exact mem_map.2 ⟨o, mem_chainRows.2 ⟨ho, hk⟩, rfl⟩)
    rw [length_map] at hrange
    cases hrows : chainRows db m with
    | nil =>
      have := mem_chainRows.2 ⟨hfirst, by omega⟩
      rw [hrows] at this
      cases this
    | cons row rest =>
      have hrow : row ∈ chainRows db m := hrows ▸ mem_cons_self
      have h1 : row.record.seq = 1 := by
        rw [hrows] at hrange
        simpa [range'_succ] using congrArg List.head? hrange
      obtain rfl : row = first := hs.eq_of_samePlace (mem_chainRows.1 hrow).1.1 hfirst.1
        ⟨(mem_chainRows.1 hrow).1.2.trans hfirst.2.symm, h1.trans hseq.symm⟩
      refine ⟨_, row.raw, rfl, row.record, ?_, by simpa using hop, key, hkey, ?_, ?_, rfl⟩
      · exact Codec.parse_eq_ok.2 ⟨hs.read row hfirst.1, fun k hk => by cases hk⟩
      · intro o ho
        rw [← hrows] at ho
        exact hsigned o (mem_chainRows.1 ho).1 (mem_chainRows.1 ho).2
      · rw [← hrows]
        exact hrange

/-- All records verify exactly if the chain of every machine with records is complete. -/
theorem verifyRecords_iff (hs : Stored c db) : (∃ out, verifyRecords c db = .ok out) ↔
      ∀ m, (∃ row, Of db m row) → ∃ key, ChainOk c db m key := by
  have hmem : ∀ m, m ∈ db.recordMachines ↔ ∃ row, Of db m row := by
    intro m
    simp only [Db.recordMachines, mem_dedup, mem_insertionSort, mem_map]
    exact Iff.rfl
  simp only [← verifyChain_iff hs, ← hmem]
  rw [verifyRecords, exists_mapM_eq_ok]
  refine forall_congr' fun m => imp_congr_right fun _ => ?_
  simp only [bind_eq_ok, pure_eq_ok]
  constructor
  · rintro ⟨_, n, hn, -⟩
    exact ⟨n, hn⟩
  · rintro ⟨n, hn⟩
    exact ⟨_, n, hn, rfl⟩

/-! ## The chains of a batch -/

variable {fresh : List Row} {s : Row}

theorem takeRow_cases {last : Nat} {st : Nat × List Row}
    (h : takeRow c db m key (last, fresh) s = .ok st) :
    (db.recordLine m s.record.seq = some s.raw ∧ st = (last, fresh)) ∨
      (s.record.seq = last + 1 ∧ c.verifies key s.raw = true ∧ st = (last + 1, fresh ++ [s])) := by
  unfold takeRow at h
  simp only at h
  split at h
  · simp only [bind_eq_ok, ensure_eq_ok, beq_iff_eq, exists_const, pure_eq_ok] at h
    exact .inl ⟨h.1, h.2.symm⟩
  · simp only [bind_eq_ok, ensure_eq_ok, beq_iff_eq, pure_eq_ok, exists_const, Codec.parse_eq_ok,
      Option.mem_def, some.injEq, forall_eq'] at h
    obtain ⟨hseq, r, ⟨-, hv⟩, _, -, rfl⟩ := h
    exact .inr ⟨hseq, hv, by rw [hseq]⟩

/-- What is taken of one machine's records continues its chain; the rest is stored already. -/
theorem foldlM_takeRow {fresh fresh' : List Row}
    {last last' : Nat} (h : rows.foldlM (takeRow c db m key) (last, fresh) = .ok (last', fresh')) :
    ∃ new, fresh' = fresh ++ new ∧ (∀ s ∈ new, s ∈ rows) ∧
      new.map (·.record.seq) = List.range' (last + 1) new.length ∧
        (∀ s ∈ new, c.verifies key s.raw = true) ∧
      ∀ s ∈ rows, s ∈ new ∨ db.recordLine m s.record.seq = some s.raw := by
  induction rows generalizing last fresh with
  | nil =>
    cases h
    exact ⟨[], by simp, by simp, rfl, by simp, by simp⟩
  | cons s rows ih =>
    rw [foldlM_cons, bind_eq_ok] at h
    obtain ⟨st, hst, h⟩ := h
    rcases takeRow_cases hst with ⟨hstored, rfl⟩ | ⟨hseq, hv, rfl⟩
    · obtain ⟨new, hfresh, hsub, hrange, hsigned, hall⟩ := ih h
      refine ⟨new, hfresh, fun t ht => mem_cons_of_mem _ (hsub t ht), hrange, hsigned, ?_⟩
      exact forall_mem_cons.2 ⟨.inr hstored, hall⟩
    obtain ⟨new, hfresh, hsub, hrange, hsigned, hall⟩ := ih h
    refine ⟨s :: new, by simp [hfresh], ?_, ?_, forall_mem_cons.2 ⟨hv, hsigned⟩, ?_⟩
    · rintro t (_ | ⟨_, ht⟩)
      · exact mem_cons_self
      · exact mem_cons_of_mem _ (hsub t ht)
    · rw [map_cons, hrange, hseq, length_cons, range'_succ]
    · refine forall_mem_cons.2 ⟨.inl mem_cons_self, fun t ht => ?_⟩
      exact (hall t ht).imp_left (mem_cons_of_mem _)

structure MachineTaken (c : Codec) (site : Site c) (db : Db) (rows fresh : List Row) (m : String)
    (key : c.Key) : Prop where
  chainKey : chainKey c db m (rowsOf rows m) = .ok key
  own : m = site.machine → c.keyText key = c.keyText site.key
  seqs : (fresh.filter (·.record.machine == m)).map (·.record.seq) =
    List.range' (db.lastSeq m + 1) (fresh.filter (·.record.machine == m)).length
  signed : ∀ s ∈ fresh, s.record.machine = m → c.verifies key s.raw = true
  all : ∀ s ∈ rows, s.record.machine = m → s ∈ fresh ∨ db.recordLine m s.record.seq = some s.raw

/-- What a batch gives for the machines that were looked at. -/
structure Taken (c : Codec) (site : Site c) (db : Db) (rows : List Row) (ms : List String)
    (st : Intake) : Prop where
  fresh : ∀ s ∈ st.fresh, s ∈ rows ∧ s.record.machine ∈ ms
  keys : ∀ m, m ∈ st.keys ↔ m ∈ ms
  chain : ∀ m ∈ ms, ∃ key, st.keys[m]? = some (c.keyText key) ∧
    MachineTaken c site db rows st.fresh m key

theorem mem_rowsOf : s ∈ rowsOf rows m ↔ s ∈ rows ∧ s.record.machine = m := by
  simp [rowsOf]

theorem machine_mem_machinesOf (h : s ∈ rows) : s.record.machine ∈ machinesOf rows := by
  simp only [machinesOf, mem_dedup, mem_insertionSort]
  exact mem_map_of_mem h

variable {site : Site c}

/-- One more machine: its chain gives new records of its own only. -/
theorem takeChain_taken {ms : List String} {st st' : Intake} (ht : Taken c site db rows ms st)
    (hm : m ∉ ms) (h : takeChain c site db rows st m = .ok st') :
    Taken c site db rows (ms ++ [m]) st' := by
  unfold takeChain at h
  simp only [bind_eq_ok, ensure_eq_ok, exists_const, pure_eq_ok] at h
  obtain ⟨key, hkey, hown, ⟨last', fresh'⟩, hfold, rfl⟩ := h
  obtain ⟨new, rfl, hsub, hrange, hsigned, hall⟩ := foldlM_takeRow hfold
  have hnew : ∀ s ∈ new, s ∈ rows ∧ s.record.machine = m := fun s hs => mem_rowsOf.1 (hsub s hs)
  have hold : ∀ s ∈ st.fresh, s.record.machine ≠ m := by
    rintro s hs rfl
    exact hm (ht.fresh s hs).2
  refine ⟨?_, ?_, ?_⟩
  · intro s hs
    rcases mem_append.1 hs with hs | hs
    · exact ⟨(ht.fresh s hs).1, mem_append_left _ (ht.fresh s hs).2⟩
    · exact ⟨(hnew s hs).1, mem_append_right _ (mem_singleton.2 (hnew s hs).2)⟩
  · intro k
    rw [mem_insert, compare_eq_iff_eq, ht.keys, mem_append, mem_singleton, or_comm, eq_comm]
  · intro k hk
    rcases mem_append.1 hk with hk | hk
    · -- The records of an earlier machine are as before.
      have hkm : m ≠ k := by
        rintro rfl
        exact hm hk
      obtain ⟨key', hkeys, htaken⟩ := ht.chain k hk
      have hfilter : (st.fresh ++ new).filter (·.record.machine == k) =
          st.fresh.filter (·.record.machine == k) := by
        have hnil : new.filter (·.record.machine == k) = [] := by
          refine filter_eq_nil_iff.2 fun s hs => ?_
          simpa [(hnew s hs).2] using hkm
        rw [filter_append, hnil, append_nil]
      refine ⟨key', ?_, htaken.chainKey, htaken.own, ?_, ?_, ?_⟩
      · rw [Maps.getElem?_insert_ne hkm, hkeys]
      · rw [hfilter]
        exact htaken.seqs
      · intro s hs hsk
        rcases mem_append.1 hs with hs | hs
        · exact htaken.signed s hs hsk
        · exact absurd ((hnew s hs).2.symm.trans hsk) hkm
      · exact fun s hs hsk => (htaken.all s hs hsk).imp_left (mem_append_left _)
    · obtain rfl := mem_singleton.1 hk
      have hfilter : (st.fresh ++ new).filter (·.record.machine == k) = new := by
        rw [filter_append, filter_eq_nil_iff.2, nil_append, filter_eq_self.2]
        · intro s hs
          simpa using (hnew s hs).2
        · intro s hs
          simpa using hold s hs
      refine ⟨key, getElem?_insert_self, hkey, ?_, ?_, ?_, ?_⟩
      · rintro rfl
        simpa using hown
      · rw [hfilter]
        exact hrange
      · intro s hs hsk
        rcases mem_append.1 hs with hs | hs
        · exact absurd hsk (hold s hs)
        · exact hsigned s hs
      · exact fun s hs hsk => (hall s (mem_rowsOf.2 ⟨hs, hsk⟩)).imp_left (mem_append_right _)

theorem foldlM_takeChain {ms todo : List String}
    {st st' : Intake} (ht : Taken c site db rows ms st) (hnd : (ms ++ todo).Nodup)
    (h : todo.foldlM (takeChain c site db rows) st = .ok st') :
    Taken c site db rows (ms ++ todo) st' := by
  induction todo generalizing ms st with
  | nil =>
    cases h
    simpa using ht
  | cons m todo ih =>
    rw [foldlM_cons, bind_eq_ok] at h
    obtain ⟨t, hstep, h⟩ := h
    have hm : m ∉ ms := by
      intro hm
      exact (nodup_append.1 hnd).2.2 m hm m mem_cons_self rfl
    have hnd' : ((ms ++ [m]) ++ todo).Nodup := by simpa using hnd
    simpa using ih (takeChain_taken ht hm hstep) hnd' h

/-! ## A batch that passes its checks -/

variable {lines : List String}

/-- The records at different places of every machine are at different places. -/
theorem pairwise_not_samePlace
    (h : ∀ m, ((rows.filter (·.record.machine == m)).map (·.record.seq)).Nodup) :
    rows.Pairwise fun a b => ¬ a.SamePlace b :=
  (Maps.pairwise_of_key fun m => pairwise_map.1 (h m)).imp fun hne hplace => hne hplace.1 hplace.2

/-- What the checks of a batch give: the new records among its lines, where each continues its
machine's chain, and the keys of the machines. -/
structure Checked (c : Codec) (site : Site c) (db : Db) (lines : List String) (trust : Trust)
    (rows : List Row) (intake : Intake) : Prop where
  rowOf : ∀ l ∈ lines, ∃ row ∈ rows, row.raw = l
  read : ∀ row ∈ rows, row.raw ∈ lines ∧ c.body row.raw = some row.record
  taken : Taken c site db rows (machinesOf rows) intake
  trust : checkTrust c site db trust intake = .ok ()

theorem checkBatch_eq_ok {trust : Trust} (h : checkBatch c site db lines trust = .ok fresh) :
    ∃ rows intake, Checked c site db lines trust rows intake ∧ fresh.Perm intake.fresh := by
  unfold checkBatch at h
  simp only [bind_eq_ok, pure_eq_ok] at h
  obtain ⟨_, -, rows, hrows, _, -, intake, hfold, _, htrust, rfl⟩ := h
  have hstart : Taken c site db rows [] {} :=
    ⟨fun _ h => absurd h not_mem_nil, fun m => by simp, fun _ h => absurd h not_mem_nil⟩
  have htaken := foldlM_takeChain hstart (by simpa [machinesOf] using nodup_dedup _) hfold
  obtain ⟨rfl, hread⟩ := readRows_eq_ok hrows
  exact ⟨rows, intake, ⟨fun _ => mem_map.1, fun row h => ⟨mem_map_of_mem h, hread row h⟩,
    by simpa using htaken, htrust⟩, perm_insertionSort _ _⟩

section

variable {site : Site c} {db : Db} {lines : List String} {trust : Trust} {rows : List Row}
  {intake : Intake}

namespace Checked

section

variable (h : Checked c site db lines trust rows intake)
include h

theorem machine_mem (hs : s ∈ intake.fresh) : s.record.machine ∈ machinesOf rows :=
  (h.taken.fresh s hs).2

/-- The new records of a machine continue its chain. -/
theorem mem_seqs (hm : m ∈ machinesOf rows) : ∃ n, ∀ k, (∃ s ∈ intake.fresh, s.record.machine = m ∧
      s.record.seq = k) ↔ db.lastSeq m < k ∧ k ≤ db.lastSeq m + n := by
  obtain ⟨key, -, htaken⟩ := h.taken.chain m hm
  refine ⟨(intake.fresh.filter (·.record.machine == m)).length, fun k => ?_⟩
  have hmem : k ∈ (intake.fresh.filter (·.record.machine == m)).map (·.record.seq) ↔
      ∃ s ∈ intake.fresh, s.record.machine = m ∧ s.record.seq = k := by
    simp [and_assoc]
  rw [← hmem, htaken.seqs, mem_range'_1]
  omega

theorem lastSeq_lt (hs : s ∈ intake.fresh) : db.lastSeq s.record.machine < s.record.seq := by
  obtain ⟨n, hn⟩ := h.mem_seqs (h.machine_mem hs)
  exact ((hn _).1 ⟨s, hs, rfl, rfl⟩).1

/-- A new record is at a place where none is stored. -/
theorem not_samePlace {o : Row} (hs : s ∈ intake.fresh) (ho : o ∈ db.records) :
    ¬ o.SamePlace s := by
  rintro ⟨hm, hseq⟩
  have hlast := h.lastSeq_lt hs
  have hle : o.record.seq ≤ db.lastSeq s.record.machine := le_lastSeq ⟨ho, hm⟩
  omega

theorem pairwise : intake.fresh.Pairwise fun a b => ¬ a.SamePlace b := by
  refine pairwise_not_samePlace fun m => ?_
  by_cases hm : m ∈ machinesOf rows
  · obtain ⟨key, -, htaken⟩ := h.taken.chain m hm
    rw [htaken.seqs]
    exact nodup_range'
  have hnil : intake.fresh.filter (·.record.machine == m) = [] := by
    refine filter_eq_nil_iff.2 fun s hs hsm => hm ?_
    rw [← show s.record.machine = m by simpa using hsm]
    exact h.machine_mem hs
  rw [hnil]
  exact nodup_nil

/-- The new records are those of the lines that are not stored. -/
theorem mem_fresh_iff (hs : Stored c db) (hrow : s ∈ rows) : s ∈ intake.fresh ↔
    ∀ o ∈ db.records, o.raw ≠ s.raw := by
  constructor
  · intro hfresh o ho hraw
    have hbody := hs.read o ho
    rw [hraw, (h.read s hrow).2, some.injEq] at hbody
    exact h.not_samePlace hfresh ho ⟨by rw [hbody], by rw [hbody]⟩
  · intro hnew
    obtain ⟨key, -, htaken⟩ := h.taken.chain _ (machine_mem_machinesOf hrow)
    refine (htaken.all s hrow rfl).resolve_right fun hline => ?_
    obtain ⟨o, ho, -, hraw⟩ := (recordLine_eq_some hs).1 hline
    exact hnew o ho.1 hraw

end

end Checked

/-- The lines that are not stored yet have ids that no other line and no stored record has. -/
def NewIds (c : Codec) (db : Db) (lines : List String) : Prop :=
  ∀ l ∈ lines, (∀ o ∈ db.records, o.raw ≠ l) → ∀ r, c.body l = some r →
    (∀ o ∈ db.records, o.record.id ≠ r.id) ∧
      ∀ l' ∈ lines, l' ≠ l → ∀ r', c.body l' = some r' → r'.id ≠ r.id

theorem NewIds.not_clash (hn : NewIds c db lines) (hs : Stored c db)
    (h : Checked c site db lines trust rows intake) :
    (∀ s ∈ intake.fresh, ∀ o ∈ db.records, ¬ o.Clash s) ∧
    intake.fresh.Pairwise fun a b => ¬ a.Clash b := by
  have hids : ∀ s ∈ intake.fresh, (∀ o ∈ db.records, o.record.id ≠ s.record.id) ∧
      ∀ l' ∈ lines, l' ≠ s.raw → ∀ r', c.body l' = some r' → r'.id ≠ s.record.id := by
    intro s hfresh
    have hrow := (h.taken.fresh s hfresh).1
    exact hn s.raw (h.read s hrow).1 ((h.mem_fresh_iff hs hrow).1 hfresh) s.record (h.read s hrow).2
  constructor
  · rintro s hfresh o ho (hid | hplace)
    · exact (hids s hfresh).1 o ho hid
    · exact h.not_samePlace hfresh ho hplace
  · refine h.pairwise.imp_of_mem fun {a b} ha hb hab => ?_
    rintro (hid | hplace)
    · have ha' := h.read a (h.taken.fresh a ha).1
      have hb' := h.read b (h.taken.fresh b hb).1
      by_cases hraw : b.raw = a.raw
      · -- The same line is the same record, and so at the same place.
        have hrec := hb'.2
        rw [hraw, ha'.2, some.injEq] at hrec
        exact hab ⟨by rw [hrec], by rw [hrec]⟩
      · exact (hids a ha).2 b.raw hb'.1 hraw b.record hb'.2 hid.symm
    · exact hab hplace

/-! ## An import that succeeds -/

variable {db' : Db}

/-- What an import that succeeds has checked and stored. -/
theorem importLines_eq_ok (h : importLines c site lines trust db = (.ok n, db')) :
    ∃ rows intake fresh, Checked c site db lines trust rows intake ∧ fresh.Perm intake.fresh ∧
      db'.records = db.records ++ keep db.records fresh := by
  unfold importLines at h
  split at h
  · cases h
  next fresh hfresh =>
  obtain ⟨rows, intake, hchecked, hperm⟩ := checkBatch_eq_ok hfresh
  refine ⟨rows, intake, fresh, hchecked, hperm, ?_⟩
  unfold withTx at h
  cases hstore : storeRows c site.machine fresh db with
  | mk res d =>
    cases res with
    | error e => simp [hstore] at h
    | ok u =>
      simp only [hstore] at h
      cases h
      exact storeRows_records hstore

/-- An import that fails changes nothing. -/
theorem importLines_error {e : String} (h : importLines c site lines trust db = (.error e, db')) :
    db' = db := by
  unfold importLines at h
  split at h
  · cases h
    rfl
  next fresh _ =>
  unfold withTx at h
  cases hstore : storeRows c site.machine fresh db with
  | mk res d =>
    cases res with
    | error e => simp only [hstore] at h; cases h; rfl
    | ok u => simp [hstore] at h

section

variable (hs : Stored c db) (h : importLines c site lines trust db = (.ok n, db'))
include hs h

/-- Every import keeps the table of records in order. -/
theorem importLines_stored : Stored c db' := by
  obtain ⟨rows, intake, fresh, hchecked, hperm, hrecords⟩ := importLines_eq_ok h
  have hfresh : ∀ s ∈ keep db.records fresh, s ∈ intake.fresh := fun s hs =>
    hperm.subset ((keep_sublist _ _).subset hs)
  refine ⟨?_, ?_, ?_⟩
  · rw [hrecords]
    exact keep_unique hs.unique
  · rw [hrecords]
    intro row hrow
    rcases mem_append.1 hrow with hrow | hrow
    · exact hs.read row hrow
    · exact (hchecked.read row (hchecked.taken.fresh row (hfresh row hrow)).1).2
  · rw [hrecords]
    intro row hrow
    rcases mem_append.1 hrow with hrow | hrow
    · exact hs.positive row hrow
    · have := hchecked.lastSeq_lt (hfresh row hrow)
      omega

/-- A batch that is stored as a whole has new ids. -/
theorem newIds_of_complete (hall : ∀ l ∈ lines, ∃ row ∈ db'.records, row.raw = l) :
    NewIds c db lines := by
  have hs' := importLines_stored hs h
  obtain ⟨rows, intake, fresh, -, -, hrecords⟩ := importLines_eq_ok h
  intro l hl hnew r hr
  obtain ⟨row, hrow, rfl⟩ := hall l hl
  cases (hs'.read row hrow).symm.trans hr
  constructor
  · intro o ho hid
    have ho' : o ∈ db'.records := by
      rw [hrecords]
      exact mem_append_left _ ho
    exact hnew o ho (congrArg Row.raw (hs'.eq_of_clash ho' hrow (.inl hid)))
  · intro l' hl' hne r' hr' hid
    obtain ⟨row', hrow', rfl⟩ := hall l' hl'
    cases (hs'.read row' hrow').symm.trans hr'
    exact hne (congrArg Row.raw (hs'.eq_of_clash hrow' hrow (.inl hid)))

/-- With new ids the whole batch is stored. -/
theorem records_of_newIds (hn : NewIds c db lines) :
    ∃ rows intake fresh, Checked c site db lines trust rows intake ∧ fresh.Perm intake.fresh ∧
      db'.records = db.records ++ fresh := by
  obtain ⟨rows, intake, fresh, hchecked, hperm, hrecords⟩ := importLines_eq_ok h
  obtain ⟨hold, hpair⟩ := hn.not_clash hs hchecked
  refine ⟨rows, intake, fresh, hchecked, hperm, ?_⟩
  rw [hrecords, keep_eq_self (fun s hs' => hold s (hperm.subset hs'))]
  exact (hperm.pairwise_iff fun h h' => h h'.symm).2 hpair

end

/-! ## The chains after an import -/

/-- The key of a machine, from its first record: a stored one, or one of the batch when none is
stored. -/
def KeyOf (c : Codec) (db : Db) (lines : List String) (m : String) (key : c.Key) : Prop :=
  (∃ row, Of db m row ∧ row.record.seq = 1 ∧ machineKey c row.record = .ok key) ∨
    ((∀ row, ¬ Of db m row) ∧ ∃ l ∈ lines, ∃ r, c.body l = some r ∧ r.machine = m ∧
      r.op = "machine" ∧ r.seq = 1 ∧ machineKey c r = .ok key)

theorem keyOf_of_chainKey (hs : Stored c db) (h : Checked c site db lines trust rows intake)
    (hkey : chainKey c db m (rowsOf rows m) = .ok key) : KeyOf c db lines m key := by
  unfold chainKey at hkey
  split at hkey
  · simp only [bind_eq_ok, context_eq_ok, Codec.parse_eq_ok] at hkey
    obtain ⟨l, hl, r, ⟨hr, -⟩, hkey⟩ := hkey
    obtain ⟨row, hrow, hseq, rfl⟩ := (recordLine_eq_some hs).1 hl
    rw [hs.read row hrow.1, some.injEq] at hr
    exact .inl ⟨row, hrow, hseq, hr ▸ hkey⟩
  next hlast =>
  split at hkey
  · cases hkey
  next f rest hf =>
  simp only [bind_eq_ok, ensure_eq_ok, exists_const, Bool.and_eq_true, beq_iff_eq] at hkey
  obtain ⟨⟨hop, hseq⟩, hkey⟩ := hkey
  obtain ⟨hrow, hm⟩ := mem_rowsOf.1 (hf ▸ mem_cons_self : f ∈ rowsOf rows m)
  refine .inr ⟨fun row hrow => ?_, f.raw, (h.read f hrow).1, f.record, (h.read f hrow).2, hm, hop,
    hseq, hkey⟩
  have hpos := hs.positive row hrow.1
  have hle := le_lastSeq hrow
  omega

theorem Of.after (hperm : fresh.Perm intake.fresh) (hrecords : db'.records = db.records ++ fresh) :
    Of db' m row ↔ Of db m row ∨ (row ∈ intake.fresh ∧ row.record.machine = m) := by
  simp [Of, hrecords, hperm.mem_iff, or_and_right]

/-- The chain of a machine of the batch after the import, when it was complete before. -/
theorem chainOk_after (hs : Stored c db) (h : Checked c site db lines trust rows intake)
    (hof : ∀ row, Of db' m row ↔ Of db m row ∨ (row ∈ intake.fresh ∧ row.record.machine = m))
    (hm : m ∈ machinesOf rows) (htaken : MachineTaken c site db rows intake.fresh m key)
    (hbefore : (∃ row, Of db m row) → ∃ key, ChainOk c db m key) : ChainOk c db' m key := by
  obtain ⟨n, hseqs⟩ := h.mem_seqs hm
  -- What is stored of the machine is complete under this very key.
  have hold : ∀ row, Of db m row → ChainOk c db m key := by
    intro row hrow
    obtain ⟨key', hok⟩ := hbefore ⟨row, hrow⟩
    obtain ⟨first, hfirst, hseq, -, hkey'⟩ := hok.first
    rcases keyOf_of_chainKey hs h htaken.chainKey with ⟨o, ho, hoseq, hokey⟩ | ⟨hnone, -⟩
    · obtain rfl := hs.eq_of_samePlace ho.1 hfirst.1
        ⟨ho.2.trans hfirst.2.symm, hoseq.trans hseq.symm⟩
      rw [hokey] at hkey'
      cases hkey'
      exact hok
    · exact absurd hrow (hnone row)
  refine ⟨?_, ?_, ?_⟩
  · rcases keyOf_of_chainKey hs h
      htaken.chainKey with ⟨o, ho, -, -⟩ | ⟨hnone, l, hl, r, hr, hrm, hop, hseq, hkey⟩
    · obtain ⟨first, hfirst, hseq, hop, hkey⟩ := (hold o ho).first
      exact ⟨first, (hof first).2 (.inl hfirst), hseq, hop, hkey⟩
    · obtain ⟨row, hrow, rfl⟩ := h.rowOf l hl
      cases (h.read row hrow).2.symm.trans hr
      have hfresh : row ∈ intake.fresh := by
        refine (htaken.all row hrow hrm).resolve_right fun hline => ?_
        obtain ⟨o, ho, -⟩ := (recordLine_eq_some hs).1 hline
        exact hnone o ho
      exact ⟨row, (hof row).2 (.inr ⟨hfresh, hrm⟩), hseq, hop, hkey⟩
  · intro row hrow hpos
    rcases (hof row).1 hrow with hrow | ⟨hfresh, hrm⟩
    · exact (hold row hrow).signed row hrow hpos
    · exact htaken.signed row hfresh hrm
  · intro row hrow k hk hle
    by_cases hlast : k ≤ db.lastSeq m
    · obtain ⟨last, hrow', hseq⟩ := exists_lastSeq (Nat.lt_of_lt_of_le hk hlast)
      obtain ⟨o, ho, hok⟩ := (hold last hrow').gapless last hrow' k hk (by omega)
      exact ⟨o, (hof o).2 (.inl ho), hok⟩
    rcases (hof row).1 hrow with hrow | ⟨hfresh, hrm⟩
    · have := le_lastSeq hrow
      omega
    · have hrange := (hseqs row.record.seq).1 ⟨row, hfresh, hrm, rfl⟩
      obtain ⟨o, ho, hom, hok⟩ := (hseqs k).2 ⟨by omega, by omega⟩
      exact ⟨o, (hof o).2 (.inr ⟨ho, hom⟩), hok⟩

/-- An import of new ids leaves the chains complete exactly if they were complete before. -/
theorem verifyRecords_after (hs : Stored c db) (hn : NewIds c db lines)
    (h : importLines c site lines trust db = (.ok n, db')) :
    (∃ out, verifyRecords c db' = .ok out) ↔ ∃ out, verifyRecords c db = .ok out := by
  rw [verifyRecords_iff hs, verifyRecords_iff (importLines_stored hs h)]
  obtain ⟨rows, intake, fresh, hchecked, hperm, hrecords⟩ := records_of_newIds hs h hn
  have hof : ∀ m row, Of db' m row ↔ Of db m row ∨ (row ∈ intake.fresh ∧ row.record.machine = m) :=
    fun m row => Of.after hperm hrecords
  constructor
  · rintro hafter m ⟨row, hrow⟩
    obtain ⟨key, hok⟩ := hafter m ⟨row, (hof m row).2 (.inl hrow)⟩
    -- A new record is beyond the last stored one of its machine.
    have hback : ∀ o k, Of db' m o → o.record.seq = k → k ≤ db.lastSeq m → Of db m o := by
      rintro o k ho rfl hle
      rcases (hof m o).1 ho with ho | ⟨hfresh, hm⟩
      · exact ho
      · have := hchecked.lastSeq_lt hfresh
        rw [hm] at this
        omega
    have hlast := le_lastSeq hrow
    have hpos := hs.positive row hrow.1
    refine ⟨key, ?_, fun o ho => hok.signed o ((hof m o).2 (.inl ho)), ?_⟩
    · obtain ⟨first, hfirst, hseq, hop, hkey⟩ := hok.first
      exact ⟨first, hback first 1 hfirst hseq (by omega), hseq, hop, hkey⟩
    · intro o ho k hk hle
      obtain ⟨o', ho', hseq⟩ := hok.gapless o ((hof m o).2 (.inl ho)) k hk hle
      have := le_lastSeq ho
      exact ⟨o', hback o' k ho' hseq (by omega), hseq⟩
  · rintro hbefore m ⟨row, hrow⟩
    by_cases hm : m ∈ machinesOf rows
    · obtain ⟨key, -, htaken⟩ := hchecked.taken.chain m hm
      exact ⟨key, chainOk_after hs hchecked (hof m) hm htaken (hbefore m)⟩
    have hsame : ∀ row, Of db' m row ↔ Of db m row := by
      intro row
      rw [hof m row, or_iff_left]
      rintro ⟨hfresh, rfl⟩
      exact hm (hchecked.machine_mem hfresh)
    obtain ⟨key, ⟨first, hfirst, hrest⟩, hsigned, hgap⟩ := hbefore m ⟨row, (hsame row).1 hrow⟩
    refine ⟨key, ⟨first, (hsame first).2 hfirst, hrest⟩, fun o ho => hsigned o ((hsame o).1 ho), ?_⟩
    intro o ho k hk hle
    obtain ⟨o', ho', hseq⟩ := hgap o ((hsame o).1 ho) k hk hle
    exact ⟨o', (hsame o').2 ho', hseq⟩

/-! ## Trust -/

/-- How a machine comes to be trusted for a batch: it is this machine, it is known or the named peer
with the key of its chain, or a trusted machine vouches for that key in a signed line of the batch.
-/
inductive Reached (c : Codec) (site : Site c) (db : Db) (lines : List String) (trust : Trust) :
    String → Prop where
  | here : Reached c site db lines trust site.machine
  | known {m : String} {key : c.Key} (hkey : KeyOf c db lines m key)
      (ht : db.trustedKey m = .ok (some (c.keyText key))) : Reached c site db lines trust m
  | peer {m : String} {key : c.Key} (hkey : KeyOf c db lines m key)
      (ht : trust = .peer m (c.keyText key)) : Reached c site db lines trust m
  | vouched {m l : String} {r : Record} {key signer : c.Key}
      (hsigner : Reached c site db lines trust r.machine) (hl : l ∈ lines) (hr : c.body l = some r)
      (hsigned : KeyOf c db lines r.machine signer) (hv : c.verifies signer l = true)
      (hop : r.op = "machine.trust") (hm : (r.data.idx "machine").asStr.getD "" = m)
      (hk : (r.data.idx "public_key").asStr.getD "" = c.keyText key)
      (hkey : KeyOf c db lines m key) : Reached c site db lines trust m

section

variable (hs : Stored c db) (h : Checked c site db lines trust rows intake)
include hs h

theorem Checked.keyOf {k : String} (hk : intake.keys[m]? = some k) : ∃ key, c.keyText key = k ∧
    KeyOf c db lines m key ∧
      MachineTaken c site db rows intake.fresh m key := by
  have hm : m ∈ machinesOf rows :=
    (h.taken.keys m).1 (Maps.mem_iff_exists.2 ⟨_, hk⟩)
  obtain ⟨key, hkeys, htaken⟩ := h.taken.chain m hm
  rw [hk, some.injEq] at hkeys
  exact ⟨key, hkeys.symm, keyOf_of_chainKey hs h htaken.chainKey, htaken⟩

variable {t : BTreeSet}

omit hs h in
theorem reached_insert {k : String} (hk : Reached c site db lines trust k)
    (ht : ∀ m ∈ t, Reached c site db lines trust m) :
    ∀ m ∈ t.insert k, Reached c site db lines trust m := by
  intro m hm
  rcases Std.ExtTreeSet.mem_insert.1 hm with hm | hm
  · exact compare_eq_iff_eq.1 hm ▸ hk
  · exact ht m hm

theorem trustedBefore_reached (ht : trustedBefore c site db trust intake.keys = .ok t) :
    ∀ m ∈ t, Reached c site db lines trust m := by
  unfold trustedBefore at ht
  simp only [bind_eq_ok, pure_eq_ok] at ht
  obtain ⟨known, hknown, rfl⟩ := ht
  have hreach : ∀ m ∈ known, Reached c site db lines trust m := by
    refine foldlM_keeps (P := fun t : BTreeSet => ∀ m ∈ t, Reached c site db lines trust m)
      (fun e he s s' hP hstep => ?_) (fun m hm => absurd hm Std.ExtTreeSet.not_mem_empty) hknown
    simp only [bind_eq_ok, pure_eq_ok] at hstep
    obtain ⟨k, hk, rfl⟩ := hstep
    split
    · next heq =>
      obtain ⟨key, hkey, hof, -⟩ := h.keyOf hs (mem_toList_iff_getElem?_eq_some.1 he)
      exact reached_insert (.known hof (by rw [hk, heq, hkey])) hP
    · exact hP
  refine reached_insert .here ?_
  split
  · split
    · next hk =>
      obtain ⟨key, rfl, hof, -⟩ := h.keyOf hs hk
      exact reached_insert (.peer hof rfl) hreach
    · exact hreach
  · exact hreach

theorem vouch_reached (hsub : ∀ s ∈ fresh, s ∈ intake.fresh)
    (ht : ∀ m ∈ t, Reached c site db lines trust m) :
    ∀ m ∈ vouch intake.keys fresh t, Reached c site db lines trust m := by
  induction fresh generalizing t with
  | nil => exact ht
  | cons s fresh ih =>
    rw [forall_mem_cons] at hsub
    refine ih hsub.2 fun m hm => ?_
    rcases mem_vouchStep.1 hm with hm | ⟨hsigner, hv⟩
    · exact ht m hm
    unfold vouchedBy at hv
    split at hv
    · next hop =>
      simp only [ite_none_right_eq_some, some.injEq] at hv
      obtain ⟨hk, hm⟩ := hv
      rw [hm] at hk
      obtain ⟨key, hkey, hof, -⟩ := h.keyOf hs hk
      obtain ⟨hrow, -⟩ := h.taken.fresh s hsub.1
      obtain ⟨signer, hsk, htaken⟩ := h.taken.chain _ (h.machine_mem hsub.1)
      exact .vouched (ht _ hsigner) (h.read s hrow).1 (h.read s hrow).2
        (keyOf_of_chainKey hs h htaken.chainKey) (htaken.signed s hsub.1 rfl) hop hm hkey.symm hof
    · cases hv

theorem trustLoop_reached (ht : ∀ m ∈ t, Reached c site db lines trust m) :
    ∀ m ∈ trustLoop intake.keys intake.fresh t, Reached c site db lines trust m := by
  induction hn : (untrusted intake.keys t).length using Nat.strongRecOn generalizing t with
  | ind n ih =>
    have hround := vouch_reached hs h (fun _ hs => hs) ht
    rw [trustLoop]
    split
    · exact hround
    · next hsize => exact ih _ (hn ▸ untrusted_vouch_lt hsize) hround rfl

/-- Every machine of a batch that is taken is reached by trust. -/
theorem Checked.reached (hall : trust ≠ .all) {l : String} (hl : l ∈ lines) {r : Record}
    (hr : c.body l = some r) :
    Reached c site db lines trust r.machine := by
  obtain ⟨row, hrow, rfl⟩ := h.rowOf l hl
  cases (h.read row hrow).2.symm.trans hr
  have htrust := h.trust
  unfold checkTrust at htrust
  rw [if_neg hall] at htrust
  simp only [bind_eq_ok, ensure_eq_ok, beq_iff_eq] at htrust
  obtain ⟨t, ht, hnone⟩ := htrust
  refine trustLoop_reached hs h (trustedBefore_reached hs h ht) _ ?_
  by_contra hnot
  have : row.record.machine ∈ untrusted intake.keys (trustLoop intake.keys intake.fresh t) := by
    simp only [untrusted, mem_filter, mem_keys, decide_eq_true_eq]
    exact ⟨(h.taken.keys _).2 (machine_mem_machinesOf hrow), hnot⟩
  rw [hnone] at this
  cases this

end

/-! ## The law of an import -/

/-- What an import that succeeds is meant to leave. -/
structure ImportLaw (c : Codec) (site : Site c) (db : Db) (lines : List String) (trust : Trust)
    (db' : Db) : Prop where
  verified : ∃ out, verifyRecords c db' = .ok out
  complete : ∀ l ∈ lines, ∃ row ∈ db'.records, row.raw = l
  kept : ∀ row ∈ db.records, row ∈ db'.records
  reached : trust ≠ .all → ∀ l ∈ lines, ∀ r, c.body l = some r →
    Reached c site db lines trust r.machine

/-- An import that fails changes nothing. One that succeeds does what it is meant to do exactly if
the stored records verified before and the ids of the new records are new. -/
theorem importLaw_iff (hs : Stored c db) :
    (∀ e db', importLines c site lines trust db = (.error e, db') → db' = db) ∧
      ∀ n db', importLines c site lines trust db = (.ok n, db') →
        (ImportLaw c site db lines trust db' ↔
          (∃ out, verifyRecords c db = .ok out) ∧ NewIds c db lines) := by
  refine ⟨fun e db' h => importLines_error h, fun n db' h => ⟨fun hlaw => ?_, ?_⟩⟩
  · have hn := newIds_of_complete hs h hlaw.complete
    exact ⟨(verifyRecords_after hs hn h).1 hlaw.verified, hn⟩
  · rintro ⟨hverified, hn⟩
    obtain ⟨rows, intake, fresh, hchecked, hperm, hrecords⟩ := records_of_newIds hs h hn
    refine ⟨(verifyRecords_after hs hn h).2 hverified, fun l hl => ?_, fun row hrow => ?_,
      fun hall l hl r hr => hchecked.reached hs hall hl hr⟩
    · obtain ⟨row, hrow, rfl⟩ := hchecked.rowOf l hl
      rw [hrecords]
      by_cases hnew : ∀ o ∈ db.records, o.raw ≠ row.raw
      · exact ⟨row, mem_append_right _ (hperm.mem_iff.2 ((hchecked.mem_fresh_iff hs hrow).2 hnew)),
          rfl⟩
      · simp only [not_forall, not_not] at hnew
        obtain ⟨o, ho, hraw⟩ := hnew
        exact ⟨o, mem_append_left _ ho, hraw⟩
    · rw [hrecords]
      exact mem_append_left _ hrow

end

end

/-! ## A record that is left out -/

namespace TakenId

def machine : String := "01a12290-0000-7000-8000-000000000001"

/-- The id of the first record, and again of the second. -/
def firstId : String := "01a12290-0000-7000-8000-000000000002"

def record (seq : Nat) (id op : String) (data : Json) : Record where
  id := id
  machine := machine
  seq := seq
  time := seq
  op := op
  data := data

def texts : List (String × Record) :=
  [("first", record 1 firstId "machine" (.obj [("name", .str "a"), ("public_key", .str "k")])),
    ("second", record 2 firstId "note" .null),
    ("third", record 3 "01a12290-0000-7000-8000-000000000003" "note" .null)]

def codec : Codec :=
  { Codec.silent with
    body := fun l => texts.lookup l
    verifies := fun _ _ => true
    decodeKey := fun _ => some ()
    keyText := fun _ => "k" }

def site : Site codec where
  machine := "01a12290-0000-7000-8000-000000000009"
  key := ()
  project := ""

def batch : List String := ["first", "second", "third"]

def result : Except String Nat × Db := importLines codec site batch (.peer machine "k") {}

/-- The import succeeds, but the second record is not there. -/
theorem result_records : result.1.toOption = some 3 ∧
    result.2.records.map (·.raw) = ["first", "third"] := by
  decide +kernel

theorem verify_empty : ∃ out, verifyRecords codec {} = .ok out := ⟨[], rfl⟩

theorem importLines_batch : importLines codec site batch (.peer machine "k") {} =
    (.ok 3, result.2) :=
  Prod.ext (toOption_eq_some.1 result_records.1) rfl

/-- A batch whose second record has the id of the first is taken without an error, and the second
record is lost. -/
theorem takenId_not_importLaw :
    ¬ ∀ (c : Codec) (site : Site c) (db : Db) (lines : List String) (trust : Trust) (n : Nat)
        (db' : Db), Stored c db → (∃ out, verifyRecords c db = .ok out) →
      importLines c site lines trust db = (.ok n, db') → ImportLaw c site db lines trust db' := by
  intro hall
  have hlaw := hall codec site {} batch (.peer machine "k") 3 result.2 .empty verify_empty
    importLines_batch
  obtain ⟨row, hrow, hraw⟩ := hlaw.complete "second" (by decide)
  have hmem : "second" ∈ result.2.records.map (·.raw) := mem_map.2 ⟨row, hrow, hraw⟩
  rw [result_records.2] at hmem
  exact absurd hmem (by decide)

/-- The law of an import at this batch. -/
theorem importLaw_iff_batch : importLines codec site batch (.peer machine "k") {} =
    (.ok 3, result.2) ∧
      (ImportLaw codec site {} batch (.peer machine "k") result.2 ↔
        (∃ out, verifyRecords codec {} = .ok out) ∧ NewIds codec {} batch) :=
  ⟨importLines_batch, (importLaw_iff .empty).2 3 result.2 importLines_batch⟩

end TakenId

end Layr
