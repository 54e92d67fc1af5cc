import Layr.DbRuns

/-!
# The states that a run records, and when a run is accepted

A state is there from the record that names it on, its kind never changes, and its caches stay names
(`tables_states`). So whether a run is accepted can be read off the records: no state is recorded
twice, and no record names a cache or derived state that came before it as a parent or as the head
of a line (`acceptsAll_iff`). A dropped state is one that a drop found (`isDropped_eq`).
-/

namespace Layr

open List
open Maps (insertAll)

variable {c : Codec} {here : String}

namespace Db

/-! ## Rows of states -/

def StateRow.Reads (row : StateRow) : Prop :=
  ∀ (k : String) v, row.caches[k]? = some v → (v.asStr).isSome = true

variable {row : StateRow}

theorem StateRow.Reads.parse (h : StateRow.Reads row) : ∃ s, StateRow.parse row = some s ∧
    s.kind = row.state.kind := by
  have hfold : ∀ (es : List (String × Json)), (∀ e ∈ es, (e.2.asStr).isSome = true) →
      ∀ m : BTreeMap String, ∃ m', es.foldlM (fun m (e : String × Json) =>
        e.2.asStr.map fun v => m.insert e.1 v) m = some m' := by
    intro es
    induction es with
    | nil => exact fun _ m => ⟨m, rfl⟩
    | cons e es ih =>
      intro hes m
      obtain ⟨v, hv⟩ := isSome_iff_exists.1 (hes e mem_cons_self)
      obtain ⟨m', hm'⟩ := ih (fun d hd => hes d (mem_cons_of_mem _ hd)) (m.insert e.1 v)
      refine ⟨m', ?_⟩
      rw [foldlM_cons, hv]
      exact hm'
  obtain ⟨caches, hcaches⟩ := hfold row.caches.toList (fun e he =>
    h e.1 e.2 (mem_toList_iff_getElem?_eq_some.1 he)) ∅
  refine ⟨{ row.state with caches := caches }, ?_, rfl⟩
  rw [StateRow.parse, hcaches]
  rfl

theorem stateRow_reads (r : Record) (s : StateRec) : StateRow.Reads (stateRow r s) :=
  Maps.Every.insertAll (fun k v hk => by simp at hk) fun _ _ => rfl

variable {r : Record}

theorem saveCaches_reads (h : StateRow.Reads row)
    (hr : ValidRecord c r) {st : String} (hst : r.data.strAt "state" = some st) :
    StateRow.Reads (saveCaches r row) := by
  refine Maps.Every.insertAll h fun e he => ?_
  obtain ⟨v, hv⟩ := hr.saved_names hst e he
  rw [hv]
  rfl

/-! ## The table -/

/-- A row is what a record gave, as far as its kind goes, and can be read. -/
structure Known (ss : List StateRec) (id : String) (row : StateRow) : Prop where
  reads : StateRow.Reads row
  kind : ∃ s ∈ ss, s.id = id ∧ s.kind = row.state.kind

variable {id : String} {ss : List StateRec}

theorem Known.mono {ss' : List StateRec} (h : Known ss id row) (hsub : ss ⊆ ss') :
    Known ss' id row :=
  ⟨h.reads, h.kind.imp fun _ hs => ⟨hsub hs.1, hs.2⟩⟩

/-- A change of one state that keeps its kind and machine, if the state is there. -/
theorem savedStep_eq (r : Record) (m : BTreeMap StateRow) : savedStep r m = m ∨
    ∃ id row row', r.data.strAt "state" = some id ∧ m[id]? = some row ∧
      savedStep r m = m.insert id row' ∧
        (row' = { row with dropped := true } ∨ row' = saveCaches r row) := by
  unfold savedStep
  split
  · exact .inl rfl
  next id hid =>
  split
  · exact .inl rfl
  next row hrow =>
  split
  · exact .inr ⟨id, row, _, hid, hrow, rfl, .inl rfl⟩
  · split
    · exact .inr ⟨id, row, _, hid, hrow, rfl, .inr rfl⟩
    · exact .inl rfl

def statesOf (rows : List Row) : List StateRec := rows.flatMap (·.record.states)

theorem statesOf_append (rows rows' : List Row) :
    statesOf (rows ++ rows') = statesOf rows ++ statesOf rows' := flatMap_append

variable {m : BTreeMap StateRow}

theorem mem_savedStep : id ∈ savedStep r m ↔ id ∈ m := by
  rcases savedStep_eq r m with h | ⟨j, row, row', -, hrow, h, -⟩
  · rw [h]
  · rw [h, mem_insert, compare_eq_iff_eq]
    refine or_iff_right_of_imp ?_
    rintro rfl
    exact Maps.mem_iff_exists.2 ⟨row, hrow⟩

theorem mem_addStates : id ∈ addStates r m ↔ id ∈ m ∨ ∃ s ∈ r.states, s.id = id :=
  Maps.mem_insertAll

/-- The states that are there are those that the records name. -/
theorem mem_tables_states (rows : List Row) (id : String) :
    id ∈ (tables c here rows).states ↔ ∃ s ∈ statesOf rows, s.id = id := by
  induction rows using List.reverseRecOn with
  | nil => simp [tables, statesOf]
  | append_singleton rows row ih =>
    have hstates : (tables c here (rows ++ [row])).states =
        savedStep row.record (addStates row.record (tables c here rows).states) := by
      rw [tables_append_singleton]
      rfl
    rw [hstates, mem_savedStep, mem_addStates, ih]
    simp [statesOf, or_and_right, exists_or]

variable {rows : List Row}

theorem tables_states (h : ∀ row ∈ rows, ValidRecord c row.record) (id : String)
    (row : StateRow) (hrow : (tables c here rows).states[id]? = some row) :
    Known (statesOf rows) id row := by
  induction rows using List.reverseRecOn generalizing id row with
  | nil => simp [tables] at hrow
  | append_singleton rows last ih =>
    have hlast : ValidRecord c last.record := h last (by simp)
    have hsub : statesOf rows ⊆ statesOf (rows ++ [last]) := by
      rw [statesOf_append]
      exact subset_append_left _ _
    have hadd : ∀ id row, (addStates last.record (tables c here rows).states)[id]? = some row →
        Known (statesOf (rows ++ [last])) id row := by
      refine Maps.Every.insertAll (fun id row hid => ?_) fun s hs => ?_
      · exact (ih (fun row hrow => h row (by simp [hrow])) id row hid).mono hsub
      · refine ⟨stateRow_reads _ _, s, ?_, rfl, rfl⟩
        simp [statesOf, hs]
    rw [tables_append_singleton] at hrow
    have hsaved : (savedStep last.record (addStates last.record (tables c here rows).states))[id]? =
      some row := hrow
    rcases savedStep_eq last.record (addStates last.record (tables c here rows).states) with
      heq | ⟨j, old, new, hj, hold, heq, hnew⟩
    · rw [heq] at hsaved
      exact hadd id row hsaved
    rw [heq] at hsaved
    rcases Maps.of_getElem?_insert hsaved with ⟨rfl, rfl⟩ | ⟨-, hsaved⟩
    · have hk := hadd j old hold
      rcases hnew with rfl | rfl
      · exact ⟨hk.reads, hk.kind⟩
      · exact ⟨saveCaches_reads hk.reads hlast hj, hk.kind⟩
    · exact hadd id row hsaved

/-! ## When a run is accepted -/

def NotAux (m : BTreeMap StateRow) (id : String) : Prop :=
  ∀ row, m[id]? = some row → row.state.kind.auxiliary = false

section

variable (hm : ∀ (id : String) row, m[id]? = some row → StateRow.Reads row)
include hm

theorem source_iff_notAux : Source m id ↔ NotAux m id := by
  unfold Source NotAux state
  cases hrow : m[id]? with
  | none => simp
  | some row =>
    obtain ⟨s, hs, hkind⟩ := (hm id row hrow).parse
    simp [hs, hkind]

omit hm in
theorem notAux_insert {s : StateRec} (hnew : s.id ∉ m) (hs : s.id = id → s.kind.auxiliary = false) :
    NotAux (m.insert s.id (stateRow r s)) id ↔ NotAux m id := by
  unfold NotAux
  by_cases hid : s.id = id
  · subst hid
    have hnone : m[s.id]? = none := getElem?_eq_none hnew
    simp only [getElem?_insert_self, hnone, some.injEq, forall_eq',
      reduceCtorEq, false_implies, implies_true, iff_true]
    exact hs rfl
  · rw [Maps.getElem?_insert_ne hid]

theorem reads_insert {s : StateRec} :
    ∀ (id : String) row, (m.insert s.id (stateRow r s))[id]? = some row → StateRow.Reads row :=
  Maps.Every.insert hm (stateRow_reads r s)

/-- The states of a record can be added exactly when they are new, and their parents that are there
are part of source history. What the record itself names is checked before. -/
theorem statesOk_iff
    (hvalid : ∀ s ∈ ss, ∀ p ∈ s.parents, ∀ t ∈ ss, t.id = p → t.kind.auxiliary = false) :
    StatesOk r m ss ↔ (ss.map (·.id)).Nodup ∧ (∀ s ∈ ss, s.id ∉ m) ∧ ∀ s ∈ ss, ∀ p ∈ s.parents,
      NotAux m p := by
  induction ss generalizing m with
  | nil => simp [StatesOk]
  | cons s ss ih =>
    have hvalid' : ∀ s ∈ ss, ∀ p ∈ s.parents, ∀ t ∈ ss, t.id = p → t.kind.auxiliary = false :=
      fun s hs p hp t ht => hvalid s (mem_cons_of_mem _ hs) p hp t (mem_cons_of_mem _ ht)
    rw [StatesOk, ih (reads_insert hm) hvalid', map_cons, nodup_cons]
    simp only [source_iff_notAux (reads_insert hm), forall_mem_cons, mem_map, not_exists,
      not_and, mem_insert, compare_eq_iff_eq, not_or]
    have hiff : s.id ∉ m → ∀ t ∈ s :: ss, ∀ p ∈ t.parents,
        (NotAux (m.insert s.id (stateRow r s)) p ↔ NotAux m p) :=
      fun hnew t ht p hp => notAux_insert hnew (hvalid t ht p hp s mem_cons_self)
    constructor
    · rintro ⟨hnew, hpar, hnd, hfresh, hrest⟩
      exact ⟨⟨fun t ht heq => (hfresh t ht).1 heq.symm, hnd⟩, ⟨hnew, fun t ht => (hfresh t ht).2⟩,
        fun p hp => (hiff hnew s mem_cons_self p hp).1 (hpar p hp),
        fun t ht p hp => (hiff hnew t (mem_cons_of_mem _ ht) p hp).1 (hrest t ht p hp)⟩
    · rintro ⟨⟨hnotin, hnd⟩, ⟨hnew, hfresh⟩, hpar, hrest⟩
      exact ⟨hnew, fun p hp => (hiff hnew s mem_cons_self p hp).2 (hpar p hp), hnd,
        fun t ht => ⟨fun heq => hnotin t ht heq.symm, hfresh t ht⟩,
        fun t ht p hp => (hiff hnew t (mem_cons_of_mem _ ht) p hp).2 (hrest t ht p hp)⟩

omit hm in
/-- The states of a record that are new hide no cache. -/
theorem notAux_addStates (hnd : (r.states.map (·.id)).Nodup) (hnew : ∀ s ∈ r.states, s.id ∉ m)
    (hs : ∀ s ∈ r.states, s.id = id → s.kind.auxiliary = false) :
    NotAux (addStates r m) id ↔ NotAux m id := by
  unfold NotAux
  by_cases hid : id ∈ r.states.map (·.id)
  · obtain ⟨s, hmem, rfl⟩ := mem_map.1 hid
    have hnone : m[s.id]? = none := getElem?_eq_none (hnew s hmem)
    have hsome : (addStates r m)[s.id]? = some (stateRow r s) :=
      Maps.getElem?_insertAll_of_mem hnd hmem
    simp only [hsome, hnone, some.injEq, forall_eq', reduceCtorEq, false_implies, implies_true,
      iff_true]
    exact hs s hmem rfl
  · rw [show (addStates r m)[id]? = m[id]? from Maps.getElem?_insertAll_of_notMem hid]

theorem reads_addStates : ∀ (id : String) row, (addStates r m)[id]? = some row →
    StateRow.Reads row :=
  Maps.Every.insertAll hm fun s _ => stateRow_reads r s

end

/-- The states that a record needs in source history: the parents of its states and the heads of its
lines. -/
def named (r : Record) : List String :=
  r.states.flatMap (·.parents) ++ (r.lines.toList.filterMap (·.2.after)).map (·.head)

/-- A record is accepted exactly when its states are new and it names no cache or derived state that
is there. -/
theorem accepts_iff (hm : ∀ (id : String) row, m[id]? = some row → StateRow.Reads row)
    (hr : ValidRecord c r) :
    Accepts m r ↔ (r.states.map (·.id)).Nodup ∧ (∀ s ∈ r.states, s.id ∉ m) ∧
      ∀ p ∈ named r, NotAux m p := by
  have hdecodes : Decodes r := by
    refine ⟨fun v hv => ?_, fun v hv => ?_, fun v hv => ?_⟩
    · obtain ⟨ch, hch, -⟩ := hr.queue v hv
      rw [hch]
      rfl
    · obtain ⟨a, ha, -⟩ := hr.attestation v hv
      rw [ha]
      rfl
    · obtain ⟨ch, hch, -⟩ := hr.ref v hv
      rw [hch]
      rfl
  have hnamed : (∀ p ∈ named r, NotAux m p) ↔ (∀ s ∈ r.states, ∀ p ∈ s.parents, NotAux m p) ∧
      ∀ e ∈ r.lines.toList, ∀ a, e.2.after = some a → NotAux m a.head := by
    simp only [named, mem_append, mem_flatMap, mem_map, mem_filterMap]
    constructor
    · exact fun h =>
        ⟨fun s hs p hp => h p (.inl ⟨s, hs, hp⟩), fun e he a ha =>
        h a.head (.inr ⟨a, ⟨e, he, ha⟩, rfl⟩)⟩
    · rintro ⟨hpar, hhead⟩ p (⟨s, hs, hp⟩ | ⟨a, ⟨e, he, ha⟩, rfl⟩)
      · exact hpar s hs p hp
      · exact hhead e he a ha
  constructor
  · intro h
    obtain ⟨hnd, hnew, hpar⟩ := (statesOk_iff hm hr.parents).1 h.added
    refine ⟨hnd, hnew, hnamed.2 ⟨hpar, fun e he a ha => ?_⟩⟩
    exact (notAux_addStates hnd hnew (hr.heads e he a ha)).1
      ((source_iff_notAux (reads_addStates hm)).1 (h.heads e he a ha))
  · rintro ⟨hnd, hnew, hall⟩
    obtain ⟨hpar, hhead⟩ := hnamed.1 hall
    refine ⟨(statesOk_iff hm hr.parents).2 ⟨hnd, hnew, hpar⟩, fun e he a ha => ?_, hdecodes⟩
    exact (source_iff_notAux (reads_addStates hm)).2
      ((notAux_addStates hnd hnew (hr.heads e he a ha)).2 (hhead e he a ha))

/-- The second record names a cache or derived state of the first one as a parent or head. -/
def NamesAux (a r : Row) : Prop :=
  ∃ s ∈ a.record.states, s.kind.auxiliary = true ∧ s.id ∈ named r.record

instance (a r : Row) : Decidable (NamesAux a r) :=
  inferInstanceAs
    (Decidable (∃ s ∈ a.record.states, s.kind.auxiliary = true ∧ s.id ∈ named r.record))

theorem acceptsAll_append_singleton {row : Row} : AcceptsAll c here (rows ++ [row]) ↔
      AcceptsAll c here rows ∧ Accepts (tables c here rows).states row.record := by
  constructor
  · exact fun h => ⟨fun l₁ x l₂ hx => h l₁ x (l₂ ++ [row]) (by simp [hx]), h rows row [] rfl⟩
  · rintro ⟨hinit, hlast⟩ l₁ x l₂ hx
    rcases Replay.append_singleton_eq_append_cons hx with ⟨-, rfl, rfl⟩ | ⟨l₃, -, hrows⟩
    · exact hlast
    · exact hinit l₁ x l₃ hrows

/-- The table knows of each id whether it is a cache or derived state. -/
theorem notAux_tables_iff (hrows : ∀ row ∈ rows, ValidRecord c row.record)
    (hnd : ((statesOf rows).map (·.id)).Nodup) : NotAux (tables c here rows).states id ↔
      ∀ s ∈ statesOf rows, s.id = id → s.kind.auxiliary = false := by
  constructor
  · intro h s hs hid
    have hmem : id ∈ (tables c here rows).states := (mem_tables_states rows id).2 ⟨s, hs, hid⟩
    obtain ⟨row, hrow⟩ := Maps.mem_iff_exists.1 hmem
    obtain ⟨t, ht, htid, hkind⟩ := (tables_states hrows id row hrow).kind
    obtain rfl : t = s := inj_on_of_nodup_map hnd ht hs (htid.trans hid.symm)
    rw [hkind]
    exact h row hrow
  · intro h row hrow
    obtain ⟨s, hs, hid, hkind⟩ := (tables_states hrows id row hrow).kind
    rw [← hkind]
    exact h s hs hid

/-- A run is accepted exactly when no state is recorded twice, and no cache or derived state comes
before a record that names it as a parent or head. -/
theorem acceptsAll_iff (hrows : ∀ row ∈ rows, ValidRecord c row.record) : AcceptsAll c here rows ↔
      ((statesOf rows).map (·.id)).Nodup ∧ rows.Pairwise fun a r => ¬ NamesAux a r := by
  induction rows using List.reverseRecOn with
  | nil => simp [AcceptsAll, statesOf]
  | append_singleton rows row ih =>
    have hinit : ∀ row ∈ rows, ValidRecord c row.record := fun r hr => hrows r (by simp [hr])
    have hreads : ∀ (id : String) row, (tables c here rows).states[id]? = some row →
        StateRow.Reads row := fun id row h => (tables_states hinit id row h).reads
    have hstates : statesOf (rows ++ [row]) = statesOf rows ++ row.record.states := by
      simp [statesOf]
    rw [acceptsAll_append_singleton, ih hinit, accepts_iff hreads (hrows row (by simp)), hstates,
      map_append, nodup_append', pairwise_append]
    have hnew : (∀ s ∈ row.record.states, s.id ∉ (tables c here rows).states) ↔
        ((statesOf rows).map (·.id)).Disjoint (row.record.states.map (·.id)) := by
      simp only [mem_tables_states, not_exists, not_and, disjoint_left]
      constructor
      · intro h id hid hid'
        obtain ⟨s, hs, rfl⟩ := mem_map.1 hid
        obtain ⟨t, ht, heq⟩ := mem_map.1 hid'
        exact h t ht s hs heq.symm
      · intro h t ht s hs heq
        exact h (mem_map_of_mem hs) (heq ▸ mem_map_of_mem ht)
    have haux : ((statesOf rows).map (·.id)).Nodup →
      ((∀ p ∈ named row.record, NotAux (tables c here rows).states p) ↔
          ∀ a ∈ rows, ¬ NamesAux a row) := by
      intro hnd
      simp only [notAux_tables_iff hinit hnd, NamesAux, not_exists, not_and, statesOf, mem_flatMap]
      constructor
      · intro h a ha s hs hkind hmem
        rw [h s.id hmem s ⟨a, ha, hs⟩ rfl] at hkind
        cases hkind
      · rintro h p hp s ⟨a, ha, hs⟩ rfl
        exact Bool.eq_false_iff.2 fun hkind => h a ha s hs hkind hp
    constructor
    · rintro ⟨⟨hnd, hpair⟩, hndr, hfresh, hnamed⟩
      exact ⟨⟨hnd, hndr, hnew.1 hfresh⟩, hpair, pairwise_singleton _ _,
        fun a ha r hr => mem_singleton.1 hr ▸ (haux hnd).1 hnamed a ha⟩
    · rintro ⟨⟨hnd, hndr, hdisj⟩, hpair, -, hall⟩
      exact ⟨⟨hnd, hpair⟩, hndr, hnew.2 hdisj, (haux hnd).2 fun a ha =>
        hall a ha row (mem_singleton_self _)⟩

/-! ## Dropped states -/

def recordsState (id : String) (row : Row) : Bool := row.record.states.any (·.id == id)

def drops (id : String) (row : Row) : Bool :=
  row.record.op == "stash.drop" && row.record.data.strAt "state" == some id

def dropStep (id : String) (x : Option Bool) (row : Row) : Option Bool :=
  (if recordsState id row then some false else x).map (· || drops id row)

theorem dropped_addStates (row : Row) (m : BTreeMap StateRow) (id : String) :
    (addStates row.record m)[id]?.map (·.dropped) =
      if recordsState id row then some false else m[id]?.map (·.dropped) := by
  have hfold : ∀ (ss : List StateRec) (m : BTreeMap StateRow),
      (ss.foldl (fun m s => m.insert s.id (stateRow row.record s)) m)[id]?.map (·.dropped) =
        if ss.any (·.id == id) then some false else m[id]?.map (·.dropped) := by
    intro ss
    induction ss with
    | nil => exact fun _ => rfl
    | cons s ss ih =>
      intro m
      rw [foldl_cons, ih, any_cons]
      by_cases hid : s.id = id
      · subst hid
        simp [stateRow]
      · rw [Maps.getElem?_insert_ne hid, beq_eq_false_iff_ne.2 hid, Bool.false_or]
  exact hfold row.record.states m

/-- A record leaves the states alone that it does not name. -/
theorem getElem?_savedStep_ne (h : r.data.strAt "state" ≠ some id) :
    (savedStep r m)[id]? = m[id]? := by
  rcases savedStep_eq r m with heq | ⟨j, row, row', hj, -, heq, -⟩
  · rw [heq]
  · rw [heq, Maps.getElem?_insert_ne]
    rintro rfl
    exact h hj

theorem dropped_savedStep (row : Row) (m : BTreeMap StateRow) (id : String) :
    (savedStep row.record m)[id]?.map (·.dropped) = (m[id]?.map (·.dropped)).map
      (· || drops id row) := by
  by_cases hst : row.record.data.strAt "state" = some id
  · cases hrow : m[id]? with
    | none => simp [savedStep, hst, hrow]
    | some old =>
      by_cases hop : row.record.op = "stash.drop"
      · simp [savedStep, drops, hst, hrow, hop]
      · have hdrops : drops id row = false := by simp [drops, hop]
        simp only [savedStep, hst, hrow, hop, if_false, hdrops]
        split <;> simp [hrow, saveCaches]
  · have hdrops : drops id row = false := by simp [drops, hst]
    rw [getElem?_savedStep_ne hst, hdrops]
    cases m[id]? <;> simp

theorem isDropped_tables (rows : List Row) (id : String) :
    (tables c here rows).isDropped id = rows.foldl (dropStep id) none := by
  induction rows using List.reverseRecOn with
  | nil => simp [tables, isDropped]
  | append_singleton rows row ih =>
    rw [tables_append_singleton, foldl_concat, ← ih]
    unfold dropStep isDropped
    rw [← dropped_addStates]
    exact dropped_savedStep row _ id

theorem foldl_dropStep (h : ∀ row ∈ rows, recordsState id row = false) (b : Bool) :
    rows.foldl (dropStep id) (some b) = some (b || rows.any (drops id)) := by
  induction rows generalizing b with
  | nil => simp
  | cons row rows ih =>
    have hstep : dropStep id (some b) row = some (b || drops id row) := by
      simp [dropStep, h row mem_cons_self]
    rw [foldl_cons, hstep, ih fun r hr => h r (mem_cons_of_mem _ hr), any_cons, Bool.or_assoc]

/-- A state that is recorded once is dropped exactly when a drop comes with its record or later. -/
theorem isDropped_eq {l₁ l₂ : List Row} {a : Row} (ha : recordsState id a = true)
    (hl₂ : ∀ row ∈ l₂, recordsState id row = false) :
    (tables c here (l₁ ++ a :: l₂)).isDropped id = some ((a :: l₂).any (drops id)) := by
  rw [isDropped_tables, foldl_append, foldl_cons]
  have hstep : ∀ x, dropStep id x a = some (drops id a) := by
    intro x
    simp [dropStep, ha]
  rw [hstep, foldl_dropStep hl₂, any_cons]

end Db

end Layr
