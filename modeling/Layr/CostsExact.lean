import Layr.CostsRefresh

/-!
# The aggregate is a recount

After every sequence of usage writes the cost rows are the facts of the usage rows with a root, each
with its contribution among all rows of its agent, and the groups hold the number of rows that are
counted in them (`Exact`, `exact_upsert`). A backfill makes tables with these properties too
(`exact_backfill`), and they determine the tables (`Exact.unique`).
-/

namespace Layr.Costs

open Std Maps Tables List Option

variable {Time : Type} {db db' : Db Time} {id : String} {usage : Usage Time}

def rootFacts (id : String) (usage : Usage Time) : Option (String × CostRow Time) :=
  usage.root.map fun root => (root, costRow id usage)

/-- The aggregate is what a recount of the usage rows gives. -/
structure Exact [LinearOrder Time] (db : Db Time) : Prop where
  facts : ∀ id : String, db.rows[id]?.map (fun s => (s.root, s.row)) =
    db.usage[id]?.bind (rootFacts id)
  settled : ∀ root agent, Settled db.rows root agent
  holds : db.groups.Holds (tally db.rows)

def DistinctSeq (table : ExtTreeMap String (Usage Time)) : Prop :=
  ∀ (id id' : String) (u u' : Usage Time), table[id]? = some u → table[id']? = some u' →
    u.seq = u'.seq → id = id'

instance (table : ExtTreeMap String (Usage Time)) : Decidable (DistinctSeq table) :=
  decidable_of_iff (∀ e ∈ table.toList, ∀ e' ∈ table.toList, e.2.seq = e'.2.seq → e.1 = e'.1) <| by
    simp only [DistinctSeq, Prod.forall, mem_toList_iff_getElem?_eq_some]
    exact ⟨fun h id id' u u' hu hu' => h id u hu id' u' hu', fun h id u hu id' u' hu' =>
      h id id' u u' hu hu'⟩

variable {root : String} {row : CostRow Time}

theorem rootFacts_eq_some (h : rootFacts id usage = some (root, row)) :
    usage.root = some root ∧ row = costRow id usage := by
  obtain ⟨root', hroot, heq⟩ := map_eq_some_iff.1 h
  cases heq
  exact ⟨hroot, rfl⟩

variable {source : ExtTreeMap String (Usage Time)} {table : ExtTreeMap String (Stored Time)}

theorem valid_of_facts
    (hfacts : ∀ id : String, table[id]?.map (fun s : Stored Time => (s.root, s.row)) =
      source[id]?.bind (rootFacts id))
    (hseq : DistinctSeq source) : Valid table := by
  have hrow : ∀ (id : String) (s : Stored Time), table[id]? = some s →
      ∃ u, source[id]? = some u ∧ s.row = costRow id u := by
    intro id s hs
    have hid := hfacts id
    rw [hs, map_some, eq_comm, bind_eq_some_iff] at hid
    obtain ⟨u, hu, heq⟩ := hid
    exact ⟨u, hu, (rootFacts_eq_some heq).2⟩
  constructor
  · intro id s hs
    obtain ⟨u, -, hu⟩ := hrow id s hs
    rw [hu]
    rfl
  · intro id id' s s' hs hs' heq
    obtain ⟨u, hsource, hu⟩ := hrow id s hs
    obtain ⟨u', hsource', hu'⟩ := hrow id' s' hs'
    rw [hu, hu'] at heq
    exact hseq id id' u u' hsource hsource' heq

theorem Exact.unique [LinearOrder Time] (h : Exact db) (h' : Exact db')
    (husage : db.usage = db'.usage) : db = db' := by
  have hsame : SameFacts db.rows db'.rows := fun id => by rw [h.facts, h'.facts, husage]
  have hrows : db.rows = db'.rows := by
    refine ext_getElem? fun id => ?_
    match hs : db.rows[id]? with
    | none =>
      have hid := hsame id
      rw [hs, map_none, eq_comm, map_eq_none_iff] at hid
      exact hid.symm
    | some s =>
      obtain ⟨c, hc⟩ := hsame.exists hs
      have hcounted := h.settled _ _ s (mem_agentRows.2 ⟨⟨id, hs⟩, rfl, rfl⟩)
      have hcounted' := h'.settled _ _ _ (mem_agentRows.2 ⟨⟨id, hc⟩, rfl, rfl⟩)
      simp only [← hsame.facts] at hcounted'
      rw [hc, hcounted', ← hcounted]
  have hgroups : db.groups = db'.groups := by
    funext root key
    rw [h.holds, h'.holds, hrows]
  cases db
  cases db'
  simp only at husage hrows hgroups
  rw [husage, hrows, hgroups]

/-! ## Writes -/

section
variable {table : ExtTreeMap String (Stored Time)} {s : Stored Time}

theorem Scopes.getElem?_add (scopes : Scopes) (root : String) (row : CostRow Time) :
    (scopes.add root row)[(root, row.agent)]? =
      some (scopes[(root, row.agent)]?.getD [] ++ [(row.thread, row.turn, row.response)]) :=
  getElem?_insert_self

theorem Scopes.mem_add {scopes : Scopes} {key : String × String}
    {turn : Option String × Option String × Option String}
    (h : ∃ turns, scopes[key]? = some turns ∧ turn ∈ turns) :
    ∃ turns, (scopes.add root row)[key]? = some turns ∧ turn ∈ turns := by
  obtain ⟨turns, hturns, hmem⟩ := h
  by_cases hkey : (root, row.agent) = key
  · subst hkey
    refine ⟨_, scopes.getElem?_add root row, mem_append_left _ ?_⟩
    rwa [hturns]
  · exact ⟨turns, by rw [Scopes.add, getElem?_insert_ne hkey, hturns], hmem⟩

/-- The scopes of a write name the row of before it and the row of after it. -/
theorem scopesOf_names {previous : Option (Stored Time)}
    (h : previous = some s ∨ usage.root = some s.root ∧ s.row = costRow id usage) :
    ∃ turns, (scopesOf id usage previous)[(s.root, s.row.agent)]? = some turns ∧
      (s.row.thread, s.row.turn, s.row.response) ∈ turns := by
  unfold scopesOf
  rcases h with rfl | ⟨hroot, hrow⟩
  · exact ⟨_, Scopes.getElem?_add .., mem_append_right _ (mem_singleton_self _)⟩
  have hnew : ∃ turns, (Scopes.add ∅ s.root (costRow id usage))[(s.root, s.row.agent)]? =
    some turns ∧
      (s.row.thread, s.row.turn, s.row.response) ∈ turns := by
    rw [hrow]
    exact ⟨_, Scopes.getElem?_add .., mem_append_right _ (mem_singleton_self _)⟩
  rw [hroot]
  match previous with
  | none => exact hnew
  | some t => exact Scopes.mem_add hnew

def newRow (id : String) (usage : Usage Time) : Option (Stored Time) :=
  usage.root.map fun root => ⟨root, costRow id usage, none⟩

/-- The tables before the scopes are refreshed: the row of the usage row is replaced. -/
theorem getElem?_replaced (id' : String) :
    ((db.removePrevious id).insertRow id usage).rows[id']? = if id' =
      id then newRow id usage else db.rows[id']? := by
  have hremoved : (db.removePrevious id).rows = db.rows.erase id := by
    unfold Db.removePrevious
    split
    · rfl
    · next hnone => exact (erase_eq_self hnone).symm
  unfold Db.insertRow newRow
  split
  · next root hroot =>
    rw [hroot]
    simp only [hremoved]
    split
    · next heq =>
      subst heq
      rw [getElem?_insert_self, map_some]
    · next hne => rw [getElem?_insert_ne (Ne.symm hne), getElem?_erase_ne (Ne.symm hne)]
  · next hroot =>
    rw [hremoved]
    split
    · next heq =>
      subst heq
      rw [getElem?_erase_self, hroot, map_none]
    · next hne => exact getElem?_erase_ne (Ne.symm hne)

theorem replaced_usage : ((db.removePrevious id).insertRow id usage).usage = db.usage := by
  unfold Db.insertRow Db.removePrevious
  split
  · split
    · rfl
    · rfl
  · split
    · rfl
    · rfl

theorem replaced_holds (h : db.groups.Holds (tally db.rows)) :
    ((db.removePrevious id).insertRow id usage).groups.Holds
      (tally ((db.removePrevious id).insertRow id usage).rows) := by
  have hremoved : (db.removePrevious id).groups.Holds (tally (db.removePrevious id).rows) ∧
      (db.removePrevious id).rows[id]? = none := by
    unfold Db.removePrevious
    split
    · next s hs =>
      refine ⟨Groups.Holds.count_neg_one fun root key => ?_, getElem?_erase_self⟩
      rw [h root key, tally_eq hs]
    · next hnone => exact ⟨h, hnone⟩
  unfold Db.insertRow
  split
  · intro root key
    rw [tally_insert, erase_eq_self hremoved.2, counts_of_none rfl, if_neg Bool.false_ne_true]
    exact hremoved.1 root key
  · exact hremoved.1

end

variable [LinearOrder Time]

/-- The rows that the scopes of a write leave out have their contributions already. -/
theorem stale_replaced {root agent : String} {turns : TurnScopes}
    (h : ∀ root agent, Settled db.rows root agent) (hvalid : Valid db.rows)
    (hvalid' : Valid ((db.removePrevious id).insertRow id usage).rows)
    (hturns : (scopesOf id usage db.rows[id]?)[(root, agent)]? = some turns) :
    Stale ((db.removePrevious id).insertRow id usage).rows root agent turns := by
  have hsame : ∀ id' ≠ id, db.rows[id']? = ((db.removePrevious id).insertRow id usage).rows[id']? :=
    fun id' hne => by rw [getElem?_replaced, if_neg hne]
  have hnames : ∀ (s : Stored Time),
      db.rows[id]? = some s ∨ usage.root = some s.root ∧ s.row = costRow id usage → s.root = root →
      s.row.agent = agent → (s.row.thread, s.row.turn, s.row.response) ∈ turns := by
    rintro s hs rfl rfl
    obtain ⟨turns', hturns', hmem⟩ := scopesOf_names hs
    rw [hturns] at hturns'
    cases hturns'
    exact hmem
  have hnames' : Names turns ((db.removePrevious id).insertRow id usage).rows id root agent := by
    intro t ht
    rw [getElem?_replaced, if_pos rfl] at ht
    obtain ⟨root', hroot, rfl⟩ := map_eq_some_iff.1 ht
    exact hnames _ (.inr ⟨hroot, rfl⟩)
  intro s hs hout
  obtain ⟨hne, heq⟩ := contribution_unaffected hvalid hvalid' hsame
    (fun t ht => hnames t (.inl ht)) hnames' hs hout
  have hstored := hvalid'.stored hs
  rw [← hsame _ hne] at hstored
  rw [h root agent s (mem_agentRows.2 ⟨⟨_, hstored⟩, (mem_agentRows.1 hs).2⟩), heq]

/-- An agent that no scope of a write names has the rows of before. -/
theorem settled_replaced {root agent : String} (h : ∀ root agent, Settled db.rows root agent)
    (hturns : (scopesOf id usage db.rows[id]?)[(root, agent)]? = none) :
    Settled ((db.removePrevious id).insertRow id usage).rows root agent := by
  have hno : ∀ s : Stored Time, db.rows[id]? = some s ∨ usage.root = some s.root ∧
    s.row = costRow id usage →
      ¬(s.root = root ∧ s.row.agent = agent) := by
    rintro s hs ⟨rfl, rfl⟩
    obtain ⟨turns, hturns', -⟩ := scopesOf_names hs
    rw [hturns] at hturns'
    cases hturns'
  have hrows : agentRows ((db.removePrevious id).insertRow id usage).rows root agent =
      agentRows db.rows root agent := by
    refine select_congr fun id' => ?_
    rw [getElem?_replaced]
    split
    · next heq =>
      subst heq
      have hnew : (newRow id' usage).bind
        (fun s => if s.root = root ∧ s.row.agent = agent then some s else none) =
          none := by
        refine bind_eq_none_iff.2 fun s hs => if_neg (hno s (.inr ?_))
        obtain ⟨root', hroot, rfl⟩ := map_eq_some_iff.1 hs
        exact ⟨hroot, rfl⟩
      have hold : db.rows[id']?.bind
          (fun s => if s.root = root ∧ s.row.agent = agent then some s else none) = none :=
        bind_eq_none_iff.2 fun s hs => if_neg (hno s (.inl hs))
      rw [hnew, hold]
    · rfl
  rw [Settled, Costs.facts, hrows]
  exact h root agent

theorem upsert_usage (write : String × Usage Time) :
    (db.upsert write).usage = db.usage.insert write.1 write.2 := by
  refine List.foldlRecOn (motive := (Db.usage · = _)) _ _ replaced_usage fun db' h p _ => ?_
  exact List.foldlRecOn (motive := (Db.usage · = _)) _ _ h fun db' h e _ => refreshRow_usage.trans h

/-- A write keeps the aggregate exact. -/
theorem exact_upsert {write : String × Usage Time} (h : Exact db) (hseq : DistinctSeq db.usage)
    (hseq' : DistinctSeq (db.usage.insert write.1 write.2)) : Exact (db.upsert write) := by
  obtain ⟨id, usage⟩ := write
  let db₁ : Db Time := { db with usage := db.usage.insert id usage }
  let db₂ : Db Time := (db₁.removePrevious id).insertRow id usage
  have hfacts : ∀ id' : String, db₂.rows[id']?.map (fun s => (s.root, s.row)) =
      (db.usage.insert id usage)[id']?.bind (rootFacts id') := by
    intro id'
    rw [getElem?_replaced]
    split
    · next heq =>
      subst heq
      rw [getElem?_insert_self, newRow, Option.map_map]
      rfl
    · next hne => rw [getElem?_insert_ne (Ne.symm hne), h.facts]
  have hsettled₁ : ∀ root agent, Settled db₁.rows root agent := h.settled
  have hholds₁ : db₁.groups.Holds (tally db₁.rows) := h.holds
  have hvalid : Valid db₁.rows := valid_of_facts h.facts hseq
  have hvalid₂ : Valid db₂.rows := valid_of_facts hfacts hseq'
  have hnodup := Tables.nodup_keys (scopesOf id usage db₁.rows[id]?)
  have hstale : ∀ p ∈ (scopesOf id usage db₁.rows[id]?).toList, Stale db₂.rows p.1.1 p.1.2 p.2 :=
      fun p hp =>
    stale_replaced hsettled₁ hvalid hvalid₂ (mem_toList_iff_getElem?_eq_some.1 hp)
  have hsettled : ∀ root agent, (root, agent) ∉ (scopesOf id usage db₁.rows[id]?).toList.map (·.1) →
      Settled db₂.rows root agent := by
    intro root agent hnot
    refine settled_replaced hsettled₁ (eq_none_iff_forall_ne_some.2 fun turns hturns => hnot ?_)
    exact List.mem_map.2 ⟨_, mem_toList_iff_getElem?_eq_some.2 hturns, rfl⟩
  obtain ⟨hdone, hholds, hsame⟩ := settled_of_stale hnodup hvalid₂
    (replaced_holds hholds₁) hstale hsettled
  refine ⟨fun id' => ?_, hdone, hholds⟩
  rw [upsert_usage, ← hfacts]
  exact (hsame id').symm

theorem exact_empty : Exact (Db.empty : Db Time) := by
  refine ⟨fun id => ?_, fun root agent s hs => ?_, fun root key => rfl⟩
  · simp only [Db.empty, getElem?_empty]
    rfl
  · obtain ⟨⟨id, hid⟩, -⟩ := mem_agentRows.1 hs
    cases hid

/-! ## Backfill -/

omit [LinearOrder Time] in
theorem scopeKey_inj {s t : Stored Time} : s.scopeKey = t.scopeKey ↔ s.root = t.root ∧
    s.row.agent = t.row.agent := by
  rw [Stored.scopeKey, Stored.scopeKey, toLex_inj, Prod.mk.injEq]

omit [LinearOrder Time] in
/-- A list in the order of root and agent is cut into its scopes: each has all rows of one agent in
one root. -/
theorem scopes_spec {scope facts : List (Stored Time)}
    (hscope : ∀ s ∈ scope, s.root = root ∧ ∀ t ∈ scope, t.scopeKey = s.scopeKey)
    (hsorted : (scope ++ facts).Pairwise fun s t => s.scopeKey ≤ t.scopeKey) :
    (scopes root scope facts).flatMap (·.2) = scope ++ facts ∧ ∀ p ∈ scopes root scope facts,
      ∀ s ∈ p.2, s.root = p.1 ∧
        ∀ t ∈ scope ++ facts, (t ∈ p.2 ↔ t.scopeKey = s.scopeKey) := by
  induction facts generalizing root scope with
  | nil =>
    simp only [scopes, flatMap_cons, flatMap_nil, append_nil, mem_singleton, forall_eq, true_and]
    exact fun s hs => ⟨(hscope s hs).1, fun t ht => iff_of_true ht ((hscope s hs).2 t ht)⟩
  | cons fact facts ih =>
    rw [scopes]
    split
    · next hcut =>
      -- the rows of the scope come before the others
      have hne : ∀ s ∈ scope, s.scopeKey ≠ fact.scopeKey := by
        intro s hs heq
        rw [Bool.or_eq_true, decide_eq_true_eq, Option.any_eq_true] at hcut
        rcases hcut with hcut | ⟨first, hfirst, hcut⟩
        · exact hcut ((scopeKey_inj.1 heq).1.symm.trans (hscope s hs).1)
        · have hkey := ((hscope s hs).2 first (mem_of_mem_head? hfirst)).trans heq
          exact of_decide_eq_true hcut (scopeKey_inj.1 hkey).2
      obtain ⟨-, hrest, hcross⟩ := pairwise_append.1 hsorted
      have hlt : ∀ s ∈ scope, ∀ t ∈ fact :: facts, s.scopeKey < t.scopeKey := by
        intro s hs t ht
        refine ((hcross s hs fact mem_cons_self).lt_of_ne (hne s hs)).trans_le ?_
        rcases mem_cons.1 ht with rfl | ht
        · exact le_rfl
        · exact (pairwise_cons.1 hrest).1 t ht
      obtain ⟨hflat, hparts⟩ := @ih fact.root [fact] (by simp) hrest
      refine ⟨by rw [flatMap_cons, hflat, singleton_append], fun p hp s hs => ?_⟩
      rcases mem_cons.1 hp with rfl | hp
      · refine ⟨(hscope s hs).1, fun t ht => ?_⟩
        rcases mem_append.1 ht with ht | ht
        · exact iff_of_true ht ((hscope s hs).2 t ht)
        · refine iff_of_false (fun hmem => ?_) (hlt s hs t ht).ne'
          exact lt_irrefl _ (hlt t hmem t ht)
      have hall : ∀ t ∈ p.2, t ∈ fact :: facts := fun t ht => by
        rw [← singleton_append, ← hflat]
        exact mem_flatMap.2 ⟨p, hp, ht⟩
      obtain ⟨hp1, hpart⟩ := hparts p hp s hs
      refine ⟨hp1, fun t ht => ?_⟩
      rcases mem_append.1 ht with ht | ht
      · have hkey := hlt t ht s (hall s hs)
        exact iff_of_false (fun hmem => lt_irrefl _ (hlt t ht t (hall t hmem))) hkey.ne
      · exact hpart t ht
    · next hcut =>
      rw [Bool.or_eq_true, not_or, decide_eq_true_eq, not_not, Option.any_eq_true] at hcut
      obtain ⟨hsame, hfirst⟩ := hcut
      have hkey : ∀ s ∈ scope ++ [fact], s.root = root ∧ s.scopeKey = fact.scopeKey := by
        intro s hs
        rcases mem_append.1 hs with hs | hs
        · refine ⟨(hscope s hs).1, scopeKey_inj.2 ⟨(hscope s hs).1.trans hsame.symm, ?_⟩⟩
          obtain ⟨first, rest, rfl⟩ := exists_cons_of_ne_nil (ne_nil_of_mem hs)
          by_contra hne
          have heq := (scopeKey_inj.1 ((hscope s hs).2 first mem_cons_self)).2
          exact hfirst ⟨first, rfl, decide_eq_true (heq ▸ hne)⟩
        · rw [mem_singleton.1 hs]
          exact ⟨hsame, rfl⟩
      have hassoc : scope ++ [fact] ++ facts = scope ++ fact :: facts := by simp
      rw [← hassoc]
      exact ih (fun s hs => ⟨(hkey s hs).1, fun t ht => (hkey t ht).2.trans (hkey s hs).2.symm⟩)
        (hassoc ▸ hsorted)

omit [LinearOrder Time] in
/-- Counting a row for the first time is moving it to its group. -/
theorem countRow_eq_refreshRow {s : Stored Time} {c : Option (Option String)}
    (h : s.counted = none) : db.countRow root (s, c) = db.refreshRow root (s, c) := by
  match c with
  | none => simp [Db.countRow, Db.refreshRow, h]
  | some model =>
    cases hg : db.groups root (s.row.groupKey model) with
    | none | some => simp [Db.countRow, Db.refreshRow, h, Groups.count, Groups.addToGroup, hg]

/-- Counting scopes that have the rows of a table, each with all that its contributions depend on.
-/
theorem countScopes {parts : List (String × List (Stored Time))}
    {f : Stored Time → Option (Option String)}
    (hnodup : ((parts.flatMap (·.2)).map (·.row.id)).Nodup)
    (hparts : ∀ p ∈ parts, ∀ s ∈ p.2, s.root = p.1 ∧ s.counted = none ∧
      db.rows[s.row.id]? = some s ∧ contribution all (p.2.map (·.row)) s.row = f s)
    (h : db.groups.Holds (tally db.rows)) :
    let db' := parts.foldl Db.countScope db
    db'.rows = insertAll (·.row.id) (fun s => { s with counted := f s }) db.rows
      (parts.flatMap (·.2)) ∧
      db'.usage = db.usage ∧ db'.groups.Holds (tally db'.rows) := by
  induction parts generalizing db with
  | nil => exact ⟨rfl, rfl, h⟩
  | cons p parts ih =>
    rw [flatMap_cons, map_append, nodup_append'] at hnodup
    have hp := hparts p mem_cons_self
    have hscope : db.countScope p = (p.2.map fun s => (s, f s)).foldl (Db.refreshRow p.1) db := by
      have hpairs : p.2.zip (contributions all (p.2.map (·.row))) = p.2.map fun s => (s, f s) := by
        rw [zip_contributions]
        exact map_congr_left fun s hs => Prod.ext rfl (hp s hs).2.2.2
      rw [Db.countScope, hpairs]
      refine foldl_ext _ _ _ fun db e he => ?_
      obtain ⟨s, hs, rfl⟩ := List.mem_map.1 he
      exact countRow_eq_refreshRow (hp s hs).2.1
    obtain ⟨hrows, husage, hholds⟩ := refreshRows (f := f) hnodup.1 (fun s hs => (hp s hs).1)
      (fun s hs => (hp s hs).2.2.1) h
    rw [← hscope] at hrows husage hholds
    have hrest : ∀ q ∈ parts, ∀ s ∈ q.2, s.root = q.1 ∧ s.counted = none ∧
        (db.countScope p).rows[s.row.id]? = some s ∧ contribution all (q.2.map (·.row)) s.row =
            f s := by
      intro q hq s hs
      obtain ⟨hroot, hnone, hstored, hf⟩ := hparts q (mem_cons_of_mem _ hq) s hs
      refine ⟨hroot, hnone, ?_, hf⟩
      rw [hrows, getElem?_insertAll_of_notMem, hstored]
      exact fun hmem => hnodup.2.2 hmem (List.mem_map.2 ⟨s, mem_flatMap.2 ⟨q, hq, hs⟩, rfl⟩)
    obtain ⟨hrows', husage', hholds'⟩ := ih hnodup.2.1 hrest hholds
    refine ⟨?_, husage'.trans husage, hholds'⟩
    rw [hrows] at hrows'
    simp [hrows', insertAll]

/-- The rows of an agent in any list of them have the contributions that they have in the table. -/
theorem contribution_part {part : List (Stored Time)} {root agent : String}
    {x : CostRow Time} (hvalid : Valid table)
    (hpart : ∀ t, t ∈ part ↔ t ∈ agentRows table root agent) :
    contribution all (part.map (·.row)) x = contribution all (facts table root agent) x := by
  have hmem : ∀ y, y ∈ part.map (·.row) ↔ y ∈ facts table root agent := by
    intro y
    simp [facts, hpart]
  exact contribution_congr (fun a ha b hb => hvalid.facts a ((hmem a).1 ha) b ((hmem b).1 hb))
    hvalid.facts hmem

/-- The cost rows that a backfill loads, before it counts them. -/
def loaded (source : ExtTreeMap String (Usage Time)) : ExtTreeMap String (Stored Time) :=
  source.filterMap newRow

def loadedRows (source : ExtTreeMap String (Usage Time)) : List (Stored Time) :=
  ((loaded source).toList.map (·.2)).insertionSort fun a b => a.scopeKey ≤ b.scopeKey

section
variable {source : ExtTreeMap String (Usage Time)} {s : Stored Time}

omit [LinearOrder Time]

theorem getElem?_loaded (id : String) : (loaded source)[id]? = source[id]?.bind (newRow id) :=
  getElem?_filterMap'

theorem loaded_facts (id : String) :
    (loaded source)[id]?.map (fun s => (s.root, s.row)) = source[id]?.bind (rootFacts id) := by
  rw [getElem?_loaded, Option.map_bind]
  congr 1
  funext u
  rw [Function.comp_apply, newRow, Option.map_map]
  rfl

theorem counted_of_loaded (hs : (loaded source)[id]? = some s) : s.counted = none := by
  rw [getElem?_loaded, bind_eq_some_iff] at hs
  obtain ⟨u, -, hu⟩ := hs
  obtain ⟨root, -, rfl⟩ := map_eq_some_iff.1 hu
  rfl

theorem tally_loaded (root : String) (key : GroupKey) : tally (loaded source) root key = 0 := by
  refine countP_eq_zero.2 fun e he => ?_
  simp [counts_of_none (counted_of_loaded (mem_toList_iff_getElem?_eq_some.1 he))]

theorem mem_loadedRows : s ∈ loadedRows source ↔ ∃ id : String, (loaded source)[id]? = some s := by
  rw [loadedRows, (perm_insertionSort _ _).mem_iff, List.mem_map]
  simp [mem_toList_iff_getElem?_eq_some]

theorem nodup_loadedRows (hvalid : Valid (loaded source)) :
    ((loadedRows source).map (·.row.id)).Nodup := by
  rw [loadedRows, ((perm_insertionSort _ _).map _).nodup_iff, List.map_map, List.Nodup,
    pairwise_map]
  refine distinct_keys_toList.imp_of_mem fun {e e'} he he' hne heq => hne ?_
  rw [mem_toList_iff_getElem?_eq_some] at he he'
  simp only [Function.comp_apply, hvalid.id _ _ he, hvalid.id _ _ he'] at heq
  exact LawfulEqCmp.compare_eq_iff_eq.2 heq

end

/-- What a backfill stores: the loaded rows with their contributions. -/
theorem backfill_spec (hvalid : Valid (loaded source)) :
    (backfill source).rows = insertAll (·.row.id)
        (fun s =>
          { s with counted := contribution all (facts (loaded source) s.root s.row.agent) s.row })
        (loaded source) (loadedRows source) ∧
      (backfill source).usage = source ∧
          (backfill source).groups.Holds (tally (backfill source).rows) := by
  obtain ⟨hflat, hparts⟩ := @scopes_spec _ "" [] (loadedRows source) (fun s hs => nomatch hs)
    (pairwise_insertionSort _ _)
  rw [nil_append] at hflat hparts
  have hscopes : ∀ p ∈ scopes "" [] (loadedRows source), ∀ s ∈ p.2, s.root = p.1 ∧
    s.counted = none ∧
      (loaded source)[s.row.id]? = some s ∧ contribution all (p.2.map (·.row)) s.row =
        contribution all (facts (loaded source) s.root s.row.agent) s.row := by
    intro p hp s hs
    have hin : ∀ t ∈ p.2, t ∈ loadedRows source := fun t ht => hflat ▸ mem_flatMap.2 ⟨p, hp, ht⟩
    obtain ⟨hroot, hpart⟩ := hparts p hp s hs
    obtain ⟨id, hid⟩ := mem_loadedRows.1 (hin s hs)
    refine ⟨hroot, counted_of_loaded hid, by rwa [hvalid.id id s hid],
      contribution_part hvalid fun t => ?_⟩
    rw [mem_agentRows, ← scopeKey_inj, ← mem_loadedRows]
    exact ⟨fun ht => ⟨hin t ht, (hpart t (hin t ht)).1 ht⟩, fun ht => (hpart t ht.1).2 ht.2⟩
  have hempty : (⟨source, loaded source, fun _ _ => none⟩ : Db Time).groups.Holds
      (tally (loaded source)) := by
    intro root key
    rw [tally_loaded]
    rfl
  have hnodup : (((scopes "" [] (loadedRows source)).flatMap (·.2)).map (·.row.id)).Nodup := by
    rw [hflat]
    exact nodup_loadedRows hvalid
  have hspec := countScopes hnodup hscopes hempty
  rw [hflat] at hspec
  exact hspec

/-- A backfill is exact. -/
theorem exact_backfill (hseq : DistinctSeq source) : Exact (backfill source) := by
  have hvalid : Valid (loaded source) := valid_of_facts loaded_facts hseq
  obtain ⟨hrows, husage, hholds⟩ := backfill_spec hvalid
  have hget : ∀ id : String, (backfill source).rows[id]? = (loaded source)[id]?.map fun s =>
      { s with counted := contribution all (facts (loaded source) s.root s.row.agent) s.row } := by
    intro id
    rw [hrows]
    match hid : (loaded source)[id]? with
    | none =>
      refine (getElem?_insertAll_of_notMem fun hmem => ?_).trans hid
      obtain ⟨t, ht, rfl⟩ := List.mem_map.1 hmem
      obtain ⟨id', ht⟩ := mem_loadedRows.1 ht
      rw [hvalid.id id' t ht, ht] at hid
      cases hid
    | some s =>
      obtain rfl := hvalid.id id s hid
      exact getElem?_insertAll_of_mem (nodup_loadedRows hvalid) (mem_loadedRows.2 ⟨_, hid⟩)
  have hsame : SameFacts (loaded source) (backfill source).rows := by
    intro id
    rw [hget, Option.map_map]
    rfl
  refine ⟨fun id => ?_, fun root agent s hs => ?_, hholds⟩
  · rw [husage, ← loaded_facts]
    exact (hsame id).symm
  · obtain ⟨⟨id, hid⟩, hroot, hagent⟩ := mem_agentRows.1 hs
    rw [hget, map_eq_some_iff] at hid
    obtain ⟨t, ht, rfl⟩ := hid
    rw [← hsame.facts, ← hroot, ← hagent]

/-! ## Every run -/

theorem run_append (writes : List (String × Usage Time)) (write : String × Usage Time) :
    Db.run (writes ++ [write]) = (Db.run writes).upsert write := foldl_append ..

/-- The tables are exact after every sequence of writes that leaves no two usage rows with the same
sequence number at any time. -/
theorem exact_run {writes : List (String × Usage Time)}
    (hseq : ∀ pre, pre <+: writes → DistinctSeq (Db.run pre).usage) : Exact (Db.run writes) := by
  induction writes using List.reverseRecOn with
  | nil => exact exact_empty
  | append_singleton writes write ih =>
    have hprefix : writes <+: writes ++ [write] := prefix_append ..
    have hseq' := hseq _ prefix_rfl
    rw [run_append, upsert_usage] at hseq'
    rw [run_append]
    exact exact_upsert (ih fun pre hpre => hseq pre (hpre.trans hprefix)) (hseq _ hprefix) hseq'

/-- The number of rows of a root that a full recount of every agent puts into a group. -/
def recount (table : ExtTreeMap String (Stored Time)) (root : String) (key : GroupKey) : ℕ :=
  countRows (fun _ s => s.root = root &&
    (contribution all (facts table root s.row.agent) s.row).map s.row.groupKey = some key) table

theorem Exact.recount (h : Exact db) (root : String) (key : GroupKey) :
    tally db.rows root key = recount db.rows root key := by
  refine countP_congr fun e he => ?_
  rw [mem_toList_iff_getElem?_eq_some] at he
  simp only [Stored.counts, Bool.and_eq_true, decide_eq_true_eq]
  refine and_congr_right fun hroot => ?_
  rw [h.settled root e.2.row.agent e.2 (mem_agentRows.2 ⟨⟨_, he⟩, hroot, rfl⟩)]

/-- After every sequence of usage writes the stored contributions of each agent in each root are
those of a full recount, the groups of each root are the groups that the recount fills, each with
its number of rows, and both tables are what a backfill makes of the usage rows. -/
theorem run_recounts (writes : List (String × Usage Time))
    (hseq : ∀ pre, pre <+: writes → DistinctSeq (Db.run pre).usage) :
    (∀ root agent, (agentRows (Db.run writes).rows root agent).map (·.counted) =
        contributions (fun _ => true) ((agentRows (Db.run writes).rows root agent).map (·.row))) ∧
      (∀ root key, (Db.run writes).groups root key = if recount (Db.run writes).rows root key =
        0 then none
        else some (recount (Db.run writes).rows root key : ℤ)) ∧
      Db.run writes = backfill (Db.run writes).usage := by
  have hexact := exact_run hseq
  have hdistinct := hseq writes prefix_rfl
  refine ⟨fun root agent => ?_, fun root key => ?_, ?_⟩
  · rw [contributions, List.map_map]
    exact map_congr_left fun s hs => hexact.settled root agent s hs
  · rw [← hexact.recount, hexact.holds]
    rfl
  · exact hexact.unique (exact_backfill hdistinct)
      (backfill_spec (valid_of_facts loaded_facts hdistinct)).2.1.symm

/-- A provisional row, and then the final row of the same response in another turn. -/
def twoWrites : List (String × Usage ℕ) :=
  [("a", ⟨some "root", "agent", some "thread", some "one", 1, 10, ⟨some "m", none, some "r"⟩,
      some (.response "r" "m" ⟨some 3, none, none, none, some 1⟩ .legacy)⟩),
    ("b", ⟨some "root", "agent", some "thread", some "two", 2, 11, ⟨none, some "k", some "r"⟩,
      some (.response "r" "" ⟨some 4, none, none, none, some 1⟩ .live)⟩)]

theorem run_recounts_two : (∀ pre, pre <+: twoWrites → DistinctSeq (Db.run pre).usage) ∧
      Db.run twoWrites = backfill (Db.run twoWrites).usage := by
  have hseq : ∀ pre, pre <+: twoWrites → DistinctSeq (Db.run pre).usage := by
    have hinits : ∀ pre ∈ twoWrites.inits, DistinctSeq (Db.run pre).usage := by decide +kernel
    exact fun pre hpre => hinits pre ((mem_inits ..).2 hpre)
  exact ⟨hseq, (run_recounts twoWrites hseq).2.2⟩

end Layr.Costs
