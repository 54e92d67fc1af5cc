import Layr.CostsScope

/-!
# Refreshing a scope

The groups hold the number of rows that are counted in them (`tally`), at every step: a row is taken
out of its group and put into another one together with the change of its stored contribution
(`refreshRow_holds`).

`refreshScope` leaves the cost facts as they are and stores the contribution of every row of the
scope (`getElem?_refreshScope`). If the other rows of the agent have the right contribution already
(`Stale`), all of them have it then (`Settled`), and no other agent is touched. `settled_of_stale`
refreshes the scopes of a write one after the other.
-/

namespace Layr.Costs

open Std Maps Tables List Option

variable {Time : Type}

/-! ## Groups hold the number of rows -/

def held (n : ℕ) : Option ℤ := if n = 0 then none else some n

def Groups.Holds (groups : Groups) (n : String → GroupKey → ℕ) : Prop :=
  ∀ root key, groups root key = held (n root key)

def Stored.counts (s : Stored Time) (root : String) (key : GroupKey) : Bool :=
  s.root = root && s.counted.map s.row.groupKey = some key

def tally (table : ExtTreeMap String (Stored Time)) (root : String) (key : GroupKey) : ℕ :=
  countRows (fun _ s => s.counts root key) table

variable {groups : Groups} {n : String → GroupKey → ℕ} {s : Stored Time}

theorem counts_of_none (h : s.counted = none) (root : String) (key : GroupKey) :
    s.counts root key = false := by
  simp [Stored.counts, h]

theorem counts_of_some {model : Option String} (h : s.counted = some model) (root : String)
    (key : GroupKey) :
    s.counts root key = true ↔ root = s.root ∧ key = s.row.groupKey model := by
  rw [Stored.counts, h, Bool.and_eq_true, decide_eq_true_eq, decide_eq_true_eq, map_some, some_inj]
  exact and_congr eq_comm eq_comm

theorem Groups.Holds.count_one (h : groups.Holds n) :
    (groups.count s.root s.row s.counted 1).Holds fun root key => n root key +
      if s.counts root key then 1 else 0 := by
  intro root key
  match hc : s.counted with
  | none =>
    simpa only [counts_of_none hc, Groups.count, Bool.false_eq_true, if_false, Nat.add_zero] using h
      root key
  | some model =>
    simp only [Groups.count, Groups.addToGroup, Groups.set, counts_of_some hc]
    split
    · next heq =>
      obtain ⟨rfl, rfl⟩ := heq
      rw [h]
      by_cases hn : n s.root (s.row.groupKey model) = 0
      · simp [held, hn]
      · simp [held, hn]
    · exact h root key

theorem Groups.Holds.count_neg_one
    (h : groups.Holds fun root key => n root key + if s.counts root key then 1 else 0) :
    (groups.count s.root s.row s.counted (-1)).Holds n := by
  intro root key
  have hgroup := h root key
  match hc : s.counted with
  | none =>
    simpa only [counts_of_none hc, Groups.count, Bool.false_eq_true, if_false,
      Nat.add_zero] using hgroup
  | some model =>
    simp only [Groups.count, Groups.addToGroup, Groups.set]
    simp only [counts_of_some hc] at hgroup
    split
    · next heq =>
      obtain ⟨rfl, rfl⟩ := heq
      rw [if_pos ⟨rfl, rfl⟩] at hgroup
      rw [hgroup]
      by_cases hn : n s.root (s.row.groupKey model) = 0
      · simp [held, hn]
      · simp only [held, Nat.add_eq_zero_iff, hn, one_ne_zero, and_self, if_false, Int.natCast_add,
          Int.cast_ofNat_Int, Int.reduceNeg, Int.neg_neg_iff_pos, zero_lt_one, true_and,
            ite_none_left_eq_some, Int.not_le,
          some.injEq]
        omega
    · next hne =>
      rw [if_neg hne] at hgroup
      exact hgroup

/-! ## One row -/

variable {db : Db Time} {c : Option (Option String)} {table : ExtTreeMap String (Stored Time)}
  {id : String}

theorem tally_eq (h : table[id]? = some s) (root : String) (key : GroupKey) :
    tally table root key = tally (table.erase id) root key + if s.counts root key then 1 else 0 :=
  countRows_erase h

theorem tally_insert (root : String) (key : GroupKey) :
    tally (table.insert id s) root key = tally (table.erase id) root key +
      if s.counts root key then 1 else 0 :=
  countRows_insert

theorem insert_eq_self (h : table[id]? = some s) : table.insert id s = table :=
    ext_getElem? fun k => by
  by_cases hk : id = k
  · subst hk
    rw [getElem?_insert_self, h]
  · rw [getElem?_insert_ne hk]

/-- A refreshed row is stored with its new contribution. -/
theorem refreshRow_rows (hs : db.rows[s.row.id]? = some s) :
    (db.refreshRow s.root (s, c)).rows = db.rows.insert s.row.id { s with counted := c } := by
  unfold Db.refreshRow
  split
  · next heq =>
    obtain rfl : s.counted = c := heq
    exact (insert_eq_self hs).symm
  · simp [setCounted, hs]

theorem refreshRow_usage {root : String} : (db.refreshRow root (s, c)).usage = db.usage := by
  unfold Db.refreshRow
  split
  · rfl
  · rfl

theorem refreshRow_holds (hs : db.rows[s.row.id]? = some s) (h : db.groups.Holds (tally db.rows)) :
    (db.refreshRow s.root (s, c)).groups.Holds (tally (db.refreshRow s.root (s, c)).rows) := by
  rw [refreshRow_rows hs]
  unfold Db.refreshRow
  split
  · next heq =>
    obtain rfl : s.counted = c := heq
    rwa [insert_eq_self hs]
  have hout : (db.groups.count s.root s.row s.counted (-1)).Holds
      (tally (db.rows.erase s.row.id)) :=
    Groups.Holds.count_neg_one fun root key => by rw [h root key, tally_eq hs]
  intro root key
  rw [tally_insert]
  exact hout.count_one (s := { s with counted := c }) root key

theorem refreshRows {root : String} {scope : List (Stored Time)}
    {f : Stored Time → Option (Option String)} (hnodup : (scope.map (·.row.id)).Nodup)
    (hroot : ∀ s ∈ scope, s.root = root)
    (hs : ∀ s ∈ scope, db.rows[s.row.id]? = some s) (h : db.groups.Holds (tally db.rows)) :
    let db' := (scope.map fun s => (s, f s)).foldl (Db.refreshRow root) db
    db'.rows = insertAll (·.row.id) (fun s => { s with counted := f s }) db.rows scope ∧
      db'.usage = db.usage ∧ db'.groups.Holds (tally db'.rows) := by
  induction scope generalizing db with
  | nil => exact ⟨rfl, rfl, h⟩
  | cons s scope ih =>
    rw [map_cons, nodup_cons] at hnodup
    obtain rfl := hroot s mem_cons_self
    have hself := hs s mem_cons_self
    have hrest : ∀ t ∈ scope, (db.refreshRow s.root (s, f s)).rows[t.row.id]? = some t := by
      intro t ht
      have hne : s.row.id ≠ t.row.id := fun heq => hnodup.1 (heq ▸ List.mem_map.2 ⟨t, ht, rfl⟩)
      rw [refreshRow_rows hself, getElem?_insert_ne hne]
      exact hs t (mem_cons_of_mem _ ht)
    obtain ⟨hrows, husage, hholds⟩ := ih hnodup.2 (fun t ht => hroot t (mem_cons_of_mem _ ht)) hrest
      (refreshRow_holds hself h)
    rw [refreshRow_rows hself] at hrows
    exact ⟨hrows, husage.trans refreshRow_usage, hholds⟩

/-! ## One scope -/

section
variable {root agent : String} {turns : TurnScopes} {table' : ExtTreeMap String (Stored Time)}

theorem scopeRows_sublist : (scopeRows table root agent turns).Sublist
    (agentRows table root agent) := by
  unfold scopeRows
  simp only
  split
  · exact List.Sublist.refl _
  · split
    · exact nil_sublist _
    · exact filter_sublist

theorem mem_agentRows_of_mem_scopeRows (hs : s ∈ scopeRows table root agent turns) :
    s ∈ agentRows table root agent := scopeRows_sublist.subset hs

theorem Valid.nodup_agentRows (h : Valid table) :
    ((agentRows table root agent).map (·.row.id)).Nodup := by
  rw [agentRows, select, List.Nodup, pairwise_map, pairwise_filterMap]
  refine distinct_keys_toList.imp_of_mem fun {e e'} he he' hne b hb b' hb' heq => hne ?_
  rw [mem_toList_iff_getElem?_eq_some] at he he'
  rw [ite_none_right_eq_some] at hb hb'
  cases hb.2
  cases hb'.2
  rw [h.id _ _ he, h.id _ _ he'] at heq
  exact LawfulEqCmp.compare_eq_iff_eq.2 heq

theorem Valid.nodup_scopeRows (h : Valid table) :
    ((scopeRows table root agent turns).map (·.row.id)).Nodup :=
  (scopeRows_sublist.map _).nodup h.nodup_agentRows

theorem Valid.stored (h : Valid table) (hs : s ∈ agentRows table root agent) :
    table[s.row.id]? = some s := by
  obtain ⟨⟨id, hid⟩, -⟩ := mem_agentRows.1 hs
  rwa [h.id id s hid]

/-- The same cost facts, with whatever contributions. -/
def SameFacts (table table' : ExtTreeMap String (Stored Time)) : Prop :=
  ∀ id : String, table[id]?.map (fun s => (s.root, s.row)) = table'[id]?.map fun s =>
    (s.root, s.row)

section

variable (h : SameFacts table table')
include h

theorem SameFacts.exists (hs : table[id]? = some s) :
    ∃ c, table'[id]? = some { s with counted := c } := by
  have hid := h id
  rw [hs, map_some, eq_comm, map_eq_some_iff] at hid
  obtain ⟨t, ht, heq⟩ := hid
  rw [Prod.mk.injEq] at heq
  exact ⟨t.counted, by rw [ht, ← heq.1, ← heq.2]⟩

theorem SameFacts.symm : SameFacts table' table := fun id => (h id).symm

theorem SameFacts.trans {table'' : ExtTreeMap String (Stored Time)}
    (h' : SameFacts table' table'') : SameFacts table table'' := fun id => (h id).trans (h' id)

theorem SameFacts.facts : facts table root agent = facts table' root agent := by
  have hselect : ∀ t : ExtTreeMap String (Stored Time), Costs.facts t root agent =
      select (fun _ s => if s.root = root ∧ s.row.agent = agent then some s.row else none) t := by
    intro t
    rw [Costs.facts, agentRows, select, select, map_filterMap]
    congr 1
    funext e
    split
    · rfl
    · rfl
  rw [hselect, hselect]
  refine select_congr fun id => ?_
  have hid := h id
  cases hs : table[id]? with
  | none =>
    rw [hs, map_none, eq_comm, map_eq_none_iff] at hid
    rw [hid]
  | some s =>
    rw [hs, map_some, eq_comm, map_eq_some_iff] at hid
    obtain ⟨t, ht, heq⟩ := hid
    rw [Prod.mk.injEq] at heq
    simp [ht, heq.1, heq.2]

theorem SameFacts.valid (hvalid : Valid table) : Valid table' where
  id := fun id s hs => by
    obtain ⟨c, hc⟩ := h.symm.exists hs
    exact hvalid.id id { s with counted := c } hc
  seq := fun id id' s s' hs hs' hseq => by
    obtain ⟨c, hc⟩ := h.symm.exists hs
    obtain ⟨c', hc'⟩ := h.symm.exists hs'
    exact hvalid.seq id id' { s with counted := c } { s' with counted := c' } hc hc' hseq

end

variable [LinearOrder Time]

theorem zip_contributions (scope : List (Stored Time)) :
    scope.zip (contributions all (scope.map (·.row))) =
      scope.map fun s => (s, contribution all (scope.map (·.row)) s.row) := by
  rw [contributions, List.map_map]
  nth_rewrite 1 [← List.map_id scope]
  exact zip_map' ..

section

variable (hvalid : Valid db.rows) (h : db.groups.Holds (tally db.rows))
include hvalid h

theorem refreshScope_spec :
    let db' := db.refreshScope root agent turns
    db'.rows = insertAll (·.row.id)
        (fun s => { s with counted := contribution all (facts db.rows root agent) s.row }) db.rows
        (scopeRows db.rows root agent turns) ∧
      db'.usage = db.usage ∧ db'.groups.Holds (tally db'.rows) := by
  have hpairs : (scopeRows db.rows root agent turns).zip
        (contributions all ((scopeRows db.rows root agent turns).map (·.row))) =
      (scopeRows db.rows root agent turns).map fun s =>
          (s, contribution all (facts db.rows root agent) s.row) := by
    rw [zip_contributions]
    exact map_congr_left fun s hs => Prod.ext rfl (contribution_scope hvalid hs)
  unfold Db.refreshScope
  simp only
  rw [hpairs]
  refine refreshRows (f := fun s => contribution all (facts db.rows root agent) s.row)
    hvalid.nodup_scopeRows
    (fun s hs => ?_) (fun s hs => ?_) h
  · exact (mem_agentRows.1 (mem_agentRows_of_mem_scopeRows hs)).2.1
  · exact hvalid.stored (mem_agentRows_of_mem_scopeRows hs)

/-- What refreshing a scope stores: the contribution of each row of the scope. -/
theorem getElem?_refreshScope (id : String) :
    (db.refreshScope root agent turns).rows[id]? = db.rows[id]?.map fun s =>
      if s ∈ scopeRows db.rows root agent turns then
        { s with counted := contribution all (facts db.rows root agent) s.row }
      else s := by
  have hstored : ∀ s ∈ scopeRows db.rows root agent turns, db.rows[s.row.id]? = some s :=
      fun s hs =>
    hvalid.stored (mem_agentRows_of_mem_scopeRows hs)
  rw [(refreshScope_spec hvalid h).1]
  match hid : db.rows[id]? with
  | none =>
    refine (getElem?_insertAll_of_notMem fun hmem => ?_).trans hid
    obtain ⟨t, ht, rfl⟩ := List.mem_map.1 hmem
    rw [hstored t ht] at hid
    cases hid
  | some s =>
    obtain rfl := hvalid.id id s hid
    rw [map_some]
    split
    · next hs => exact getElem?_insertAll_of_mem hvalid.nodup_scopeRows hs
    next hs =>
    refine (getElem?_insertAll_of_notMem fun hmem => hs ?_).trans hid
    obtain ⟨t, ht, heq⟩ := List.mem_map.1 hmem
    have hid' := hstored t ht
    rw [heq, hid] at hid'
    cases hid'
    exact ht

theorem refreshScope_sameFacts : SameFacts db.rows (db.refreshScope root agent turns).rows := by
  intro id
  rw [getElem?_refreshScope hvalid h, Option.map_map]
  congr 1
  funext s
  simp only [Function.comp_apply]
  split
  · rfl
  · rfl

theorem agentRows_refreshScope_of_ne {root' agent' : String}
    (hne : (root', agent') ≠ (root, agent)) :
    agentRows (db.refreshScope root agent turns).rows root' agent' =
      agentRows db.rows root' agent' := by
  refine select_congr fun id => ?_
  rw [getElem?_refreshScope hvalid h]
  match db.rows[id]? with
  | none => rfl
  | some s =>
    simp only [map_some, bind_some]
    split
    · next hs =>
      obtain ⟨-, hroot, hagent⟩ := mem_agentRows.1 (mem_agentRows_of_mem_scopeRows hs)
      have hnot : ¬(s.root = root' ∧ s.row.agent = agent') := fun heq =>
        hne (by rw [← heq.1, ← heq.2, hroot, hagent])
      rw [if_neg hnot, if_neg hnot]
    · rfl

end

/-! ## The scopes of a write -/

def Settled (table : ExtTreeMap String (Stored Time)) (root agent : String) : Prop :=
  ∀ s ∈ agentRows table root agent, s.counted = contribution all (facts table root agent) s.row

def Stale (table : ExtTreeMap String (Stored Time)) (root agent : String)
    (turns : TurnScopes) : Prop :=
  ∀ s ∈ agentRows table root agent, s ∉ scopeRows table root agent turns →
    s.counted = contribution all (facts table root agent) s.row

theorem settled_refreshScope (hvalid : Valid db.rows) (h : db.groups.Holds (tally db.rows))
    (hstale : Stale db.rows root agent turns) :
    Settled (db.refreshScope root agent turns).rows root agent := by
  intro s hs
  rw [← (refreshScope_sameFacts hvalid h).facts]
  obtain ⟨⟨id, hid⟩, hroot, hagent⟩ := mem_agentRows.1 hs
  rw [getElem?_refreshScope hvalid h, map_eq_some_iff] at hid
  obtain ⟨t, ht, heq⟩ := hid
  split at heq
  · subst heq
    rfl
  · next hout =>
    subst heq
    exact hstale t (mem_agentRows.2 ⟨⟨id, ht⟩, hroot, hagent⟩) hout

/-- Refresh scopes of different agents, one after the other. -/
theorem settled_of_stale {scopes : List ((String × String) × TurnScopes)}
    (hnodup : (scopes.map (·.1)).Nodup) (hvalid : Valid db.rows)
    (h : db.groups.Holds (tally db.rows))
    (hstale : ∀ p ∈ scopes, Stale db.rows p.1.1 p.1.2 p.2)
    (hsettled : ∀ root agent, (root, agent) ∉ scopes.map (·.1) → Settled db.rows root agent) :
    let db' := scopes.foldl (fun db scope => db.refreshScope scope.1.1 scope.1.2 scope.2) db
    (∀ root agent, Settled db'.rows root agent) ∧ db'.groups.Holds (tally db'.rows) ∧
        SameFacts db.rows db'.rows := by
  induction scopes generalizing db with
  | nil => exact ⟨fun root agent => hsettled root agent (nomatch ·), h, fun _ => rfl⟩
  | cons p scopes ih =>
    obtain ⟨⟨root, agent⟩, turns⟩ := p
    rw [map_cons, nodup_cons] at hnodup
    have hsame : SameFacts db.rows (db.refreshScope root agent turns).rows :=
      refreshScope_sameFacts hvalid h
    have hother : ∀ root' agent', (root', agent') ≠ (root, agent) →
        agentRows (db.refreshScope root agent turns).rows root' agent' =
            agentRows db.rows root' agent' :=
      fun root' agent' => agentRows_refreshScope_of_ne hvalid h
    have hrest : ∀ p ∈ scopes, Stale (db.refreshScope root agent turns).rows p.1.1 p.1.2 p.2 := by
      intro p hp
      have hne : (p.1.1, p.1.2) ≠ (root, agent) :=
        fun heq => hnodup.1 (heq ▸ List.mem_map.2 ⟨p, hp, rfl⟩)
      rw [Stale, ← hsame.facts, scopeRows, hother _ _ hne]
      exact hstale p (mem_cons_of_mem _ hp)
    have hdone : ∀ root' agent', (root', agent') ∉ scopes.map (·.1) →
        Settled (db.refreshScope root agent turns).rows root' agent' := by
      intro root' agent' hnot
      by_cases heq : (root', agent') = (root, agent)
      · cases heq
        exact settled_refreshScope hvalid h (hstale _ mem_cons_self)
      · rw [Settled, ← hsame.facts, hother _ _ heq]
        exact hsettled root' agent' (by simp [heq, hnot])
    obtain ⟨-, -, hholds⟩ := @refreshScope_spec _ db root agent turns _ hvalid h
    obtain ⟨hsettled', hholds', hsame'⟩ := ih hnodup.2 (hsame.valid hvalid) hholds hrest hdone
    exact ⟨hsettled', hholds', hsame.trans hsame'⟩

end

end Layr.Costs
