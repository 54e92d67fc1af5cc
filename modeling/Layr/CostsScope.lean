import Layr.Costs

/-!
# What a contribution depends on

Whether a row is suppressed depends on the rows with its response and, if it has none, on the rows
of its turn (`suppressed_congr`). A row with a model depends on nothing else, and every other row on
the rows of its agent (`contribution_congr`, `contribution_eq_of_agree`). The order of the rows does
not matter as long as their sequence numbers are different.

So the rows that `scopeRows` selects have the same contributions among themselves as among all rows
of their agent (`contribution_scope`), and the contributions of the other rows are those of before
the change (`contribution_unaffected`).
-/

namespace Layr.Costs

open Std Tables List

variable {Time : Type} {rows rows' : List (CostRow Time)} {x y : CostRow Time}

abbrev all : CostRow Time → Bool := fun _ => true

def SeqInj (rows : List (CostRow Time)) : Prop := ∀ a ∈ rows, ∀ b ∈ rows, a.seq = b.seq → a = b

theorem SeqInj.filter (h : SeqInj rows) (p : CostRow Time → Bool) : SeqInj (rows.filter p) :=
  fun a ha b hb => h a (mem_of_mem_filter ha) b (mem_of_mem_filter hb)

/-! ## The ranks of the counting rules -/

/-- Final evidence comes before provisional evidence, then the first row. -/
def CostRow.rank (row : CostRow Time) : ℕ ×ₗ ℤ :=
  toLex (if row.finalEvidence then 0 else 1, row.seq)

theorem CostRow.beats_iff (a b : CostRow Time) : a.beats b = true ↔ a.rank < b.rank := by
  cases ha : a.finalEvidence <;> cases hb : b.finalEvidence <;>
    simp [CostRow.beats, CostRow.evidence, supersedes, CostRow.rank,
      Prod.Lex.toLex_lt_toLex, ha, hb]

theorem SeqInj.rank (h : SeqInj rows) : ∀ a ∈ rows, ∀ b ∈ rows, a.rank = b.rank → a = b :=
  fun a ha b hb heq => h a ha b hb (Prod.ext_iff.1 (toLex_inj.1 heq)).2

section
variable [LinearOrder Time]

def CostRow.age (row : CostRow Time) : (Time ×ₗ ℤ)ᵒᵈ := OrderDual.toDual (toLex (row.time, row.seq))

theorem CostRow.newer_iff (a b : CostRow Time) : a.newer b = true ↔ a.age < b.age := by
  simp [CostRow.newer, CostRow.age, Prod.Lex.toLex_lt_toLex]

omit [LinearOrder Time] in
theorem SeqInj.age (h : SeqInj rows) : ∀ a ∈ rows, ∀ b ∈ rows, a.age = b.age → a = b :=
  fun a ha b hb heq => h a ha b hb (Prod.ext_iff.1 (toLex_inj.1 (OrderDual.toDual_inj.1 heq))).2

end

/-! ## Suppressed rows -/

theorem winners_congr {k : String × String} (hrows : SeqInj rows) (hrows' : SeqInj rows')
    (h : ∀ y : CostRow Time, y.response = some k.2 → y.agent = k.1 → (y ∈ rows ↔ y ∈ rows')) :
    winners all rows k = winners all rows' k := by
  refine Best.keepBest_congr CostRow.beats_iff (hrows.filter _).rank
    (hrows'.filter _).rank fun y hy => ?_
  obtain ⟨r, hr, rfl⟩ := map_eq_some_iff.1 hy
  rw [mem_filter, mem_filter, h y hr rfl]

theorem mem_respondedTurns {t : String × Option String × Option String} :
    t ∈ respondedTurns all rows ↔
      ∃ y ∈ rows, (y.eligible ≠ some false ∧ y.response.isSome) ∧
        (y.agent, y.thread, y.turn) = t := by
  simp [respondedTurns, and_assoc]

/-- Two scopes agree on a row if they have the same rows of its response and, in case it has none,
of its turn. -/
structure Agree (rows rows' : List (CostRow Time)) (x : CostRow Time) : Prop where
  response : ∀ (r : String) (y : CostRow Time), x.response = some r → y.response = some r →
    y.agent = x.agent →
    (y ∈ rows ↔ y ∈ rows')
  turn : x.response = none → ∀ y : CostRow Time, y.agent = x.agent → y.thread = x.thread →
    y.turn = x.turn →
    (y ∈ rows ↔ y ∈ rows')

theorem suppressed_congr (hrows : SeqInj rows) (hrows' : SeqInj rows') (h : Agree rows rows' x) :
    suppressed all rows x = suppressed all rows' x := by
  have hwinner : ∀ r, x.response = some r →
      winners all rows (x.agent, r) = winners all rows' (x.agent, r) :=
    fun r hr => winners_congr hrows hrows' fun y hy hagent => h.response r y hr hy hagent
  have hresponded : x.response = none → ((x.agent, x.thread, x.turn) ∈ respondedTurns all rows ↔
        (x.agent, x.thread, x.turn) ∈ respondedTurns all rows') := by
    intro hnone
    simp only [mem_respondedTurns, Prod.mk.injEq]
    constructor
    · rintro ⟨y, hy, hresp, hagent, hthread, hturn⟩
      exact ⟨y, (h.turn hnone y hagent hthread hturn).1 hy, hresp, hagent, hthread, hturn⟩
    · rintro ⟨y, hy, hresp, hagent, hthread, hturn⟩
      exact ⟨y, (h.turn hnone y hagent hthread hturn).2 hy, hresp, hagent, hthread, hturn⟩
  unfold suppressed
  match x.eligible, hr : x.response with
  | some false, _ => rfl
  | some true, none => rfl
  | some true, some r => simp [hwinner r hr]
  | none, none => simp [hresponded hr]
  | none, some r => simp [hwinner r hr]

/-! ## Contributions -/

variable [LinearOrder Time]

theorem models_congr {part : CostRow Time → Option String} (hrows : SeqInj rows)
    (hrows' : SeqInj rows') (h : ∀ y, y ∈ rows ↔ y ∈ rows') :
    models all rows part = models all rows' part := by
  have hsuppressed : ∀ y, suppressed all rows y = suppressed all rows' y := fun y =>
    suppressed_congr hrows hrows' ⟨fun _ y _ _ _ => h y, fun _ y _ _ _ => h y⟩
  have hany : rows.any (·.model.isNone) = rows'.any (·.model.isNone) := by
    rw [Bool.eq_iff_iff, any_eq_true, any_eq_true]
    simp [h]
  unfold models
  rw [hany]
  split
  · funext k
    refine Best.keepBest_congr CostRow.newer_iff (hrows.filter _).age
      (hrows'.filter _).age fun y _ => ?_
    rw [mem_filter, mem_filter, h y, hsuppressed y]
  · rfl

/-- The contributions of a scope depend only on which rows it has. -/
theorem contribution_congr (hrows : SeqInj rows) (hrows' : SeqInj rows')
    (h : ∀ y, y ∈ rows ↔ y ∈ rows') :
    contribution all rows x = contribution all rows' x := by
  have hsuppressed := suppressed_congr (x := x) hrows hrows'
    ⟨fun _ y _ _ _ => h y, fun _ y _ _ _ => h y⟩
  simp [contribution, turnModels, threadModels, hsuppressed, models_congr hrows hrows' h]

def CostRow.Modeled (row : CostRow Time) : Prop := row.eligible = some false ∨ row.model.isSome

omit [LinearOrder Time] in
theorem CostRow.modeled_iff : x.Modeled ↔ ¬(x.model.isNone && x.eligible ≠ some false) = true := by
  unfold CostRow.Modeled
  cases x.model <;> simp

theorem contribution_of_modeled (h : x.Modeled) :
    contribution all rows x = if suppressed all rows x then none else some x.model := by
  unfold contribution
  rcases h with hfalse | hmodel
  · simp [suppressed, hfalse]
  · obtain ⟨model, hmodel⟩ := isSome_iff_exists.1 hmodel
    simp [hmodel]

/-- The contribution of a row that needs no model is the same in two scopes that agree on it. -/
theorem contribution_eq_of_agree (hrows : SeqInj rows) (hrows' : SeqInj rows') (hx : x.Modeled)
    (h : Agree rows rows' x) : contribution all rows x = contribution all rows' x := by
  rw [contribution_of_modeled hx, contribution_of_modeled hx, suppressed_congr hrows hrows' h]

/-! ## Scopes of a table -/

def facts (table : ExtTreeMap String (Stored Time)) (root agent : String) : List (CostRow Time) :=
  (agentRows table root agent).map (·.row)

section
variable {table table' : ExtTreeMap String (Stored Time)} {root agent id : String}
  {turns : TurnScopes} {s t : Stored Time}

/-- Rows are stored under their ids and have different sequence numbers. -/
structure Valid (table : ExtTreeMap String (Stored Time)) : Prop where
  id : ∀ (id : String) (s : Stored Time), table[id]? = some s → s.row.id = id
  seq : ∀ (id id' : String) (s s' : Stored Time), table[id]? = some s → table[id']? = some s' →
    s.row.seq = s'.row.seq → id = id'

omit [LinearOrder Time]

theorem mem_agentRows :
    s ∈ agentRows table root agent ↔ (∃ id : String, table[id]? = some s) ∧ s.root = root ∧
      s.row.agent = agent := by
  rw [agentRows, mem_select]
  constructor
  · rintro ⟨id, t, ht, hif⟩
    split at hif
    · next h =>
      cases hif
      exact ⟨⟨id, ht⟩, h⟩
    · cases hif
  · rintro ⟨⟨id, hs⟩, h⟩
    exact ⟨id, s, hs, if_pos h⟩

theorem mem_facts :
    x ∈ facts table root agent ↔ ∃ (id : String) (s : Stored Time), table[id]? = some s ∧
      s.root = root ∧
      s.row.agent = agent ∧ s.row = x := by
  simp only [facts, mem_map, mem_agentRows]
  constructor
  · rintro ⟨s, ⟨⟨id, hs⟩, hroot, hagent⟩, hx⟩
    exact ⟨id, s, hs, hroot, hagent, hx⟩
  · rintro ⟨id, s, hs, hroot, hagent, hx⟩
    exact ⟨s, ⟨⟨id, hs⟩, hroot, hagent⟩, hx⟩

theorem Valid.facts (h : Valid table) : SeqInj (facts table root agent) := by
  intro a ha b hb hseq
  obtain ⟨id, s, hs, -, -, rfl⟩ := mem_facts.1 ha
  obtain ⟨id', s', hs', -, -, rfl⟩ := mem_facts.1 hb
  obtain rfl := h.seq id id' s s' hs hs' hseq
  rw [hs] at hs'
  cases hs'
  rfl

def Touched (turns : TurnScopes) (x : CostRow Time) : Prop :=
  ∃ t ∈ turns, x.thread = t.1 ∧ x.turn = t.2.1

def Affected (table : ExtTreeMap String (Stored Time)) (root agent : String) (turns : TurnScopes)
    (r : String) :
    Prop :=
  (∃ t ∈ agentRows table root agent, Touched turns t.row ∧ t.row.response = some r) ∨
    ∃ t ∈ turns, t.2.2 = some r

/-- If a row of the agent needs a model, the scope is the whole agent. -/
theorem scopeRows_of_unmodeled (h : ¬∀ s ∈ agentRows table root agent, s.row.Modeled) :
    scopeRows table root agent turns = agentRows table root agent := by
  simp only [not_forall, CostRow.modeled_iff, not_not] at h
  obtain ⟨t, ht, hnot⟩ := h
  exact if_pos (any_eq_true.2 ⟨t, ht, hnot⟩)

/-- If every row of the agent has what it needs, the scope is the changed turns and the rows with
the same responses. -/
theorem mem_scopeRows (hvalid : Valid table)
    (hmodeled : ∀ s ∈ agentRows table root agent, s.row.Modeled) :
    s ∈ scopeRows table root agent turns ↔ s ∈ agentRows table root agent ∧
      (Touched turns s.row ∨ ∃ r, s.row.response = some r ∧ Affected table root agent turns r) := by
  have hany : ¬((agentRows table root agent).any fun stored =>
      stored.row.model.isNone && stored.row.eligible ≠ some false) = true := by
    rw [any_eq_true]
    rintro ⟨t, ht, hnot⟩
    exact CostRow.modeled_iff.1 (hmodeled t ht) hnot
  unfold scopeRows
  simp only [if_neg hany]
  split
  · next hempty =>
    obtain rfl := List.isEmpty_iff.1 hempty
    simp [Touched, Affected]
  simp only [mem_filter, Bool.or_eq_true, any_eq_true, Bool.and_eq_true, decide_eq_true_eq,
    Option.any_eq_true, contains_iff_mem, mem_append, mem_filterMap]
  refine and_congr_right fun hs => or_congr ?_ ?_
  · constructor
    · rintro ⟨t, ⟨ht, htouched⟩, hid⟩
      obtain ⟨⟨id, hs⟩, -⟩ := mem_agentRows.1 hs
      obtain ⟨⟨id', ht⟩, -⟩ := mem_agentRows.1 ht
      rw [hvalid.id _ _ hs, hvalid.id _ _ ht] at hid
      subst hid
      rw [ht] at hs
      cases hs
      exact htouched
    · intro htouched
      exact ⟨s, ⟨hs, htouched⟩, rfl⟩
  · refine exists_congr fun r => and_congr_right fun _ =>
      or_congr (exists_congr fun t => ?_) Iff.rfl
    rw [and_assoc]
    rfl

/-- A row that is in no changed turn and has no affected response is not the changed row, so it is
in the table of before too. -/
theorem mem_facts_of_unchanged (hsame : ∀ id' ≠ id, table[id']? = table'[id']?)
    (hne : ∀ t, table[id]? = some t → t.root = root → t.row.agent = agent → t.row ≠ x)
    (hx : x ∈ facts table root agent) : x ∈ facts table' root agent := by
  obtain ⟨id', t, ht, hroot, hagent, rfl⟩ := mem_facts.1 hx
  by_cases hid : id' = id
  · subst hid
    exact absurd rfl (hne t ht hroot hagent)
  · exact mem_facts.2 ⟨id', t, hsame id' hid ▸ ht, hroot, hagent, rfl⟩

def Names (turns : TurnScopes) (table : ExtTreeMap String (Stored Time))
    (id root agent : String) : Prop :=
  ∀ t, table[id]? = some t → t.root = root → t.row.agent = agent →
    (t.row.thread, t.row.turn, t.row.response) ∈ turns

end

section
variable {table table' : ExtTreeMap String (Stored Time)} {root agent id : String}
  {turns : TurnScopes} {s : Stored Time}

/-- A scope is closed: its rows have the same contributions among themselves as among all rows of
the agent. -/
theorem contribution_scope (hvalid : Valid table) (hs : s ∈ scopeRows table root agent turns) :
    contribution all ((scopeRows table root agent turns).map (·.row)) s.row =
      contribution all (facts table root agent) s.row := by
  by_cases hmodeled : ∀ t ∈ agentRows table root agent, t.row.Modeled
  · have hmem : ∀ t, t ∈ scopeRows table root agent turns ↔ t ∈ agentRows table root agent ∧
        (Touched turns t.row ∨ ∃ r, t.row.response = some r ∧ Affected table root agent turns r) :=
      fun t => mem_scopeRows hvalid hmodeled
    have hsub : ∀ y ∈ (scopeRows table root agent turns).map (·.row),
        y ∈ facts table root agent := by
      intro y hy
      obtain ⟨t, ht, rfl⟩ := mem_map.1 hy
      exact mem_map.2 ⟨t, ((hmem t).1 ht).1, rfl⟩
    obtain ⟨hagent, hcase⟩ := (hmem s).1 hs
    refine contribution_eq_of_agree (fun a ha b hb => hvalid.facts a (hsub a ha) b (hsub b hb))
      hvalid.facts
      (hmodeled s hagent)
          ⟨fun r y hr hy _ => ⟨hsub y, fun hfact => ?_⟩, fun hnone y _ hthread hturn =>
            ⟨hsub y, fun hfact => ?_⟩⟩
    · -- the response of a row of the scope is affected
      obtain ⟨t, ht, rfl⟩ := mem_map.1 hfact
      refine mem_map.2 ⟨t, (hmem t).2 ⟨ht, .inr ⟨r, hy, ?_⟩⟩, rfl⟩
      rcases hcase with htouched | ⟨r', hr', haffected⟩
      · exact .inl ⟨s, hagent, htouched, hr⟩
      · rw [hr] at hr'
        cases hr'
        exact haffected
    · -- a row without a response is in the scope because of its turn
      obtain ⟨t, ht, rfl⟩ := mem_map.1 hfact
      rcases hcase with ⟨turn, hturns, hthread', hturn'⟩ | ⟨r, hr, -⟩
      · exact mem_map.2
          ⟨t, (hmem t).2 ⟨ht, .inl ⟨turn, hturns, hthread.trans hthread', hturn.trans hturn'⟩⟩, rfl⟩
      · rw [hnone] at hr
        cases hr
  · rw [scopeRows_of_unmodeled hmodeled]
    rfl

/-- The contribution of a row outside the scope is the one of before the change. -/
theorem contribution_unaffected (hvalid : Valid table) (hvalid' : Valid table')
    (hsame : ∀ id' ≠ id, table[id']? = table'[id']?) (hnames : Names turns table id root agent)
    (hnames' : Names turns table' id root agent) (hs : s ∈ agentRows table' root agent)
    (hout : s ∉ scopeRows table' root agent turns) :
    s.row.id ≠ id ∧ contribution all (facts table root agent) s.row =
      contribution all (facts table' root agent) s.row := by
  by_cases hmodeled : ∀ t ∈ agentRows table' root agent, t.row.Modeled
  · rw [mem_scopeRows hvalid' hmodeled] at hout
    obtain ⟨htouched, hresponse⟩ := not_or.1 fun h => hout ⟨hs, h⟩
    have hne : ∀ (T : ExtTreeMap String (Stored Time)), Names turns T id root agent →
      ∀ y : CostRow Time,
        (∃ r, s.row.response = some r ∧ y.response = some r) ∨
          (y.thread = s.row.thread ∧ y.turn = s.row.turn) →
        ∀ t : Stored Time, T[id]? = some t → t.root = root → t.row.agent = agent → t.row ≠ y := by
      rintro T hT y hy t ht hroot hagent rfl
      have hturn := hT t ht hroot hagent
      rcases hy with ⟨r, hr, hr'⟩ | ⟨hthread, hturn'⟩
      · exact hresponse ⟨r, hr, .inr ⟨_, hturn, hr'⟩⟩
      · exact htouched ⟨_, hturn, hthread.symm, hturn'.symm⟩
    obtain ⟨⟨id', hid'⟩, hroot, hagent⟩ := mem_agentRows.1 hs
    refine ⟨fun hid => ?_, contribution_eq_of_agree hvalid.facts hvalid'.facts (hmodeled s hs)
      ⟨fun r y hr hy _ => ⟨?_, ?_⟩, fun _ y _ hthread hturn => ⟨?_, ?_⟩⟩⟩
    · rw [hvalid'.id _ _ hid'] at hid
      exact hne table' hnames' s.row (.inr ⟨rfl, rfl⟩) s (hid ▸ hid') hroot hagent rfl
    · exact mem_facts_of_unchanged hsame (hne table hnames y (.inl ⟨r, hr, hy⟩))
    · exact mem_facts_of_unchanged (fun i hi => (hsame i hi).symm)
        (hne table' hnames' y (.inl ⟨r, hr, hy⟩))
    · exact mem_facts_of_unchanged hsame (hne table hnames y (.inr ⟨hthread, hturn⟩))
    · exact mem_facts_of_unchanged (fun i hi => (hsame i hi).symm)
        (hne table' hnames' y (.inr ⟨hthread, hturn⟩))
  · rw [scopeRows_of_unmodeled hmodeled] at hout
    exact absurd hs hout

end

end Layr.Costs
