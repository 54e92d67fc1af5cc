import Layr.EntityScopeSound

/-!
# Transfers of entity scopes are exact

`transfer_eq_liveRows`: a client that holds the live entities of a scope at its cursor holds those
of the present after a transfer, whatever was written in between. What the client holds under a key
is `Accounted` for by the row that stands there now: a row that is not above the cursor is what the
client holds, a tombstone above it keeps the fences of the entity that it deleted, and a live row
outside the scope was outside of it at the cursor. A write that breaks this raises a fence of the
scope, a pruning that breaks it raises the floor, and either makes the transfer a snapshot
(`Tracks`).
-/

namespace Layr.Entities

open Tables Paging Option

variable {env : Env} {db db' : Db} {key k : Key} {new e : Entity} {scope : Scope} {c limit : ℕ}
  {held : Option (Option String)} {base : Copy} {snapshot : Bool}

def Scope.shown (scope : Scope) (env : Env) (db : Db) (e : Entity) : Option (Option String) :=
  if e.deleted = false ∧ scope.selects env db e.payload then some e.payload else none

theorem Scope.getElem?_liveRows (scope : Scope) (env : Env) (db : Db) (k : Key) :
    (scope.liveRows env db)[k]? =
    if scope.covers k then db.entities[k]?.bind (scope.shown env db) else none := by
  rw [liveRows, getElem?_filterMap']
  cases hcovers : scope.covers k <;> cases db.entities[k]? <;> simp [shown]

theorem Scope.shown_ne_none (h : scope.shown env db e ≠ none) :
    e.deleted = false ∧ scope.selects env db e.payload = true := by
  by_contra hnot
  exact h (if_neg hnot)

/-! ## What a client holds, by the rows of the table -/

/-- What a client at number `c` holds under a key, by the row that stands there. -/
structure Accounted (scope : Scope) (env : Env) (c : ℕ) (held : Option (Option String)) (db : Db)
    (key : Key) :
    Prop where
  gone : db.entities[key]? = none → held = none
  kept : ∀ e : Entity, db.entities[key]? = some e → e.seq ≤ c → held = scope.shown env db e
  deleted : ∀ e : Entity, db.entities[key]? = some e → c < e.seq → e.deleted = true → held ≠ none →
    ∃ f ∈ db.provenance key, scope.Relevant key.1 f
  outside : ∀ e : Entity, db.entities[key]? = some e → c < e.seq → e.deleted = false →
    scope.selects env db e.payload = false → held = none

namespace Accounted

/-- What the client holds is in the scope, or it was deleted there. -/
theorem of_ne_none (h : Accounted scope env c held db key) (hheld : held ≠ none) :
    ∃ e, db.entities[key]? = some e ∧ ((e.deleted = false ∧ scope.selects env db e.payload = true) ∨
        (e.deleted = true ∧ c < e.seq ∧ ∃ f ∈ db.provenance key, scope.Relevant key.1 f)) := by
  match he : db.entities[key]? with
  | none => exact absurd (h.gone he) hheld
  | some e =>
    refine ⟨e, rfl, ?_⟩
    by_cases hc : e.seq ≤ c
    · exact .inl (Scope.shown_ne_none (h.kept e he hc ▸ hheld))
    rw [not_le] at hc
    cases hdeleted : e.deleted with
    | true => exact .inr ⟨rfl, hc, h.deleted e he hc hdeleted hheld⟩
    | false =>
      refine .inl ⟨rfl, ?_⟩
      cases hselects : scope.selects env db e.payload with
      | true => rfl
      | false => exact absurd (h.outside e he hc hdeleted hselects) hheld

theorem zero (hdb : db.Sound) (key : Key) : Accounted scope env 0 none db key :=
  ⟨fun _ => rfl, fun e he hle => absurd hle (not_le.2 (hdb.pos key e he)), fun _ _ _ _ hne =>
    absurd rfl hne, fun _ _ _ _ _ => rfl⟩

/-- A row that a write leaves alone, if the scope selects as before. -/
theorem congr (h : Accounted scope env c held db key)
    (hrow : db'.entities[key]? = db.entities[key]?)
    (hprovenance : db'.provenance key = db.provenance key)
    (hselects : ∀ payload, scope.selects env db' payload = scope.selects env db payload) :
    Accounted scope env c held db' key := by
  refine ⟨fun hnone => h.gone (hrow ▸ hnone), fun e he hle => ?_, fun e he hlt hdeleted hheld => ?_,
    fun e he hlt hlive hout => ?_⟩
  · rw [h.kept e (hrow ▸ he) hle, Scope.shown, Scope.shown, hselects]
  · rw [hprovenance]
    exact h.deleted e (hrow ▸ he) hlt hdeleted hheld
  · exact h.outside e (hrow ▸ he) hlt hlive (hselects e.payload ▸ hout)

end Accounted

/-! ## Writes and prunings -/

/-- A write changes what a scope selects in other rows only with a fence of the scope. -/
theorem Db.Put.selects_or_fence (h : Db.Put env db key new db') (scope : Scope) :
    (∀ payload, scope.selects env db' payload = scope.selects env db payload) ∨
      new.seq ≤ scope.visibilityRevision db' := by
  by_cases hroots : scope.includeTeamMembers = true ∧
      ∃ a, ¬ (scope.agent ∈ db'.rootsOf env a ↔ scope.agent ∈ db.rootsOf env a)
  · obtain ⟨hteam, a, hmoved⟩ := hroots
    right
    refine le_trans ?_ (Scope.star_le_revision hteam)
    by_cases hagent : ∃ agent, key = ("agentSummary", agent) ∧ a = some agent
    · obtain ⟨agent, rfl, rfl⟩ := hagent
      exact h.le_star hmoved
    · refine absurd ?_ hmoved
      rw [rootsOf_congr fun agent ha => h.getElem_ne fun hkey => hagent ⟨agent, hkey.symm, ha⟩]
  · left
    intro payload
    unfold Scope.selects
    cases hteam : scope.includeTeamMembers with
    | false => rfl
    | true =>
      have hsame : (scope.agent ∈ db'.rootsOf env (env.agent payload)) =
          (scope.agent ∈ db.rootsOf env (env.agent payload)) :=
        propext (not_not.1 fun hne => hroots ⟨hteam, _, hne⟩)
      simp [hsame]

/-- A transfer from number `c` is a snapshot, or what the client holds is accounted for. -/
def Tracks (scope : Scope) (env : Env) (c : ℕ) (base : Copy) (db : Db) : Prop :=
  c < db.floor ∨ c < scope.visibilityRevision db ∨
    ∀ key, scope.covers key = true → Accounted scope env c base[key]? db key

theorem Scope.mem_collections_of_covers (h : scope.covers key = true) :
    key.1 ∈ scope.collections := by
  simp only [covers, Bool.and_eq_true, decide_eq_true_eq] at h
  exact h.1.2

theorem Scope.not_isTranscript_of_covers (h : scope.covers key = true) :
    isTranscript key.1 = false := by
  simp only [covers, Bool.and_eq_true, Bool.not_eq_true'] at h
  exact h.1.1

/-- The row that a write puts is accounted for, or the write raises a fence of the scope. -/
theorem Accounted.put (h : Accounted scope env c held db key) (hput : Db.Put env db key new db')
    (hkey : key.1 ≠ "agentSummary") (hmem : key.1 ∈ scope.collections) (hc : c < new.seq) :
    c < scope.visibilityRevision db' ∨ Accounted scope env c held db' key := by
  have hself : ∀ e, db'.entities[key]? = some e → e = new := fun e he =>
    (some.inj (hput.getElem_self.symm.trans he)).symm
  by_cases hraised : c < scope.visibilityRevision db'
  · exact .inl hraised
  have hfence : ∀ f, scope.Relevant key.1 f → ¬ new.seq ≤ db'.fences f := fun f hf hle =>
    hraised ((hc.trans_le hle).trans_le (Scope.fence_le_revision hmem hf))
  refine .inr ⟨fun hnone => ?_, fun e he hle => ?_, fun e he _ hdeleted hheld => ?_,
    fun e he _ hlive hout => ?_⟩
  · cases hput.getElem_self.symm.trans hnone
  · rw [hself e he] at hle
    exact absurd hle (not_le.2 hc)
  · rw [hself e he] at hdeleted
    obtain ⟨old, hold, ⟨hlive, hselects⟩ | ⟨hdeleted', -, f, hf, hrelevant⟩⟩ := h.of_ne_none hheld
    · obtain ⟨f, hf, hrelevant⟩ := (Scope.selects_iff key.1).1 hselects
      exact ⟨f, hput.mem_provenance hkey hold hlive hdeleted hf, hrelevant⟩
    · exact ⟨f, hput.provenance_deleted hold hdeleted' hdeleted ▸ hf, hrelevant⟩
  · rw [hself e he] at hlive hout
    by_contra hheld
    obtain ⟨old, hold, ⟨hlive', hselects⟩ | ⟨hdeleted, -, f, hf, hrelevant⟩⟩ := h.of_ne_none hheld
    · obtain ⟨f, hrelevant, hle⟩ := hput.le_fence_of_leaves hkey hold hlive' hlive hselects hout
      exact hfence f hrelevant hle
    · exact hfence f hrelevant
        (hput.le_fence_of_restores hkey hold hdeleted hlive hf hrelevant hout)

/-- A write that changes the scope of other rows raises a fence. Otherwise only its own row counts.
-/
theorem Tracks.put (h : Tracks scope env c base db) (hput : Db.Put env db key new db')
    (hscope : "agentSummary" ∉ scope.collections) (hc : c ≤ db.entitySequence) :
    Tracks scope env c base db' := by
  have hlt : c < new.seq := hc.trans_lt hput.lt_seq
  rcases h with hfloor | hfence | h
  · exact .inl (hput.floor ▸ hfloor)
  · exact .inr (.inl (hfence.trans_le (Scope.revision_mono hput.fences)))
  rcases hput.selects_or_fence scope with hselects | hfence
  · by_cases hself : scope.covers key = true
    · have hmem := Scope.mem_collections_of_covers hself
      rcases (h key hself).put hput (fun heq => hscope (heq ▸ hmem)) hmem hlt with hfence | hacc
      · exact .inr (.inl hfence)
      · refine .inr (.inr fun k hk => ?_)
        by_cases hkey : k = key
        · exact hkey ▸ hacc
        · exact (h k hk).congr (hput.getElem_ne hkey) (hput.provenance hkey) hselects
    · refine .inr (.inr fun k hk => ?_)
      have hkey : k ≠ key := fun heq => hself (heq ▸ hk)
      exact (h k hk).congr (hput.getElem_ne hkey) (hput.provenance hkey) hselects
  · exact .inr (.inl (hlt.trans_le hfence))

theorem Db.Prune.rootsOf (h : Db.Prune db db') (env : Env) (a : Option String) :
    db'.rootsOf env a = db.rootsOf env a := by
  cases a with
  | none => rfl
  | some agent =>
    rcases h.row ("agentSummary", agent) with ⟨hrow, -⟩ | ⟨hnone, e, he, hdeleted, -⟩
    · simp [Db.rootsOf, hrow]
    · simp [Db.rootsOf, hnone, he, hdeleted]

/-- A tombstone goes only with the floor. -/
theorem Tracks.prune (h : Tracks scope env c base db) (hprune : Db.Prune db db') :
    Tracks scope env c base db' := by
  by_cases hfloor : c < db'.floor
  · exact .inl hfloor
  rcases h with hlt | hfence | h
  · exact absurd (hlt.trans_le hprune.floor_le) hfloor
  · refine .inr (.inl (hfence.trans_le (Scope.revision_mono fun f => ?_)))
    rw [hprune.fences]
  refine .inr (.inr fun k hk => ?_)
  have hselects : ∀ payload, scope.selects env db' payload = scope.selects env db payload :=
      fun payload => by
    rw [Scope.selects, Scope.selects, hprune.rootsOf]
  rcases hprune.row k with ⟨hrow, hprovenance⟩ | ⟨hnone, e, he, hdeleted, hle⟩
  · exact (h k hk).congr hrow hprovenance hselects
  have hheld : base[k]? = none := by
    rw [(h k hk).kept e he (hle.trans (not_lt.1 hfloor)), Scope.shown, if_neg fun hlive => ?_]
    rw [hdeleted] at hlive
    cases hlive.1
  have habsent : ∀ e, db'.entities[k]? ≠ some e := fun e he => by cases hnone.symm.trans he
  exact ⟨fun _ => hheld, fun e he => absurd he (habsent e), fun e he => absurd he (habsent e),
    fun e he => absurd he (habsent e)⟩

/-- Whatever is written from a state with number `c` on is tracked. -/
theorem tracks_writes (env : Env) (hdb : db.Sound) (hscope : "agentSummary" ∉ scope.collections)
    (ws : List Write) :
    (db.writes env ws).Sound ∧ db.entitySequence ≤ (db.writes env ws).entitySequence ∧
      Tracks scope env db.entitySequence (scope.liveRows env db) (db.writes env ws) := by
  refine Db.writes_induction env (motive := fun db' => db.entitySequence ≤ db'.entitySequence ∧
    Tracks scope env db.entitySequence (scope.liveRows env db) db') hdb ⟨le_rfl, ?_⟩
    (fun db₁ key new db₂ _ h hput => ⟨h.1.trans hput.entitySequence_le, h.2.put hput hscope h.1⟩)
    (fun db₁ db₂ _ h hprune => ⟨hprune.sequence ▸ h.1, h.2.prune hprune⟩) ws
  refine .inr (.inr fun k hk => ?_)
  have hle : ∀ e, db.entities[k]? = some e → e.seq ≤ db.entitySequence := fun e he =>
    Db.seq_le_entitySequence he (Scope.not_isTranscript_of_covers hk)
  rw [Scope.getElem?_liveRows, if_pos hk]
  refine ⟨fun hnone => ?_, fun e he _ => ?_, fun e he hlt => absurd (hle e he) (not_le.2 hlt),
    fun e he hlt => absurd (hle e he) (not_le.2 hlt)⟩
  · rw [hnone]
    rfl
  · rw [he]
    rfl

/-! ## Transfers -/

theorem Scope.nodup_keys_rows (scope : Scope) (env : Env) (db : Db) (snapshot : Bool)
    (after through : ℕ) :
    ((scope.rows env db snapshot after through).map EntityRow.key).Nodup := by
  refine ((List.perm_insertionSort _ _).map _).nodup_iff.2 (nodup_select fun key e row hrow => ?_)
  split at hrow
  · cases hrow
    rfl
  · cases hrow

/-- The rows above `c` bring what is accounted for to the present. -/
theorem accept_rows (base : Copy) (hsnapshot : snapshot = true → base = ∅)
    (hcovers : ∀ key, scope.covers key = false → base[key]? = none)
    (hacc : ∀ key, scope.covers key = true → Accounted scope env c base[key]? db key) :
    base.accept (scope.rows env db snapshot c (max db.entitySequence db.floor)) =
      scope.liveRows env db := by
  refine ext_getElem? fun k => ?_
  rw [Scope.getElem?_liveRows]
  by_cases hrow : ∃ row ∈ scope.rows env db snapshot c (max db.entitySequence db.floor), row.key = k
  · obtain ⟨row, hrow, rfl⟩ := hrow
    obtain ⟨he, hk, hselects, -⟩ := Scope.mem_rows.1 hrow
    obtain ⟨e, he, heq⟩ := map_eq_some_iff.1 he
    simp only [Prod.mk.injEq] at heq
    obtain ⟨-, hpayload, hdeleted⟩ := heq
    rw [Copy.getElem?_accept_of_mem (scope.nodup_keys_rows ..) hrow, if_pos hk, he, bind_some,
      Scope.shown, hpayload, hdeleted]
    cases hd : row.deleted with
    | true => rfl
    | false =>
      rw [hd] at hselects
      simp [hselects.resolve_right Bool.false_ne_true]
  · have habsent : k ∉ (scope.rows env db snapshot c (max db.entitySequence db.floor)).map
        EntityRow.key := fun hmem => by
      obtain ⟨row, hmem, hkey⟩ := List.mem_map.1 hmem
      exact hrow ⟨row, hmem, hkey⟩
    rw [Copy.getElem?_accept_of_notMem habsent]
    cases hk : scope.covers k with
    | false => exact hcovers k hk
    | true =>
      match he : db.entities[k]? with
      | none => exact (hacc k hk).gone he
      | some e =>
        rw [if_pos rfl, bind_some]
        by_cases hle : e.seq ≤ c
        · exact (hacc k hk).kept e he hle
        have hskipped :
            ¬ ((scope.selects env db e.payload ∨ e.deleted) ∧
            (snapshot = true → e.deleted = false)) :=
          fun hshown => hrow ⟨⟨k.1, k.2, e.seq, e.payload, e.deleted⟩, Scope.mem_rows.2
            ⟨congrArg (Option.map _) he, hk, hshown.1, not_le.1 hle, (Db.seq_le_entitySequence he
              (Scope.not_isTranscript_of_covers hk)).trans (Nat.le_max_left _ _), hshown.2⟩, rfl⟩
        cases hd : e.deleted with
        | true =>
          -- the tombstones that a snapshot leaves out are not in the empty copy
          have hsnap : snapshot = true := by
            by_contra hnot
            exact hskipped ⟨.inr hd, fun htrue => absurd htrue hnot⟩
          rw [hsnapshot hsnap, getElem?_empty, Scope.shown, if_neg fun hlive => ?_]
          rw [hd] at hlive
          cases hlive.1
        | false =>
          have hout : scope.selects env db e.payload = false :=
            Bool.eq_false_iff.2 fun hselects => hskipped ⟨.inl hselects, fun _ => hd⟩
          rw [(hacc k hk).outside e he (not_le.1 hle) hd hout, Scope.shown, if_neg fun hlive => ?_]
          rw [hout] at hlive
          cases hlive.2

/-- A transfer is a delta above a cursor that no fence and no floor are above, or a snapshot. -/
theorem transfer_cases (hdb : db.Sound) (since : Option ℕ) (limit : ℕ) :
    (∃ c, since = some c ∧ scope.visibilityRevision db ≤ c ∧ db.floor ≤ c ∧
      scope.transfer env db since limit =
        (false, scope.rows env db false c (max db.entitySequence db.floor))) ∨
    scope.transfer env db since limit =
      (true, scope.rows env db true 0 (max db.entitySequence db.floor)) := by
  unfold Scope.transfer Scope.resumeEntityScope
  simp only [Scope.transferRows_eq hdb]
  match hkept : (since.filter fun seq => decide (scope.visibilityRevision db ≤ seq)).filter
      fun seq =>
      decide (db.floor ≤ seq ∧ seq ≤ max db.entitySequence db.floor) with
  | none => exact .inr rfl
  | some c =>
    rw [filter_eq_some_iff, filter_eq_some_iff, decide_eq_true_eq, decide_eq_true_eq] at hkept
    exact .inl ⟨c, hkept.1.1, hkept.1.2, hkept.2.1, rfl⟩

/-- A transfer from a client's cursor gives the live entities of the scope, for every history after
it. -/
theorem transfer_eq_liveRows (scope : Scope) (hscope : "agentSummary" ∉ scope.collections)
    (env : Env) (before after : List Write) (limit : ℕ) :
    let past := Db.empty.writes env before
    let now := past.writes env after
    Copy.receive (scope.liveRows env past)
      (scope.transfer env now (some (max past.entitySequence past.floor)) limit) =
          scope.liveRows env now := by
  intro past now
  have hthen : past.Sound :=
    (Db.writes_induction env (motive := fun _ => True) Db.sound_empty trivial
      (fun _ _ _ _ _ _ _ => trivial) (fun _ _ _ _ _ => trivial) before).1
  obtain ⟨hnow, -, htracks⟩ := tracks_writes env hthen hscope after
  rw [Nat.max_eq_left hthen.floor_le]
  rcases transfer_cases hnow (some past.entitySequence)
    limit with ⟨c, hc, hfence, hfloor, heq⟩ | heq
  · cases hc
    rw [heq]
    refine accept_rows (scope.liveRows env past) (fun hfalse => nomatch hfalse) (fun key hkey => ?_)
      ((htracks.resolve_left (not_lt.2 hfloor)).resolve_left (not_lt.2 hfence))
    rw [Scope.getElem?_liveRows, if_neg (hkey ▸ Bool.false_ne_true)]
  · rw [heq]
    refine accept_rows ∅ (fun _ => rfl) (fun key _ => getElem?_empty) fun key _ => ?_
    exact .zero hnow key

/-- A chat of an agent that moves to another root, in the team of the first one. -/
theorem transfer_eq_liveRows_moved :
    let env : Env := ⟨id, fun payload => if payload = some "chat of ada" then some "ada" else none,
      fun payload => if payload = some "ada of eve" then some "eve" else none⟩
    let scope : Scope := ⟨["chat"], none, "eve", true⟩
    let past := Db.empty.writes env
      [.put "agentSummary" "ada" "ada of eve" false 0, .put "chat" "1" "chat of ada" false 0]
    let now := past.writes env [.put "agentSummary" "ada" "ada of ivy" false 0]
    (scope.liveRows env past).toList = [(("chat", "1"), some "chat of ada")] ∧
      (Copy.receive (scope.liveRows env past)
        (scope.transfer env now (some (max past.entitySequence past.floor)) 1)).toList = [] := by
  intro env scope past now
  refine ⟨by decide +kernel, ?_⟩
  rw [transfer_eq_liveRows scope (by decide) env
    [.put "agentSummary" "ada" "ada of eve" false 0, .put "chat" "1" "chat of ada" false 0]
    [.put "agentSummary" "ada" "ada of ivy" false 0] 1]
  decide +kernel

end Layr.Entities
