import Layr.ProjectSteps

/-!
# Which records make a project, and in which order they are folded

`Project.fromRecords` keeps of the records with one id the first, sorts the records and folds them
(`fromRecords_eq_ok`). Records that are the same up to the sign of a zero are no conflict, so it is
the order of the list that decides which one is kept. Where there are none, the outcome depends on
the set of records only (`fromRecords_congr`). Facts about projects are proved along the fold with
`fold_induction`.
-/

namespace Layr

open List

namespace Project

variable {c : Codec} {id here : String} {p p' : Project} {r : Record} {rs rs' o : List Record}

/-! ## The order of the fold -/

def orderKey (r : Record) : Int ×ₗ String ×ₗ Nat := toLex (max r.time 0, toLex (r.machine, r.seq))

theorem orderLe_iff {a b : Record} : orderLe a b = true ↔ orderKey a ≤ orderKey b := by
  simp [orderLe, orderKey, Prod.Lex.toLex_le_toLex]

instance : Std.Total fun a b : Record => orderLe a b = true :=
  ⟨fun a b => by simpa only [orderLe_iff] using le_total (orderKey a) (orderKey b)⟩

instance : IsTrans Record fun a b => orderLe a b = true :=
  ⟨fun a b d => by simpa only [orderLe_iff] using le_trans⟩

def firsts (rs : List Record) : List Record := rs.reverse.pwFilter (·.id ≠ ·.id)

def foldOrder (rs : List Record) : List Record := (firsts rs).insertionSort (orderLe · ·)

theorem foldOrder_perm (rs : List Record) : (foldOrder rs).Perm (firsts rs) :=
  perm_insertionSort _ _

theorem mem_of_mem_firsts (h : r ∈ firsts rs) : r ∈ rs := mem_reverse.1 (pwFilter_subset _ h)

theorem mem_of_mem_foldOrder (h : r ∈ foldOrder rs) : r ∈ rs :=
  mem_of_mem_firsts ((foldOrder_perm rs).mem_iff.1 h)

theorem firsts_nodup (rs : List Record) : ((firsts rs).map (·.id)).Nodup :=
  pairwise_map.2 (pairwise_pwFilter _)

theorem eq_of_mem_firsts {a b : Record} (ha : a ∈ firsts rs) (hb : b ∈ firsts rs)
    (h : a.id = b.id) : a = b :=
  inj_on_of_nodup_map (firsts_nodup rs) ha hb h

theorem exists_mem_firsts (h : r ∈ rs) : ∃ a ∈ firsts rs, a.id = r.id := by
  by_contra hnone
  push Not at hnone
  have hall := (forall_mem_pwFilter (fun {x y z} hxz => ?_) r rs.reverse).1 fun a ha =>
    (hnone a ha).symm
  · exact hall r (mem_reverse.2 h) rfl
  · by_cases hxy : x.id = y.id
    · exact .inr (hxy ▸ hxz)
    · exact .inl hxy

theorem firsts_concat_of_mem {old : Record} (hold : old ∈ firsts rs) (hid : old.id = r.id) :
    firsts (rs ++ [r]) = firsts rs := by
  unfold firsts
  rw [reverse_append]
  exact pwFilter_cons_of_neg fun h => h old hold hid.symm

theorem firsts_concat_of_new (h : ∀ a ∈ firsts rs, r.id ≠ a.id) :
    firsts (rs ++ [r]) = r :: firsts rs := by
  unfold firsts
  rw [reverse_append]
  exact pwFilter_cons_of_pos h

theorem mem_firsts_cons (a : Record) (rs : List Record) : a ∈ firsts (a :: rs) := by
  induction rs using List.reverseRecOn with
  | nil => exact mem_singleton_self a
  | append_singleton rs r ih =>
    rw [← cons_append]
    by_cases h : ∀ b ∈ firsts (a :: rs), r.id ≠ b.id
    · rw [firsts_concat_of_new h]
      exact mem_cons_of_mem _ ih
    · push Not at h
      obtain ⟨b, hb, hid⟩ := h
      rwa [firsts_concat_of_mem hb hid.symm]

/-! ## Which records are taken -/

def RecordOk (c : Codec) (id : String) (r : Record) : Prop :=
  (r.op = "release.files" → ∃ f, ReleaseFiles.decode r.data = some f ∧ f.validate c = .ok ()) ∧
    (r.project = "" ∨ r.project = id)

/-- The records have no conflict: an id names one record, up to the sign of zeros, and a place one
id. -/
structure Admissible (c : Codec) (id : String) (rs : List Record) : Prop where
  records : ∀ r ∈ rs, RecordOk c id r
  ids : ∀ a ∈ rs, ∀ b ∈ rs, a.id = b.id → a.unsigned = b.unsigned
  places : ∀ a ∈ rs, ∀ b ∈ rs, a.machine = b.machine → a.seq = b.seq → a.id = b.id

theorem Admissible.congr (h : Admissible c id rs) (hmem : ∀ r, r ∈ rs' ↔ r ∈ rs) :
    Admissible c id rs' where
  records r hr := h.records r ((hmem r).1 hr)
  ids a ha b hb := h.ids a ((hmem a).1 ha) b ((hmem b).1 hb)
  places a ha b hb := h.places a ((hmem a).1 ha) b ((hmem b).1 hb)

/-- The kept records of an admissible list have one order. -/
theorem insertionSort_eq_foldOrder {l : List Record} (h : Admissible c id rs)
    (hp : l.Perm (firsts rs)) :
    l.insertionSort (orderLe · ·) = foldOrder rs := by
  refine @List.Perm.eq_of_pairwise _ (fun a b => orderLe a b = true) _ _ ?_
    (pairwise_insertionSort _ _) (pairwise_insertionSort _ _) ?_
  · intro a b ha hb hab hba
    have heq := le_antisymm (orderLe_iff.1 hab) (orderLe_iff.1 hba)
    simp only [orderKey, EmbeddingLike.apply_eq_iff_eq, Prod.mk.injEq] at heq
    have ha := hp.mem_iff.1 ((perm_insertionSort _ _).mem_iff.1 ha)
    have hb := (foldOrder_perm rs).mem_iff.1 hb
    exact eq_of_mem_firsts ha hb
      (h.places a (mem_of_mem_firsts ha) b (mem_of_mem_firsts hb) heq.2.1 heq.2.2)
  · exact ((perm_insertionSort _ _).trans hp).trans (foldOrder_perm rs).symm

/-- No two records differ in the sign of zeros only. -/
def ZerosAgree (rs : List Record) : Prop := ∀ a ∈ rs, ∀ b ∈ rs, a.unsigned = b.unsigned → a = b

theorem mem_firsts_iff (h : Admissible c id rs) (hz : ZerosAgree rs) : r ∈ firsts rs ↔ r ∈ rs := by
  refine ⟨mem_of_mem_firsts, fun hr => ?_⟩
  obtain ⟨a, ha, hid⟩ := exists_mem_firsts hr
  have has := mem_of_mem_firsts ha
  rwa [← hz a has r hr (h.ids a has r hr hid)]

/-- The order of the fold depends on the set of records only. -/
theorem foldOrder_congr (h : Admissible c id rs) (hz : ZerosAgree rs)
    (hmem : ∀ r, r ∈ rs' ↔ r ∈ rs) :
    foldOrder rs' = foldOrder rs := by
  have hnd : ∀ rs : List Record, (firsts rs).Nodup := fun rs => (firsts_nodup rs).of_map
  refine insertionSort_eq_foldOrder h ((perm_ext_iff_of_nodup (hnd _) (hnd _)).2 fun r => ?_)
  have hz' : ZerosAgree rs' := fun a ha b hb => hz a ((hmem a).1 ha) b ((hmem b).1 hb)
  rw [mem_firsts_iff (h.congr hmem) hz', mem_firsts_iff h hz, hmem]

structure Kept (l : List Record) (u : BTreeMap Record × List (String × Nat)) : Prop where
  records : ∀ (k : String) v, u.1[k]? = some v ↔ v ∈ l ∧ v.id = k
  places : ∀ m s, (m, s) ∈ u.2 ↔ ∃ r ∈ l, r.machine = m ∧ r.seq = s

/-- One more record has no conflict with those before it. -/
structure Joins (c : Codec) (id : String) (rs : List Record) (r : Record) : Prop where
  record : RecordOk c id r
  ids : ∀ a ∈ rs, a.id = r.id → a.unsigned = r.unsigned
  places : ∀ a ∈ rs, a.machine = r.machine → a.seq = r.seq → a.id = r.id

/-- A relation holds between all members when it holds between the old ones and from them to the new
one. -/
theorem forall_concat {R : Record → Record → Prop} (hrefl : R r r) (hsymm : ∀ a b, R a b → R b a) :
    (∀ a ∈ rs ++ [r], ∀ b ∈ rs ++ [r], R a b) ↔ (∀ a ∈ rs, ∀ b ∈ rs, R a b) ∧ ∀ a ∈ rs, R a r := by
  simp only [mem_append, mem_singleton, or_imp, forall_and, forall_eq]
  exact ⟨fun h => ⟨h.1.1, h.2.1⟩, fun h => ⟨⟨h.1, fun a ha => hsymm a r (h.2 a ha)⟩, h.2, hrefl⟩⟩

theorem admissible_append_singleton : Admissible c id (rs ++ [r]) ↔ Admissible c id rs ∧
    Joins c id rs r := by
  have hids := @forall_concat r rs (fun a b => a.id = b.id → a.unsigned = b.unsigned) (fun _ => rfl)
    fun _ _ h he => (h he.symm).symm
  have hplaces := @forall_concat r rs
    (fun a b => a.machine = b.machine → a.seq = b.seq → a.id = b.id)
    (fun _ _ => rfl) fun _ _ h hm hs => (h hm.symm hs.symm).symm
  have hrecords : (∀ a ∈ rs ++ [r], RecordOk c id a) ↔ (∀ a ∈ rs, RecordOk c id a) ∧
      RecordOk c id r := by
    rw [forall_mem_append, forall_mem_singleton]
  constructor
  · rintro ⟨h, hi, hp⟩
    rw [hids] at hi
    rw [hplaces] at hp
    rw [hrecords] at h
    exact ⟨⟨h.1, hi.1, hp.1⟩, h.2, hi.2, hp.2⟩
  · rintro ⟨h, hr⟩
    exact ⟨hrecords.2 ⟨h.records, hr.record⟩, hids.2 ⟨h.ids, hr.ids⟩,
      hplaces.2 ⟨h.places, hr.places⟩⟩

def keepRecord (u : BTreeMap Record × List (String × Nat)) (r : Record) :
    Except String (BTreeMap Record × List (String × Nat)) :=
  match u.1[r.id]? with
  | some old => do
    ensure (old.unsigned == r.unsigned) "conflicting record identity"
    return u
  | none => do
    ensure (!u.2.contains (r.machine, r.seq)) "conflicting machine sequence"
    return (u.1.insert r.id r, (r.machine, r.seq) :: u.2)

variable {u u' : BTreeMap Record × List (String × Nat)}

theorem addUnique_eq_ok : addUnique c id u r = .ok u' ↔ RecordOk c id r ∧
    keepRecord u r = .ok u' := by
  unfold addUnique RecordOk
  by_cases hop : r.op = "release.files"
  · simp only [hop, if_true, bind_eq_ok, context_eq_ok, exists_unit_eq_ok, exists_const,
      ensure_eq_ok, Bool.or_eq_true, beq_iff_eq, forall_const]
    constructor
    · rintro ⟨f, hf, hfv, hproject, hkeep⟩
      exact ⟨⟨⟨f, hf, hfv⟩, hproject⟩, hkeep⟩
    · rintro ⟨⟨⟨f, hf, hfv⟩, hproject⟩, hkeep⟩
      exact ⟨f, hf, hfv, hproject, hkeep⟩
  · simp only [hop, if_false, bind_eq_ok, exists_const, ensure_eq_ok, Bool.or_eq_true, beq_iff_eq,
      false_implies, true_and]
    exact Iff.rfl

theorem Kept.keepRecord (hk : Kept (firsts rs) u) (h : keepRecord u r = .ok u') :
    Kept (firsts (rs ++ [r])) u' := by
  unfold Project.keepRecord at h
  cases hold : u.1[r.id]? with
  | some old =>
    simp only [hold, bind_eq_ok, ensure_eq_ok, exists_const, pure_eq_ok] at h
    obtain ⟨-, rfl⟩ := h
    obtain ⟨hmem, hid⟩ := (hk.records r.id old).1 hold
    rwa [firsts_concat_of_mem hmem hid]
  | none =>
    simp only [hold, bind_eq_ok, ensure_eq_ok, exists_const, pure_eq_ok] at h
    obtain ⟨-, rfl⟩ := h
    have hnew : ∀ a ∈ firsts rs, r.id ≠ a.id := fun a ha hid => by
      rw [hid, (hk.records a.id a).2 ⟨ha, rfl⟩] at hold
      cases hold
    rw [firsts_concat_of_new hnew]
    refine ⟨fun k v => ?_, fun m s => ?_⟩
    · rw [mem_cons, or_and_right]
      by_cases hk' : r.id = k
      · subst hk'
        rw [getElem?_insert_self, ← hk.records, hold, some.injEq]
        exact ⟨fun h => .inl ⟨h.symm, congrArg Record.id h.symm⟩,
          fun h => (h.resolve_right (by simp)).1.symm⟩
      · rw [Maps.getElem?_insert_ne hk', hk.records, or_iff_right]
        rintro ⟨rfl, hid⟩
        exact hk' hid
    · rw [mem_cons, hk.places, Prod.mk.injEq, exists_mem_cons_iff]
      exact or_congr (and_congr eq_comm eq_comm) Iff.rfl

/-- A record can be kept exactly when it has no conflict with those before it. -/
theorem Kept.exists_keepRecord (hk : Kept (firsts rs) u) (ha : Admissible c id rs) :
    (∃ u', Project.keepRecord u r = .ok u') ↔ (∀ a ∈ rs, a.id = r.id → a.unsigned = r.unsigned) ∧
      ∀ a ∈ rs, a.machine = r.machine → a.seq = r.seq → a.id = r.id := by
  unfold Project.keepRecord
  cases hold : u.1[r.id]? with
  | some old =>
    obtain ⟨hmem, hid⟩ := (hk.records r.id old).1 hold
    have hmem := mem_of_mem_firsts hmem
    simp only [bind_eq_ok, ensure_eq_ok, exists_const, pure_eq_ok, beq_iff_eq, exists_and_left,
      exists_eq', and_true]
    refine ⟨fun h => ⟨fun a ha' haid => ?_, fun a ha' hm hs => ?_⟩, fun h => h.1 old hmem hid⟩
    · exact (ha.ids a ha' old hmem (haid.trans hid.symm)).trans h
    · have hplace := ha.places a ha' old hmem (hm.trans (congrArg Record.machine h).symm)
        (hs.trans (congrArg Record.seq h).symm)
      exact hplace.trans hid
  | none =>
    have hnew : ∀ a ∈ firsts rs, a.id ≠ r.id := fun a ha' hid => by
      rw [(hk.records r.id a).2 ⟨ha', hid⟩] at hold
      cases hold
    simp only [bind_eq_ok, ensure_eq_ok, exists_const, pure_eq_ok, exists_and_left, exists_eq',
      and_true, Bool.not_eq_true', contains_eq_mem, decide_eq_false_iff_not, hk.places,
      not_exists, not_and]
    refine ⟨fun h => ⟨fun a ha' hid => ?_, fun a ha' hm hs => ?_⟩, fun h a ha' hm hs => ?_⟩
    · obtain ⟨b, hb, hba⟩ := exists_mem_firsts ha'
      exact absurd (hba.trans hid) (hnew b hb)
    · obtain ⟨b, hb, hba⟩ := exists_mem_firsts ha'
      have hsame := ha.ids b (mem_of_mem_firsts hb) a ha' hba
      exact absurd ((congrArg Record.seq hsame).trans hs)
        (h b hb ((congrArg Record.machine hsame).trans hm))
    · exact hnew a ha' (h.2 a (mem_of_mem_firsts ha') hm hs)

/-- The records of a list are kept exactly when they have no conflict. -/
theorem foldlM_addUnique (rs : List Record) :
    (Admissible c id rs → ∃ u, rs.foldlM (addUnique c id) (∅, []) = .ok u) ∧
      ∀ u, rs.foldlM (addUnique c id) (∅, []) = .ok u → Admissible c id rs ∧
        Kept (firsts rs) u := by
  induction rs using List.reverseRecOn with
  | nil =>
    refine ⟨fun _ => ⟨_, rfl⟩, fun u hu => ?_⟩
    cases hu
    exact ⟨⟨by simp, by simp, by simp⟩, ⟨by simp [firsts], by simp [firsts]⟩⟩
  | append_singleton rs r ih =>
    simp only [foldlM_append, foldlM_cons, foldlM_nil, bind_pure, bind_eq_ok, addUnique_eq_ok]
    constructor
    · intro h
      obtain ⟨ha, hr⟩ := admissible_append_singleton.1 h
      obtain ⟨u, hu⟩ := ih.1 ha
      obtain ⟨u', hu'⟩ := ((ih.2 u hu).2.exists_keepRecord ha).2 ⟨hr.ids, hr.places⟩
      exact ⟨u', u, hu, hr.record, hu'⟩
    · rintro u' ⟨u, hu, hr, hu'⟩
      obtain ⟨ha, hk⟩ := ih.2 u hu
      obtain ⟨hids, hplaces⟩ := (hk.exists_keepRecord ha).1 ⟨u', hu'⟩
      exact ⟨admissible_append_singleton.2 ⟨ha, hr, hids, hplaces⟩, hk.keepRecord hu'⟩

theorem Kept.perm (hk : Kept (firsts rs) u) : (u.1.toList.map (·.2)).Perm (firsts rs) := by
  have hnd : (((firsts rs).map fun r => (r.id, r)).map (·.1)).Nodup := by
    rw [map_map]
    exact firsts_nodup rs
  have hperm : (u.1.toList.map fun e => (e.1, e.2)).Perm ((firsts rs).map fun r => (r.id, r)) := by
    refine Maps.toList_map_perm (f := fun r => r) hnd fun k v => ?_
    rw [Option.map_id', hk.records, mem_map]
    constructor
    · rintro ⟨hv, rfl⟩
      exact ⟨v, hv, rfl⟩
    · rintro ⟨r, hr, heq⟩
      obtain ⟨rfl, rfl⟩ := Prod.mk.inj heq
      exact ⟨hr, rfl⟩
  have hvals := hperm.map (fun e : String × Record => e.2)
  rw [map_map, map_map] at hvals
  exact hvals.trans (by rw [Function.comp_def, map_id'])

/-- The records that are folded are the kept ones, in order. -/
theorem ordered_eq_ok {l : List Record} : ordered c id rs = .ok l ↔ Admissible c id rs ∧
    l = foldOrder rs := by
  obtain ⟨hex, hok⟩ := @foldlM_addUnique c id rs
  unfold ordered
  rw [bind_eq_ok]
  constructor
  · rintro ⟨u, hu, hl⟩
    obtain ⟨ha, hk⟩ := hok u hu
    exact ⟨ha, (Except.ok.inj hl).symm.trans (insertionSort_eq_foldOrder ha hk.perm)⟩
  · rintro ⟨ha, rfl⟩
    obtain ⟨u, hu⟩ := hex ha
    exact ⟨u, hu, congrArg Except.ok (insertionSort_eq_foldOrder ha (hok u hu).2.perm)⟩

/-! ## The fold -/

def fold (c : Codec) (id here : String) (o : List Record) : Except String Project :=
  o.zipIdx.foldlM (fun p e => derive c p e.2 e.1) { id := id, machine := here }

theorem fold_append_singleton : fold c id here (o ++ [r]) = .ok p' ↔
    ∃ p, fold c id here o = .ok p ∧ derive c p o.length r = .ok p' := by
  unfold fold
  rw [zipIdx_append, foldlM_append, bind_eq_ok]
  simp

/-- What holds of the empty project and is kept by every record holds of a folded project. -/
theorem fold_induction {P : List Record → Project → Prop}
    (hstart : P [] { id := id, machine := here })
    (hstep : ∀ o p r p', fold c id here o = .ok p → P o p → derive c p o.length r = .ok p' →
      P (o ++ [r]) p') : ∀ {o p}, fold c id here o = .ok p → P o p := by
  intro o
  induction o using List.reverseRecOn with
  | nil =>
    intro p h
    exact Except.ok.inj h ▸ hstart
  | append_singleton o r ih =>
    intro p' h
    obtain ⟨p, hp, hd⟩ := fold_append_singleton.1 h
    exact hstep o p r p' hp (ih hp) hd

theorem fromRecords_eq_ok : fromRecords c id rs here = .ok p ↔ Admissible c id rs ∧
    ∃ q, fold c id here (foldOrder rs) = .ok q ∧ p = { q with records := foldOrder rs } := by
  unfold fromRecords
  simp only [bind_eq_ok, ordered_eq_ok, pure_eq_ok]
  constructor
  · rintro ⟨l, ⟨ha, rfl⟩, q, hq, rfl⟩
    exact ⟨ha, q, hq, rfl⟩
  · rintro ⟨ha, q, hq, rfl⟩
    exact ⟨_, ⟨ha, rfl⟩, q, hq, rfl⟩

/-- Both results are failures, or the same project. -/
def SameOutcome (x y : Except String Project) : Prop := x.toOption = y.toOption

/-- Without records that differ in the sign of zeros only, the outcome depends on the set of
records: not on their order, and not on how often a record is there. -/
theorem fromRecords_congr (hz : ZerosAgree rs) (hmem : ∀ r, r ∈ rs' ↔ r ∈ rs) :
    SameOutcome (fromRecords c id rs here) (fromRecords c id rs' here) := by
  refine Option.ext fun p => ?_
  rw [toOption_eq_some, toOption_eq_some, fromRecords_eq_ok, fromRecords_eq_ok]
  constructor
  · rintro ⟨ha, hp⟩
    rw [← foldOrder_congr ha hz hmem] at hp
    exact ⟨ha.congr hmem, hp⟩
  · rintro ⟨ha, hp⟩
    have ha := ha.congr fun r => (hmem r).symm
    rw [foldOrder_congr ha hz hmem] at hp
    exact ⟨ha, hp⟩

/-- A list that makes a project with the same records in whatever order has no two records that
differ in the sign of zeros only: either of them is kept when it comes first. -/
theorem zerosAgree_of_same (h : fromRecords c id rs here = .ok p)
    (hsame : ∀ rs', (∀ r, r ∈ rs' ↔ r ∈ rs) →
      SameOutcome (fromRecords c id rs here) (fromRecords c id rs' here)) :
    ZerosAgree rs := by
  have hkept : ∀ a ∈ rs, a ∈ p.records := by
    intro a ha
    have hp := hsame (a :: rs) fun r => by rw [mem_cons, or_iff_right_of_imp fun h => h ▸ ha]
    rw [h] at hp
    obtain ⟨-, q, -, rfl⟩ := fromRecords_eq_ok.1 (toOption_eq_some.1 hp.symm)
    exact (foldOrder_perm _).mem_iff.2 (mem_firsts_cons a rs)
  obtain ⟨-, q, -, rfl⟩ := fromRecords_eq_ok.1 h
  intro a ha b hb hab
  have hmem := fun x hx => (foldOrder_perm rs).mem_iff.1 (hkept x hx)
  exact eq_of_mem_firsts (hmem a ha) (hmem b hb)
    (congrArg Record.id hab : a.unsigned.id = b.unsigned.id)

end Project

end Layr
