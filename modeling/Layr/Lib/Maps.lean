import Mathlib

/-!
# Writing to maps

Facts about maps that are written entry by entry: writes to different keys do not see each other and
can be exchanged, so the order of a list of entries with different keys does not matter.
-/

namespace Layr

open List

export Std.ExtTreeMap
  (distinct_keys_toList ext_getElem? getElem?_empty getElem?_eq_none getElem?_erase
    getElem?_erase_self getElem?_filterMap' getElem?_insert getElem?_insert_self
    getElem?_insertIfNew isSome_getElem?_iff_mem mem_iff_isSome_getElem? mem_insert mem_insertIfNew
      mem_keys mem_toList_iff_getElem?_eq_some
  not_mem_empty)
export Option
  (bind_eq_some_iff eq_none_iff_forall_ne_some filter_eq_some_iff isNone_iff_eq_none
  isSome_iff_exists ite_none_right_eq_some map_eq_none_iff map_eq_some_iff some.inj some.injEq)

namespace Maps

open Std

variable {κ V α : Type*} {cmp : κ → κ → Ordering} [TransCmp cmp] [LawfulEqCmp cmp]
  {m : ExtTreeMap κ V cmp} {k k' : κ} {v v' : V}

omit [LawfulEqCmp cmp] in
theorem mem_iff_exists : k ∈ m ↔ ∃ v, m[k]? = some v := by
  rw [mem_iff_isSome_getElem?, isSome_iff_exists]

theorem getElem?_insert_ne (h : k ≠ k') : (m.insert k v)[k']? = m[k']? := by
  rw [getElem?_insert, if_neg]
  simpa using h

/-- A write to a new key leaves every entry. -/
theorem getElem?_insert_of_new (hnew : k ∉ m) (h : m[k']? = some v') :
    (m.insert k v)[k']? = some v' := by
  rw [getElem?_insert_ne, h]
  rintro rfl
  exact hnew (mem_iff_exists.2 ⟨_, h⟩)

theorem of_getElem?_insert (h : (m.insert k v)[k']? = some v') : k = k' ∧ v = v' ∨ k ≠ k' ∧
    m[k']? = some v' := by
  by_cases hk : k = k'
  · subst hk
    rw [getElem?_insert_self] at h
    exact .inl ⟨rfl, some.inj h⟩
  · rw [getElem?_insert_ne hk] at h
    exact .inr ⟨hk, h⟩

theorem of_getElem?_erase (h : (m.erase k)[k']? = some v) : k ≠ k' ∧ m[k']? = some v := by
  rw [getElem?_erase, Option.ite_none_left_eq_some] at h
  exact ⟨fun hk => h.1 (LawfulEqCmp.compare_eq_iff_eq.2 hk), h.2⟩

theorem insert_comm (h : k ≠ k') : (m.insert k v).insert k' v' = (m.insert k' v').insert k v := by
  refine ext_getElem? fun x => ?_
  by_cases hk : k = x
  · subst hk
    rw [getElem?_insert_ne h.symm, getElem?_insert_self, getElem?_insert_self]
  rw [getElem?_insert_ne (k := k) (m := m.insert k' v') hk]
  by_cases hk' : k' = x
  · subst hk'
    rw [getElem?_insert_self, getElem?_insert_self]
  · rw [getElem?_insert_ne hk', getElem?_insert_ne hk, getElem?_insert_ne hk']

/-- Write the entries of a list, from left to right. -/
def insertAll (key : α → κ) (val : α → V) (m : ExtTreeMap κ V cmp) (es : List α) :
    ExtTreeMap κ V cmp :=
  es.foldl (fun m e => m.insert (key e) (val e)) m

variable {key : α → κ} {val : α → V} {es : List α}

/-- A key that no entry has keeps its value. -/
theorem getElem?_insertAll_of_notMem (h : k ∉ es.map key) :
    (insertAll key val m es)[k]? = m[k]? := by
  induction es generalizing m with
  | nil => rfl
  | cons e es ih =>
    simp only [map_cons, mem_cons, not_or] at h
    rw [insertAll, foldl_cons, ← insertAll, ih h.2, getElem?_insert_ne (Ne.symm h.1)]

/-- Each key of a list of different keys gets the value of its entry. -/
theorem getElem?_insertAll_of_mem (hnd : (es.map key).Nodup) {e : α} (he : e ∈ es) :
    (insertAll key val m es)[key e]? = some (val e) := by
  induction es generalizing m with
  | nil => cases he
  | cons d es ih =>
    rw [map_cons, nodup_cons] at hnd
    rw [insertAll, foldl_cons, ← insertAll]
    rcases mem_cons.1 he with rfl | he
    · rw [getElem?_insertAll_of_notMem hnd.1, getElem?_insert_self]
    · exact ih hnd.2 he

/-- What a list of different keys writes to the empty map. -/
theorem getElem?_insertAll_empty (hnd : (es.map key).Nodup) :
    (insertAll key val (∅ : ExtTreeMap κ V cmp) es)[k]? = some v ↔ ∃ e ∈ es, key e = k ∧
      val e = v := by
  by_cases hk : k ∈ es.map key
  · obtain ⟨e, he, rfl⟩ := mem_map.1 hk
    rw [getElem?_insertAll_of_mem hnd he, some.injEq]
    exact ⟨fun h => ⟨e, he, rfl, h⟩, fun ⟨d, hd, hkey, h⟩ => inj_on_of_nodup_map hnd hd he hkey ▸ h⟩
  · rw [getElem?_insertAll_of_notMem hk, getElem?_empty]
    exact ⟨nofun, fun ⟨e, he, hkey, _⟩ => absurd (mem_map.2 ⟨e, he, hkey⟩) hk⟩

omit [TransCmp cmp] [LawfulEqCmp cmp] in
/-- What relates the entries of each key relates all entries of the same key. -/
theorem pairwise_of_key [DecidableEq κ] {R : α → α → Prop}
    (h : ∀ k, (es.filter (key · = k)).Pairwise R) :
    es.Pairwise fun a b => key a = key b → R a b := by
  induction es with
  | nil => exact .nil
  | cons a es ih =>
    refine pairwise_cons.2 ⟨fun b hb hkey => ?_, ih fun k => ?_⟩
    · have ha := h (key a)
      rw [filter_cons_of_pos (by simp), pairwise_cons] at ha
      exact ha.1 b (mem_filter.2 ⟨hb, by simpa using hkey.symm⟩)
    · exact (h k).sublist ((sublist_cons_self a es).filter _)

/-- The entries of a list of different keys can be written in any order. -/
theorem insertAll_perm {es' : List α} (hp : es'.Perm es) (hnd : (es.map key).Nodup) :
    insertAll key val m es' = insertAll key val m es := by
  induction hp generalizing m with
  | nil => rfl
  | cons e hp ih =>
    rw [map_cons, nodup_cons] at hnd
    exact ih hnd.2
  | swap d e es =>
    simp only [map_cons, nodup_cons, mem_cons, not_or] at hnd
    simp only [insertAll, foldl_cons]
    rw [insert_comm (Ne.symm hnd.1.1)]
  | trans hp₁ hp₂ ih₁ ih₂ =>
    have hnd' := (hp₂.map key).nodup_iff.2 hnd
    rw [ih₁ hnd', ih₂ hnd]

/-- A step for each entry of a map, that changes only the entry's own key: what it leaves under a
key is what the step of that key makes of it. -/
theorem getElem?_foldl_toList {U W : Type*} {t : ExtTreeMap κ U cmp}
    {f : ExtTreeMap κ W cmp → κ × U → ExtTreeMap κ W cmp} {g : Option W → κ × U → Option W}
    (hne : ∀ m e (k : κ), e.1 ≠ k → (f m e)[k]? = m[k]?) (heq : ∀ m e, (f m e)[e.1]? = g m[e.1]? e)
    (m : ExtTreeMap κ W cmp) (k : κ) :
    (t.toList.foldl f m)[k]? = match t[k]? with
      | none => m[k]?
      | some u => g m[k]? (k, u) := by
  have hskip : ∀ (es : List (κ × U)) (m : ExtTreeMap κ W cmp), (∀ e ∈ es, e.1 ≠ k) →
      (es.foldl f m)[k]? = m[k]? := by
    intro es
    induction es with
    | nil => exact fun _ _ => rfl
    | cons e es ih =>
      intro m hes
      rw [foldl_cons, ih _ fun d hd => hes d (mem_cons_of_mem _ hd),
        hne m e k (hes e mem_cons_self)]
  cases hu : t[k]? with
  | none =>
    refine hskip _ m fun e he hek => ?_
    have hmem := mem_toList_iff_getElem?_eq_some.1 he
    rw [hek, hu] at hmem
    cases hmem
  | some u =>
    have hdistinct := @distinct_keys_toList _ _ _ t _
    obtain ⟨l₁, l₂, hl⟩ := append_of_mem (mem_toList_iff_getElem?_eq_some.2 hu)
    rw [hl] at hdistinct ⊢
    rw [pairwise_append, pairwise_cons] at hdistinct
    have hne₁ : ∀ e ∈ l₁, e.1 ≠ k := fun e he hek =>
      hdistinct.2.2 e he (k, u) mem_cons_self (LawfulEqCmp.compare_eq_iff_eq.2 hek)
    have hne₂ : ∀ e ∈ l₂, e.1 ≠ k := fun e he hek =>
      hdistinct.2.1.1 e he (LawfulEqCmp.compare_eq_iff_eq.2 hek.symm)
    rw [foldl_append, foldl_cons, hskip l₂ _ hne₂, heq, hskip l₁ m hne₁]

theorem mem_insertAll : k ∈ insertAll key val m es ↔ k ∈ m ∨ ∃ e ∈ es, key e = k := by
  induction es generalizing m with
  | nil => simp [insertAll]
  | cons e es ih =>
    rw [insertAll, foldl_cons, ← insertAll, ih]
    simp only [mem_insert, LawfulEqCmp.compare_eq_iff_eq, exists_mem_cons_iff]
    tauto

/-- Two maps in which a reader sees the same under every key are the same list to it. -/
theorem filterMap_toList_eq {V' W : Type*} {m' : ExtTreeMap κ V' cmp} {f : κ → V → Option W}
    {f' : κ → V' → Option W} (h : ∀ k : κ, m[k]?.bind (f k) = m'[k]?.bind (f' k)) :
    m.toList.filterMap (fun e => (f e.1 e.2).map fun w => (e.1, w)) =
      m'.toList.filterMap fun e => (f' e.1 e.2).map fun w => (e.1, w) := by
  have heq : m.filterMap f = m'.filterMap f' := by
    refine ext_getElem? fun k => ?_
    simpa using h k
  have hlist := congrArg ExtTreeMap.toList heq
  rwa [ExtTreeMap.toList_filterMap, ExtTreeMap.toList_filterMap] at hlist

/-- The entries of a map, seen through a function, are those of a list with different keys that has
the same values. -/
theorem toList_map_perm {W : Type*} {f : V → W} {es : List (κ × W)} (hnd : (es.map (·.1)).Nodup)
    (h : ∀ (k : κ) w, m[k]?.map f = some w ↔ (k, w) ∈ es) :
    (m.toList.map fun e => (e.1, f e.2)).Perm es := by
  have hkeys : (m.toList.map fun e => (e.1, f e.2)).Nodup := by
    refine List.Pairwise.map _ (fun a b hab heq => hab ?_) (distinct_keys_toList (t := m))
    exact LawfulEqCmp.compare_eq_iff_eq.2 (congrArg (fun e : κ × W => e.1) heq)
  refine (perm_ext_iff_of_nodup hkeys (List.Nodup.of_map _ hnd)).2 fun e => ?_
  rw [← h, mem_map, map_eq_some_iff]
  constructor
  · rintro ⟨d, hd, rfl⟩
    exact ⟨d.2, mem_toList_iff_getElem?_eq_some.1 hd, rfl⟩
  · rintro ⟨v, hv, hw⟩
    exact ⟨(e.1, v), mem_toList_iff_getElem?_eq_some.2 hv, by rw [hw]⟩

variable {es : List (κ × V)}

theorem getElem?_ofList_eq_none [BEq κ] [LawfulBEqCmp cmp]
    (h : ∀ v, (k, v) ∉ es) : (ExtTreeMap.ofList es cmp)[k]? = none := by
  refine ExtTreeMap.getElem?_ofList_of_contains_eq_false ?_
  rw [contains_eq_any_beq, any_eq_false]
  intro k' hk' hbeq
  obtain ⟨e, he, rfl⟩ := mem_map.1 hk'
  have hcmp : cmp k e.1 = .eq := LawfulBEqCmp.compare_eq_iff_beq.2 hbeq
  obtain rfl : k = e.1 := LawfulEqCmp.compare_eq_iff_eq.1 hcmp
  exact h e.2 he

theorem ofList_toList [BEq κ] [LawfulBEqCmp cmp] : ExtTreeMap.ofList m.toList cmp = m := by
  refine ext_getElem? fun k => ?_
  cases hk : m[k]? with
  | some v =>
    exact ExtTreeMap.getElem?_ofList_of_mem (LawfulEqCmp.compare_eq_iff_eq.2 rfl)
      distinct_keys_toList (mem_toList_iff_getElem?_eq_some.2 hk)
  | none =>
    refine getElem?_ofList_eq_none fun v hv => ?_
    rw [mem_toList_iff_getElem?_eq_some.1 hv] at hk
    cases hk

/-! ## What holds of every entry -/

def Every (P : κ → V → Prop) (m : ExtTreeMap κ V cmp) : Prop := ∀ (k : κ) v, m[k]? = some v → P k v

namespace Every

variable {P Q : κ → V → Prop}

omit [LawfulEqCmp cmp] in
theorem empty : Every P (∅ : ExtTreeMap κ V cmp) := fun k v h => by
  cases h

omit [LawfulEqCmp cmp] in
theorem imp (h : Every P m) (hPQ : ∀ k v, P k v → Q k v) : Every Q m :=
  fun k v hk => hPQ k v (h k v hk)

theorem insert (h : Every P m) (hv : P k v) : Every P (m.insert k v) := fun k' v' hk => by
  rcases of_getElem?_insert hk with ⟨rfl, rfl⟩ | ⟨-, hk⟩
  · exact hv
  · exact h k' v' hk

theorem insertIfNew (h : Every P m) (hv : P k v) : Every P (m.insertIfNew k v) := fun k' v' hk => by
  rw [getElem?_insertIfNew] at hk
  split at hk
  case isTrue hnew =>
    cases hk
    rwa [← LawfulEqCmp.compare_eq_iff_eq.1 hnew.1]
  case isFalse => exact h k' v' hk

theorem erase (h : Every P m) : Every P (m.erase k) :=
  fun k' v' hk => h k' v' (of_getElem?_erase hk).2

omit [LawfulEqCmp cmp] in
theorem filter {f : κ → V → Bool} (h : Every P m) : Every P (m.filter f) := fun k v hk => by
  rw [ExtTreeMap.getElem?_filter] at hk
  obtain ⟨hk, -⟩ := Option.pfilter_eq_some_iff.1 hk
  exact h k v hk

omit [LawfulEqCmp cmp] in
/-- A step that keeps the property, taken for each item of a list. -/
theorem foldl {f : ExtTreeMap κ V cmp → α → ExtTreeMap κ V cmp} {xs : List α}
    (hf : ∀ m, ∀ x ∈ xs, Every P m → Every P (f m x)) (h : Every P m) : Every P (xs.foldl f m) :=
  List.foldlRecOn _ _ h fun m h x hx => hf m x hx h

theorem insertAll {es : List α} (h : Every P m) (hes : ∀ e ∈ es, P (key e) (val e)) :
    Every P (insertAll key val m es) :=
  h.foldl fun _ e he h => h.insert (hes e he)

/-- A map that is made of some entries of another one. -/
theorem ofList_of_subset [BEq κ] [LawfulBEqCmp cmp] (h : Every P m)
    (hes : List.Sublist es m.toList) : Every P (ExtTreeMap.ofList es cmp) := fun k v hk => by
  have hdistinct := distinct_keys_toList.sublist hes
  by_cases hmem : ∃ v', (k, v') ∈ es
  · obtain ⟨v', hv'⟩ := hmem
    rw [ExtTreeMap.getElem?_ofList_of_mem (LawfulEqCmp.compare_eq_iff_eq.2 rfl) hdistinct hv'] at hk
    cases hk
    exact h k _ (mem_toList_iff_getElem?_eq_some.1 (hes.subset hv'))
  · rw [getElem?_ofList_eq_none fun v' hv' => hmem ⟨v', hv'⟩] at hk
    cases hk

end Every

end Maps

end Layr
