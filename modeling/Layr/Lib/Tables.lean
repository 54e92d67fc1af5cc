import Layr.Lib.Maps

/-!
# Tables

Maps as tables of a database: keys of two columns, the highest number of a column, and queries that
select rows of a table and write them to a copy or take them out of it.
-/

namespace Layr.Tables

open Std Maps List

/-- Pairs are ordered by their first column, then by the second. -/
instance instOrdProd {α β : Type*} [Ord α] [Ord β] : Ord (α × β) := lexOrd

/-! ## The highest number -/

def highest (l : List ℕ) : ℕ := l.foldl max 0

theorem foldl_max_le_iff {α : Type*} [LinearOrder α] {l : List α} {a n : α} :
    l.foldl max a ≤ n ↔ a ≤ n ∧ ∀ x ∈ l, x ≤ n := by
  induction l generalizing a with
  | nil => simp
  | cons x l ih => simp [ih, and_assoc]

theorem highest_le_iff {l : List ℕ} {n : ℕ} : highest l ≤ n ↔ ∀ x ∈ l, x ≤ n := by
  simp [highest, foldl_max_le_iff]

theorem le_highest {l : List ℕ} {x : ℕ} (hx : x ∈ l) : x ≤ highest l := highest_le_iff.1 le_rfl x hx

/-- The highest number is one of the list, unless the list has none above 0. -/
theorem highest_eq_zero_or_mem (l : List ℕ) : highest l = 0 ∨ highest l ∈ l := by
  by_contra hnot
  obtain ⟨hpos, hmem⟩ := not_or.1 hnot
  have hle : highest l ≤ highest l - 1 := highest_le_iff.2 fun x hx => by
    have hne : x ≠ highest l := fun heq => hmem (heq ▸ hx)
    have := le_highest hx
    omega
  omega

/-! ## Queries -/

section
variable {κ V W α : Type*} {cmp : κ → κ → Ordering} [TransCmp cmp] [LawfulEqCmp cmp]
  {m : ExtTreeMap κ V cmp} {base : ExtTreeMap κ W cmp} {k : κ} {v : V}
  {f : κ → V → Option α} {a : α}
  {l : List α} {key : α → κ} {val : α → W}

theorem mem_column {f : V → W} {w : W} :
    w ∈ m.toList.map (fun e => f e.2) ↔ ∃ (k : κ) (v : V), m[k]? = some v ∧ f v = w := by
  simp [mem_toList_iff_getElem?_eq_some]

/-- The rows that a query makes of the rows of a table. -/
def select (f : κ → V → Option α) (m : ExtTreeMap κ V cmp) : List α :=
  m.toList.filterMap fun e => f e.1 e.2

theorem mem_select : a ∈ select f m ↔ ∃ (k : κ) (v : V), m[k]? = some v ∧ f k v = some a := by
  simp [select, mem_toList_iff_getElem?_eq_some]

omit [LawfulEqCmp cmp] in
theorem select_eq_filterMap : select f m = (m.filterMap f).toList.map (·.2) := by
  rw [ExtTreeMap.toList_filterMap, map_filterMap, select]
  congr 1
  funext e
  cases f e.1 e.2 <;> rfl

/-- The result of a query depends only on what it makes of each key. -/
theorem select_congr {m' : ExtTreeMap κ V cmp} (h : ∀ k, m[k]?.bind (f k) = m'[k]?.bind (f k)) :
    select f m = select f m' := by
  have hmap : m.filterMap f = m'.filterMap f := ext_getElem? fun k => by
    rw [getElem?_filterMap', getElem?_filterMap', h]
  rw [select_eq_filterMap, select_eq_filterMap, hmap]

/-- A query that keeps the key has one row for each key. -/
theorem nodup_select (hkey : ∀ k v a, f k v = some a → key a = k) :
    ((select f m).map key).Nodup := by
  have hdistinct := distinct_keys_toList (t := m)
  rw [select, List.Nodup, pairwise_map, pairwise_filterMap]
  refine hdistinct.imp fun {e e'} hne b hb b' hb' heq => hne ?_
  rw [hkey _ _ _ hb, hkey _ _ _ hb'] at heq
  exact LawfulEqCmp.compare_eq_iff_eq.2 heq

/-- Take the keys of a list of rows out of a table. -/
def eraseAll (key : α → κ) (base : ExtTreeMap κ W cmp) (l : List α) : ExtTreeMap κ W cmp :=
  l.foldl (fun m a => m.erase (key a)) base

theorem getElem?_eraseAll_of_notMem (h : k ∉ l.map key) : (eraseAll key base l)[k]? = base[k]? := by
  induction l generalizing base with
  | nil => rfl
  | cons a l ih =>
    simp only [map_cons, mem_cons, not_or] at h
    have hne : cmp (key a) k ≠ .eq := fun heq => h.1 (LawfulEqCmp.compare_eq_iff_eq.1 heq).symm
    rw [eraseAll, foldl_cons, ← eraseAll, ih h.2, getElem?_erase, if_neg hne]

theorem getElem?_eraseAll_of_mem (h : k ∈ l.map key) : (eraseAll key base l)[k]? = none := by
  induction l generalizing base with
  | nil => cases h
  | cons a l ih =>
    rw [eraseAll, foldl_cons, ← eraseAll]
    by_cases hl : k ∈ l.map key
    · exact ih hl
    · obtain rfl : k = key a := by simpa [hl] using h
      rw [getElem?_eraseAll_of_notMem hl, getElem?_erase_self]

variable (hkey : ∀ k v a, f k v = some a → key a = k) (hl : l.Perm (select f m))

include hkey hl

/-- A key is among the selected ones if the query makes a row of its row. -/
theorem mem_map_select : k ∈ l.map key ↔ ∃ a, m[k]?.bind (f k) = some a := by
  simp only [mem_map, hl.mem_iff, mem_select, bind_eq_some_iff]
  constructor
  · rintro ⟨a, ⟨k', v, hv, ha⟩, rfl⟩
    obtain rfl := hkey _ _ _ ha
    exact ⟨a, v, hv, ha⟩
  · rintro ⟨a, v, hv, ha⟩
    exact ⟨a, ⟨k, v, hv, ha⟩, hkey _ _ _ ha⟩

/-- The copy after the selected rows are written to it. -/
theorem getElem?_insertAll_select : (insertAll key val base l)[k]? =
    ((m[k]?.bind (f k)).map val).or base[k]? := by
  match hk : m[k]?.bind (f k) with
  | none =>
    refine getElem?_insertAll_of_notMem fun hmem => ?_
    obtain ⟨a, ha⟩ := (mem_map_select hkey hl).1 hmem
    rw [hk] at ha
    cases ha
  | some a =>
    obtain ⟨v, hv, ha⟩ := bind_eq_some_iff.1 hk
    obtain rfl := hkey _ _ _ ha
    have hnd : (l.map key).Nodup := (hl.map key).nodup_iff.2 (nodup_select hkey)
    exact getElem?_insertAll_of_mem hnd (hl.mem_iff.2 (mem_select.2 ⟨_, v, hv, ha⟩))

/-- The copy after the selected rows are taken out of it. -/
theorem getElem?_eraseAll_select :
    (eraseAll key base l)[k]? = if (m[k]?.bind (f k)).isSome then none else base[k]? := by
  split
  · next hsome =>
    exact getElem?_eraseAll_of_mem ((mem_map_select hkey hl).2 (isSome_iff_exists.1 hsome))
  · next hnot =>
    refine getElem?_eraseAll_of_notMem fun hmem => hnot ?_
    exact isSome_iff_exists.2 ((mem_map_select hkey hl).1 hmem)

end

/-! ## Counting rows -/

section
variable {κ V : Type*} {cmp : κ → κ → Ordering} [TransCmp cmp] [LawfulEqCmp cmp]
  {m : ExtTreeMap κ V cmp} {k : κ} {v : V}

theorem nodup_keys (m : ExtTreeMap κ V cmp) : (m.toList.map (·.1)).Nodup := by
  rw [List.Nodup, pairwise_map]
  exact distinct_keys_toList.imp fun hne heq => hne (LawfulEqCmp.compare_eq_iff_eq.2 heq)

theorem nodup_toList (m : ExtTreeMap κ V cmp) : m.toList.Nodup := (nodup_keys m).of_map _

theorem getElem?_erase_ne {k' : κ} (h : k ≠ k') : (m.erase k)[k']? = m[k']? := by
  rw [getElem?_erase, if_neg fun heq => h (LawfulEqCmp.compare_eq_iff_eq.1 heq)]

theorem toList_insert_perm : (m.insert k v).toList.Perm ((k, v) :: (m.erase k).toList) := by
  have hnot : (k, v) ∉ (m.erase k).toList := fun hmem => by
    rw [mem_toList_iff_getElem?_eq_some, getElem?_erase_self] at hmem
    cases hmem
  refine (perm_ext_iff_of_nodup (nodup_toList _) (nodup_cons.2 ⟨hnot, nodup_toList _⟩)).2 ?_
  rintro ⟨k', v'⟩
  rw [mem_cons, mem_toList_iff_getElem?_eq_some, mem_toList_iff_getElem?_eq_some]
  by_cases hk : k = k'
  · subst hk
    simp [eq_comm]
  · rw [getElem?_insert_ne hk, getElem?_erase_ne hk]
    simp [Ne.symm hk]

theorem toList_perm_erase (h : m[k]? = some v) : m.toList.Perm ((k, v) :: (m.erase k).toList) := by
  have hinsert : m.insert k v = m := ext_getElem? fun k' => by
    by_cases hk : k = k'
    · subst hk
      rw [getElem?_insert_self, h]
    · rw [getElem?_insert_ne hk]
  have hperm := toList_insert_perm (m := m) (k := k) (v := v)
  rwa [hinsert] at hperm

theorem erase_eq_self (h : m[k]? = none) : m.erase k = m := ext_getElem? fun k' => by
  by_cases hk : k = k'
  · subst hk
    rw [getElem?_erase_self, h]
  · rw [getElem?_erase_ne hk]

def countRows (p : κ → V → Bool) (m : ExtTreeMap κ V cmp) : ℕ := m.toList.countP fun e => p e.1 e.2

variable {p : κ → V → Bool}

theorem countRows_insert : countRows p (m.insert k v) = countRows p (m.erase k) +
    if p k v then 1 else 0 := by
  rw [countRows, toList_insert_perm.countP_eq, countP_cons, countRows]

theorem countRows_erase (h : m[k]? = some v) :
    countRows p m = countRows p (m.erase k) + if p k v then 1 else 0 := by
  rw [countRows, (toList_perm_erase h).countP_eq, countP_cons, countRows]

omit [LawfulEqCmp cmp] in
theorem length_select {W : Type*} {f : κ → V → W} :
    (select (fun k v => if p k v then some (f k v) else none) m).length = countRows p m := by
  rw [select, countRows]
  induction m.toList with
  | nil => rfl
  | cons e l ih =>
    by_cases he : p e.1 e.2 = true
    · simp [he, ih]
    · simp [he, ih]

end

end Layr.Tables
