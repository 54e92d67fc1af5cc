import Mathlib

/-!
# Lists in order

Rows in the order of their numbers, no two with the same number, are read in pages: the next page
has the rows above the last number of the one before (`Rising.filter_last`).

A program that keeps a set in a vector sorts it and drops equal neighbours. What is left is the
sorted list of the members, whatever order and repetition they came in (`canonical_eq_iff`).

A loop over a list can keep, for each key, the best entry that it has seen. If *better* is the order
of a rank and no two entries have the same rank, what it keeps is a matter of which entries the list
has, not of their order (`keepBest_eq_some_iff`, `keepBest_congr`).
-/

namespace Layr.Paging

open List

variable {α β : Type*} [LinearOrder β] {num : α → β} {l l' : List α} {a b : α} {n : ℕ}

/-- Rows in the order of their numbers, which are different. -/
def Rising (num : α → β) (l : List α) : Prop := l.Pairwise fun a b => num a < num b

theorem Rising.eq_of_mem_iff (h : Rising num l) (h' : Rising num l') (hmem : ∀ a, a ∈ l ↔ a ∈ l') :
    l = l' := by
  have hnodup : ∀ {l : List α}, Rising num l → l.Nodup := fun hl => hl.imp fun hlt heq => by
    rw [heq] at hlt
    exact absurd hlt (lt_irrefl _)
  refine List.Perm.eq_of_pairwise (fun a b _ _ hab hba => absurd hab hba.le.not_gt) h h' ?_
  exact (perm_ext_iff_of_nodup (hnodup h) (hnodup h')).2 hmem

theorem rising_insertionSort (hinj : ∀ a ∈ l, ∀ b ∈ l, num a = num b → a = b) (hnd : l.Nodup) :
    Rising num (l.insertionSort fun a b => num a ≤ num b) := by
  have hperm := perm_insertionSort (fun a b => num a ≤ num b) l
  have htotal : Std.Total fun a b : α => num a ≤ num b := ⟨fun a b => le_total _ _⟩
  have htrans : IsTrans α fun a b => num a ≤ num b := ⟨fun a b c => le_trans⟩
  have hsorted := pairwise_insertionSort (fun a b => num a ≤ num b) l
  have hnd' : (l.insertionSort fun a b => num a ≤ num b).Nodup := hperm.nodup_iff.2 hnd
  refine (hsorted.and hnd').imp_of_mem fun {a b} ha hb hle =>
    lt_of_le_of_ne hle.1 fun heq => hle.2 ?_
  exact hinj a (hperm.mem_iff.1 ha) b (hperm.mem_iff.1 hb) heq

/-- What a page leaves is above its last number. -/
theorem Rising.filter_last (h : Rising num l) (ha : (l.take n).getLast? = some a) :
    l.filter (fun b => num a < num b) = l.drop n := by
  obtain ⟨init, hinit⟩ := getLast?_eq_some_iff.1 ha
  have hl : l = init ++ [a] ++ l.drop n := by rw [← hinit, take_append_drop]
  rw [Rising, hl, pairwise_append, pairwise_append] at h
  obtain ⟨⟨-, -, hbefore⟩, -, hafter⟩ := h
  have hlow : (init ++ [a]).filter (fun b => num a < num b) = [] := by
    refine filter_eq_nil_iff.2 fun b hb => ?_
    rw [decide_eq_true_eq, not_lt]
    rcases mem_append.1 hb with hb | hb
    · exact (hbefore b hb a (mem_singleton_self a)).le
    · rw [mem_singleton.1 hb]
  have hhigh : (l.drop n).filter (fun b => num a < num b) = l.drop n := by
    refine filter_eq_self.2 fun b hb => ?_
    exact decide_eq_true (hafter a (mem_append_right _ (mem_singleton_self a)) b hb)
  calc l.filter (fun b => num a < num b) = (init ++ [a] ++ l.drop n).filter
        (fun b => num a < num b) := by rw [← hl]
    _ = l.drop n := by rw [filter_append, hlow, hhigh, nil_append]

/-- A page has all rows up to its last number. -/
theorem Rising.mem_take (h : Rising num l) (ha : (l.take n).getLast? = some a) (hb : b ∈ l)
    (hle : num b ≤ num a) :
    b ∈ l.take n := by
  rw [← take_append_drop n l] at hb
  rcases mem_append.1 hb with hb | hb
  · exact hb
  · rw [← h.filter_last ha, mem_filter, decide_eq_true_eq] at hb
    exact absurd hle (not_le.2 hb.2)

end Layr.Paging

namespace Layr.Canonical

open List

variable {α : Type*} [DecidableEq α]

/-- `Vec::dedup`: of equal neighbours one stays. -/
def dedupNeighbours : List α → List α
  | a :: b :: l => if a = b then dedupNeighbours (b :: l) else a :: dedupNeighbours (b :: l)
  | l => l

variable {l : List α} {x : α}

@[simp] theorem mem_dedupNeighbours : x ∈ dedupNeighbours l ↔ x ∈ l := by
  fun_induction dedupNeighbours l with
  | case1 a l ih => simp [ih]
  | case2 a b l hne ih => simp [ih]
  | case3 l hl => rfl

variable {r : α → α → Prop} [DecidableRel r]

omit [DecidableRel r] in
/-- In an ordered list, equal members are neighbours. -/
theorem pairwise_dedupNeighbours [Std.Antisymm r] (h : l.Pairwise r) :
    (dedupNeighbours l).Pairwise fun a b => r a b ∧ a ≠ b := by
  fun_induction dedupNeighbours l with
  | case1 a l ih => exact ih h.of_cons
  | case2 a b l hne ih =>
    refine pairwise_cons.2 ⟨fun c hc => ?_, ih h.of_cons⟩
    rw [mem_dedupNeighbours] at hc
    have hac : r a c := (pairwise_cons.1 h).1 c hc
    refine ⟨hac, fun heq => hne ?_⟩
    -- the neighbour lies between the two
    rcases mem_cons.1 hc with rfl | hcl
    · exact heq
    · have hbc : r b c := (pairwise_cons.1 h.of_cons).1 c hcl
      have hab : r a b := (pairwise_cons.1 h).1 b mem_cons_self
      rw [← heq] at hbc
      exact antisymm hab hbc
  | case3 l hl =>
    match l, hl with
    | [], _ => exact List.Pairwise.nil
    | [a], _ => exact pairwise_singleton _ a
    | a :: b :: l, hl => exact absurd rfl (hl a b l)

/-- The members of a list in order, each once. -/
def canonical (r : α → α → Prop) [DecidableRel r] (l : List α) : List α :=
  dedupNeighbours (l.insertionSort r)

@[simp] theorem mem_canonical : x ∈ canonical r l ↔ x ∈ l := by
  rw [canonical, mem_dedupNeighbours, mem_insertionSort]

theorem pairwise_canonical [IsTrans α r] [Std.Total r] [Std.Antisymm r] (l : List α) :
    (canonical r l).Pairwise fun a b => r a b ∧ a ≠ b :=
  pairwise_dedupNeighbours (pairwise_insertionSort r l)

/-- The result depends on the members only. -/
theorem canonical_eq_iff [IsTrans α r] [Std.Total r] [Std.Antisymm r] {l' : List α} :
    canonical r l = canonical r l' ↔ ∀ x, x ∈ l ↔ x ∈ l' := by
  refine ⟨fun h x => ?_, fun h => ?_⟩
  · rw [← mem_canonical (r := r), h, mem_canonical]
  · have : Std.Antisymm fun a b => r a b ∧ a ≠ b := ⟨fun a b hab hba => antisymm hab.1 hba.1⟩
    have : Std.Irrefl fun a b => r a b ∧ a ≠ b := ⟨fun a haa => haa.2 rfl⟩
    refine (pairwise_canonical l).eq_of_mem_iff (pairwise_canonical l') fun x => ?_
    rw [mem_canonical, mem_canonical, h x]

end Layr.Canonical

namespace Layr.Best

open List

variable {α β κ : Type*} [DecidableEq κ]

/-- Keep an entry if the map has no entry of its key or a worse one. -/
def keep (key : α → Option κ) (better : α → α → Bool) (best : κ → Option α) (a : α) :
    κ → Option α :=
  fun k => if key a = some k ∧ (best k).all (better a) then some a else best k

def keepBest (key : α → Option κ) (better : α → α → Bool) (l : List α) : κ → Option α :=
  l.foldl (keep key better) fun _ => none

variable {key : α → Option κ} {better : α → α → Bool} {best : κ → Option α} {l l' : List α}
  {a b : α} {k : κ}

theorem keep_of_ne (h : key a ≠ some k) : keep key better best a k = best k :=
  if_neg fun hk => h hk.1

theorem keep_of_eq (h : key a = some k) :
    keep key better best a k = if (best k).all (better a) then some a else best k := by
  simp [keep, h]

variable [LinearOrder β] {rank : α → β} (hbetter : ∀ a b, better a b = true ↔ rank a < rank b)

include hbetter

/-- What the loop holds under a key: an entry of the key that no entry of the key is below, or
nothing if there is no such entry. -/
theorem keepBest_spec (l : List α) (k : κ) : match keepBest key better l k with
    | none => ∀ b ∈ l, key b ≠ some k
    | some a => (a ∈ l ∧ key a = some k) ∧ ∀ b ∈ l, key b = some k → rank a ≤ rank b := by
  induction l using List.reverseRecOn with
  | nil => exact fun b hb => nomatch hb
  | append_singleton l c ih =>
    rw [keepBest, foldl_append, foldl_cons, foldl_nil, ← keepBest]
    simp only [mem_append, mem_singleton, or_imp, forall_and, forall_eq]
    by_cases hkey : key c = some k
    · rw [keep_of_eq hkey]
      match hbest : keepBest key better l k with
      | none =>
        rw [hbest] at ih
        exact ⟨⟨.inr rfl, hkey⟩, fun b hb hk => absurd hk (ih b hb), fun _ => le_rfl⟩
      | some a =>
        rw [hbest] at ih
        obtain ⟨⟨ha, hka⟩, hmin⟩ := ih
        rw [Option.all_some]
        by_cases hlt : better c a = true
        · rw [if_pos hlt]
          have hle := ((hbetter c a).1 hlt).le
          exact ⟨⟨.inr rfl, hkey⟩, fun b hb hk => hle.trans (hmin b hb hk), fun _ => le_rfl⟩
        · rw [if_neg hlt]
          have hle := not_lt.1 fun hlt' => hlt ((hbetter c a).2 hlt')
          exact ⟨⟨.inl ha, hka⟩, hmin, fun _ => hle⟩
    · rw [keep_of_ne hkey]
      match hbest : keepBest key better l k with
      | none =>
        rw [hbest] at ih
        exact ⟨ih, hkey⟩
      | some a =>
        rw [hbest] at ih
        exact ⟨⟨.inl ih.1.1, ih.1.2⟩, ih.2, fun hk => absurd hk hkey⟩

theorem keepBest_eq_some_iff (hrank : ∀ a ∈ l, ∀ b ∈ l, rank a = rank b → a = b) :
    keepBest key better l k = some a ↔
      (a ∈ l ∧ key a = some k) ∧ ∀ b ∈ l, key b = some k → rank a ≤ rank b := by
  have hspec := @keepBest_spec _ _ _ _ key _ _ _ hbetter l k
  constructor
  · intro hbest
    rw [hbest] at hspec
    exact hspec
  · rintro ⟨⟨ha, hka⟩, hmin⟩
    match hbest : keepBest key better l k with
    | none =>
      rw [hbest] at hspec
      exact absurd hka (hspec a ha)
    | some b =>
      rw [hbest] at hspec
      obtain ⟨⟨hb, hkb⟩, hmin'⟩ := hspec
      rw [hrank b hb a ha (le_antisymm (hmin' a ha hka) (hmin b hb hkb))]

/-- Two lists with the same entries of a key have the same best entry of it. -/
theorem keepBest_congr (hrank : ∀ a ∈ l, ∀ b ∈ l, rank a = rank b → a = b)
    (hrank' : ∀ a ∈ l', ∀ b ∈ l', rank a = rank b → a = b)
    (hmem : ∀ a, key a = some k → (a ∈ l ↔ a ∈ l')) :
    keepBest key better l k = keepBest key better l' k := by
  refine Option.ext fun a => ?_
  rw [keepBest_eq_some_iff hbetter hrank, keepBest_eq_some_iff hbetter hrank']
  refine and_congr (and_congr_left fun hk => hmem a hk) (forall_congr' fun b => ?_)
  exact ⟨fun h hb hk => h ((hmem b hk).2 hb) hk, fun h hb hk => h ((hmem b hk).1 hb) hk⟩

end Layr.Best
