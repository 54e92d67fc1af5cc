import Mathlib

/-!
# Folding a join

A value is combined from a list of contributions one by one, starting from nothing. When the
combination of two values is a least upper bound of the two in some preorder, the result is a least
upper bound of all contributions, whatever their order.
-/

namespace Layr.Join

open List

variable {α β : Type*} (f : α → α → α)

/-- One more contribution to an optional value. -/
def step (out : Option α) (a : α) : Option α :=
  match out with
  | none => some a
  | some o => some (f o a)

/-- The combination of all contributions of a list, from left to right. -/
def all (xs : List α) : Option α := xs.foldl (step f) none

/-- A fold that skips what does not count is the combination of what counts. -/
theorem foldl_filter_map (p : β → Bool) (g : β → α) (xs : List β) (out : Option α) :
    xs.foldl (fun out b => if p b then step f out (g b) else out) out = ((xs.filter p).map g).foldl
      (step f) out := by
  induction xs generalizing out with
  | nil => rfl
  | cons b xs ih =>
    rw [foldl_cons, ih]
    by_cases hb : p b <;> simp [hb]

variable {xs : List α} {r : α}

section

variable [Preorder α] {f}

theorem foldl_step_some (hf : ∀ a b, IsLUB {a, b} (f a b)) (o : α) (xs : List α) :
    ∃ r, xs.foldl (step f) (some o) = some r ∧ IsLUB (insert o {a | a ∈ xs}) r := by
  induction xs generalizing o with
  | nil => exact ⟨o, rfl, by simp⟩
  | cons x xs ih =>
    obtain ⟨r, hr, hlub⟩ := ih (f o x)
    refine ⟨r, hr, fun a ha => ?_, fun u hu => hlub.2 fun a ha => ?_⟩
    · have hle : f o x ≤ r := hlub.1 (Set.mem_insert _ _)
      rcases ha with rfl | ha
      · exact le_trans ((hf a x).1 (by simp)) hle
      · rcases mem_cons.1 ha with rfl | ha
        · exact le_trans ((hf o a).1 (by simp)) hle
        · exact hlub.1 (Set.mem_insert_of_mem _ ha)
    · rcases ha with rfl | ha
      · refine (hf o x).2 fun b hb => hu ?_
        rcases hb with rfl | rfl
        · exact Set.mem_insert _ _
        · exact Set.mem_insert_of_mem _ mem_cons_self
      · exact hu (Set.mem_insert_of_mem _ (mem_cons_of_mem _ ha))

/-- The combination is a least upper bound of the contributions. -/
theorem all_isLUB (hf : ∀ a b, IsLUB {a, b} (f a b)) (h : all f xs = some r) :
    IsLUB {a | a ∈ xs} r := by
  cases xs with
  | nil => cases h
  | cons x xs =>
    obtain ⟨r', hr', hlub⟩ := foldl_step_some hf x xs
    have heq : some r = some r' := h.symm.trans hr'
    cases heq
    have hset : {a | a ∈ x :: xs} = insert x {a | a ∈ xs} := by
      ext a
      simp
    rwa [hset]

end

/-- Something comes out as soon as one contribution goes in. -/
theorem all_isSome_of_mem {a : α} (h : a ∈ xs) : ∃ r, all f xs = some r := by
  have hsome : ∀ (xs : List α) (o : α), ∃ r, xs.foldl (step f) (some o) = some r := by
    intro xs
    induction xs with
    | nil => exact fun o => ⟨o, rfl⟩
    | cons x xs ih => exact fun o => ih (f o x)
  cases xs with
  | nil => cases h
  | cons x xs => exact hsome xs x

/-- What comes out of one contribution or more went in. -/
theorem exists_mem_of_all (h : all f xs = some r) : ∃ a, a ∈ xs := by
  cases xs with
  | nil => cases h
  | cons x xs => exact ⟨x, mem_cons_self⟩

end Layr.Join
