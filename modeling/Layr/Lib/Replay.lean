import Mathlib

/-!
# Arrival orders

The events of several sites arrive in some order. All that an arrival order promises is that the
events of one site arrive in the order of their numbers (`Arrival`). A reader of the arrived events
gives the same answer for all arrival orders when what it looks at is fixed by the order of single
sites: the first event that says something, when the first ones of all sites agree
(`Arrival.findSome?_eq`); whether some event comes after a given one, when another site's event is
backed by one of the same site (`Arrival.any_tail_iff`); whether a pair of events comes in the wrong
order, when only pairs of one site do (`Arrival.pairwise_iff`); and all that is read of one site
(`Arrival.filter_eq`).
-/

namespace Layr.Replay

open List

variable {α β κ : Type*} {site : α → κ} {seq : α → Nat} {rows o o' : List α}

/-- The events arrive so that those of one site are in the order of their numbers. -/
structure Arrival (site : α → κ) (seq : α → Nat) (rows o : List α) : Prop where
  perm : o.Perm rows
  inOrder : o.Pairwise fun a b => site a = site b → seq a < seq b

variable {a : α}

namespace Arrival

theorem mem_iff (h : Arrival site seq rows o) : a ∈ o ↔ a ∈ rows := h.perm.mem_iff

variable {l₁ l₂ : List α} {a b : α}

section

variable (h : Arrival site seq rows (l₁ ++ a :: l₂))
include h

/-- An earlier event of the same site has a smaller number. -/
theorem seq_lt_of_mem (hb : b ∈ l₁) (hsite : site b = site a) : seq b < seq a :=
  (pairwise_append.1 h.inOrder).2.2 b hb a mem_cons_self hsite

/-- A later event of the same site has a larger number. -/
theorem seq_le_of_mem (hb : b ∈ a :: l₂) (hsite : site b = site a) : seq a ≤ seq b := by
  rcases mem_cons.1 hb with rfl | hb
  · exact le_refl _
  · have hpair := (pairwise_append.1 h.inOrder).2.1
    exact le_of_lt ((pairwise_cons.1 hpair).1 b hb hsite.symm)

/-- An event of the same site with a larger number comes later. -/
theorem mem_tail_of_seq_le (hb : b ∈ rows) (hsite : site b = site a) (hseq : seq a ≤ seq b) :
    b ∈ a :: l₂ := by
  rcases mem_append.1 (h.mem_iff.2 hb) with hb | hb
  · exact absurd (h.seq_lt_of_mem hb hsite) (not_lt.2 hseq)
  · exact hb

/-- An event of the same site with a smaller number comes earlier. -/
theorem mem_init_of_seq_lt (hb : b ∈ rows) (hsite : site b = site a) (hseq : seq b < seq a) :
    b ∈ l₁ := by
  rcases mem_append.1 (h.mem_iff.2 hb) with hb | hb
  · exact hb
  · exact absurd (h.seq_le_of_mem hb hsite) (not_le.2 hseq)

end

/-- The event is the first of its site that says something. -/
def IsFirst (site : α → κ) (seq : α → Nat) (rows : List α) (f : α → Option β) (a : α) : Prop :=
  ∀ b ∈ rows, (f b).isSome = true → site b = site a → seq a ≤ seq b

section

variable (h : Arrival site seq rows o)
include h

variable {f : α → Option β}

/-- What is found first is found at the first event of its site. -/
theorem isFirst_of_findSome? {v : β} (hv : o.findSome? f = some v) :
    ∃ a ∈ rows, f a = some v ∧ IsFirst site seq rows f a := by
  obtain ⟨l₁, a, l₂, rfl, ha, hnone⟩ := findSome?_eq_some_iff.1 hv
  refine ⟨a, h.mem_iff.1 (by simp), ha, fun b hb hsome hsite => ?_⟩
  rcases mem_append.1 (h.mem_iff.2 hb) with hb | hb
  · rw [hnone b hb] at hsome
    cases hsome
  · exact h.seq_le_of_mem hb hsite

/-- The first event that says something says the same in all orders, when the first events of all
sites agree. -/
theorem findSome?_eq (h' : Arrival site seq rows o')
    (hagree : ∀ a ∈ rows, ∀ b ∈ rows, (f a).isSome = true → (f b).isSome = true →
      IsFirst site seq rows f a → IsFirst site seq rows f b → f a = f b) : o.findSome? f =
        o'.findSome? f := by
  cases hv : o.findSome? f with
  | none =>
    refine (findSome?_eq_none_iff.2 fun a ha => ?_).symm
    exact findSome?_eq_none_iff.1 hv a (h.mem_iff.2 (h'.mem_iff.1 ha))
  | some v =>
    obtain ⟨a, ha, hfa, hfirst⟩ := h.isFirst_of_findSome? hv
    have hsome : (o'.findSome? f).isSome = true :=
      findSome?_isSome_iff.2 ⟨a, h'.mem_iff.2 ha, by rw [hfa]; rfl⟩
    obtain ⟨w, hw⟩ := Option.isSome_iff_exists.1 hsome
    obtain ⟨b, hb, hfb, hfirst'⟩ := h'.isFirst_of_findSome? hw
    have heq := hagree a ha b hb (by rw [hfa]; rfl) (by rw [hfb]; rfl) hfirst hfirst'
    rw [hw, ← hfa, ← hfb, heq]

omit h in
/-- Whether some event comes not before a given one, when an event of another site is backed by one
of the same site. -/
theorem any_tail_iff (h : Arrival site seq rows (l₁ ++ a :: l₂))
    {p : α → Bool} (hback : ∀ b ∈ rows, p b = true → site b ≠ site a →
      ∃ b' ∈ rows, p b' = true ∧ site b' = site a ∧ seq a ≤ seq b') :
    (a :: l₂).any p = true ↔ ∃ b ∈ rows, p b = true ∧ site b = site a ∧ seq a ≤ seq b := by
  rw [any_eq_true]
  constructor
  · rintro ⟨b, hb, hp⟩
    have hmem : b ∈ rows := h.mem_iff.1 (mem_append_right _ hb)
    by_cases hsite : site b = site a
    · exact ⟨b, hmem, hp, hsite, h.seq_le_of_mem hb hsite⟩
    · exact hback b hmem hp hsite
  · rintro ⟨b, hb, hp, hsite, hseq⟩
    exact ⟨b, h.mem_tail_of_seq_le hb hsite hseq, hp⟩

/-- Of two events of one site the one with the smaller number comes first. -/
theorem sublist_iff (ha : a ∈ rows) (hb : b ∈ rows) (hsite : site a = site b) : [a, b].Sublist o ↔
    seq a < seq b := by
  constructor
  · exact fun hab => pairwise_iff_forall_sublist.1 h.inOrder hab hsite
  · intro hseq
    obtain ⟨l₁, l₂, rfl⟩ := append_of_mem (h.mem_iff.2 hb)
    have hbefore := h.mem_init_of_seq_lt ha hsite hseq
    exact (singleton_sublist.2 hbefore).append (singleton_sublist.2 mem_cons_self)

/-- Whether some event comes after a given one, when an event of another site is backed by one of
the same site. -/
theorem exists_after_iff (ha : a ∈ rows) {p : α → Prop} (hback : ∀ b ∈ rows, p b → site b ≠ site a →
      ∃ b' ∈ rows, p b' ∧ site b' = site a ∧ seq a < seq b') :
    (∃ b, [a, b].Sublist o ∧ p b) ↔ ∃ b ∈ rows, p b ∧ site b = site a ∧ seq a < seq b := by
  constructor
  · rintro ⟨b, hab, hp⟩
    have hb : b ∈ rows := h.mem_iff.1 (hab.subset (by simp))
    by_cases hsite : site b = site a
    · exact ⟨b, hb, hp, hsite, (h.sublist_iff ha hb hsite.symm).1 hab⟩
    · exact hback b hb hp hsite
  · rintro ⟨b, hb, hp, hsite, hseq⟩
    exact ⟨b, (h.sublist_iff ha hb hsite.symm).2 hseq, hp⟩

/-- A relation between earlier and later events, when it can only fail within a site. -/
theorem pairwise_iff (h' : Arrival site seq rows o')
    {R : α → α → Prop} (hsite : ∀ a ∈ rows, ∀ b ∈ rows, ¬ R a b → site a = site b) :
    o.Pairwise R → o'.Pairwise R := by
  intro hR
  refine pairwise_iff_forall_sublist.2 fun {a b} hab => ?_
  by_contra hnot
  have hmem : a ∈ rows ∧ b ∈ rows :=
    ⟨h'.mem_iff.1 (hab.subset (by simp)), h'.mem_iff.1 (hab.subset (by simp))⟩
  have hs := hsite a hmem.1 b hmem.2 hnot
  have hlt := pairwise_iff_forall_sublist.1 h'.inOrder hab hs
  obtain ⟨l₁, l₂, rfl⟩ := append_of_mem (h.mem_iff.2 hmem.2)
  have hbefore := h.mem_init_of_seq_lt hmem.1 hs hlt
  exact hnot ((pairwise_append.1 hR).2.2 a hbefore b mem_cons_self)

/-- All that is read of one site is in the same order. -/
theorem filter_eq (h' : Arrival site seq rows o') {p : α → Bool} {s : κ}
    (hone : ∀ a ∈ rows, p a = true → site a = s) : o.filter p = o'.filter p := by
  have hpair : ∀ {l}, Arrival site seq rows l → (l.filter p).Pairwise fun a b => seq a < seq b := by
    intro l hl
    refine (hl.inOrder.filter p).imp_of_mem fun {a b} ha hb hab => hab ?_
    rw [mem_filter] at ha hb
    rw [hone a (hl.mem_iff.1 ha.1) ha.2, hone b (hl.mem_iff.1 hb.1) hb.2]
  have hperm : (o.filter p).Perm (o'.filter p) := (h.perm.trans h'.perm.symm).filter p
  refine hperm.eq_of_pairwise (fun a b _ _ hab hba => ?_) (hpair h) (hpair h')
  exact absurd (hab.trans hba) (lt_irrefl _)

end

end Arrival

/-- An element of a list with one more element at its end is that one, or comes before it. -/
theorem append_singleton_eq_append_cons {l l₁ l₂ : List α} {x : α} (h : l ++ [a] = l₁ ++ x :: l₂) :
    (l₂ = [] ∧ l = l₁ ∧ a = x) ∨ ∃ l₃, l₂ = l₃ ++ [a] ∧ l = l₁ ++ x :: l₃ := by
  rcases eq_nil_or_concat' l₂ with rfl | ⟨l₃, y, rfl⟩
  · obtain ⟨rfl, hx⟩ := append_inj' h rfl
    exact .inl ⟨rfl, rfl, singleton_inj.1 hx⟩
  · rw [← cons_append, ← append_assoc] at h
    obtain ⟨rfl, hy⟩ := append_inj' h rfl
    exact .inr ⟨l₃, by rw [singleton_inj.1 hy], rfl⟩

/-- The pairs of a list with one more element at its end. -/
theorem pair_sublist_append_singleton {l : List α} {b x : α} :
    [a, b].Sublist (l ++ [x]) ↔ [a, b].Sublist l ∨ (b = x ∧ a ∈ l) := by
  constructor
  · intro h
    obtain ⟨k₁, k₂, hk, h₁, h₂⟩ := sublist_append_iff.1 h
    rcases sublist_singleton.1 h₂ with rfl | rfl
    · rw [append_nil] at hk
      exact .inl (hk ▸ h₁)
    · obtain ⟨rfl, hb⟩ := append_inj' (show [a] ++ [b] = k₁ ++ [x] from hk) rfl
      exact .inr ⟨singleton_inj.1 hb, singleton_sublist.1 h₁⟩
  · rintro (h | ⟨rfl, h⟩)
    · exact h.trans (sublist_append_left _ _)
    · exact (singleton_sublist.2 h).append (List.Sublist.refl _)

end Layr.Replay
