import Mathlib

/-!
# Worklists

A worklist holds jobs that can only be done in some states. The loop takes the first job of the list
that the state allows, does it and goes on; it fails when no job is allowed or when a job that is
allowed cannot be done. A run of the loop does all jobs in some order (`run_sound`), and a list that
is already in such an order is done from the front (`run_of_exec`). When any two jobs of the list
can be exchanged wherever both are allowed, the order of the list does not matter (`run_perm`).
-/

namespace Layr.Worklist

open List

variable {S J : Type*} (allowed : S → J → Bool) (step : S → J → Option S)

/-- Do the first allowed job, and so on until the list is empty. -/
def run (s : S) (js : List J) : Option S :=
  if js = [] then some s
  else
    match h : js.findIdx? (allowed s) with
    | none => none
    | some i =>
      have hi : i < js.length := (findIdx?_eq_some_iff_getElem.1 h).1
      (step s js[i]).bind fun s' => run s' (js.eraseIdx i)
termination_by js.length
decreasing_by
  rw [length_eraseIdx_of_lt hi]
  omega

/-- The jobs are done in the order of the list, each in a state that allows it. -/
inductive Exec : S → List J → S → Prop where
  | nil (s : S) : Exec s [] s
  | cons {s s' t : S} {j : J} {js : List J} (hj : allowed s j = true) (hs : step s j = some s')
      (h : Exec s' js t) : Exec s (j :: js) t

variable {allowed step}

@[simp] theorem run_nil (s : S) : run allowed step s [] = some s := by
  rw [run]
  simp

variable {js : List J} {s t : S}

/-- One round of the loop: the job taken is the first allowed one. -/
theorem run_eq_some_cons (hne : js ≠ []) : run allowed step s js = some t ↔
    ∃ (i : Nat) (hi : i < js.length) (s' : S),
      js.findIdx? (allowed s) = some i ∧ allowed s js[i] = true ∧ step s js[i] = some s' ∧
        run allowed step s' (js.eraseIdx i) = some t := by
  rw [run, if_neg hne]
  split
  · next h =>
    simp [h]
  next i h =>
  obtain ⟨hi, hal, -⟩ := findIdx?_eq_some_iff_getElem.1 h
  simp only [Option.bind_eq_some_iff, h, Option.some.injEq]
  constructor
  · rintro ⟨s', hs', hr⟩
    exact ⟨i, hi, s', rfl, hal, hs', hr⟩
  · rintro ⟨_, _, s', rfl, -, hs', hr⟩
    exact ⟨s', hs', hr⟩

/-- A run does all jobs of the list in some order. -/
theorem run_sound (h : run allowed step s js = some t) :
    ∃ js', js'.Perm js ∧ Exec allowed step s js' t := by
  induction hn : js.length using Nat.strongRecOn generalizing s js with
  | ind n ih =>
    by_cases hne : js = []
    · subst hne
      rw [run_nil] at h
      cases h
      exact ⟨[], .refl _, .nil _⟩
    obtain ⟨i, hi, s', -, hal, hs', hr⟩ := (run_eq_some_cons hne).1 h
    have hlen : (js.eraseIdx i).length < n := by
      rw [length_eraseIdx_of_lt hi]
      omega
    obtain ⟨js', hp, he⟩ := ih _ hlen hr rfl
    exact ⟨js[i] :: js', (hp.cons _).trans (getElem_cons_eraseIdx_perm hi), .cons hal hs' he⟩

/-- Jobs that stand in a possible order are done in that order. -/
theorem run_of_exec (h : Exec allowed step s js t) : run allowed step s js = some t := by
  induction h with
  | nil s => exact run_nil s
  | @cons s s' t j js hj hs h ih =>
    refine (run_eq_some_cons (cons_ne_nil _ _)).2 ⟨0, Nat.zero_lt_succ _, s', ?_, hj, hs, ?_⟩
    · simp [findIdx?_cons, hj]
    · simpa using ih

/-! ## Jobs that can be exchanged -/

/-- Where both jobs are allowed, the first leaves the second allowed, and the second can be done
before the first with the same result. -/
def Exchange (allowed : S → J → Bool) (step : S → J → Option S) (j k : J) : Prop :=
  ∀ s s₁, allowed s j = true → allowed s k = true → step s j = some s₁ →
    allowed s₁ k = true ∧ ∀ s₂, step s₁ k = some s₂ →
      ∃ s', step s k = some s' ∧ allowed s' j = true ∧ step s' j = some s₂

/-- An allowed job that can be exchanged with those before it can be done first. -/
theorem Exec.move_front {k : J} {xs ys : List J} (hx : ∀ x ∈ xs, Exchange allowed step x k)
    (hk : allowed s k = true) (h : Exec allowed step s (xs ++ k :: ys) t) :
    Exec allowed step s (k :: (xs ++ ys)) t := by
  induction xs generalizing s with
  | nil => exact h
  | cons x xs ih =>
    cases h with
    | @cons _ s₁ _ _ _ hal hs₁ h =>
      obtain ⟨hk₁, hswap⟩ := hx x mem_cons_self s s₁ hal hk hs₁
      -- The job first moves to the front of the rest, and then past `x`.
      cases ih (fun y hy => hx y (mem_cons_of_mem _ hy)) hk₁ h with
      | @cons _ s₂ _ _ _ _ hs₂ hrest =>
        obtain ⟨s', hs', hal', hx'⟩ := hswap s₂ hs₂
        exact .cons hk hs' (.cons hal' hx' hrest)

variable {R : J → J → Prop}

/-- A symmetric relation between the jobs of a list also holds for the jobs in another order. -/
theorem pairwise_perm (hR : ∀ j k, R j k → R k j) {js js' : List J}
    (h : js.Pairwise R) (hp : js'.Perm js) : js'.Pairwise R :=
  (hp.pairwise_iff (fun hr => hR _ _ hr)).2 h

/-- When the jobs can be exchanged, a possible order of them decides what the loop reaches. -/
theorem run_of_exec_perm (hsymm : ∀ j k, R j k → R k j)
    (hR : ∀ j k, R j k → Exchange allowed step j k) {js js' : List J}
    (hpair : js.Pairwise R) (hp : js'.Perm js) (h : Exec allowed step s js' t) :
    run allowed step s js = some t := by
  induction hn : js.length using Nat.strongRecOn generalizing s js js' with
  | ind n ih =>
    by_cases hne : js = []
    · subst hne
      cases hp.eq_nil
      cases h
      exact run_nil _
    -- Some job is allowed: the one that the possible order starts with.
    have hfind : ∃ i, js.findIdx? (allowed s) = some i := by
      cases h with
      | nil => exact absurd hp.symm.eq_nil hne
      | @cons _ _ _ j _ hal _ _ =>
        have hj : j ∈ js := hp.subset mem_cons_self
        cases hf : js.findIdx? (allowed s) with
        | none =>
          have := findIdx?_eq_none_iff.1 hf j hj
          rw [hal] at this
          cases this
        | some i => exact ⟨i, rfl⟩
    obtain ⟨i, hf⟩ := hfind
    obtain ⟨hi, hal, -⟩ := findIdx?_eq_some_iff_getElem.1 hf
    obtain ⟨xs, ys, hsplit⟩ := append_of_mem (hp.symm.subset (getElem_mem hi))
    subst hsplit
    have hpair' := pairwise_perm hsymm hpair hp
    have hx : ∀ x ∈ xs, Exchange allowed step x js[i] := by
      intro x hmem
      exact hR _ _ ((pairwise_append.1 hpair').2.2 x hmem _ mem_cons_self)
    cases Exec.move_front hx hal h with
    | @cons _ s' _ _ _ _ hs' hrest =>
      have hperm : (xs ++ ys).Perm (js.eraseIdx i) := by
        have h₁ : (js[i] :: (xs ++ ys)).Perm js := perm_middle.symm.trans hp
        exact List.Perm.cons_inv (h₁.trans (getElem_cons_eraseIdx_perm hi).symm)
      have hlen : (js.eraseIdx i).length < n := by
        rw [length_eraseIdx_of_lt hi]
        omega
      have hpairE : (js.eraseIdx i).Pairwise R := hpair.sublist (eraseIdx_sublist _ _)
      exact (run_eq_some_cons hne).2 ⟨i, hi, s', hf, hal, hs', ih _ hlen hpairE hperm hrest rfl⟩

/-- When the jobs can be exchanged, the loop reaches the same state from every order of the list. -/
theorem run_perm (hsymm : ∀ j k, R j k → R k j)
    (hR : ∀ j k, R j k → Exchange allowed step j k) {s : S} {js js' : List J}
    (hpair : js.Pairwise R) (hp : js'.Perm js) :
    run allowed step s js' = run allowed step s js := by
  have hpair' := pairwise_perm hsymm hpair hp
  refine Option.ext fun t => ⟨fun h => ?_, fun h => ?_⟩
  · obtain ⟨ks, hk, he⟩ := run_sound h
    exact run_of_exec_perm hsymm hR hpair (hk.trans hp) he
  · obtain ⟨ks, hk, he⟩ := run_sound h
    exact run_of_exec_perm hsymm hR hpair' (hk.trans hp.symm) he

/-- Another order of what a list gives comes from another order of the list. -/
theorem exists_perm_filterMap {α : Type*} {f : α → Option J} {l : List α}
    (hp : js.Perm (l.filterMap f)) : ∃ l' : List α, l'.Perm l ∧ l'.filterMap f = js := by
  induction js generalizing l with
  | nil => exact ⟨l, .refl l, hp.symm.eq_nil⟩
  | cons j js ih =>
    obtain ⟨x, hx, hfx⟩ := mem_filterMap.1 (hp.subset mem_cons_self)
    obtain ⟨as, bs, rfl⟩ := append_of_mem hx
    rw [filterMap_append, filterMap_cons_some hfx] at hp
    have hp' : js.Perm ((as ++ bs).filterMap f) := by
      rw [filterMap_append]
      exact List.Perm.cons_inv (hp.trans perm_middle)
    obtain ⟨l', hl', rfl⟩ := ih hp'
    exact ⟨x :: l', (hl'.cons x).trans perm_middle.symm, filterMap_cons_some hfx⟩

end Layr.Worklist
