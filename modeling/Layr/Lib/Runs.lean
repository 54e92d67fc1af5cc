import Mathlib

/-!
# Runs

A run is a list of events that a step function applies one after another. `Along` says that a
condition on a state and the next event holds at each event of the run; an invariant that each such
event keeps holds at the end, and carries a conclusion from event to event.

Some elements that wait for their delivery have to be delivered before others. A list that is about
to be delivered is complete (`InOrder.Complete`) if every waiting element that has to come before an
element of the list stands before it: then a delivery of the list from its first element on, as far
as it comes, passes no waiting element over.
-/

namespace Layr.Runs

variable {σ ε : Type*} {step : σ → ε → σ} {I : σ → Prop} {P Q : σ → ε → Prop} {s : σ} {e : ε}
  {es es' : List ε}

/-- The condition holds at each event of the run, for the state before it. -/
def Along (step : σ → ε → σ) (P : σ → ε → Prop) : σ → List ε → Prop
  | _, [] => True
  | s, e :: es => P s e ∧ Along step P (step s e) es

@[simp] theorem along_nil : Along step P s [] := trivial

@[simp] theorem along_cons : Along step P s (e :: es) ↔
    P s e ∧ Along step P (step s e) es := Iff.rfl

theorem along_append : Along step P s (es ++ es') ↔ Along step P s es ∧
    Along step P (es.foldl step s) es' := by
  induction es generalizing s with
  | nil => simp
  | cons e es ih => simp [along_cons, ih, and_assoc]

theorem along_and : Along step (fun s e => P s e ∧ Q s e) s es ↔ Along step P s es ∧
    Along step Q s es := by
  induction es generalizing s with
  | nil => simp
  | cons e es ih =>
    simp only [along_cons, ih]
    constructor
    · rintro ⟨⟨hp, hq⟩, hps, hqs⟩
      exact ⟨⟨hp, hps⟩, hq, hqs⟩
    · rintro ⟨⟨hp, hps⟩, hq, hqs⟩
      exact ⟨⟨hp, hq⟩, hps, hqs⟩

/-- An invariant that the events of the run keep holds at its end. -/
theorem Along.invariant (h : Along step P s es) (hs : I s)
    (hstep : ∀ s e, I s → P s e → I (step s e)) :
    I (es.foldl step s) := by
  induction es generalizing s with
  | nil => exact hs
  | cons e es ih => exact ih h.2 (hstep s e hs h.1)

/-- An invariant carries one condition along a run to another. -/
theorem Along.imp (h : Along step P s es) (hs : I s)
    (hstep : ∀ s e, I s → P s e → I (step s e) ∧ Q s e) : Along step Q s es := by
  induction es generalizing s with
  | nil => trivial
  | cons e es ih =>
    obtain ⟨hI, hQ⟩ := hstep s e hs h.1
    exact ⟨hQ, ih h.2 hI⟩

end Layr.Runs

namespace Layr.InOrder

open List

variable {α : Type*} {W W' : α → Prop} {r : α → α → Prop} {l l' : List α} {j k : α}

/-- Before each element of the list stands every waiting element that has to come before it. -/
def Complete (W : α → Prop) (r : α → α → Prop) (l : List α) : Prop :=
  ∀ l₁ k l₂, l = l₁ ++ k :: l₂ → ∀ j, W j → r j k → j ∈ l₁

/-- Fewer elements wait, or others that do not come before an element of the list. -/
theorem Complete.mono (h : Complete W r l) (hW : ∀ k ∈ l, ∀ j, W' j → r j k → W j) :
    Complete W' r l :=
  fun l₁ k l₂ heq j hj hjk => h l₁ k l₂ heq j
    (hW k (heq ▸ mem_append_right _ mem_cons_self) j hj hjk) hjk

theorem Complete.append_left (h : Complete W r (l ++ l')) : Complete W r l := fun l₁ k l₂ heq =>
  h l₁ k (l₂ ++ l') (by rw [heq, append_assoc, cons_append])

theorem Complete.of_isPrefix (h : Complete W r l) (hl : l' <+: l) : Complete W r l' := by
  obtain ⟨rest, rfl⟩ := hl
  exact h.append_left

/-- Nothing that waits has to come before the first element. -/
theorem Complete.head (h : Complete W r (k :: l)) (hj : W j) : ¬ r j k := fun hjk =>
  nomatch h [] k l rfl j hj hjk

/-- The first element does not wait any more. -/
theorem Complete.tail (h : Complete W r (k :: l)) (hk : ¬ W k) : Complete W r l := by
  intro l₁ k' l₂ heq j hj hjk
  rcases mem_cons.1 (h (k :: l₁) k' l₂ (by rw [heq, cons_append]) j hj hjk) with rfl | hmem
  · exact absurd hj hk
  · exact hmem

theorem complete_singleton (h : ∀ j, W j → ¬ r j k) : Complete W r [k] := by
  intro l₁ k' l₂ heq j hj hjk
  cases l₁ with
  | nil => exact absurd hjk ((List.cons.inj heq).1 ▸ h j hj)
  | cons a l₁ => exact absurd (List.cons.inj heq).2 (by simp)

/-- A list that is sorted by an order which decides who comes first, and that holds what waits. -/
theorem complete_of_pairwise {le : α → α → Prop} (hsorted : l.Pairwise le)
    (hW : ∀ k ∈ l, ∀ j, W j → r j k → j ∈ l ∧ ¬ le k j ∧ j ≠ k) : Complete W r l := by
  rintro l₁ k l₂ rfl j hj hjk
  obtain ⟨hmem, hnot, hne⟩ := hW k (mem_append_right _ mem_cons_self) j hj hjk
  rcases mem_append.1 hmem with hmem | hmem
  · exact hmem
  rcases mem_cons.1 hmem with heq | hmem
  · exact absurd heq hne
  · exact absurd (rel_of_pairwise_cons (pairwise_append.1 hsorted).2.1 hmem) hnot

/-- The image of a complete list, if what waits comes from what waited. -/
theorem Complete.map {β : Type*} {V : β → Prop} {q : β → β → Prop} {f : β → α} {l : List β}
    (h : Complete V q l) (hW : ∀ k ∈ l, ∀ j, W j → r j (f k) → ∃ i, f i = j ∧ V i ∧ q i k) :
    Complete W r (l.map f) := by
  intro l₁ k l₂ heq j hj hjk
  obtain ⟨m₁, m, rfl, rfl, hm⟩ := map_eq_append_iff.1 heq
  obtain ⟨k', m₂, rfl, rfl, rfl⟩ := map_eq_cons_iff.1 hm
  obtain ⟨i, rfl, hi, hik⟩ := hW k' (mem_append_right _ mem_cons_self) j hj hjk
  exact mem_map_of_mem (h m₁ k' m₂ rfl i hi hik)

end Layr.InOrder
