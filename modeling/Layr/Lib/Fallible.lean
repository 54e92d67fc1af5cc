import Mathlib

/-!
# Fallible functions

The steps of a function that stops at its first error: a guard, a value that has to be there, a
sequence, a loop over a list. One lemma for each says when the step succeeds, so that a proof about
a success takes a function apart without unfolding the monad.
-/

namespace Layr

open List

variable {ε α β σ : Type}

/-- Stop with the message unless the condition holds. -/
def ensure (b : Bool) (msg : ε) : Except ε Unit := if b then .ok () else .error msg

def context (o : Option α) (msg : ε) : Except ε α :=
  match o with
  | some a => .ok a
  | none => .error msg

@[simp] theorem ensure_eq_ok {b : Bool} {msg : ε} {u : Unit} : ensure b msg = .ok u ↔ b = true := by
  cases b <;> simp [ensure]

@[simp] theorem context_eq_ok {o : Option α} {msg : ε} {a : α} : context o msg = .ok a ↔
    o = some a := by
  cases o <;> simp [context]

variable {x : Except ε α}

/-- A sequence succeeds exactly when its first step does and then the rest. -/
@[simp] theorem bind_eq_ok {f : α → Except ε β} {b : β} : (x >>= f) = .ok b ↔ ∃ a, x = .ok a ∧
    f a = .ok b := by
  cases x <;> simp [bind, Except.bind]

@[simp] theorem pure_eq_ok {a b : α} : (pure a : Except ε α) = .ok b ↔ a = b := by
  simp [pure, Except.pure]

@[simp] theorem ensure_eq_error {b : Bool} {msg e : ε} : ensure b msg = .error e ↔
    b = false ∧ msg = e := by
  cases b <;> simp [ensure]

/-- A sequence fails where its first step does, or else where the rest does. -/
@[simp] theorem bind_eq_error {f : α → Except ε β} {e : ε} :
    (x >>= f) = .error e ↔ x = .error e ∨ ∃ a, x = .ok a ∧ f a = .error e := by
  cases x <;> simp [bind, Except.bind]

@[simp] theorem map_eq_error {f : α → β} {e : ε} : f <$> x = .error e ↔ x = .error e := by
  cases x <;> simp [Functor.map, Except.map]

@[simp] theorem exists_unit_eq_ok {x : Except ε Unit} {p : Prop} : (∃ u, x = .ok u ∧ p) ↔
    x = .ok () ∧ p :=
  ⟨fun ⟨_, h⟩ => h, fun h => ⟨_, h⟩⟩

@[simp] theorem toOption_eq_some {a : α} : x.toOption = some a ↔ x = .ok a := by
  cases x <;> simp [Except.toOption]

/-- A step on a field that may be missing. A field that does not decode is an error. -/
def onField (field : Option α) (decode : α → Option β) (msg : ε) (s : σ) (apply : β → σ) :
    Except ε σ :=
  match field with
  | none => .ok s
  | some v => do return apply (← context (decode v) msg)

/-- The step succeeds exactly when the field decodes, and a missing field leaves what there was. -/
theorem onField_eq_ok {field : Option α} {decode : α → Option β} {msg : ε} {s s' : σ}
    {apply : β → σ} :
    onField field decode msg s apply = .ok s' ↔
      (∀ v, field = some v → (decode v).isSome = true) ∧
        s' = ((field.bind decode).map apply).getD s := by
  cases field with
  | none => exact ⟨fun h => ⟨nofun, (Except.ok.inj h).symm⟩, fun h => h.2 ▸ rfl⟩
  | some v =>
    simp only [onField, bind_eq_ok, context_eq_ok, pure_eq_ok, Option.some.injEq, forall_eq',
      Option.bind_some]
    cases decode v with
    | none => simp
    | some b =>
      simp only [Option.some.injEq, exists_eq_left', Option.isSome_some, true_and]
      exact eq_comm

variable {xs : List α}

/-- A loop of checks succeeds exactly when every check does. -/
@[simp] theorem forM_eq_ok {f : α → Except ε Unit} {u : Unit} : forM xs f = .ok u ↔
    ∀ x ∈ xs, f x = .ok () := by
  induction xs with
  | nil => simp [pure, Except.pure]
  | cons x xs ih =>
    rw [forM_cons, bind_eq_ok, forall_mem_cons]
    simp only [exists_unit_eq_ok, ih]

/-- A loop that adds what each element gives, when it gives something. -/
theorem foldlM_collect {f : α → Except ε (Option β)} {acc out : List β} :
    xs.foldlM (fun acc x => do return acc ++ (← f x).toList) acc = .ok out ↔
      (∀ x ∈ xs, ∃ o, f x = .ok o) ∧
        out = acc ++ xs.filterMap fun x => (f x).toOption.bind fun o => o := by
  induction xs generalizing acc with
  | nil => simp [pure, Except.pure, eq_comm]
  | cons x xs ih =>
    rw [foldlM_cons, bind_eq_ok]
    cases hx : f x with
    | error e => simp [hx, bind, Except.bind]
    | ok o =>
      have hstep : ∀ a, (do return acc ++ (← (Except.ok o : Except ε (Option β))).toList) =
          (Except.ok a : Except ε (List β)) ↔ acc ++ o.toList = a := by
        intro a
        simp [bind, Except.bind, pure, Except.pure]
      simp only [hstep, exists_eq_left', ih, forall_mem_cons, hx]
      cases o <;> simp [Except.toOption, hx]

variable {f : σ → α → Except ε σ}

/-- What every successful step of a loop keeps, the loop keeps. -/
theorem foldlM_keeps {P : σ → Prop} (hstep : ∀ x ∈ xs, ∀ s s', P s → f s x = .ok s' → P s')
    {s s' : σ} (hs : P s) (h : xs.foldlM f s = .ok s') : P s' := by
  induction xs generalizing s with
  | nil =>
    rw [foldlM_nil, pure_eq_ok] at h
    exact h ▸ hs
  | cons x xs ih =>
    rw [foldlM_cons, bind_eq_ok] at h
    obtain ⟨t, ht, h⟩ := h
    exact ih (fun y hy => hstep y (mem_cons_of_mem _ hy)) (hstep x mem_cons_self s t hs ht) h

variable {g : σ → α → σ} {P : σ → α → Prop}

/-- A loop whose step is guarded by a condition, when the conditions of all steps and the state
after them are given by recursion. -/
theorem foldlM_eq_ok_of_cons {R : σ → List α → Prop} {G : σ → List α → σ}
    (hstep : ∀ s x s', f s x = .ok s' ↔ P s x ∧ s' = g s x) (hnil : ∀ s, R s [] ∧ G s [] = s)
    (hcons : ∀ s x xs, (R s (x :: xs) ↔ P s x ∧ R (g s x) xs) ∧ G s (x :: xs) = G (g s x) xs)
    {s s' : σ} : xs.foldlM f s = .ok s' ↔ R s xs ∧ s' = G s xs := by
  induction xs generalizing s with
  | nil =>
    rw [foldlM_nil, pure_eq_ok, (hnil s).2]
    exact ⟨fun h => ⟨(hnil s).1, h.symm⟩, fun h => h.2.symm⟩
  | cons x xs ih =>
    rw [foldlM_cons, bind_eq_ok, (hcons s x xs).1, (hcons s x xs).2, and_assoc, ← ih]
    simp [hstep, and_assoc]

/-- The same in terms of the steps: each one finds its condition, and then does what the step does.
-/
theorem foldlM_eq_ok_iff (hstep : ∀ s x s', f s x = .ok s' ↔ P s x ∧ s' = g s x) {s s' : σ} :
    xs.foldlM f s = .ok s' ↔
      (∀ l₁ x l₂, xs = l₁ ++ x :: l₂ → P (l₁.foldl g s) x) ∧ s' = xs.foldl g s := by
  apply foldlM_eq_ok_of_cons hstep
  · exact fun _ => ⟨fun l₁ x l₂ hx => by simp at hx, rfl⟩
  refine fun s y xs => ⟨⟨fun hall => ⟨hall [] y xs rfl, fun l₁ x l₂ hx => ?_⟩, ?_⟩, rfl⟩
  · exact hall (y :: l₁) x l₂ (by rw [hx]; rfl)
  · rintro ⟨hP, hall⟩ (_ | ⟨z, l₁⟩) x l₂ hx
    · obtain ⟨rfl, -⟩ := List.cons.inj hx
      exact hP
    · obtain ⟨rfl, rfl⟩ := List.cons.inj hx
      exact hall l₁ x l₂ rfl

/-- A function that may fail on each element of a list gives the list of its results. -/
theorem mapM_eq_ok {f : α → Except ε β} {ys : List β} :
    xs.mapM f = .ok ys ↔ List.Forall₂ (fun x y => f x = .ok y) xs ys := by
  induction xs generalizing ys with
  | nil =>
    rw [mapM_nil, pure_eq_ok, forall₂_nil_left_iff]
    exact eq_comm
  | cons x xs ih =>
    rw [mapM_cons, bind_eq_ok, forall₂_cons_left_iff]
    simp only [bind_eq_ok, pure_eq_ok, ih]
    constructor
    · rintro ⟨y, hy, zs, hzs, rfl⟩
      exact ⟨y, zs, hy, hzs, rfl⟩
    · rintro ⟨y, zs, hy, hzs, rfl⟩
      exact ⟨y, hy, zs, hzs, rfl⟩

/-- It succeeds exactly when it succeeds on every element. -/
theorem exists_mapM_eq_ok {f : α → Except ε β} : (∃ ys, xs.mapM f = .ok ys) ↔
    ∀ x ∈ xs, ∃ y, f x = .ok y := by
  induction xs with
  | nil => simp [pure, Except.pure]
  | cons x xs ih =>
    rw [forall_mem_cons, ← ih]
    simp only [mapM_cons, bind_eq_ok, pure_eq_ok]
    constructor
    · rintro ⟨_, y, hy, ys, hys, -⟩
      exact ⟨⟨y, hy⟩, ys, hys⟩
    · rintro ⟨⟨y, hy⟩, ys, hys⟩
      exact ⟨_, y, hy, ys, hys, rfl⟩

end Layr
