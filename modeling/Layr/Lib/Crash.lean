import Mathlib

/-!
# Programs that can stop at any point

A program works on a state by actions, each a list of writes. Faults come from outside: an action
can fail or stop the program, after any part of its writes. A failure can be handled, a stop cannot;
the state that is left is what the next program starts from.

`Triple P p Q E` says that `p`, started where `P` holds, leaves `Q` when it succeeds, and `E`
wherever else it ends. The rules below build triples along a program, so that a proof about crashes
never looks at faults. `Total` says in addition that the program succeeds when there are none.
-/

namespace Layr.Crash

open List

/-- What comes in the way of an action, and which of its writes are done all the same. -/
inductive Fault where
  | none
  | error (done : Nat → Bool)
  | crash (done : Nat → Bool)

inductive Outcome (α : Type) where
  | ok (a : α)
  | error
  | crash

/-- A program takes the faults that are to come, one for each action, and the state. -/
def Prog (σ α : Type) : Type := List Fault → σ → Outcome α × List Fault × σ

variable {σ α β : Type}

def writeAll (ws : List (σ → σ)) (s : σ) : σ := ws.foldl (fun s w => w s) s

def chosen (done : Nat → Bool) (ws : List (σ → σ)) : List (σ → σ) :=
  (ws.zipIdx.filter fun e => done e.2).map (·.1)

theorem chosen_sublist (done : Nat → Bool) (ws : List (σ → σ)) : (chosen done ws).Sublist ws := by
  have hmap := List.Sublist.map (fun e : (σ → σ) × Nat => e.1)
    (@filter_sublist _ (fun e => done e.2) ws.zipIdx)
  rwa [show ws.zipIdx.map (fun e => e.1) = ws from zipIdx_map_fst 0 ws] at hmap

namespace Prog

protected def pure (a : α) : Prog σ α := fun fs s => (.ok a, fs, s)

protected def bind (p : Prog σ α) (k : α → Prog σ β) : Prog σ β := fun fs s =>
  match p fs s with
  | (.ok a, fs, s) => k a fs s
  | (.error, fs, s) => (.error, fs, s)
  | (.crash, fs, s) => (.crash, fs, s)

instance : Monad (Prog σ) where
  pure := Prog.pure
  bind := Prog.bind

def fail : Prog σ α := fun fs s => (.error, fs, s)

/-- Look at the state. What is looked for may be missing. -/
def read (f : σ → Option α) : Prog σ α := fun fs s =>
  match f s, fs with
  | _, .crash _ :: fs => (.crash, fs, s)
  | some a, [] => (.ok a, [], s)
  | some a, .none :: fs => (.ok a, fs, s)
  | _, fs => (.error, fs.tail, s)

def act (f : σ → Option (List (σ → σ))) : Prog σ Unit := fun fs s =>
  match f s, fs with
  | none, .crash _ :: fs => (.crash, fs, s)
  | none, fs => (.error, fs.tail, s)
  | some ws, [] => (.ok (), [], writeAll ws s)
  | some ws, .none :: fs => (.ok (), fs, writeAll ws s)
  | some ws, .error done :: fs => (.error, fs, writeAll (chosen done ws) s)
  | some ws, .crash done :: fs => (.crash, fs, writeAll (chosen done ws) s)

def onError (p : Prog σ α) (handler : Prog σ Unit) : Prog σ α := fun fs s =>
  match p fs s with
  | (.error, fs, s) =>
    match handler fs s with
    | (.crash, fs, s) => (.crash, fs, s)
    | (_, fs, s) => (.error, fs, s)
  | out => out

def guard (b : Bool) : Prog σ Unit := if b then Prog.pure () else fail

end Prog

open Prog

/-! ## Triples -/

def Ends (Q : α → σ → Prop) (E : σ → Prop) : Outcome α × List Fault × σ → Prop
  | (.ok a, _, s) => Q a s
  | (.error, _, s) => E s
  | (.crash, _, s) => E s

/-- Started where `P` holds, the program leaves `Q` when it succeeds and `E` wherever else it ends.
-/
def Triple (P : σ → Prop) (p : Prog σ α) (Q : α → σ → Prop) (E : σ → Prop) : Prop :=
  ∀ fs s, P s → Ends Q E (p fs s)

variable {P P' : σ → Prop} {Q Q' : α → σ → Prop} {E E' : σ → Prop} {p : Prog σ α}

theorem Ends.mono {out : Outcome α × List Fault × σ} (h : Ends Q E out) (hQ : ∀ a s, Q a s → Q' a s)
    (hE : ∀ s, E s → E' s) : Ends Q' E' out := by
  obtain ⟨o, fs, s⟩ := out
  cases o with
  | ok a => exact hQ a s h
  | error | crash => exact hE s h

theorem Triple.mono (h : Triple P p Q E) (hP : ∀ s, P' s → P s) (hQ : ∀ a s, Q a s → Q' a s)
    (hE : ∀ s, E s → E' s) : Triple P' p Q' E' :=
  fun fs s hs => (h fs s (hP s hs)).mono hQ hE

theorem Triple.pre (h : Triple P p Q E) (hP : ∀ s, P' s → P s) : Triple P' p Q E :=
  h.mono hP (fun _ _ => id) fun _ => id

theorem Triple.or_pre (h : Triple P p Q E) (h' : Triple P' p Q E) :
    Triple (fun s => P s ∨ P' s) p Q E := by
  rintro fs s (hs | hs)
  · exact h fs s hs
  · exact h' fs s hs

variable {a : α}

theorem Triple.pure : Triple (Q a) (Pure.pure a : Prog σ α) Q E := fun _ _ hs => hs

variable {k : α → Prog σ β} {R : β → σ → Prop}

theorem Triple.bind (h : Triple P p Q E) (hk : ∀ a, Triple (Q a) (k a) R E) :
    Triple P (p >>= k) R E := by
  intro fs s hs
  have hp := h fs s hs
  change Ends R E (Prog.bind p k fs s)
  unfold Prog.bind
  generalize p fs s = out at hp
  obtain ⟨o, fs', s'⟩ := out
  cases o with
  | ok a => exact hk a fs' s' hp
  | error | crash => exact hp

theorem Triple.fail (h : ∀ s, P s → E s) : Triple P (Prog.fail : Prog σ α) Q E :=
  fun _ s hs => h s hs

variable {b : Bool}

theorem Triple.guard {Q : Unit → σ → Prop} (hE : ∀ s, P s → E s)
    (h : b = true → ∀ s, P s → Q () s) : Triple P (Prog.guard b) Q E := by
  intro fs s hs
  cases b with
  | true => exact h rfl s hs
  | false => exact hE s hs

variable {f : σ → Option α}

theorem Triple.read (hE : ∀ s, P s → E s) (h : ∀ s a, P s → f s = some a → Q a s) :
    Triple P (Prog.read f) Q E := by
  intro fs s hs
  unfold Prog.read
  split
  · exact hE s hs
  · next a heq => exact h s a hs heq
  · next a fs' heq => exact h s a hs heq
  · exact hE s hs

/-- An action that leaves `Q` when all of its writes are done, and `E` after any part of them. -/
theorem Triple.act {f : σ → Option (List (σ → σ))} {Q : Unit → σ → Prop} (hE : ∀ s, P s → E s)
    (hpart : ∀ s ws us, P s → f s = some ws → us.Sublist ws → E (writeAll us s))
    (h : ∀ s ws, P s → f s = some ws → Q () (writeAll ws s)) : Triple P (Prog.act f) Q E := by
  intro fs s hs
  unfold Prog.act
  split
  · exact hE s hs
  · exact hE s hs
  · next ws heq => exact h s ws hs heq
  · next ws fs' heq => exact h s ws hs heq
  · next ws done fs' heq => exact hpart s ws _ hs heq (chosen_sublist done ws)
  · next ws done fs' heq => exact hpart s ws _ hs heq (chosen_sublist done ws)

variable {handler : Prog σ Unit} {E₀ : σ → Prop}

/-- A handler is started where the program failed. -/
theorem Triple.onError (h : Triple P p Q E₀)
    (hE : ∀ s, E₀ s → E s) (hh : Triple E₀ handler (fun _ => E) E) :
    Triple P (Prog.onError p handler) Q E := by
  intro fs s hs
  have hp := h fs s hs
  unfold Prog.onError
  split
  · next fs' s' heq =>
    rw [heq] at hp
    have hend := hh fs' s' hp
    split
    · next heq' =>
      rw [heq'] at hend
      exact hend
    next o fs'' s'' hne heq' =>
    rw [heq'] at hend
    cases o with
    | ok | error | crash => exact hend
  · exact hp.mono (fun _ _ => id) hE

variable {ι : Type} {I : List ι → σ → Prop}

/-- The rule of a loop, for any kind of triples that has the rules of the end and of a sequence. By
induction on the rounds to come, with those that are done in the invariant. -/
theorem forM_of_step {R : (σ → Prop) → Prog σ Unit → (Unit → σ → Prop) → Prop}
    (hpure : ∀ {P}, R P (Pure.pure ()) fun _ => P)
    (hbind : ∀ {P M Q} {p q : Prog σ Unit}, R P p (fun _ => M) → R M q Q → R P (p >>= fun _ => q) Q)
    {f : ι → Prog σ Unit} (h : ∀ l i, R (I l) (f i) fun _ => I (l ++ [i])) (l is : List ι) :
    R (I l) (is.forM f) fun _ => I (l ++ is) := by
  induction is generalizing l with
  | nil =>
    rw [append_nil]
    exact hpure
  | cons i is ih =>
    have hrest := ih (l ++ [i])
    rw [append_assoc] at hrest
    exact hbind (h l i) hrest

/-- A loop, with what holds after the first of its rounds. -/
theorem Triple.forM {f : ι → Prog σ Unit} (h : ∀ l i, Triple (I l) (f i) (fun _ => I (l ++ [i])) E)
    (l is : List ι) :
    Triple (I l) (is.forM f) (fun _ => I (l ++ is)) E :=
  forM_of_step (R := fun P p Q => Triple P p Q E) (Triple.pure (Q := fun _ => _) (a := ()))
    (fun hp hq => hp.bind fun _ => hq) h l is

variable {s : σ}

/-- However a program ends, `E` holds there. -/
theorem Triple.final (h : Triple P p (fun _ => E) E) (fs : List Fault) (hs : P s) :
    E (p fs s).2.2 := by
  have hend := h fs s hs
  generalize p fs s = out at hend
  obtain ⟨o, fs', s'⟩ := out
  cases o with
  | ok | error | crash => exact hend

/-! ## What a program keeps -/

/-- However the program ends, what held at the start holds still. -/
def Keeps (P : σ → Prop) (p : Prog σ α) : Prop := Triple P p (fun _ => P) P

theorem Keeps.bind (h : Keeps P p) (hk : ∀ a, Keeps P (k a)) : Keeps P (p >>= k) :=
  Triple.bind h hk

theorem Keeps.fail : Keeps P (Prog.fail : Prog σ α) := Triple.fail fun _ => id

theorem Keeps.guard : Keeps P (Prog.guard b) := Triple.guard (fun _ => id) fun _ _ => id

theorem Keeps.read : Keeps P (Prog.read f) := Triple.read (fun _ => id) fun _ _ hs _ => hs

theorem writeAll_keeps {ws : List (σ → σ)} (h : ∀ g ∈ ws, ∀ s, P s → P (g s)) (hs : P s) :
    P (writeAll ws s) :=
  List.foldlRecOn _ _ hs fun s hs g hg => h g hg s hs

/-- An action each of whose writes keeps what held. -/
theorem Keeps.act {f : σ → Option (List (σ → σ))}
    (h : ∀ s ws, f s = some ws → ∀ g ∈ ws, ∀ s, P s → P (g s)) : Keeps P (Prog.act f) :=
  Triple.act (fun _ => id)
    (fun s _ _ hs heq hus => writeAll_keeps (fun g hg => h s _ heq g (hus.mem hg)) hs)
    fun s _ hs heq => writeAll_keeps (h s _ heq) hs

theorem Keeps.onError (h : Keeps P p) (hh : Keeps P handler) : Keeps P (Prog.onError p handler) :=
  Triple.onError h (fun _ => id) hh

theorem Keeps.forM {f : ι → Prog σ Unit} (h : ∀ i, Keeps P (f i)) (is : List ι) :
    Keeps P (is.forM f) :=
  Triple.forM (I := fun _ => P) (fun _ i => h i) [] is

/-! ## Runs without faults -/

/-- A triple of a program that succeeds when no fault comes in the way. -/
structure Total (P : σ → Prop) (p : Prog σ α) (Q : α → σ → Prop) (E : σ → Prop) : Prop where
  triple : Triple P p Q E
  runs : ∀ s, P s → ∃ a s', p [] s = (.ok a, [], s')

/-- What a run without faults leaves. -/
theorem Total.exists_run (h : Total P p Q E) (hs : P s) : ∃ a s', p [] s = (.ok a, [], s') ∧
    Q a s' := by
  obtain ⟨a, s', heq⟩ := h.runs s hs
  have hend := h.triple [] s hs
  rw [heq] at hend
  exact ⟨a, s', heq, hend⟩

theorem Total.mono (h : Total P p Q E) (hP : ∀ s, P' s → P s) (hQ : ∀ a s, Q a s → Q' a s)
    (hE : ∀ s, E s → E' s) : Total P' p Q' E' :=
  ⟨h.triple.mono hP hQ hE, fun s hs => h.runs s (hP s hs)⟩

theorem Total.pre (h : Total P p Q E) (hP : ∀ s, P' s → P s) : Total P' p Q E :=
  h.mono hP (fun _ _ => id) fun _ => id

theorem Total.err (h : Total P p Q E) (hE : ∀ s, E s → E' s) : Total P p Q E' :=
  h.mono (fun _ => id) (fun _ _ => id) hE

/-- What the start says of more than the state can be used beside the triple. -/
theorem Total.of_imp {C : Prop} (hP : ∀ s, P s → C) (h : C → Total P p Q E) : Total P p Q E :=
  ⟨fun fs s hs => (h (hP s hs)).triple fs s hs, fun s hs => (h (hP s hs)).runs s hs⟩

theorem Total.or_pre (h : Total P p Q E) (h' : Total P' p Q E) :
    Total (fun s => P s ∨ P' s) p Q E :=
  ⟨h.triple.or_pre h'.triple, fun s hs => hs.elim (h.runs s) (h'.runs s)⟩

theorem Total.pure : Total (Q a) (Pure.pure a : Prog σ α) Q E :=
  ⟨Triple.pure, fun s _ => ⟨a, s, rfl⟩⟩

theorem Total.bind (h : Total P p Q E) (hk : ∀ a, Total (Q a) (k a) R E) :
    Total P (p >>= k) R E := by
  refine ⟨h.triple.bind fun a => (hk a).triple, fun s hs => ?_⟩
  obtain ⟨a, s', heq, hQ⟩ := h.exists_run hs
  obtain ⟨b, s'', heq'⟩ := (hk a).runs s' hQ
  refine ⟨b, s'', ?_⟩
  change Prog.bind p k [] s = _
  unfold Prog.bind
  rw [heq]
  exact heq'

/-- A program whose answer is known, and that changes nothing. -/
theorem Total.bind_eq (h : Total P p (fun b s => b = a ∧ P s) E) (hk : Total P (k a) R E) :
    Total P (p >>= k) R E := by
  refine h.bind fun b => Total.of_imp (C := b = a) (fun _ hs => hs.1) fun heq => ?_
  rw [heq]
  exact hk.pre fun _ hs => hs.2

theorem Total.guard {Q : Unit → σ → Prop} (hb : ∀ s, P s → b = true)
    (hE : ∀ s, P s → E s) (h : ∀ s, P s → Q () s) : Total P (Prog.guard b) Q E := by
  refine ⟨Triple.guard hE fun _ => h, fun s hs => ⟨(), s, ?_⟩⟩
  rw [hb s hs]
  rfl

theorem Total.guard_true (hb : b = true) (hE : ∀ s, P s → E s) :
    Total P (Prog.guard b) (fun _ => P) E :=
  Total.guard (fun _ _ => hb) hE fun _ => id

theorem Total.read (hE : ∀ s, P s → E s) (h : ∀ s, P s → ∃ a, f s = some a ∧ Q a s) :
    Total P (Prog.read f) Q E := by
  refine ⟨Triple.read hE fun s a hs heq => ?_, fun s hs => ?_⟩
  · obtain ⟨b, hb, hQ⟩ := h s hs
    cases hb.symm.trans heq
    exact hQ
  · obtain ⟨a, ha, -⟩ := h s hs
    refine ⟨a, s, ?_⟩
    unfold Prog.read
    rw [ha]

theorem Total.read_eq (hE : ∀ s, P s → E s) (h : ∀ s, P s → f s = some a) :
    Total P (Prog.read f) (fun b s => b = a ∧ P s) E :=
  Total.read hE fun s hs => ⟨a, h s hs, rfl, hs⟩

theorem Total.act {f : σ → Option (List (σ → σ))} {Q : Unit → σ → Prop}
    (h : ∀ s, P s → ∃ ws, f s = some ws ∧ (∀ us : List (σ → σ), us.Sublist ws → E (writeAll us s)) ∧
      Q () (writeAll ws s)) : Total P (Prog.act f) Q E := by
  refine ⟨Triple.act (fun s hs => ?_) (fun s ws us hs heq hus => ?_) fun s ws hs heq => ?_,
    fun s hs => ?_⟩
  · obtain ⟨ws, -, hpart, -⟩ := h s hs
    exact hpart [] (nil_sublist _)
  · obtain ⟨ws', hws, hpart, -⟩ := h s hs
    cases hws.symm.trans heq
    exact hpart us hus
  · obtain ⟨ws', hws, -, hQ⟩ := h s hs
    cases hws.symm.trans heq
    exact hQ
  · obtain ⟨ws, hws, -⟩ := h s hs
    refine ⟨(), writeAll ws s, ?_⟩
    unfold Prog.act
    rw [hws]

/-- A call that makes one write, or none that matters. -/
theorem Total.write {f : σ → Option (List (σ → σ))} {g : σ → σ} {Q : Unit → σ → Prop}
    (hE : ∀ s, P s → E s) (h : ∀ s, P s → f s = some [g] ∧ E (g s) ∧ Q () (g s)) :
    Total P (Prog.act f) Q E := by
  refine Total.act fun s hs => ?_
  obtain ⟨hf, hEg, hQ⟩ := h s hs
  refine ⟨[g], hf, fun us hus => ?_, hQ⟩
  rcases sublist_singleton.1 hus with rfl | rfl
  · exact hE s hs
  · exact hEg

theorem Total.onError (h : Total P p Q E₀)
    (hE : ∀ s, E₀ s → E s) (hh : Triple E₀ handler (fun _ => E) E) :
    Total P (Prog.onError p handler) Q E := by
  refine ⟨h.triple.onError hE hh, fun s hs => ?_⟩
  obtain ⟨a, s', heq⟩ := h.runs s hs
  refine ⟨a, s', ?_⟩
  unfold Prog.onError
  rw [heq]

/-- A handler that starts from anywhere the program stops, and stops there itself. -/
theorem Total.onError_same (h : Total P p Q E)
    (hh : Triple E handler (fun _ => E) E) : Total P (Prog.onError p handler) Q E :=
  h.onError (fun _ => id) hh

/-- A loop whose rounds all succeed without faults. -/
theorem Total.forM {f : ι → Prog σ Unit} (h : ∀ l i, Total (I l) (f i) (fun _ => I (l ++ [i])) E)
    (l is : List ι) :
    Total (I l) (is.forM f) (fun _ => I (l ++ is)) E :=
  forM_of_step (R := fun P p Q => Total P p Q E) (Total.pure (Q := fun _ => _) (a := ()))
    (fun hp hq => hp.bind fun _ => hq) h l is

end Layr.Crash
