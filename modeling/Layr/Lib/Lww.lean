import Mathlib

/-!
# Merging versions where the latest wins

A version has a text and a time. When two versions are merged the later one wins, the left one if
the times are equal. The winner remembers the other texts: those that both sides remembered, and the
loser's own text unless the winner saw it. It does not remember its own text, nor the void one.

A list of versions can be merged in any order and grouping. `agree_iff` says exactly for which lists
the result is the same for all of them (`Settled`). A remembered text is in the way if some grouping
drops it (`Lost`) and some grouping keeps it (`Found`):

* a text gets lost when a version with that text takes all its other mentions in, and then loses
  against a version that saw it (`lost_of_not_kept`, `exists_not_kept`);
* a text is found when a version remembers it, or when its owner can lose against a version that did
  not see it (`found_of_kept`, `exists_kept`).
-/

namespace Layr.Lww

open List

/-- What a merge looks at: the text of a version, its time, the texts it remembers, and up to which
time it saw the versions before it. -/
structure Register (V T : Type*) where
  text : V → T
  time : V → ℕ
  others : V → Set T
  saw : V → ℕ → Prop
  void : T

/-- An order and grouping of some versions. -/
inductive Grouping (V : Type*) where
  | one (v : V)
  | both (l r : Grouping V)

/-- The versions of a grouping, from left to right. -/
def Grouping.leaves {V : Type*} : Grouping V → List V
  | .one v => [v]
  | .both l r => l.leaves ++ r.leaves

variable {V T : Type*} (R : Register V T)

namespace Register

def win (a b : V) : V := if R.time a < R.time b then b else a

def lose (a b : V) : V := if R.time a < R.time b then a else b

def top : Grouping V → V
  | .one v => v
  | .both l r => R.win (top l) (top r)

def Kept : Grouping V → T → Prop
  | .one v, t => t ∈ R.others v
  | .both l r, t => t ≠ R.void ∧ t ≠ R.text (R.win (R.top l) (R.top r)) ∧
      (Kept l t ∨ Kept r t ∨ t = R.text (R.lose (R.top l) (R.top r)) ∧
        ¬ R.saw (R.win (R.top l) (R.top r)) (R.time (R.lose (R.top l) (R.top r))))

/-- A version mentions a text as its own or as one it remembers. -/
def Mentions (v : V) (t : T) : Prop := R.text v = t ∨ t ∈ R.others v

variable (vs : List V)

def Newest (w : V) : Prop := w ∈ vs ∧ ∀ v ∈ vs, R.time v ≤ R.time w

/-- Some grouping drops the text: `y` takes in everything that mentions it, then `z` wins. A `y`
that remembers its own text has to take in something to forget it. -/
def LostAt (t : T) (y : V) : Prop :=
  R.text y = t ∧ (∀ v ∈ vs, R.Mentions v t → R.time v ≤ R.time y) ∧
    ∃ z rest, vs.Perm (y :: z :: rest) ∧ ¬ R.Mentions z t ∧ R.time y ≤ R.time z ∧
      R.saw z (R.time y) ∧ (t ∈ R.others y → ∃ x ∈ rest, R.time x ≤ R.time y)

def Lost (t : T) : Prop := ∃ y, R.LostAt vs t y

def Found (t : T) : Prop :=
  (∃ v ∈ vs, t ∈ R.others v) ∨
    ∃ v ∈ vs, ∃ y ∈ vs, R.text v = t ∧ R.text y ≠ t ∧ R.time v ≤ R.time y ∧ ¬ R.saw y (R.time v)

/-- The latest versions have one text, and no other text is both lost and found. -/
structure Settled : Prop where
  text_eq : ∀ w w', R.Newest vs w → R.Newest vs w' → R.text w = R.text w'
  not_found : ∀ t, t ≠ R.void → (∀ w, R.Newest vs w → R.text w ≠ t) → R.Lost vs t → ¬ R.Found vs t

end Register

open Register

variable {R} {vs ws : List V} {t : T} {v w y : V} {g l r : Grouping V}

/-! ## What one merge does -/

theorem Grouping.leaves_ne_nil (g : Grouping V) : g.leaves ≠ [] := by
  induction g with
  | one v => exact cons_ne_nil v []
  | both l r ihl ihr => exact fun h => ihl (append_eq_nil_iff.1 h).1

/-- Induction over groupings: a merge has a side that wins and one that loses. -/
theorem ranked_induction {P : Grouping V → Prop} (one : ∀ v, P (.one v))
    (both : ∀ g a b : Grouping V, g.leaves.Perm (a.leaves ++ b.leaves) → R.top g = R.top a →
      R.time (R.top b) ≤ R.time (R.top a) → (∀ t, R.Kept g t ↔ t ≠ R.void ∧ t ≠ R.text (R.top a) ∧
        (R.Kept a t ∨ R.Kept b t ∨ t = R.text (R.top b) ∧ ¬ R.saw (R.top a) (R.time (R.top b)))) →
      P a → P b → P g) (g : Grouping V) : P g := by
  induction g with
  | one v => exact one v
  | both l r ihl ihr =>
    by_cases h : R.time (R.top l) < R.time (R.top r)
    · refine both _ r l perm_append_comm (if_pos h) h.le (fun t => ?_) ihr ihl
      simp only [Kept, win, lose, if_pos h]
      rw [or_left_comm]
    · refine both _ l r (List.Perm.refl _) (if_neg h) (not_lt.1 h) (fun t => ?_) ihl ihr
      simp [Kept, win, lose, if_neg h]

/-- A grouping takes a latest version. -/
theorem newest_top (g : Grouping V) : R.Newest g.leaves (R.top g) := by
  induction g using ranked_induction (R := R) with
  | one v => exact ⟨mem_singleton_self v, fun u hu => (mem_singleton.1 hu ▸ le_refl _)⟩
  | both g a b hperm htop hle _ ha hb =>
    rw [htop]
    refine ⟨hperm.mem_iff.2 (mem_append_left _ ha.1), fun v hv => ?_⟩
    rcases mem_append.1 (hperm.mem_iff.1 hv) with hva | hvb
    · exact ha.2 v hva
    · exact (hb.2 v hvb).trans hle

/-- The same for any list of the same versions. -/
theorem newest_top_of_perm (h : g.leaves.Perm vs) : R.Newest vs (R.top g) :=
  ⟨h.mem_iff.1 (newest_top g).1, fun v hv => (newest_top g).2 v (h.mem_iff.2 hv)⟩

/-! ## Texts that get lost -/

theorem Register.LostAt.perm (h : R.LostAt vs t y) (hp : vs.Perm ws) : R.LostAt ws t y := by
  obtain ⟨hy, hmax, z, rest, hperm, hz⟩ := h
  exact ⟨hy, fun v hv => hmax v (hp.mem_iff.2 hv), z, rest, hp.symm.trans hperm, hz⟩

/-- More versions that mention the text no later. -/
theorem Register.LostAt.append (h : R.LostAt vs t y)
    (hws : ∀ v ∈ ws, R.Mentions v t → R.time v ≤ R.time y) : R.LostAt (vs ++ ws) t y := by
  obtain ⟨hy, hmax, z, rest, hperm, hz, hle, hsaw, hx⟩ := h
  refine ⟨hy, fun v hv hm => ?_, z, rest ++ ws, hperm.append_right ws, hz, hle, hsaw, fun ht => ?_⟩
  · rcases mem_append.1 hv with hv | hv
    · exact hmax v hv hm
    · exact hws v hv hm
  · obtain ⟨x, hxr, hxy⟩ := hx ht
    exact ⟨x, mem_append_left ws hxr, hxy⟩

theorem exists_perm_cons (h : v ∈ vs) : ∃ rest, vs.Perm (v :: rest) := by
  obtain ⟨s₁, s₂, rfl⟩ := append_of_mem h
  exact ⟨s₁ ++ s₂, perm_middle⟩

/-- Beside the version that a grouping takes there is another one, or it remembers what that one
does. -/
theorem exists_rest (h : ¬ R.Kept g t) : ∃ rest, g.leaves.Perm (R.top g :: rest) ∧
    (t ∈ R.others (R.top g) → ∃ x ∈ rest, R.time x ≤ R.time (R.top g)) := by
  cases g with
  | one v => exact ⟨[], List.Perm.refl _, fun ht => absurd ht h⟩
  | both l r =>
    obtain ⟨hmem, hmax⟩ := newest_top (R := R) (.both l r)
    obtain ⟨rest, hperm⟩ := exists_perm_cons hmem
    refine ⟨rest, hperm, fun _ => ?_⟩
    have hlen : 0 < rest.length := by
      have hl := length_pos_iff.2 l.leaves_ne_nil
      have hr := length_pos_iff.2 r.leaves_ne_nil
      have hsum := hperm.length_eq
      rw [Grouping.leaves, length_append, length_cons] at hsum
      omega
    obtain ⟨x, hx⟩ := exists_mem_of_length_pos hlen
    exact ⟨x, hx, hmax x (hperm.mem_iff.2 (mem_cons_of_mem _ hx))⟩

/-- The winner of a merge saw the loser, whose text it does not mention: the text of the loser, with
all that the loser took in, is lost. -/
theorem lostAt_of_loses {a b : Grouping V} (hb : R.text (R.top b) = t) (hkept : ¬ R.Kept b t)
    (hle : R.time (R.top b) ≤ R.time (R.top a)) (hsaw : R.saw (R.top a) (R.time (R.top b)))
    (hz : ¬ R.Mentions (R.top a) t)
    (hmax : ∀ v ∈ a.leaves, R.Mentions v t → R.time v ≤ R.time (R.top b)) :
    R.LostAt (a.leaves ++ b.leaves) t (R.top b) := by
  obtain ⟨rest, hperm, hx⟩ := exists_rest hkept
  obtain ⟨others, hothers⟩ := exists_perm_cons (newest_top (R := R) a).1
  have hall : (a.leaves ++ b.leaves).Perm (R.top b :: R.top a :: (others ++ rest)) :=
    (hothers.append hperm).trans perm_middle
  refine ⟨hb, fun v hv hm => ?_, R.top a, others ++ rest, hall, hz, hle, hsaw, fun ht => ?_⟩
  · rcases mem_append.1 hv with hv | hv
    · exact hmax v hv hm
    · exact (newest_top b).2 v hv
  · obtain ⟨x, hxr, hxy⟩ := hx ht
    exact ⟨x, mem_append_right _ hxr, hxy⟩

/-- A text that a grouping does not remember is mentioned nowhere, or lost. -/
theorem lost_of_not_kept (ht : t ≠ R.void) (htop : R.text (R.top g) ≠ t) (h : ¬ R.Kept g t) :
    (∀ v ∈ g.leaves, ¬ R.Mentions v t) ∨ R.Lost g.leaves t := by
  induction g using ranked_induction (R := R) with
  | one v =>
    refine .inl fun u hu hm => ?_
    obtain rfl := mem_singleton.1 hu
    exact hm.elim htop h
  | both g a b hperm heq hle hkept iha ihb =>
    rw [heq] at htop
    rw [hkept] at h
    have hnot : ¬ (R.Kept a t ∨ R.Kept b t ∨ t = R.text (R.top b) ∧
        ¬ R.saw (R.top a) (R.time (R.top b))) :=
      fun hor => h ⟨ht, Ne.symm htop, hor⟩
    simp only [not_or] at hnot
    obtain ⟨hka, hkb, hlose⟩ := hnot
    suffices hsuff : (∀ v ∈ a.leaves ++ b.leaves, ¬ R.Mentions v t) ∨
        R.Lost (a.leaves ++ b.leaves) t by
      refine hsuff.imp (fun hno v hv => hno v (hperm.mem_iff.1 hv)) fun ⟨y, hy⟩ => ⟨y, ?_⟩
      exact hy.perm hperm.symm
    -- where each side is later than what the other one mentions, its loss is the loss of both
    have hright : ∀ {y}, R.LostAt b.leaves t y →
        (∀ v ∈ a.leaves, R.Mentions v t → R.time v ≤ R.time y) → R.Lost (a.leaves ++ b.leaves) t :=
      fun hy hmax => ⟨_, (hy.append hmax).perm perm_append_comm⟩
    by_cases htb : R.text (R.top b) = t
    · have hsaw : R.saw (R.top a) (R.time (R.top b)) := by
        by_contra hns
        exact hlose ⟨htb.symm, hns⟩
      rcases iha htop hka with hno | ⟨y, hy⟩
      · exact .inr ⟨_, lostAt_of_loses htb hkb hle hsaw (hno _ (newest_top a).1) fun v hv hm =>
          absurd hm (hno v hv)⟩
      by_cases hyb : R.time (R.top b) ≤ R.time y
      · exact .inr ⟨y, hy.append fun v hv _ => ((newest_top b).2 v hv).trans hyb⟩
      have hmax : ∀ v ∈ a.leaves, R.Mentions v t → R.time v < R.time (R.top b) :=
        fun v hv hm => (hy.2.1 v hv hm).trans_lt (not_le.1 hyb)
      have hz : ¬ R.Mentions (R.top a) t :=
        fun hm => absurd hle (not_le.2 (hmax _ (newest_top a).1 hm))
      exact .inr ⟨_, lostAt_of_loses htb hkb hle hsaw hz fun v hv hm => (hmax v hv hm).le⟩
    · rcases iha htop hka with hno | ⟨y, hy⟩
      · rcases ihb htb hkb with hno' | ⟨y', hy'⟩
        · refine .inl fun v hv => ?_
          rcases mem_append.1 hv with hv | hv
          · exact hno v hv
          · exact hno' v hv
        · exact .inr (hright hy' fun v hv hm => absurd hm (hno v hv))
      · rcases ihb htb hkb with hno' | ⟨y', hy'⟩
        · exact .inr ⟨y, hy.append fun v hv hm => absurd hm (hno' v hv)⟩
        · rcases le_total (R.time y') (R.time y) with hyy | hyy
          · exact .inr ⟨y, hy.append fun v hv hm => (hy'.2.1 v hv hm).trans hyy⟩
          · exact .inr (hright hy' fun v hv hm => (hy.2.1 v hv hm).trans hyy)

theorem Register.Found.mono (h : R.Found vs t) (hs : vs ⊆ ws) : R.Found ws t := by
  rcases h with ⟨v, hv, hvt⟩ | ⟨v, hv, y, hy, hvy⟩
  · exact .inl ⟨v, hs hv, hvt⟩
  · exact .inr ⟨v, hs hv, y, hs hy, hvy⟩

/-- A text that a grouping remembers is found. -/
theorem found_of_kept (h : R.Kept g t) : R.Found g.leaves t := by
  induction g using ranked_induction (R := R) with
  | one v => exact .inl ⟨v, mem_singleton_self v, h⟩
  | both g a b hperm _ hle hkept iha ihb =>
    have ha : a.leaves ⊆ g.leaves := fun v hv => hperm.mem_iff.2 (mem_append_left _ hv)
    have hb : b.leaves ⊆ g.leaves := fun v hv => hperm.mem_iff.2 (mem_append_right _ hv)
    obtain ⟨-, htop, hka | hkb | ⟨rfl, hsaw⟩⟩ := (hkept t).1 h
    · exact (iha hka).mono ha
    · exact (ihb hkb).mono hb
    · exact .inr ⟨R.top b, hb (newest_top b).1, R.top a, ha (newest_top a).1, rfl, Ne.symm htop,
        hle, hsaw⟩

/-! ## Groupings that keep or drop a text -/

/-- Merge some versions into a grouping, one after another. -/
def Grouping.absorb (g : Grouping V) (us : List V) : Grouping V :=
  us.foldl (fun g v => .both g (.one v)) g

theorem Grouping.leaves_absorb (g : Grouping V) (us : List V) :
    (g.absorb us).leaves = g.leaves ++ us := by
  induction us generalizing g with
  | nil => exact (append_nil _).symm
  | cons u us ih =>
    rw [absorb, foldl_cons, ← absorb, ih, leaves, leaves, append_assoc, singleton_append]

variable {us : List V}

theorem win_of_le {a b : V} (h : R.time b ≤ R.time a) : R.win a b = a := if_neg (not_lt.2 h)

theorem lose_of_le {a b : V} (h : R.time b ≤ R.time a) : R.lose a b = b := if_neg (not_lt.2 h)

/-- A grouping that takes in nothing later keeps its version. -/
theorem top_absorb (h : ∀ v ∈ us, R.time v ≤ R.time (R.top g)) : R.top (g.absorb us) = R.top g := by
  induction us generalizing g with
  | nil => rfl
  | cons u us ih =>
    have htop : R.top (.both g (.one u)) = R.top g := win_of_le (h u mem_cons_self)
    rw [Grouping.absorb, foldl_cons, ← Grouping.absorb, ih, htop]
    rw [htop]
    exact fun v hv => h v (mem_cons_of_mem u hv)

/-- It keeps what it remembers, and what the versions it takes in remember. -/
theorem kept_absorb (ht : t ≠ R.void) (htop : t ≠ R.text (R.top g))
    (h : ∀ v ∈ us, R.time v ≤ R.time (R.top g)) (hkept : R.Kept g t ∨ ∃ v ∈ us, t ∈ R.others v) :
    R.Kept (g.absorb us) t := by
  induction us generalizing g with
  | nil => exact hkept.resolve_right fun ⟨v, hv, _⟩ => nomatch hv
  | cons u us ih =>
    have hwin : R.win (R.top g) u = R.top g := win_of_le (h u mem_cons_self)
    have htop' : R.top (.both g (.one u)) = R.top g := hwin
    refine ih (by rwa [htop']) (by rw [htop']; exact fun v hv => h v (mem_cons_of_mem u hv)) ?_
    have hboth : R.Kept g t ∨ t ∈ R.others u → R.Kept (.both g (.one u)) t := by
      refine fun hor => ⟨ht, ?_, hor.imp_right .inl⟩
      change t ≠ R.text (R.win (R.top g) u)
      rwa [hwin]
    rcases hkept with hg | ⟨v, hv, hvt⟩
    · exact .inl (hboth (.inl hg))
    · rcases mem_cons.1 hv with rfl | hv
      · exact .inl (hboth (.inr hvt))
      · exact .inr ⟨v, hv, hvt⟩

/-- It forgets its own text as soon as it takes in something. -/
theorem not_kept_absorb_self (h : ∀ v ∈ us, R.time v ≤ R.time (R.top g))
    (hkept : us = [] → ¬ R.Kept g (R.text (R.top g))) :
    ¬ R.Kept (g.absorb us) (R.text (R.top g)) := by
  rcases eq_nil_or_concat us with rfl | ⟨us, u, rfl⟩
  · exact hkept rfl
  · rw [concat_eq_append] at h ⊢
    have htop : R.top (g.absorb (us ++ [u])) = R.top g := top_absorb h
    rw [Grouping.absorb, foldl_append] at htop ⊢
    exact fun hk => hk.2.1 (by rw [← htop]; rfl)

/-- A text that is mentioned nowhere does not come in. -/
theorem not_kept_absorb (h : ∀ v ∈ us, ¬ R.Mentions v t) (htop : R.text (R.top g) ≠ t)
    (hkept : ¬ R.Kept g t) : ¬ R.Kept (g.absorb us) t := by
  induction us generalizing g with
  | nil => exact hkept
  | cons u us ih =>
    obtain ⟨hu, hus⟩ := forall_mem_cons.1 h
    have hside : ∀ x, x = R.top g ∨ x = u → R.text x ≠ t := by
      rintro x (rfl | rfl)
      · exact htop
      · exact fun heq => hu (.inl heq)
    have hwin : R.win (R.top g) u = R.top g ∨ R.win (R.top g) u = u := (ite_eq_or_eq _ _ _).symm
    have hlose : R.lose (R.top g) u = R.top g ∨ R.lose (R.top g) u = u := ite_eq_or_eq _ _ _
    refine ih hus (hside _ hwin) ?_
    rintro ⟨-, -, hg | hu' | ⟨rfl, -⟩⟩
    · exact hkept hg
    · exact hu (.inr hu')
    · exact hside _ hlose rfl

/-- A lost text is dropped by some grouping. -/
theorem exists_not_kept (h : R.Lost vs t) : ∃ g : Grouping V, g.leaves.Perm vs ∧ ¬ R.Kept g t := by
  obtain ⟨y, rfl, hmax, z, rest, hperm, hz, hle, hsaw, hx⟩ := h
  -- `y` takes in all that is no later, and loses against `z`; what is left does not mention the
  -- text
  let early := rest.filter fun v => R.time v ≤ R.time y
  let late := rest.filter fun v => !decide (R.time v ≤ R.time y)
  have hearly : ∀ v ∈ early, R.time v ≤ R.time (R.top (.one y)) :=
    fun v hv => of_decide_eq_true (mem_filter.1 hv).2
  have htop : R.top ((Grouping.one y).absorb early) = y := top_absorb hearly
  have hkept : ¬ R.Kept ((Grouping.one y).absorb early) (R.text y) := by
    refine not_kept_absorb_self hearly fun hnil ht => ?_
    obtain ⟨x, hxr, hxy⟩ := hx ht
    have hmem : x ∈ early := mem_filter.2 ⟨hxr, decide_eq_true hxy⟩
    rw [hnil] at hmem
    cases hmem
  let loss : Grouping V := .both (.one z) ((Grouping.one y).absorb early)
  have hwin : R.win z (R.top ((Grouping.one y).absorb early)) = z := by
    rw [htop]
    exact win_of_le hle
  have hlose : R.lose z (R.top ((Grouping.one y).absorb early)) = y := by
    rw [htop]
    exact lose_of_le hle
  have hloss : ¬ R.Kept loss (R.text y) := by
    rintro ⟨-, -, hkz | hky | ⟨-, hns⟩⟩
    · exact hz (.inr hkz)
    · exact hkept hky
    · change ¬ R.saw (R.win z _) (R.time (R.lose z _)) at hns
      rw [hwin, hlose] at hns
      exact hns hsaw
  have hloss_top : R.text (R.top loss) ≠ R.text y := by
    change R.text (R.win z _) ≠ R.text y
    rw [hwin]
    exact fun heq => hz (.inl heq)
  refine ⟨loss.absorb late, ?_, not_kept_absorb (fun v hv hm => ?_) hloss_top hloss⟩
  · rw [Grouping.leaves_absorb]
    change (z :: ((Grouping.one y).absorb early).leaves ++ late).Perm vs
    rw [Grouping.leaves_absorb]
    change (z :: y :: (early ++ late)).Perm vs
    have hsplit : (early ++ late).Perm rest :=
      filter_append_perm (fun v => decide (R.time v ≤ R.time y)) rest
    exact (((hsplit.cons y).cons z).trans (List.Perm.swap y z rest)).trans hperm.symm
  · obtain ⟨hvr, hvy⟩ := mem_filter.1 hv
    have hlate : ¬ R.time v ≤ R.time y := by simpa using hvy
    have hvs : v ∈ vs := hperm.mem_iff.2 (mem_cons_of_mem _ (mem_cons_of_mem _ hvr))
    exact hlate (hmax v hvs hm)

/-- Every latest version is the one that some grouping takes, which remembers what the others do. -/
theorem exists_top (h : R.Newest vs w) : ∃ g : Grouping V, g.leaves.Perm vs ∧ R.top g = w ∧
    ∀ t, t ≠ R.void → t ≠ R.text w → (∃ v ∈ vs, t ∈ R.others v) → R.Kept g t := by
  obtain ⟨rest, hperm⟩ := exists_perm_cons h.1
  have hle : ∀ v ∈ rest, R.time v ≤ R.time (R.top (.one w)) :=
    fun v hv => h.2 v (hperm.mem_iff.2 (mem_cons_of_mem w hv))
  refine ⟨(Grouping.one w).absorb rest, ?_, top_absorb hle, fun t ht htop ⟨v, hv, hvt⟩ => ?_⟩
  · rw [Grouping.leaves_absorb]
    exact hperm.symm
  · refine kept_absorb ht htop hle ?_
    rcases mem_cons.1 (hperm.mem_iff.1 hv) with rfl | hvr
    · exact .inl hvt
    · exact .inr ⟨v, hvr, hvt⟩

theorem exists_newest (h : vs ≠ []) : ∃ w, R.Newest vs w := by
  obtain ⟨v, us, rfl⟩ := exists_cons_of_ne_nil h
  have hleaves := Grouping.leaves_absorb (.one v) us
  exact ⟨_, newest_top_of_perm (g := (Grouping.one v).absorb us) (List.Perm.of_eq hleaves)⟩

/-- A found text is kept by some grouping, unless it is the latest one. -/
theorem exists_kept (ht : t ≠ R.void) (hnew : ∀ w, R.Newest vs w → R.text w ≠ t)
    (h : R.Found vs t) :
    ∃ g : Grouping V, g.leaves.Perm vs ∧ R.Kept g t := by
  rcases h with ⟨v, hv, hvt⟩ | ⟨v, hv, y, hy, rfl, hne, hle, hsaw⟩
  · obtain ⟨w, hw⟩ := exists_newest (R := R) (ne_nil_of_mem hv)
    obtain ⟨g, hg, -, hkept⟩ := exists_top hw
    exact ⟨g, hg, hkept t ht (Ne.symm (hnew w hw)) ⟨v, hv, hvt⟩⟩
  obtain ⟨rest₁, hperm₁⟩ := exists_perm_cons hy
  have hv₁ : v ∈ rest₁ := by
    refine (mem_cons.1 (hperm₁.mem_iff.1 hv)).resolve_left fun heq => hne ?_
    rw [heq]
  obtain ⟨rest₂, hperm₂⟩ := exists_perm_cons hv₁
  have hperm : vs.Perm (y :: v :: rest₂) := hperm₁.trans (hperm₂.cons y)
  let pair : Grouping V := .both (.one y) (.one v)
  have htop : R.top pair = y := win_of_le hle
  have hpair : R.Kept pair (R.text v) := by
    refine ⟨ht, ?_, .inr (.inr ?_)⟩
    · change R.text v ≠ R.text (R.win y v)
      rw [win_of_le hle]
      exact Ne.symm hne
    · change R.text v = R.text (R.lose y v) ∧ ¬ R.saw (R.win y v) (R.time (R.lose y v))
      rw [win_of_le hle, lose_of_le hle]
      exact ⟨rfl, hsaw⟩
  by_cases hynew : R.Newest vs y
  · refine ⟨pair.absorb rest₂, ?_, kept_absorb ht ?_ (fun u hu => ?_) (.inl hpair)⟩
    · rw [Grouping.leaves_absorb]
      exact hperm.symm
    · rw [htop]
      exact Ne.symm hne
    · rw [htop]
      exact hynew.2 u (hperm.mem_iff.2 (by simp [hu]))
  · -- a later version takes the pair in before the rest comes
    obtain ⟨w, hw⟩ := exists_newest (R := R) (ne_nil_of_mem hv)
    have hlt : R.time y < R.time w := by
      refine lt_of_le_of_ne (hw.2 y hy) fun heq => hynew ⟨hy, fun u hu => ?_⟩
      rw [heq]
      exact hw.2 u hu
    have hw₂ : w ∈ rest₂ := by
      rcases mem_cons.1 (hperm.mem_iff.1 hw.1) with rfl | hmem
      · exact absurd hlt (lt_irrefl _)
      · refine (mem_cons.1 hmem).resolve_left fun heq => ?_
        rw [heq] at hlt
        exact absurd hle (not_le.2 hlt)
    obtain ⟨rest₃, hperm₃⟩ := exists_perm_cons hw₂
    have htop' : R.top (.both (.one w) pair) = w := win_of_le (by rw [htop]; exact hlt.le)
    refine ⟨(Grouping.both (.one w) pair).absorb rest₃, ?_,
      kept_absorb ht ?_ (fun u hu => ?_) (.inl ⟨ht, ?_, .inr (.inl hpair)⟩)⟩
    · rw [Grouping.leaves_absorb]
      change (w :: y :: v :: rest₃).Perm vs
      have hswap : (w :: y :: v :: rest₃).Perm (y :: v :: w :: rest₃) :=
        (List.Perm.swap y w _).trans ((List.Perm.swap v w _).cons y)
      exact hswap.trans ((((hperm₃.symm.cons v)).cons y).trans hperm.symm)
    · rw [htop']
      exact Ne.symm (hnew w hw)
    · rw [htop']
      exact hw.2 u
        (hperm.mem_iff.2
        (mem_cons_of_mem _ (mem_cons_of_mem _ (hperm₃.mem_iff.2 (mem_cons_of_mem _ hu)))))
    · change R.text v ≠ R.text (R.top (.both (.one w) pair))
      rw [htop']
      exact Ne.symm (hnew w hw)

/-! ## Any order and grouping -/

theorem exists_mentions (h : R.Found vs t) : ∃ v ∈ vs, R.Mentions v t := by
  rcases h with ⟨v, hv, hvt⟩ | ⟨v, hv, -, -, hvt, -⟩
  · exact ⟨v, hv, .inr hvt⟩
  · exact ⟨v, hv, .inl hvt⟩

/-- In a settled list every grouping remembers what is found. -/
theorem Register.Settled.kept (h : R.Settled vs) (hg : g.leaves.Perm vs) (ht : t ≠ R.void)
    (htop : t ≠ R.text (R.top g)) (hf : R.Found vs t) : R.Kept g t := by
  by_contra hnot
  rcases lost_of_not_kept ht (Ne.symm htop) hnot with hno | ⟨y, hy⟩
  · obtain ⟨v, hv, hm⟩ := exists_mentions hf
    exact hno v (hg.mem_iff.2 hv) hm
  · refine h.not_found t ht (fun w hw => ?_) ⟨y, hy.perm hg⟩ hf
    rw [h.text_eq w _ hw (newest_top_of_perm hg)]
    exact Ne.symm htop

/-- A merge remembers neither the void text nor its own. -/
theorem kept_both (h : R.Kept (.both l r) t) : t ≠ R.void ∧ t ≠ R.text (R.top (.both l r)) :=
  ⟨h.1, h.2.1⟩

theorem eq_one_of_leaves (h : g.leaves.Perm [v]) : g = .one v := by
  cases g with
  | one u =>
    obtain rfl := singleton_perm_singleton.1 h
    rfl
  | both l r =>
    have hl := length_pos_iff.2 l.leaves_ne_nil
    have hr := length_pos_iff.2 r.leaves_ne_nil
    have hsum := h.length_eq
    rw [Grouping.leaves, length_append, length_singleton] at hsum
    omega

/-- All orders and groupings of some versions take the same text and remember the same texts exactly
when the versions are settled. -/
theorem agree_iff : (∀ g g' : Grouping V, g.leaves.Perm vs → g'.leaves.Perm vs →
      R.text (R.top g) = R.text (R.top g') ∧ ∀ t, R.Kept g t ↔ R.Kept g' t) ↔ R.Settled vs := by
  constructor
  · refine fun h => ⟨fun w w' hw hw' => ?_, fun t ht hnew hlost hf => ?_⟩
    · obtain ⟨g, hg, rfl, -⟩ := exists_top hw
      obtain ⟨g', hg', rfl, -⟩ := exists_top hw'
      exact (h g g' hg hg').1
    · obtain ⟨g, hg, hnot⟩ := exists_not_kept hlost
      obtain ⟨g', hg', hkept⟩ := exists_kept ht hnew hf
      exact hnot (((h g g' hg hg').2 t).2 hkept)
  · intro h
    have hone : ∀ {g g' : Grouping V}, g.leaves.Perm vs → g'.leaves.Perm vs → ∀ t, R.Kept g t →
        R.Kept g' t := by
      intro g g' hg hg' t hk
      cases g with
      | one v =>
        rw [eq_one_of_leaves (hg'.trans hg.symm)]
        exact hk
      | both l r =>
        obtain ⟨ht, htop⟩ := kept_both hk
        refine h.kept hg' ht ?_ ((found_of_kept hk).mono hg.subset)
        rwa [h.text_eq _ _ (newest_top_of_perm hg') (newest_top_of_perm hg)]
    intro g g' hg hg'
    exact ⟨h.text_eq _ _ (newest_top_of_perm hg) (newest_top_of_perm hg'),
      fun t => ⟨hone hg hg' t, hone hg' hg t⟩⟩

end Layr.Lww
