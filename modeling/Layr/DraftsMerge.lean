import Layr.Drafts
import Layr.Lib.Lww
import Layr.Lib.Maps

/-!
# When the merges of a draft branch agree

The merge of drafts is a merge where the latest version wins (`register`, `represents_value`): the
alternatives are the texts that the winner remembers. So the versions of a branch can be merged in
any order and grouping exactly when they are settled, and an edit absorbs a version exactly when it
saw the version and nothing is left of its alternatives (`merge_laws_iff`). Neither is always so:
two versions of one time have no winner that does not depend on the order, and an edit does not
replace the alternatives of the versions it is made from (`merge_laws_fail`).
-/

namespace Layr.Drafts

open Canonical Lww List

def register (branch : String) : Register DraftVersion String where
  text := DraftVersion.text
  time := DraftVersion.updated
  others v := { text | text ∈ v.alternatives }
  saw v time := ∃ seen, v.seen[branch]? = some seen ∧ time ≤ seen
  void := ""

/-- The version that an order and grouping of some versions gives. -/
def value : Grouping DraftVersion → Except String DraftVersion
  | .one v => .ok v
  | .both l r => do
    let l ← value l
    let r ← value r
    merge l r

structure Agree (r r' : DraftVersion) : Prop where
  text : r.text = r'.text
  updated : r.updated = r'.updated
  alternatives : r.alternatives = r'.alternatives

def Of (branch : String) (v : DraftVersion) : Prop := v.validate = .ok () ∧ v.id = branch

variable {branch : String} {v w a b r r' : DraftVersion} {vs : List DraftVersion}
  {g g' : Grouping DraftVersion} {t : String}

/-! ## One merge -/

theorem ranked_eq (branch : String) :
    ranked a b = ((register branch).win a b, (register branch).lose a b) := by
  change (if a.updated < b.updated then (b, a) else (a, b)) =
    (if a.updated < b.updated then b else a, if a.updated < b.updated then a else b)
  split <;> rfl

theorem replaced_iff : replaced w v = true ↔ (register v.id).saw w v.updated := by
  simp [replaced, Option.any_eq_true, register]

theorem merge_eq_combine (ha : Of branch a) (hb : Of branch b) : merge a b = .ok (combine a b) := by
  have hid : (a.id == b.id) = true := by rw [ha.2, hb.2, beq_self_eq_true]
  rw [merge, ha.1, hb.1, hid]
  rfl

/-- A merge takes the winner, with other alternatives. -/
theorem combine_eq (branch : String) : combine a b =
    { (register branch).win a b with alternatives := (combine a b).alternatives } := by
  rw [combine, ranked_eq branch]

theorem mem_combine (branch : String) (hid : ((register branch).lose a b).id = branch) :
    t ∈ (combine a b).alternatives ↔ t ≠ "" ∧ t ≠ ((register branch).win a b).text ∧
      (t ∈ a.alternatives ∨ t ∈ b.alternatives ∨ t = ((register branch).lose a b).text ∧
        ¬ (register branch).saw ((register branch).win a b)
          ((register branch).lose a b).updated) := by
  have hsaw := replaced_iff (w := (register branch).win a b) (v := (register branch).lose a b)
  rw [hid] at hsaw
  rw [← hsaw, combine, ranked_eq branch]
  simp only [mem_canonical, mem_filter, mem_append, Bool.and_eq_true, bne_iff_ne]
  generalize replaced _ _ = seen
  cases seen <;> simp <;> tauto

theorem exists_combine_eq_canonical : ∃ l, (combine a b).alternatives =
    canonical utf16Le l := ⟨_, rfl⟩

/-- What is remembered is no part of what makes a version valid. -/
theorem Of.with_alternatives (h : Of branch v) (texts : List String) :
    Of branch { v with alternatives := texts } := h

theorem Of.combine (ha : Of branch a) (hb : Of branch b) : Of branch (combine a b) := by
  rw [combine_eq branch]
  unfold Register.win
  split
  · exact hb.with_alternatives _
  · exact ha.with_alternatives _

theorem lose_id (ha : Of branch a) (hb : Of branch b) :
    ((register branch).lose a b).id = branch := by
  unfold Register.lose
  split
  · exact ha.2
  · exact hb.2

/-! ## Merging in some order and grouping -/

/-- The alternatives of a merge are sorted, a single version is left as it is. -/
def Plain : Grouping DraftVersion → DraftVersion → Prop
  | .one v, r => r = v
  | .both _ _, r => ∃ l, r.alternatives = canonical utf16Le l

/-- A version is what the abstract merge makes of a grouping. -/
structure Represents (branch : String) (g : Grouping DraftVersion) (r : DraftVersion) : Prop where
  top : ∃ texts, r = { (register branch).top g with alternatives := texts }
  kept : ∀ t, t ∈ r.alternatives ↔ (register branch).Kept g t
  plain : Plain g r

section

variable (h : Represents branch g r)
include h

theorem Represents.of (hg : ∀ v ∈ g.leaves, Of branch v) : Of branch r := by
  obtain ⟨texts, rfl⟩ := h.top
  exact (hg _ (newest_top g).1).with_alternatives texts

theorem Represents.text : r.text = ((register branch).top g).text := by
  obtain ⟨texts, rfl⟩ := h.top
  rfl

theorem Represents.updated : r.updated = ((register branch).top g).updated := by
  obtain ⟨texts, rfl⟩ := h.top
  rfl

theorem Represents.saw (n : Nat) : (register branch).saw r n ↔
    (register branch).saw ((register branch).top g) n := by
  obtain ⟨texts, rfl⟩ := h.top
  rfl

end

/-- A merge of two results is the result of the merge. -/
theorem Represents.combine {l r : Grouping DraftVersion} (ha : Represents branch l a)
    (hb : Represents branch r b) (hl : ∀ v ∈ l.leaves, Of branch v)
    (hr : ∀ v ∈ r.leaves, Of branch v) :
    Represents branch (.both l r) (combine a b) := by
  -- the same side wins, and it is the same version but for its alternatives
  have hsides : (∃ texts, (register branch).win a b =
        { (register branch).win ((register branch).top l) ((register branch).top r) with
          alternatives := texts }) ∧
      ∃ texts, (register branch).lose a b =
        { (register branch).lose ((register branch).top l) ((register branch).top r) with
          alternatives := texts } := by
    have htime : ((register branch).time a < (register branch).time b) =
        ((register branch).time ((register branch).top l) <
            (register branch).time ((register branch).top r)) := by
      change (a.updated < b.updated) = (_ < _)
      rw [ha.updated, hb.updated]
      rfl
    unfold Register.win Register.lose
    simp only [htime]
    split
    · exact ⟨hb.top, ha.top⟩
    · exact ⟨ha.top, hb.top⟩
  obtain ⟨⟨won, hwon⟩, lost, hlost⟩ := hsides
  have hlose : ((register branch).lose a b).id = branch := lose_id (ha.of hl) (hb.of hr)
  refine ⟨⟨(Drafts.combine a b).alternatives, ?_⟩, fun t => ?_, exists_combine_eq_canonical⟩
  · refine (combine_eq branch).trans ?_
    rw [hwon]
    rfl
  · rw [mem_combine branch hlose, ha.kept, hb.kept, hwon, hlost]
    rfl

theorem represents_value (h : ∀ v ∈ g.leaves, Of branch v) :
    ∃ r, value g = .ok r ∧ Represents branch g r := by
  induction g with
  | one v => exact ⟨v, rfl, ⟨v.alternatives, rfl⟩, fun t => Iff.rfl, rfl⟩
  | both l r ihl ihr =>
    have hl : ∀ v ∈ l.leaves, Of branch v := fun v hv => h v (mem_append_left _ hv)
    have hr : ∀ v ∈ r.leaves, Of branch v := fun v hv => h v (mem_append_right _ hv)
    obtain ⟨a, hval, ha⟩ := ihl hl
    obtain ⟨b, hvbl, hb⟩ := ihr hr
    refine ⟨Drafts.combine a b, ?_, ha.combine hb hl hr⟩
    rw [value, hval, hvbl]
    exact merge_eq_combine (ha.of hl) (hb.of hr)

/-- Groupings of the same versions give versions that agree where the abstract merges do. -/
theorem agree_iff_represents (hr : Represents branch g r) (hr' : Represents branch g' r')
    (hperm : g.leaves.Perm g'.leaves) :
    Agree r r' ↔ ((register branch).top g).text = ((register branch).top g').text ∧
      ∀ t, (register branch).Kept g t ↔ (register branch).Kept g' t := by
  have hupdated : r.updated = r'.updated := by
    rw [hr.updated, hr'.updated]
    have hnew := newest_top_of_perm (R := register branch) hperm
    have hnew' := newest_top (R := register branch) g'
    exact le_antisymm (hnew'.2 _ hnew.1) (hnew.2 _ hnew'.1)
  rw [← hr.text, ← hr'.text]
  constructor
  · refine fun h => ⟨h.text, fun t => ?_⟩
    rw [← hr.kept, ← hr'.kept, h.alternatives]
  · rintro ⟨htext, hkept⟩
    refine ⟨htext, hupdated, ?_⟩
    cases g with
    | one v =>
      obtain rfl := eq_one_of_leaves hperm.symm
      rw [show r = v from hr.plain, show r' = v from hr'.plain]
    | both l₁ l₂ =>
      cases g' with
      | one v => cases eq_one_of_leaves hperm
      | both l₁' l₂' =>
        obtain ⟨l, hl⟩ := hr.plain
        obtain ⟨l', hl'⟩ := hr'.plain
        rw [hl, hl', canonical_eq_iff]
        intro t
        rw [← mem_canonical (r := utf16Le), ← mem_canonical (r := utf16Le) (l := l'), ← hl, ← hl',
          hr.kept, hr'.kept, hkept]

/-! ## Any order, and twice -/

/-- Every order and grouping of the versions gives a version, and they all agree. -/
def AnyOrder (vs : List DraftVersion) : Prop :=
  ∀ g g' : Grouping DraftVersion, g.leaves.Perm vs → g'.leaves.Perm vs →
    ∃ r r', value g = .ok r ∧ value g' = .ok r' ∧ Agree r r'

/-- Once a version is merged in, merging it again on either side changes nothing more; and what is a
merge of the versions already does not change at all. -/
def Twice (vs : List DraftVersion) : Prop :=
  ∀ g : Grouping DraftVersion, g.leaves.Perm vs → ∀ v ∈ vs, ∃ r once again,
    value g = .ok r ∧ merge r v = .ok once ∧ merge once v = .ok once ∧
      merge v once = .ok again ∧ Agree again once ∧ (1 < vs.length → Agree once r)

theorem anyOrder_iff (h : ∀ v ∈ vs, Of branch v) : AnyOrder vs ↔ (register branch).Settled vs := by
  rw [← agree_iff]
  refine forall₄_congr fun g g' hg hg' => ?_
  obtain ⟨r, hval, hr⟩ := represents_value fun v hv => h v (hg.mem_iff.1 hv)
  obtain ⟨r', hval', hr'⟩ := represents_value fun v hv => h v (hg'.mem_iff.1 hv)
  have hagree := agree_iff_represents hr hr' (hg.trans hg'.symm)
  refine Iff.trans ⟨?_, fun hrr => ⟨r, r', hval, hval', hrr⟩⟩ hagree
  rintro ⟨s, s', hs, hs', hss⟩
  rw [hval] at hs
  rw [hval'] at hs'
  cases hs
  cases hs'
  exact hss

/-- The winner of a merge has its text, and its time is that of the later side. -/
theorem combine_text (branch : String) : (combine a b).text = ((register branch).win a b).text := by
  rw [combine_eq branch]

theorem combine_updated : (combine a b).updated = max a.updated b.updated := by
  rw [combine_eq a.id]
  change ((register a.id).win a b).updated = _
  unfold Register.win
  split
  · next h => exact (max_eq_right (le_of_lt h)).symm
  · next h => exact (max_eq_left (not_lt.1 h)).symm

theorem combine_saw (n : Nat) :
    (register branch).saw (combine a b) n ↔
      (register branch).saw ((register branch).win a b) n := by
  rw [combine_eq branch]
  rfl

theorem ne_of_mem_combine (h : t ∈ (combine a b).alternatives) :
    t ≠ "" ∧ t ≠ (combine a b).text := by
  rw [combine] at h ⊢
  simp only [mem_canonical, mem_filter, Bool.and_eq_true, bne_iff_ne] at h
  exact h.2

/-- What the second version of a merge mentions, the merge remembers, unless it saw it. -/
theorem mem_combine_right (hb : Of branch b) (ht : t ≠ "") (htext : t ≠ (combine a b).text)
    (h : t ∈ b.alternatives ∨ t = b.text ∧ ¬ (register branch).saw (combine a b) b.updated) :
    t ∈ (combine a b).alternatives := by
  rw [combine_text branch] at htext
  rw [combine_saw] at h
  by_cases hlt : a.updated < b.updated
  · have hwin : (register branch).win a b = b := if_pos hlt
    rw [hwin] at htext h
    have hmem : t ∈ b.alternatives := h.resolve_right fun hb => htext hb.1
    rw [combine, ranked_eq branch]
    simp only [mem_canonical, mem_filter, mem_append, Bool.and_eq_true, bne_iff_ne, hwin]
    exact ⟨.inl (.inr hmem), ht, htext⟩
  · have hlose : (register branch).lose a b = b := if_neg hlt
    rw [mem_combine branch (by rw [hlose]; exact hb.2), hlose]
    exact ⟨ht, htext, .inr h⟩

theorem canonical_eq_of_mem {l l' : List String}
    (h : ∀ t, t ∈ canonical utf16Le l ↔ t ∈ canonical utf16Le l') :
    canonical utf16Le l = canonical utf16Le l' := by
  rw [canonical_eq_iff]
  simpa only [mem_canonical] using h

/-- Two merges have the same alternatives when they remember the same texts. -/
theorem combine_alternatives_eq {c d : DraftVersion}
    (h : ∀ t, t ∈ (combine a b).alternatives ↔ t ∈ (combine c d).alternatives) :
    (combine a b).alternatives = (combine c d).alternatives := canonical_eq_of_mem h

/-- Merging the same version once more changes nothing. -/
theorem combine_combine (hv : Of branch v) : combine (combine a v) v = combine a v := by
  have hle : v.updated ≤ (combine a v).updated := by
    rw [combine_updated]
    exact le_max_right _ _
  have hwin : (register branch).win (combine a v) v = combine a v := win_of_le hle
  have hlose : (register branch).lose (combine a v) v = v := lose_of_le hle
  have hsame : (combine (combine a v) v).alternatives = (combine a v).alternatives := by
    refine combine_alternatives_eq fun t => ?_
    rw [mem_combine branch (by rw [hlose]; exact hv.2), hwin, hlose]
    constructor
    · rintro ⟨ht, htext, hmem | hmem⟩
      · exact hmem
      · exact mem_combine_right hv ht htext hmem
    · exact fun h => ⟨(ne_of_mem_combine h).1, (ne_of_mem_combine h).2, .inl h⟩
  rw [combine_eq branch (a := combine a v), hwin, hsame]

/-- On the other side too, unless two texts have the same time. -/
theorem agree_combine (hv : Of branch v) (ha : Of branch a)
    (htie : v.updated = (combine a v).updated → v.text = (combine a v).text) :
    Agree (combine v (combine a v)) (combine a v) := by
  have hle : v.updated ≤ (combine a v).updated := by
    rw [combine_updated]
    exact le_max_right _ _
  have hside : ((register branch).win v (combine a v)).text = (combine a v).text := by
    by_cases hlt : v.updated < (combine a v).updated
    · exact congrArg DraftVersion.text (if_pos hlt)
    · rw [show (register branch).win v (combine a v) = v from if_neg hlt]
      exact htie (le_antisymm hle (not_lt.1 hlt))
  refine ⟨?_, ?_, combine_alternatives_eq fun t => ?_⟩
  · rw [combine_text branch, hside]
  · rw [combine_updated, max_eq_right hle]
  · rw [mem_combine branch (lose_id hv (ha.combine hv)), hside]
    constructor
    · rintro ⟨ht, htext, hmem | hmem | ⟨rfl, hsaw⟩⟩
      · exact mem_combine_right hv ht htext (.inl hmem)
      · exact hmem
      · by_cases hlt : v.updated < (combine a v).updated
        · have hwin : (register branch).win v (combine a v) = combine a v := if_pos hlt
          have hlose : (register branch).lose v (combine a v) = v := if_pos hlt
          rw [hwin, hlose] at hsaw
          rw [hlose] at ht htext ⊢
          exact mem_combine_right hv ht htext (.inr ⟨rfl, hsaw⟩)
        · have hlose : (register branch).lose v (combine a v) = combine a v := if_neg hlt
          exact absurd (congrArg DraftVersion.text hlose) htext
    · exact fun h => ⟨(ne_of_mem_combine h).1, (ne_of_mem_combine h).2, .inr (.inl h)⟩

/-- The versions of a settled branch can be merged in more than once. -/
theorem twice_of_settled (h : ∀ v ∈ vs, Of branch v) (hs : (register branch).Settled vs) :
    Twice vs := by
  intro g hg v hv
  have hleaves : ∀ v ∈ g.leaves, Of branch v := fun v hv => h v (hg.mem_iff.1 hv)
  obtain ⟨r, hval, hr⟩ := represents_value hleaves
  have hrof : Of branch r := hr.of hleaves
  have hnew := newest_top_of_perm (R := register branch) hg
  have hle : v.updated ≤ r.updated := by
    rw [hr.updated]
    exact hnew.2 v hv
  have hwin : (register branch).win r v = r := win_of_le hle
  have hlose : (register branch).lose r v = v := lose_of_le hle
  have htext : (combine r v).text = r.text := by rw [combine_text branch, hwin]
  have hupdated : (combine r v).updated = r.updated := by rw [combine_updated, max_eq_left hle]
  refine ⟨r, combine r v, combine v (combine r v), hval, merge_eq_combine hrof (h v hv), ?_,
    merge_eq_combine (h v hv) (hrof.combine (h v hv)), agree_combine (h v hv) hrof fun heq => ?_,
    fun hlen => ⟨htext, hupdated, ?_⟩⟩
  · rw [merge_eq_combine (hrof.combine (h v hv)) (h v hv), combine_combine (h v hv)]
  · -- a version as late as the result is a latest one, and these have one text
    rw [htext, hr.text]
    refine hs.text_eq v _ ⟨hv, fun u hu => (hnew.2 u hu).trans ?_⟩ hnew
    rw [hupdated, hr.updated] at heq
    exact heq.ge
  cases g with
  | one u =>
    have hlen' := hg.length_eq
    rw [← hlen'] at hlen
    exact absurd hlen (lt_irrefl 1)
  | both g₁ g₂ =>
    obtain ⟨l, hl⟩ := hr.plain
    rw [hl]
    refine canonical_eq_of_mem fun t => ?_
    change t ∈ (combine r v).alternatives ↔ _
    rw [← hl, mem_combine branch (lose_id hrof (h v hv)), hwin, hlose]
    constructor
    · rintro ⟨ht, htop, hmem | hmem⟩
      · exact hmem
      · rw [hr.text] at htop
        refine (hr.kept t).2 (hs.kept hg ht htop ?_)
        rcases hmem with hmem | ⟨rfl, hsaw⟩
        · exact .inl ⟨v, hv, hmem⟩
        · rw [hr.saw] at hsaw
          exact .inr ⟨v, hv, _, hnew.1, rfl, Ne.symm htop, hnew.2 v hv, hsaw⟩
    · intro hmem
      obtain ⟨ht, htop⟩ := kept_both ((hr.kept t).1 hmem)
      refine ⟨ht, ?_, .inl hmem⟩
      rw [hr.text]
      exact htop

/-! ## Edits -/

def Reaches (seen : BTreeMap Nat) (id : String) (n : Nat) : Prop :=
  ∃ time, seen[id]? = some time ∧ n ≤ time

variable {seen : BTreeMap Nat} {id : String} {n : Nat}

theorem reaches_raise {e : String × Nat} : Reaches (raise seen e) id n ↔ Reaches seen id n ∨
    e.1 = id ∧ n ≤ e.2 := by
  unfold Reaches raise
  by_cases hid : e.1 = id
  · subst hid
    cases seen[e.1]? with
    | none => simp
    | some old => simp
  · simp [Maps.getElem?_insert_ne hid, hid]

theorem reaches_foldl_raise {es : List (String × Nat)} :
    Reaches (es.foldl raise seen) id n ↔ Reaches seen id n ∨ ∃ e ∈ es, e.1 = id ∧ n ≤ e.2 := by
  induction es generalizing seen with
  | nil => simp
  | cons e es ih =>
    rw [foldl_cons, ih, reaches_raise]
    simp only [exists_mem_cons_iff]
    exact or_assoc

theorem reaches_insertIfNew : Reaches (seen.insertIfNew id 0) id n ↔ n = 0 ∨ Reaches seen id n := by
  unfold Reaches
  rw [getElem?_insertIfNew]
  by_cases hmem : id ∈ seen
  · rw [if_neg fun h => h.2 hmem]
    obtain ⟨time, htime⟩ := Maps.mem_iff_exists.1 hmem
    rw [htime]
    simp only [some.injEq, exists_eq_left']
    omega
  · rw [if_pos ⟨Std.ReflCmp.compare_self, hmem⟩, getElem?_eq_none hmem]
    simp

/-- A version of the session shows a branch at a time or later: as its own, or as one it saw. -/
def Shows (session : String) (u : DraftVersion) (id : String) (n : Nat) : Prop :=
  u.session = session ∧ (u.id = id ∧ n ≤ u.updated ∨ Reaches u.seen id n)

variable {session : String}

theorem editStep_ok {acc acc' : Nat × BTreeMap Nat}
    (h : editStep session acc v = .ok acc') : v.validate = .ok () ∧ v.updated < acc'.1 ∧
      acc.1 ≤ acc'.1 ∧
      ∀ id n, Reaches acc'.2 id n ↔ Reaches acc.2 id n ∨ Shows session v id n := by
  simp only [editStep, bind_eq_ok, ensure_eq_ok, exists_const, exists_unit_eq_ok] at h
  obtain ⟨hvalid, -, h⟩ := h
  by_cases hs : v.session = session
  · rw [if_neg (by simpa using hs), pure_eq_ok] at h
    subst h
    refine ⟨hvalid, Nat.lt_of_succ_le (le_max_right _ _), le_max_left _ _, fun id n => ?_⟩
    rw [reaches_foldl_raise]
    refine or_congr_right ?_
    simp only [mem_append, mem_singleton, or_and_right, exists_or, exists_eq_left, Shows, hs,
      true_and]
    rw [or_comm]
    refine or_congr_right ⟨?_, ?_⟩
    · rintro ⟨e, he, rfl, hn⟩
      exact ⟨e.2, mem_toList_iff_getElem?_eq_some.1 he, hn⟩
    · rintro ⟨time, htime, hn⟩
      exact ⟨(id, time), mem_toList_iff_getElem?_eq_some.2 htime, rfl, hn⟩
  · rw [if_pos (by simpa using hs), pure_eq_ok] at h
    subst h
    refine ⟨hvalid, Nat.lt_of_succ_le (le_max_right _ _), le_max_left _ _, fun id n => ?_⟩
    simp [Shows, hs]

theorem foldlM_editStep_ok {acc acc' : Nat × BTreeMap Nat} {us : List DraftVersion}
    (h : us.foldlM (editStep session) acc = .ok acc') :
    acc.1 ≤ acc'.1 ∧ (∀ u ∈ us, u.validate = .ok () ∧ u.updated < acc'.1) ∧
      ∀ id n, Reaches acc'.2 id n ↔ Reaches acc.2 id n ∨ ∃ u ∈ us, Shows session u id n := by
  induction us generalizing acc with
  | nil =>
    rw [foldlM_nil, pure_eq_ok] at h
    subst h
    exact ⟨le_rfl, fun u hu => (nomatch hu), by simp⟩
  | cons u us ih =>
    rw [foldlM_cons, bind_eq_ok] at h
    obtain ⟨mid, hmid, h⟩ := h
    obtain ⟨hvalid, hlt, hle, hreach⟩ := editStep_ok hmid
    obtain ⟨hle', hall, hreach'⟩ := ih h
    refine ⟨hle.trans hle', forall_mem_cons.2 ⟨⟨hvalid, hlt.trans_le hle'⟩, hall⟩, fun id n => ?_⟩
    rw [hreach', hreach, or_assoc, exists_mem_cons_iff]

variable {e : DraftVersion}

/-- What an edit makes: a valid version without alternatives, later than those it is made from, that
saw what the versions of its session show. -/
theorem edit_ok {device text : String} {versions : List DraftVersion} {now : Nat}
    (h : edit device session text versions now = .ok e) :
    e.validate = .ok () ∧ e.id = device ++ ":" ++ session ∧ e.text = text ∧ e.alternatives = [] ∧
      (∀ u ∈ versions, u.validate = .ok () ∧ u.updated < e.updated) ∧
      ∀ n, Reaches e.seen e.id n ↔ n = 0 ∨ ∃ u ∈ versions, Shows session u e.id n := by
  simp only [edit, bind_eq_ok, exists_unit_eq_ok, pure_eq_ok] at h
  obtain ⟨⟨updated, seen⟩, hfold, hvalid, rfl⟩ := h
  obtain ⟨-, hall, hreach⟩ := foldlM_editStep_ok hfold
  refine ⟨hvalid, rfl, rfl, rfl, hall, fun n => ?_⟩
  have hempty : ¬ Reaches (∅ : BTreeMap Nat) (device ++ ":" ++ session) n := by
    rintro ⟨time, htime, -⟩
    simp at htime
  have hseen := hreach (device ++ ":" ++ session) n
  rw [or_iff_right hempty] at hseen
  rw [← hseen]
  exact reaches_insertIfNew

/-- Nothing is left of a version that an edit is made from: neither its alternatives, unless they
are void or the new text, nor its text, unless the versions of the session show it. -/
structure Superseded (session text : String) (versions : List DraftVersion) (v : DraftVersion) :
    Prop where
  alternatives : ∀ t ∈ v.alternatives, t = "" ∨ t = text
  text : v.text = "" ∨ v.text = text ∨ v.updated = 0 ∨
    ∃ u ∈ versions, Shows session u v.id v.updated

/-- A later version without alternatives is what a merge with it leaves, on either side. -/
theorem merge_later_iff (hv : Of branch v) (he : Of branch e)
    (hlt : v.updated < e.updated) (hnil : e.alternatives = []) :
    (merge v e = .ok e ∧ merge e v = .ok e) ↔ (∀ t ∈ v.alternatives, t = "" ∨ t = e.text) ∧
      (v.text = "" ∨ v.text = e.text ∨ (register branch).saw e v.updated) := by
  have hsides : ∀ {a b : DraftVersion}, Of branch a → Of branch b → (register branch).win a b = e →
      (register branch).lose a b = v →
        (∀ t, t ∈ a.alternatives ∨ t ∈ b.alternatives ↔ t ∈ v.alternatives) →
      (merge a b = .ok e ↔ (∀ t ∈ v.alternatives, t = "" ∨ t = e.text) ∧
        (v.text = "" ∨ v.text = e.text ∨ (register branch).saw e v.updated)) := by
    intro a b ha hb hwin hlose hmem
    have heq : merge a b = .ok e ↔ (combine a b).alternatives = [] := by
      rw [merge_eq_combine ha hb]
      constructor
      · intro h
        cases h
        exact hnil
      · intro h
        rw [combine_eq branch, hwin, h, ← hnil]
    rw [heq, eq_nil_iff_forall_not_mem]
    simp only [mem_combine branch (lose_id ha hb), hwin, hlose, ← or_assoc, hmem]
    constructor
    · intro h
      refine ⟨fun t ht => ?_, ?_⟩
      · by_contra hnot
        rw [not_or] at hnot
        exact h t ⟨hnot.1, hnot.2, .inl ht⟩
      · by_contra hnot
        simp only [not_or] at hnot
        exact h v.text ⟨hnot.1.1, hnot.1.2, .inr ⟨rfl, hnot.2⟩⟩
    · rintro ⟨halt, htext⟩ t ⟨ht, hte, hmem | ⟨rfl, hsaw⟩⟩
      · exact (halt t hmem).elim ht hte
      · rcases htext with (h | h) | h
        · exact ht h
        · exact hte h
        · exact hsaw h
  rw [hsides hv he (if_pos hlt) (if_pos hlt) (by simp [hnil]),
    hsides he hv (if_neg (Nat.not_lt.2 hlt.le)) (if_neg (Nat.not_lt.2 hlt.le)) (by simp [hnil]),
      and_self]

/-- The versions of a branch can be merged in any order, grouping and number, and an edit made from
a version absorbs it, exactly when the versions are settled and the edit supersedes the version. -/
theorem merge_laws_iff (h : ∀ v ∈ vs, Of branch v) {device session text : String}
    {versions : List DraftVersion} {now : Nat} {e : DraftVersion}
    (he : edit device session text versions now = .ok e) (hv : v ∈ versions) (hid : v.id = e.id) :
    (AnyOrder vs ∧ Twice vs ∧ merge v e = .ok e ∧ merge e v = .ok e) ↔
      (register branch).Settled vs ∧ Superseded session text versions v := by
  obtain ⟨hvalid, -, htext, hnil, hall, hreach⟩ := edit_ok he
  have hedit := merge_later_iff (show Of e.id v from ⟨(hall v hv).1, hid⟩) ⟨hvalid, rfl⟩
    (hall v hv).2 hnil
  have hsaw : (register e.id).saw e v.updated ↔
      v.updated = 0 ∨ ∃ u ∈ versions, Shows session u v.id v.updated := by
    rw [hid]
    exact hreach v.updated
  rw [hedit, hsaw, htext, anyOrder_iff h]
  constructor
  · rintro ⟨hs, -, halt, hseen⟩
    exact ⟨hs, halt, hseen⟩
  · rintro ⟨hs, halt, hseen⟩
    exact ⟨hs, twice_of_settled h hs, halt, hseen⟩

/-! ## Two tabs of one device -/

def tab (text : String) (updated : Nat) (alternatives : List String) : DraftVersion :=
  { id := "device:room", session := "room", device := "device", text, updated, alternatives,
    seen := ∅,
    extra := ∅ }

def first : DraftVersion := tab "first" 10 []
def second : DraftVersion := tab "second" 11 []

def rival : DraftVersion := tab "rival" 10 []

theorem of_first : Of "device:room" first := ⟨rfl, rfl⟩
theorem of_second : Of "device:room" second := ⟨rfl, rfl⟩
theorem of_rival : Of "device:room" rival := ⟨rfl, rfl⟩

def merged : DraftVersion := tab "second" 11 ["first"]

def replacement (v : DraftVersion) : DraftVersion :=
  { id := "device:room", session := "room", device := "device", text := "third", updated := 20,
    alternatives := [], seen := (raise ∅ ("device:room", v.updated)).insertIfNew "device:room" 0,
      extra := ∅ }

/-- Two texts of one time: the left one wins. And the alternatives of a merge outlive the edit that
is made from it. -/
theorem merge_laws_fail :
    (Of "device:room" first ∧ Of "device:room" rival ∧ ¬ AnyOrder [first, rival]) ∧
    merge first second = .ok merged ∧ merged.id = (replacement merged).id ∧
    edit "device" "room" "third" [merged] 20 = .ok (replacement merged) ∧
    merge merged (replacement merged) ≠ .ok (replacement merged) := by
  refine ⟨⟨of_first, of_rival, fun h => ?_⟩, rfl, rfl, rfl, fun h => ?_⟩
  · obtain ⟨r, r', hr, hr', hagree⟩ :=
      h (.both (.one first) (.one rival)) (.both (.one rival) (.one first))
      (List.Perm.refl _) (List.Perm.swap _ _ _)
    have htext : (value (.both (.one first) (.one rival))).map (·.text) = .ok "first" := rfl
    have htext' : (value (.both (.one rival) (.one first))).map (·.text) = .ok "rival" := rfl
    rw [hr] at htext
    rw [hr'] at htext'
    have heq : "first" = "rival" :=
      (Except.ok.inj htext).symm.trans (hagree.text.trans (Except.ok.inj htext'))
    exact absurd heq (by decide)
  · have halt : (merge merged (replacement merged)).map (·.alternatives) = .ok ["first"] := rfl
    rw [h] at halt
    cases halt

theorem settled_first_second : (register "device:room").Settled [first, second] := by
  have hnew : ∀ w, (register "device:room").Newest [first, second] w → w = second := by
    rintro w ⟨hw, hmax⟩
    rcases mem_pair.1 hw with rfl | rfl
    · exact absurd (hmax second (by simp)) (by decide)
    · rfl
  refine ⟨fun w w' hw hw' => by rw [hnew w hw, hnew w' hw'], fun t _ ht => ?_⟩
  -- the second version did not see the first one, so nothing is lost
  rintro ⟨y, rfl, -, z, rest, hperm, hz, -, ⟨seen, hseen, -⟩, -⟩
  have hmem : z ∈ [first, second] := hperm.mem_iff.2 (by simp)
  have hnone : z.seen["device:room"]? = none := by
    rcases mem_pair.1 hmem with rfl | rfl <;> rfl
  rw [hnone] at hseen
  cases hseen

theorem merge_laws_first_second : AnyOrder [first, second] ∧ Twice [first, second] ∧
    merge first (replacement first) = .ok (replacement first) ∧
    merge (replacement first) first = .ok (replacement first) := by
  have hof : ∀ v ∈ [first, second], Of "device:room" v := by
    intro v hv
    rcases mem_pair.1 hv with rfl | rfl
    · exact of_first
    · exact of_second
  have hedit : edit "device" "room" "third" [first] 20 = .ok (replacement first) := rfl
  exact (merge_laws_iff hof hedit (mem_singleton_self first) rfl).2 ⟨settled_first_second,
    fun t ht => (nomatch ht),
      .inr (.inr (.inr ⟨first, mem_singleton_self first, rfl, .inl ⟨rfl, le_rfl⟩⟩))⟩

end Layr.Drafts
