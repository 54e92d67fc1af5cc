import Layr.Policy

/-!
# Glob patterns

A pattern is a list of items: a `*` stands for any bytes, each other item for one byte (`Matches`).
The loop of `glob` goes back only to the last `*`. That loses no match: whatever matches the pattern
after an earlier `*` has, after as many bytes as the loop has read since, a rest that matches the
pattern from where the loop is (`Passed`). So a match that gives an earlier `*` more bytes also
gives the last one more.
-/

namespace Layr.Glob

open List

inductive Item where
  | star
  | any
  | set (set : List UInt8)
  | byte (b : UInt8)

/-- The items of a pattern. A `[` without an end is a byte. -/
def items : List UInt8 → List Item
  | [] => []
  | x :: p =>
    if x = 42 then .star :: items p
    else if x = 63 then .any :: items p
    else if x = 91 then
      match p.findIdx? (· == 93) with
      | some off => .set (p.take off) :: items (p.drop (off + 1))
      | none => .byte x :: items p
    else .byte x :: items p
termination_by p => p.length
decreasing_by all_goals simp only [length_drop, length_cons]; omega

/-- The ranges of a set; a single byte is a range. -/
def ranges : List UInt8 → List (UInt8 × UInt8)
  | a :: d :: b :: rest => if d = 45 then (a, b) :: ranges rest else (a, a) ::
      ranges (d :: b :: rest)
  | a :: rest => (a, a) :: ranges rest
  | [] => []

def InRanges (set : List UInt8) (c : UInt8) : Prop := ∃ r ∈ ranges set, r.1 ≤ c ∧ c ≤ r.2

/-- The bytes that an item stands for. A set that begins with `!` or `^` names the other bytes. -/
def Item.Has : Item → UInt8 → Prop
  | star, _ | any, _ => True
  | set s, c => if s.head? = some 33 ∨ s.head? = some 94 then ¬InRanges s.tail c else InRanges s c
  | byte b, c => c = b

def Matches : List Item → List UInt8 → Prop
  | [], s => s = []
  | .star :: ts, s => ∃ n, Matches ts (s.drop n)
  | t :: ts, s => ∃ c s', s = c :: s' ∧ t.Has c ∧ Matches ts s'

variable {p s set : List UInt8} {c : UInt8} {i j : ℕ} {star : Option (ℕ × ℕ)}

theorem globSet_iff : globSet c set = true ↔ InRanges set c := by
  have hsingle : ∀ a, (c == a) = true ↔ a ≤ c ∧ c ≤ a := fun a => by
    rw [beq_iff_eq, eq_comm, UInt8.le_antisymm_iff]
  unfold InRanges
  fun_induction globSet c set with
  | case1 a b rest ih => simp [ranges, ih]
  | case2 a d b rest hd ih => simp [ranges, hd, ih, hsingle]
  | case3 a rest hshort ih =>
    have hranges : ranges (a :: rest) = (a, a) :: ranges rest := by
      match rest, hshort with
      | [], _ => rfl
      | [d], _ => rfl
      | d :: b :: rest, hshort => exact (hshort d b rest rfl).elim
    simp [hranges, ih, hsingle]
  | case4 => simp [ranges]

theorem has_set (set : List UInt8) : (Item.set set).Has c ↔
    (globSet c (if set.head? == some 33 || set.head? == some 94 then set.tail else set) !=
      (set.head? == some 33 || set.head? == some 94)) = true := by
  rw [Item.Has, ← globSet_iff, ← globSet_iff]
  by_cases h : set.head? = some 33 ∨ set.head? = some 94
  · have hneg : (set.head? == some 33 || set.head? == some 94) = true := by simpa using h
    simp [h, hneg]
  · have hneg : (set.head? == some 33 || set.head? == some 94) = false := by simpa using h
    simp [h, hneg]

/-- What `item` finds at a place of the pattern that has no `*`. -/
theorem items_drop (hstar : p[i]? ≠ some 42) : p.drop i = [] ∨
    ∃ t n, t ≠ .star ∧ items (p.drop i) = t :: items (p.drop (i + n)) ∧
      ∀ c m, globItem p i c = some m ↔ t.Has c ∧ n = m := by
  simp only [← drop_drop, globItem]
  rw [← head?_drop] at hstar
  cases hq : p.drop i with
  | nil => exact .inl rfl
  | cons x q =>
    have h42 : x ≠ 42 := fun heq => hstar (hq ▸ heq ▸ rfl)
    right
    rw [items, if_neg h42]
    by_cases h63 : x = 63
    · exact ⟨.any, 1, by simp, by simp [h63], fun c m => by simp [h63, Item.Has]⟩
    by_cases h91 : x = 91
    · cases hend : q.findIdx? (· == 93) with
      | some off =>
        refine ⟨.set (q.take off), off + 2, by simp, by simp [h91], fun c m => ?_⟩
        simp only [if_neg h63, if_pos h91, hend, has_set, ← Option.some.injEq (off + 2)]
        exact Option.ite_none_right_eq_some
      | none => exact ⟨.byte x, 1, by simp, by simp [h91], fun c m => by simp [h91, hend, Item.Has]⟩
    · exact ⟨.byte x, 1, by simp, by simp [h63, h91],
        fun c m => by simp [h63, h91, Item.Has, eq_comm]⟩

theorem matches_nil (p : List UInt8) : Matches (items p) [] ↔
    (p.dropWhile (· == 42)).isEmpty = true := by
  induction p with
  | nil => simp [items, Matches]
  | cons x p ih =>
    by_cases hx : x = 42
    · simp [items, Matches, hx, ih]
    · obtain hnil | ⟨t, n, ht, hitems, -⟩ := items_drop (p := x :: p) (i := 0) (by simpa using hx)
      · cases hnil
      · rw [drop_zero] at hitems
        rw [hitems, Matches.eq_3 _ _ _ ht]
        simp [hx]

/-- Whatever matches the pattern after the last `*` has, after the bytes read since, a rest that
matches the pattern from `i`. -/
def Passed (p : List UInt8) (i j : ℕ) (star : Option (ℕ × ℕ)) : Prop :=
  ∀ t ∈ star, ∀ u, Matches (items (p.drop (t.1 + 1))) u →
    Matches (items (p.drop i)) (u.drop (j - t.2))

theorem passed_self : Passed p (i + 1) j (some (i, j)) := by
  rintro _ ⟨⟩ u hu
  rwa [Nat.sub_self]

/-- The last `*` takes some bytes, or more. -/
theorem last_iff : (Matches (items (p.drop (i + 1))) (s.drop j) ∨
      ∃ t ∈ some (i, j), ∃ k > t.2, Matches (items (p.drop (t.1 + 1))) (s.drop k)) ↔
    ∃ k ≥ j, Matches (items (p.drop (i + 1))) (s.drop k) := by
  constructor
  · rintro (h | ⟨_, ⟨⟩, k, hk, h⟩)
    · exact ⟨j, le_rfl, h⟩
    · exact ⟨k, hk.le, h⟩
  · rintro ⟨k, hk, h⟩
    rcases hk.eq_or_lt with rfl | hlt
    · exact .inl h
    · exact .inr ⟨_, rfl, k, hlt, h⟩

section
variable (hstar : p[i]? ≠ some 42)
include hstar

theorem matches_cons :
    Matches (items (p.drop i)) (c :: s) ↔ ∃ n, globItem p i c = some n ∧
      Matches (items (p.drop (i + n))) s := by
  obtain hnil | ⟨t, n, ht, hitems, hget⟩ := items_drop hstar
  · simp [hnil, items, Matches, globItem]
  · rw [hitems, Matches.eq_3 _ _ _ ht]
    simp [hget]

theorem Passed.item {n : ℕ} (h : Passed p i j star) (hle : ∀ t ∈ star, t.2 ≤ j)
    (hn : globItem p i c = some n) :
    Passed p (i + n) (j + 1) star := by
  intro t ht u hu
  have hrest := h t ht u hu
  obtain hnil | ⟨item, m, hitem, hitems, hget⟩ := items_drop hstar
  · simp [globItem, hnil] at hn
  obtain ⟨-, rfl⟩ := (hget c n).1 hn
  rw [hitems, Matches.eq_3 _ _ _ hitem] at hrest
  obtain ⟨d, v, hd, -, hv⟩ := hrest
  have hdrop : u.drop (j + 1 - t.2) = v := by
    rw [Nat.sub_add_comm (hle t ht), ← drop_drop, hd, drop_succ_cons, drop_zero]
  rwa [hdrop]

end

/-- The text from `j` matches the pattern from `i`, or the last `*` can take more bytes. -/
theorem globLoop_iff {hle : ∀ t ∈ star, t.2 ≤ j} (hpassed : Passed p i j star) :
    globLoop p s i j star hle = true ↔ Matches (items (p.drop i)) (s.drop j) ∨
      ∃ t ∈ star, ∃ k > t.2, Matches (items (p.drop (t.1 + 1))) (s.drop k) := by
  have hnot : ∀ {i}, ¬(i < p.length ∧ p[i]? = some 42) → p[i]? ≠ some 42 :=
    fun hi h => hi ⟨(List.getElem?_eq_some_iff.1 h).1, h⟩
  fun_induction globLoop p s i j star hle with
  | case1 i j star hle hj hi ih =>
    have hdrop : items (p.drop i) = .star :: items (p.drop (i + 1)) := by
      rw [drop_eq_getElem_cons hi.1, items, if_pos (List.getElem?_eq_some_iff.1 hi.2).2]
    refine (ih passed_self).trans (last_iff.trans ?_)
    simp only [Passed, hdrop, Matches, drop_drop] at hpassed ⊢
    constructor
    · rintro ⟨k, hk, h⟩
      exact .inl ⟨k - j, by rwa [Nat.add_sub_cancel' hk]⟩
    · rintro (⟨n, h⟩ | ⟨t, ht, k, hk, h⟩)
      · exact ⟨j + n, Nat.le_add_right _ _, h⟩
      · -- A match for an earlier `*` gives the rest to the new one.
        obtain ⟨n, h⟩ := hpassed t ht _ h
        have := hle t ht
        exact ⟨k + (j - t.2 + n), by omega, by rwa [drop_drop] at h⟩
  | case2 i j star hle hj hi n hn ih =>
    refine (ih (hpassed.item (hnot hi) hle hn)).trans ?_
    rw [drop_eq_getElem_cons hj, matches_cons (hnot hi), hn]
    simp
  | case3 i j hj hi hn si sj hle _ ih =>
    refine (ih passed_self).trans (last_iff.trans ?_)
    rw [drop_eq_getElem_cons hj, matches_cons (hnot hi), hn]
    simp
  | case4 i j hj hi hn hle =>
    rw [drop_eq_getElem_cons hj, matches_cons (hnot hi), hn]
    simp
  | case5 i j star hle hj =>
    rw [drop_eq_nil_of_le (not_lt.1 hj), matches_nil]
    refine (or_iff_left_of_imp ?_).symm
    rintro ⟨t, ht, k, hk, h⟩
    have hend := hpassed t ht _ h
    have := hle t ht
    rwa [drop_drop, drop_eq_nil_of_le (show s.length ≤ k + (j - t.2) by omega), matches_nil] at hend

/-- The loop decides for all bytes whether the text matches the items of the pattern, and so does
`glob`. -/
theorem glob_correct : (∀ p s, globLoop p s 0 0 none (by simp) = true ↔ Matches (items p) s) ∧
      ∀ pat s : String, glob pat s = true ↔
        Matches (items pat.toUTF8.data.toList) s.toUTF8.data.toList := by
  have hloop : ∀ p s, globLoop p s 0 0 none (by simp) = true ↔ Matches (items p) s := fun p s => by
    rw [globLoop_iff (by simp [Passed])]
    simp
  exact ⟨hloop, fun pat s => hloop _ _⟩

end Layr.Glob
