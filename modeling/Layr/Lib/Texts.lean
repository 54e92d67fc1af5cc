import Mathlib

/-!
# Texts

A number filled with zeros to a width: the digits determine the number (`padded_inj`).

A text is cut at its line feeds. The last line may have none, and a carriage return before a line
feed belongs to the line's end. Lines that have neither are read back from the text that is joined
from them (`lines_text`).

Different texts have different UTF-16 code units (`encodeUtf16_injective`), so the order of texts by
their units is total.

A path is a list with a separator between its components. A path is above another one when its
components are the first ones of the other's; the paths above a path are found by taking components
away from its end (`mem_parents`).
-/

namespace Layr

open List

/-- A number in decimal digits, filled with zeros to a width: `{:0w}`. -/
def padded (w n : Nat) : String :=
  let digits := Nat.toDigits 10 n
  String.ofList (List.replicate (w - digits.length) '0' ++ digits)

theorem toList_padded (w n : Nat) : (padded w n).toList =
    List.replicate (w - (Nat.toDigits 10 n).length) '0' ++ Nat.toDigits 10 n :=
  String.toList_ofList

theorem ofDigitChars_padded (w n : Nat) : Nat.ofDigitChars 10 (padded w n).toList 0 = n := by
  rw [toList_padded, Nat.ofDigitChars_append, Nat.ofDigitChars_replicate_zero, Nat.mul_zero,
    Nat.ofDigitChars_ten_toDigits]

theorem padded_inj {w n m : Nat} (h : padded w n = padded w m) : n = m := by
  rw [← ofDigitChars_padded w n, h, ofDigitChars_padded]

theorem isDigit_of_mem_padded {w n : Nat} {ch : Char} (h : ch ∈ (padded w n).toList) :
    ch.isDigit = true := by
  rw [toList_padded] at h
  rcases mem_append.1 h with h | h
  · rw [eq_of_mem_replicate h]
    rfl
  · exact Nat.isDigit_of_mem_toDigits (by decide) (by decide) h

theorem length_padded {w n : Nat} (hw : 0 < w) (hn : n < 10 ^ w) :
    (padded w n).toList.length = w := by
  have hlen := (Nat.length_toDigits_le_iff (by decide) hw).2 hn
  rw [toList_padded, length_append, length_replicate]
  omega

/-! ## Joined texts -/

/-- Parts without the separator are found again. -/
theorem append_cons_inj {α : Type} {sep : α} {a a' b b' : List α} (ha : sep ∉ a) (ha' : sep ∉ a')
    (h : a ++ sep :: b = a' ++ sep :: b') : a = a' ∧ b = b' := by
  induction a generalizing a' with
  | nil =>
    cases a' with
    | nil => exact ⟨rfl, (List.cons.inj h).2⟩
    | cons x a' =>
      obtain ⟨rfl, -⟩ := List.cons.inj h
      exact absurd mem_cons_self ha'
  | cons x a ih =>
    cases a' with
    | nil =>
      obtain ⟨rfl, -⟩ := List.cons.inj h
      exact absurd mem_cons_self ha
    | cons y a' =>
      obtain ⟨rfl, hrest⟩ := List.cons.inj h
      obtain ⟨rfl, rfl⟩ := ih (fun h => ha (mem_cons_of_mem _ h))
        (fun h => ha' (mem_cons_of_mem _ h)) hrest
      exact ⟨rfl, rfl⟩

end Layr

namespace Layr.TextLines

open List

/-- The line of the given characters, in reverse, that ends at a line feed. -/
def ended (cur : List Char) : List Char := (if cur.head? = some '\r' then cur.tail else cur).reverse

/-- The lines of a text, when the characters of the current line are known in reverse. -/
def split (cur : List Char) : List Char → List (List Char)
  | [] => if cur = [] then [] else [cur.reverse]
  | ch :: text => if ch = '\n' then ended cur :: split [] text else split (ch :: cur) text

def lines (text : String) : List String := (split [] text.toList).map String.ofList

/-- The text of some lines, each with its line feed. -/
def text (ls : List String) : String := "\n".intercalate ls ++ "\n"

/-- The line has no line feed, and no carriage return at its end. -/
def Plain (line : String) : Prop := '\n' ∉ line.toList ∧ line.toList.getLast? ≠ some '\r'

/-- A line ends at the first line feed. -/
theorem split_append {cur line rest : List Char} (hline : '\n' ∉ line)
    (hend : (cur.reverse ++ line).getLast? ≠ some '\r') :
    split cur (line ++ '\n' :: rest) = (cur.reverse ++ line) :: split [] rest := by
  induction line generalizing cur with
  | nil =>
    rw [append_nil, getLast?_reverse] at hend
    rw [nil_append, append_nil, split, if_pos rfl, ended, if_neg hend]
  | cons ch line ih =>
    simp only [mem_cons, not_or] at hline
    rw [cons_append, split, if_neg (Ne.symm hline.1), ih hline.2 (by simpa using hend)]
    simp

variable {ls : List String}

theorem toList_text (hls : ls ≠ []) : (text ls).toList = ls.flatMap fun line => line.toList ++
    ['\n'] := by
  rw [text, String.toList_append, String.toList_intercalate]
  induction ls with
  | nil => exact absurd rfl hls
  | cons line ls ih =>
    cases ls with
    | nil => simp
    | cons line' ls =>
      rw [map_cons, map_cons, intercalate_cons_cons, flatMap_cons, ← ih (by simp), map_cons]
      simp

/-- Plain lines are read back from their text. -/
theorem lines_text (hne : ls ≠ []) (hls : ∀ line ∈ ls, Plain line) : lines (text ls) = ls := by
  have hsplit : split [] (ls.flatMap fun line => line.toList ++ ['\n']) = ls.map String.toList := by
    clear hne
    induction ls with
    | nil => rfl
    | cons line ls ih =>
      rw [forall_mem_cons] at hls
      rw [flatMap_cons, append_assoc, singleton_append,
        split_append hls.1.1 (by simpa using hls.1.2), ih hls.2]
      rfl
  rw [lines, toList_text hne, hsplit, map_map]
  simp [Function.comp_def]

end Layr.TextLines

namespace Layr

/-- `char::encode_utf16`: one unit, or a surrogate pair above the basic plane. -/
def utf16Units (c : Char) : List Nat :=
  if c.toNat < 0x10000 then [c.toNat]
  else [0xD800 + (c.toNat - 0x10000) / 0x400, 0xDC00 + (c.toNat - 0x10000) % 0x400]

def encodeUtf16 (s : String) : List Nat := s.toList.flatMap utf16Units

theorem toNat_valid (c : Char) : c.toNat < 0xD800 ∨
    (0xDFFF < c.toNat ∧ c.toNat < 0x110000) := c.valid

theorem utf16Units_append_inj {c c' : Char} {xs ys : List Nat}
    (h : utf16Units c ++ xs = utf16Units c' ++ ys) : c = c' ∧ xs = ys := by
  have hc := toNat_valid c
  have hc' := toNat_valid c'
  unfold utf16Units at h
  split_ifs at h with h₁ h₂ h₂
  · obtain ⟨hunit, hrest⟩ := List.cons.inj h
    exact ⟨Char.toNat_inj.1 hunit, hrest⟩
  · -- a single unit is not the first of a pair
    obtain ⟨hunit, -⟩ := List.cons.inj h
    omega
  · obtain ⟨hunit, -⟩ := List.cons.inj h
    omega
  · obtain ⟨hhigh, hrest⟩ := List.cons.inj h
    obtain ⟨hlow, hrest⟩ := List.cons.inj hrest
    exact ⟨Char.toNat_inj.1 (by omega), hrest⟩

theorem utf16Units_ne_nil (c : Char) : utf16Units c ≠ [] := by
  unfold utf16Units
  split <;> exact List.cons_ne_nil _ _

theorem encodeUtf16_injective : Function.Injective encodeUtf16 := by
  intro s t h
  apply String.toList_injective
  unfold encodeUtf16 at h
  generalize s.toList = cs at h
  generalize t.toList = ds at h
  induction cs generalizing ds with
  | nil =>
    cases ds with
    | nil => rfl
    | cons d ds =>
      have hnil := List.append_eq_nil_iff.1 h.symm
      exact absurd hnil.1 (utf16Units_ne_nil d)
  | cons c cs ih =>
    cases ds with
    | nil =>
      have hnil := List.append_eq_nil_iff.1 h
      exact absurd hnil.1 (utf16Units_ne_nil c)
    | cons d ds =>
      obtain ⟨rfl, hrest⟩ := utf16Units_append_inj h
      rw [ih ds hrest]

/-- Texts in the order of their UTF-16 units. -/
def utf16Le (a b : String) : Prop := encodeUtf16 a ≤ encodeUtf16 b

instance : DecidableRel utf16Le := fun a b =>
    inferInstanceAs (Decidable (encodeUtf16 a ≤ encodeUtf16 b))

instance : IsTrans String utf16Le := ⟨fun _ _ _ hab hbc => le_trans (α := List Nat) hab hbc⟩

instance : Std.Total utf16Le := ⟨fun a b => le_total (encodeUtf16 a) (encodeUtf16 b)⟩

instance : Std.Antisymm utf16Le :=
  ⟨fun _ _ hab hba => encodeUtf16_injective (le_antisymm (α := List Nat) hab hba)⟩

end Layr

namespace Layr.Paths

open List

variable {α : Type*} [BEq α] [LawfulBEq α] {x : α} {p q : List α}

theorem notMem_of_mem_splitOn {l xs : List α} (h : l ∈ xs.splitOn x) : x ∉ l := by
  induction xs generalizing l with
  | nil =>
    rw [mem_singleton.1 h]
    simp
  | cons y ys ih =>
    rw [List.splitOn, splitOnP_cons_eq_if_modifyHead] at h
    split at h
    · rcases mem_cons.1 h with rfl | h
      · simp
      · exact ih h
    next hne =>
    cases hys : List.splitOnP (· == x) ys with
    | nil => exact absurd hys (splitOnP_ne_nil _ ys)
    | cons w ws =>
      rw [hys, modifyHead_cons] at h
      have hmem : ∀ l' ∈ w :: ws, x ∉ l' := fun l' hl' => ih (by rw [List.splitOn, hys]; exact hl')
      rcases mem_cons.1 h with rfl | h
      · rw [mem_cons, not_or]
        exact ⟨fun heq => hne (by simp [heq]), hmem w mem_cons_self⟩
      · exact hmem l (mem_cons_of_mem _ h)

/-- The first components of a path are the components of a path. -/
theorem splitOn_intercalate_of_prefix {cs : List (List α)} (h : cs <+: q.splitOn x)
    (hne : cs ≠ []) :
    ([x].intercalate cs).splitOn x = cs :=
  splitOn_intercalate x (fun _ hl => notMem_of_mem_splitOn (h.subset hl)) hne

/-- A path is in a folder at the other path, or below one. -/
def Above (x : α) (p q : List α) : Prop := p ≠ q ∧ p.splitOn x <+: q.splitOn x

/-- The paths above a path, the nearest first. -/
def parents (x : α) (q : List α) : List (List α) :=
  (q.splitOn x).dropLast.inits.reverse.map fun cs => [x].intercalate cs

theorem prefix_dropLast_iff {β : Type*} {l m : List β} (hm : m ≠ []) : l <+: m.dropLast ↔
    l <+: m ∧ l ≠ m := by
  constructor
  · intro h
    have hpre : m.dropLast <+: m := dropLast_prefix m
    refine ⟨h.trans hpre, ?_⟩
    rintro rfl
    have hlen := h.length_le
    rw [length_dropLast] at hlen
    have := length_pos_iff.2 hm
    omega
  · rintro ⟨⟨r, rfl⟩, hne⟩
    have hr : r ≠ [] := by
      rintro rfl
      exact hne (append_nil l).symm
    rw [dropLast_append_of_ne_nil hr]
    exact prefix_append l _

theorem mem_parents (hp : p ≠ []) : p ∈ parents x q ↔ Above x p q := by
  have hq : q.splitOn x ≠ [] := splitOnP_ne_nil _ q
  simp only [parents, mem_map, mem_reverse, mem_inits, prefix_dropLast_iff hq]
  constructor
  · rintro ⟨cs, ⟨hcs, hne⟩, rfl⟩
    have hnil : cs ≠ [] := by
      rintro rfl
      exact hp rfl
    have hsplit := splitOn_intercalate_of_prefix hcs hnil
    refine ⟨fun heq => hne ?_, by rwa [hsplit]⟩
    rw [← hsplit, heq]
  · rintro ⟨hne, hpre⟩
    refine ⟨p.splitOn x, ⟨hpre, fun heq => hne ?_⟩, intercalate_splitOn x⟩
    rw [← @intercalate_splitOn _ p _ _ x, heq, intercalate_splitOn]

/-! ## Paths under a folder -/

section
variable {β : Type*} {x : β} {p q r : List β}

/-- The path goes on after the folder's path and a separator. -/
def Under (x : β) (p q : List β) : Prop := p ++ [x] <+: q

theorem Under.trans (h : Under x p q) (h' : Under x q r) : Under x p r :=
  List.IsPrefix.trans h ((prefix_append q [x]).trans h')

theorem Under.length_lt (h : Under x p q) : p.length < q.length := by
  have hle := List.IsPrefix.length_le h
  rw [length_append, length_singleton] at hle
  omega

end

end Layr.Paths
