import Layr.JsonText

/-!
# A parser of JSON texts

A recursive descent parser of compact JSON, and that it reads every text of a value
(`parse_of_denotes`): the grammar of `JsonText.Denotes` is not ambiguous, and what is asked of
`serde_json` can be met.
-/

namespace Layr

open List

namespace JsonText

/-! ## The parser -/

def parseUnit : List Char → Option (Nat × List Char)
  | a :: b :: c :: d :: r => do
    return (4096 * (← hexValue a) + 256 * (← hexValue b) + 16 * (← hexValue c) + (← hexValue d), r)
  | _ => none

/-- What follows `\u`: one unit, or a surrogate pair. -/
def parseUnicode (s : List Char) : Option (Char × List Char) := do
  let (hi, r) ← parseUnit s
  if 0xd800 ≤ hi ∧ hi < 0xdc00 then
    match r with
    | '\\' :: 'u' :: r => do
      let (lo, r) ← parseUnit r
      if 0xdc00 ≤ lo ∧ lo < 0xe000 then
        some (Char.ofNat (0x10000 + 0x400 * (hi - 0xd800) + (lo - 0xdc00)), r)
      else none
    | _ => none
  else some (Char.ofNat hi, r)

def parseEscape : List Char → Option (Char × List Char)
  | [] => none
  | e :: r =>
    if e = 'u' then parseUnicode r
    else (shortEscapes.find? fun x => x.2 == e).map fun x => (x.1, r)

def parseChar : List Char → Option (Char × List Char)
  | [] => none
  | c :: r => if c = '\\' then parseEscape r else if c.toNat < 0x20 then none else some (c, r)

def parseChars : Nat → List Char → Option (List Char × List Char)
  | 0, _ => none
  | fuel + 1, s =>
    if s.head? = some '"' then some ([], s.tail)
    else do
      let (c, r) ← parseChar s
      let (cs, r) ← parseChars fuel r
      return (c :: cs, r)

def parseDigits (s : List Char) : Option (Nat × List Char) :=
  if (s.takeWhile Char.isDigit).isEmpty then none
  else some (Nat.ofDigitChars 10 (s.takeWhile Char.isDigit) 0, s.dropWhile Char.isDigit)

def parseNumber (s : List Char) : Option (Json × List Char) :=
  if s.head? = some '-' then (parseDigits s.tail).map fun e => (.int (-e.1), e.2)
  else (parseDigits s).map fun e => (.int e.1, e.2)

def parseLiteral (v : Json) (word s : List Char) : Option (Json × List Char) :=
  if word.isPrefixOf s then some (v, s.drop word.length) else none

mutual

def parseValue : Nat → List Char → Option (Json × List Char)
  | 0, _ => none
  | _, [] => none
  | fuel + 1, c :: r =>
    if c = '"' then (parseChars fuel r).map fun e => (.str (String.ofList e.1), e.2)
    else if c = '[' then
      if r.head? = some ']' then some (.arr [], r.tail)
      else (parseItems fuel r).map fun e => (.arr e.1, e.2)
    else if c = '\x7b' then
      if r.head? = some '\x7d' then some (.obj [], r.tail)
      else (parseFields fuel r).map fun e => (.obj e.1, e.2)
    else if c = 'n' then parseLiteral .null ['u', 'l', 'l'] r
    else if c = 't' then parseLiteral (.bool true) ['r', 'u', 'e'] r
    else if c = 'f' then parseLiteral (.bool false) ['a', 'l', 's', 'e'] r
    else parseNumber (c :: r)

def parseItems : Nat → List Char → Option (List Json × List Char)
  | 0, _ => none
  | fuel + 1, s => do
    let (x, r) ← parseValue fuel s
    if r.head? = some ']' then return ([x], r.tail)
    else if r.head? = some ',' then do
      let (xs, r) ← parseItems fuel r.tail
      return (x :: xs, r)
    else none

def parseFields : Nat → List Char → Option (List (String × Json) × List Char)
  | 0, _ => none
  | fuel + 1, s => do
    if s.head? = some '"' then
      let (k, r) ← parseChars fuel s.tail
      if r.head? = some ':' then
        let (x, r) ← parseValue fuel r.tail
        if r.head? = some '\x7d' then return ([(String.ofList k, x)], r.tail)
        else if r.head? = some ',' then do
          let (kvs, r) ← parseFields fuel r.tail
          return ((String.ofList k, x) :: kvs, r)
        else none
      else none
    else none

end

def parse (s : List Char) : Option Json :=
  match parseValue s.length s with
  | some (v, []) => some v
  | _ => none

/-! ## Characters -/

variable {c : Char} {t r : List Char}

theorem parseUnit_of_isUnit {n : Nat} {ds : List Char} (h : IsUnit n ds) (r : List Char) :
    parseUnit (ds ++ r) = some (n, r) := by
  obtain ⟨a, b, c, d, w, x, y, z, rfl, ha, hb, hc, hd, rfl⟩ := h
  simp [parseUnit, ha, hb, hc, hd]

theorem parseChar_of_charText (h : CharText c t) (r : List Char) :
    parseChar (t ++ r) = some (c, r) := by
  cases h with
  | plain hprint hquote hback =>
    simp [parseChar, if_neg hback, if_neg (Nat.not_lt.2 hprint)]
  | @short e h =>
    have hall : ∀ x ∈ shortEscapes, x.2 ≠ 'u' ∧ (shortEscapes.find? fun y => y.2 == x.2) = some x :=
      by decide
    obtain ⟨hu, hfind⟩ := hall _ h
    simp [parseChar, parseEscape, if_neg hu, hfind]
  | @unit ds h =>
    have hval := c.valid
    have hnot : ¬(0xd800 ≤ c.toNat ∧ c.toNat < 0xdc00) := by
      rcases hval with hval | hval
      · have : c.toNat < 0xd800 := hval
        omega
      · have : 0xdfff < c.toNat := hval.1
        omega
    simp [parseChar, parseEscape, parseUnicode, parseUnit_of_isUnit h, if_neg hnot]
  | @pair ds ds' hi lo h h' hhi hlo hc =>
    simp [parseChar, parseEscape, parseUnicode, parseUnit_of_isUnit h, if_pos hhi,
      parseUnit_of_isUnit h', if_pos hlo, ← hc]

theorem charText_head (h : CharText c t) : ∃ d u, t = d :: u ∧ d ≠ '"' := by
  cases h with
  | plain hprint hquote hback => exact ⟨c, [], rfl, hquote⟩
  | short | unit | pair => exact ⟨_, _, rfl, by decide⟩

variable {fuel : Nat}

theorem parseChars_of_forall₂ {cs : List Char} {ts : List (List Char)}
    (h : List.Forall₂ CharText cs ts) (hfuel : ts.flatten.length < fuel) (r : List Char) :
    parseChars fuel (ts.flatten ++ '"' :: r) = some (cs, r) := by
  induction h generalizing fuel with
  | nil =>
    obtain ⟨fuel, rfl⟩ : ∃ n, fuel = n + 1 := ⟨fuel - 1, by omega⟩
    simp [parseChars]
  | @cons c t cs ts hc hcs ih =>
    obtain ⟨fuel, rfl⟩ : ∃ n, fuel = n + 1 := ⟨fuel - 1, by omega⟩
    obtain ⟨d, u, rfl, hd⟩ := charText_head hc
    have hlen : ts.flatten.length < fuel := by
      rw [flatten_cons, length_append, length_cons] at hfuel
      omega
    have hhead : ((d :: u) ++ (ts.flatten ++ '"' :: r)).head? ≠ some '"' := by simpa using hd
    rw [flatten_cons, append_assoc, parseChars, if_neg hhead, parseChar_of_charText hc]
    simp [ih hlen]

theorem parseChars_of_stringText {k : String} (h : StringText k t) (hfuel : t.length ≤ fuel + 1) :
    ∃ u, t = '"' :: u ∧ ∀ r, parseChars fuel (u ++ r) = some (k.toList, r) := by
  obtain ⟨ts, hts, rfl⟩ := h
  refine ⟨ts.flatten ++ ['"'], rfl, fun r => ?_⟩
  rw [append_assoc]
  refine parseChars_of_forall₂ hts ?_ r
  simp only [cons_append, length_cons, length_append] at hfuel
  omega

/-! ## Numbers -/

def NoDigit (r : List Char) : Prop := ∀ c, r.head? = some c → c.isDigit = false

theorem parseDigits_toDigits (n : Nat) (hr : NoDigit r) :
    parseDigits (Nat.toDigits 10 n ++ r) = some (n, r) := by
  have hdigits : ∀ c ∈ Nat.toDigits 10 n, c.isDigit = true :=
    fun c hc => Nat.isDigit_of_mem_toDigits (by decide) (by decide) hc
  have hstop : r.takeWhile Char.isDigit = [] ∧ r.dropWhile Char.isDigit = r := by
    cases r with
    | nil => exact ⟨rfl, rfl⟩
    | cons c r => simp [hr c rfl]
  rw [parseDigits, takeWhile_append_of_pos hdigits, dropWhile_append_of_pos hdigits, hstop.1,
    hstop.2, append_nil, Nat.ofDigitChars_ten_toDigits, if_neg]
  simp

theorem toList_toString (n : Int) : (toString n).toList =
    if 0 ≤ n then Nat.toDigits 10 n.toNat else '-' :: Nat.toDigits 10 (-n).toNat := by
  rw [Int.toString_eq_repr, Int.repr_eq_if]
  split <;> simp [Nat.repr]

theorem head_toDigits (n : Nat) : ∃ c l, Nat.toDigits 10 n = c :: l ∧ c.isDigit = true := by
  cases h : Nat.toDigits 10 n with
  | nil => exact absurd h Nat.toDigits_ne_nil
  | cons c l =>
    exact ⟨c, l, rfl, Nat.isDigit_of_mem_toDigits (by decide) (by decide) (h ▸ mem_cons_self)⟩

theorem parseNumber_toString (n : Int) (hr : NoDigit r) :
    parseNumber ((toString n).toList ++ r) = some (.int n, r) := by
  rw [toList_toString]
  by_cases hn : 0 ≤ n
  · obtain ⟨c, l, hcl, hc⟩ := head_toDigits n.toNat
    have hhead : (Nat.toDigits 10 n.toNat ++ r).head? ≠ some '-' := by
      rw [hcl]
      rintro h
      cases h
      exact absurd hc (by decide)
    rw [if_pos hn, parseNumber, if_neg hhead, parseDigits_toDigits _ hr]
    simp [Int.toNat_of_nonneg hn]
  · rw [if_neg hn, cons_append, parseNumber, if_pos head?_cons, tail_cons,
      parseDigits_toDigits _ hr, Option.map_some]
    have : -((-n).toNat : Int) = n := by omega
    rw [this]

theorem parseValue_toString (n : Int) (hr : NoDigit r) (hfuel : 0 < fuel) :
    parseValue fuel ((toString n).toList ++ r) = some (.int n, r) := by
  have hhead : ∃ c l, (toString n).toList = c :: l ∧ (c.isDigit = true ∨ c = '-') := by
    rw [toList_toString]
    split
    · obtain ⟨c, l, h, hc⟩ := head_toDigits n.toNat
      exact ⟨c, l, h, .inl hc⟩
    · exact ⟨_, _, rfl, .inr rfl⟩
  obtain ⟨c, l, hcl, hc⟩ := hhead
  have hne : ∀ d ∈ ['"', '[', '\x7b', 'n', 't', 'f'], c ≠ d := by
    rintro d hd rfl
    have hall : (['"', '[', '\x7b', 'n', 't', 'f'].all fun d => !d.isDigit && d != '-') = true :=
      by decide
    have hd' := all_eq_true.1 hall c hd
    rw [Bool.and_eq_true, Bool.not_eq_true', bne_iff_ne] at hd'
    rcases hc with hc | hc
    · rw [hd'.1] at hc
      cases hc
    · exact hd'.2 hc
  have hnumber := parseNumber_toString n hr
  obtain ⟨fuel, rfl⟩ : ∃ n, fuel = n + 1 := ⟨fuel - 1, by omega⟩
  rw [hcl, cons_append] at hnumber ⊢
  rw [parseValue, if_neg (hne _ (by decide)), if_neg (hne _ (by decide)),
    if_neg (hne _ (by decide)), if_neg (hne _ (by decide)), if_neg (hne _ (by decide)),
      if_neg (hne _ (by decide)), hnumber]

/-! ## Values -/

theorem commas_cons_cons (t u : List Char) (ts : List (List Char)) :
    commas (t :: u :: ts) = t ++ ',' :: commas (u :: ts) := by
  simp [commas, List.intercalate]

theorem commas_singleton (t : List Char) : commas [t] = t := by simp [commas, List.intercalate]

theorem noDigit_cons (h : c.isDigit = false) (r : List Char) : NoDigit (c :: r) := by
  rintro d hd
  rwa [← Option.some.inj hd]

variable {v : Json}

/-- The text of a value is not empty, and does not begin like the end of an array. -/
theorem denotes_head (h : Denotes v t) : ∃ d u, t = d :: u ∧ d ≠ ']' := by
  cases h with
  | null | true | false | arr | obj => exact ⟨_, _, rfl, by decide⟩
  | @int n _ =>
    rw [toList_toString]
    split
    · obtain ⟨c, l, h, hc⟩ := head_toDigits n.toNat
      exact ⟨c, l, h, by rintro rfl; exact absurd hc (by decide)⟩
    · exact ⟨_, _, rfl, by decide⟩
  | str h =>
    obtain ⟨ts, -, rfl⟩ := h
    exact ⟨_, _, rfl, by decide⟩

theorem commas_head (h : Denotes v t) (ts : List (List Char)) : ∃ d u, commas (t :: ts) = d :: u ∧
    d ≠ ']' := by
  obtain ⟨d, u, rfl, hd⟩ := denotes_head h
  cases ts with
  | nil => exact ⟨d, u, commas_singleton _, hd⟩
  | cons t ts => exact ⟨d, _, by rw [commas_cons_cons]; rfl, hd⟩

theorem commas_fields_head {k : String} (h : StringText k t) (v : List Char)
    (ts : List (List Char)) :
    ∃ u, commas ((t ++ ':' :: v) :: ts) = '"' :: u := by
  obtain ⟨us, -, rfl⟩ := h
  cases ts with
  | nil => exact ⟨_, by rw [commas_singleton]; rfl⟩
  | cons t ts => exact ⟨_, by rw [commas_cons_cons]; rfl⟩

mutual

/-- By recursion on the text of the value, which no digit follows. -/
theorem parseValue_of_denotes : ∀ {v : Json} {t : List Char}, Denotes v t →
    ∀ {fuel : Nat} {r : List Char},
    t.length ≤ fuel → NoDigit r → parseValue fuel (t ++ r) = some (v, r)
  | _, _, h, 0, _, hfuel, _ => by
    obtain ⟨d, u, rfl, -⟩ := denotes_head h
    cases hfuel
  | .null, _, .null, _ + 1, _, _, _ => rfl
  | .bool true, _, .true, _ + 1, _, _, _ => rfl
  | .bool false, _, .false, _ + 1, _, _, _ => rfl
  | .int n, _, .int _, fuel + 1, _, _, hr => parseValue_toString n hr fuel.succ_pos
  | .str s, t, .str h, fuel + 1, r, hfuel, _ => by
    obtain ⟨u, rfl, hu⟩ := parseChars_of_stringText h hfuel
    rw [cons_append, parseValue, if_pos rfl, hu, Option.map_some, String.ofList_toList]
  | .arr [], _, .arr .nil, _ + 1, _, _, _ => rfl
  | .arr (x :: xs), _, .arr (.cons hx hxs), fuel + 1, r, hfuel, _ => by
    simp only [cons_append, length_cons, length_append, length_nil] at hfuel
    have hitems := parseItems_of_denotes hx hxs (r := r) (show _ < fuel by omega)
    obtain ⟨d, u, hdu, hd⟩ := commas_head hx _
    rw [hdu] at hitems
    rw [hdu, cons_append, cons_append, append_assoc, cons_append, parseValue,
      if_neg (by decide), if_pos rfl, if_neg (by simpa using hd)]
    simp only [cons_append, nil_append] at hitems ⊢
    rw [hitems]
    rfl
  | .obj [], _, .obj _ .nil _, _ + 1, _, _, _ => rfl
  | .obj ((k, x) :: kvs), _, .obj _ (.cons hk hks) (.cons hx hvs), fuel + 1, r, hfuel, _ => by
    simp only [cons_append, length_cons, length_append, length_nil] at hfuel
    have hfields := parseFields_of_denotes hk hx hks hvs (r := r) (show _ < fuel by omega)
    obtain ⟨u, hu⟩ := commas_fields_head hk _ _
    rw [zipWith_cons_cons] at hfields ⊢
    rw [hu] at hfields
    rw [hu, cons_append, cons_append, append_assoc, cons_append, parseValue,
      if_neg (by decide), if_neg (by decide), if_pos rfl, if_neg (by simp)]
    simp only [cons_append, nil_append] at hfields ⊢
    rw [hfields]
    rfl
termination_by v => sizeOf v

theorem parseItems_of_denotes :
    ∀ {x : Json} {xs : List Json} {t : List Char} {ts : List (List Char)},
    Denotes x t → List.Forall₂ Denotes xs ts → ∀ {fuel : Nat} {r : List Char},
    (commas (t :: ts)).length < fuel → parseItems fuel (commas (t :: ts) ++ ']' :: r) =
      some (x :: xs, r)
  | _, _, _, _, _, _, 0, _, hfuel => absurd hfuel (Nat.not_lt_zero _)
  | x, [], t, [], hx, .nil, fuel + 1, r, hfuel => by
    rw [commas_singleton] at hfuel ⊢
    rw [parseItems, parseValue_of_denotes hx (by omega) (noDigit_cons (by decide) r)]
    rfl
  | x, y :: ys, t, u :: us, hx, .cons hy hys, fuel + 1, r, hfuel => by
    rw [commas_cons_cons] at hfuel ⊢
    rw [length_append, length_cons] at hfuel
    rw [parseItems, append_assoc, cons_append,
      parseValue_of_denotes hx (by omega) (noDigit_cons (by decide) _)]
    have hrest : parseItems fuel (commas (u :: us) ++ ']' :: r) = some (y :: ys, r) :=
      parseItems_of_denotes hy hys (by omega)
    simp [hrest]
termination_by x xs => sizeOf x + sizeOf xs

theorem parseFields_of_denotes :
    ∀ {k : String} {x : Json} {kvs : List (String × Json)} {s t : List Char}
    {ks vs : List (List Char)}, StringText k s → Denotes x t →
    List.Forall₂ StringText (kvs.map (·.1)) ks → List.Forall₂ Denotes (kvs.map (·.2)) vs →
    ∀ {fuel : Nat} {r : List Char},
    (commas (List.zipWith (fun k v => k ++ ':' :: v) (s :: ks) (t :: vs))).length < fuel →
    parseFields fuel (commas (List.zipWith (fun k v => k ++ ':' :: v) (s :: ks) (t :: vs)) ++
      '\x7d' :: r) =
      some ((k, x) :: kvs, r)
  | _, _, _, _, _, _, _, _, _, _, _, 0, _, hfuel => absurd hfuel (Nat.not_lt_zero _)
  | k, x, [], s, t, [], [], hk, hx, .nil, .nil, fuel + 1, r, hfuel => by
    simp only [zipWith_cons_cons, zipWith_nil_left, commas_singleton, length_append,
      length_cons] at hfuel ⊢
    obtain ⟨u, rfl, hu⟩ := parseChars_of_stringText hk (show s.length ≤ fuel + 1 by omega)
    have hvalue : parseValue fuel (t ++ '\x7d' :: r) = some (x, '\x7d' :: r) :=
      parseValue_of_denotes hx (by omega) (noDigit_cons (by decide) r)
    simp [parseFields, hu, hvalue]
  | k, x, (l, y) :: kvs, s, t, s' :: ks, t' :: vs, hk, hx, .cons hl hks, .cons hy hvs, fuel + 1, r,
        hfuel => by
    have hsplit := commas_cons_cons (s ++ ':' :: t) (s' ++ ':' :: t')
      (List.zipWith (fun k v => k ++ ':' :: v) ks vs)
    simp only [zipWith_cons_cons, hsplit, length_append, length_cons] at hfuel ⊢
    obtain ⟨u, rfl, hu⟩ := parseChars_of_stringText hk (show s.length ≤ fuel + 1 by omega)
    have hrest := parseFields_of_denotes hl hy hks hvs (r := r)
      (show (commas (List.zipWith (fun k v => k ++ ':' :: v) (s' :: ks) (t' :: vs))).length <
          fuel by
        simp only [zipWith_cons_cons]; omega)
    rw [zipWith_cons_cons] at hrest
    have hvalue := parseValue_of_denotes hx (show t.length ≤ fuel by omega)
      (noDigit_cons (by decide : ','.isDigit = false)
        (commas ((s' ++ ':' :: t') :: List.zipWith (fun k v => k ++ ':' :: v) ks vs) ++
          '\x7d' :: r))
    simp [parseFields, hu, hvalue, hrest]
termination_by _ x kvs => sizeOf x + sizeOf kvs

end

/-- The parser reads every text of a value as that value. -/
theorem parse_of_denotes (h : Denotes v t) : parse t = some v := by
  have hvalue := parseValue_of_denotes h (Nat.le_refl t.length) (r := []) (by rintro c hc; cases hc)
  rw [append_nil] at hvalue
  rw [parse, hvalue]

def fromSlice (bytes : ByteArray) : Except String Json :=
  match (String.fromUTF8? bytes).bind fun s => parse s.toList with
  | some v => .ok v
  | none => .error "invalid JSON"

theorem fromSlice_of_denotes (h : Denotes v t) : fromSlice (String.ofList t).toUTF8 = .ok v := by
  have hutf8 : String.fromUTF8? (String.ofList t).toUTF8 = some (String.ofList t) :=
    dif_pos (String.ofList t).isValidUTF8
  rw [fromSlice, hutf8, Option.bind_some, String.toList_ofList, parse_of_denotes h]

end JsonText

end Layr
