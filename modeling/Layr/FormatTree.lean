import Layr.Format
import Layr.JsonParse
import Layr.Lib.Maps

/-!
# Trees and their bytes

`Tree.canonical` writes the bytes of the generic canonical encoder (`write_toValue`), which are a
JSON text of the tree. So with a parser that reads JSON texts, `Tree.parse` takes exactly the bytes
of valid trees (`parse_eq_ok`).
-/

namespace Layr

namespace Format

open JsonText List

variable {showFloat : UInt64 → String}

/-! ## The two encoders -/

variable {α : Type} {f : α → Json} {g : α → List Char}

theorem writeList_map (xs : List α)
    (h : ∀ x, write showFloat (f x) = .ok (g x)) :
    writeList showFloat (xs.map f) = .ok (xs.map g) := by
  induction xs with
  | nil => rfl
  | cons x xs ih => rw [map_cons, writeList, h, ih]; rfl

theorem writeFields_map (es : List (String × α)) (h : ∀ x, write showFloat (f x) = .ok (g x)) :
    writeFields showFloat (es.map fun e => (e.1, f e.2)) = .ok (es.map fun e => (e.1, g e.2)) := by
  induction es with
  | nil => rfl
  | cons e es ih => rw [map_cons, writeFields, h, ih]; rfl

theorem write_arr_ok {xs : List Json} {ts : List (List Char)}
    (h : writeList showFloat xs = .ok ts) :
    write showFloat (.arr xs) = .ok ('[' :: commas ts ++ [']']) := by
  rw [write, h]
  rfl

theorem write_obj_ok {kvs : List (String × Json)} {es : List (String × List Char)}
    (h : writeFields showFloat kvs = .ok es) (hkeys : (es.map (·.1)).Pairwise (· < ·)) :
    write showFloat (.obj kvs) = .ok
      ('\x7b' :: commas (es.map fun e => string e.1 ++ ':' :: e.2) ++ ['\x7d']) := by
  rw [write, h]
  change Except.ok _ = _
  rw [insertionSort_fields hkeys]

theorem write_link (l : Link) : write showFloat l.toValue = .ok l.text := by
  have hitems : writeList showFloat
    [.str l.state, .str l.attempt, .int l.part.toNat, .int l.offset.toNat, .int l.length.toNat,
      .str l.kind] = .ok
        [string l.state, string l.attempt, numberText l.part.toNat, numberText l.offset.toNat,
        numberText l.length.toNat, string l.kind] := rfl
  rw [Link.toValue, write_arr_ok hitems]
  simp [commas, List.intercalate, Link.text]

variable (e : Entry)

def Entry.valueText : List Char :=
  '[' :: string e.mode ++ ',' :: numberText e.size.toNat ++ ',' :: string e.sha ++
    [',', '['] ++ commas (e.chain.map Link.text) ++ [']', ']']

theorem entry_text (path : String) (e : Entry) :
    e.text path = string path ++ ':' :: e.valueText := by
  simp [Entry.text, Entry.valueText]

theorem write_entry : write showFloat e.toValue = .ok e.valueText := by
  have hitems : writeList showFloat [.str e.mode, .int e.size.toNat, .str e.sha,
      .arr (e.chain.map Link.toValue)] = .ok [string e.mode, numberText e.size.toNat, string e.sha,
        '[' :: commas (e.chain.map Link.text) ++ [']']] := by
    rw [writeList, writeList, writeList, writeList, write_arr_ok (writeList_map e.chain write_link)]
    rfl
  rw [Entry.toValue, write_arr_ok hitems]
  simp [commas, List.intercalate, Entry.valueText]

variable (t : Tree)

theorem pairwise_keys : (t.files.toList.map (·.1)).Pairwise (· < ·) := by
  rw [Std.ExtTreeMap.map_fst_toList_eq_keys]
  refine Std.ExtTreeMap.ordered_keys.imp ?_
  intro a b h
  exact compareOfLessAndEq_eq_lt.1 h

theorem write_files : write showFloat (.obj (t.files.toList.map fun e => (e.1, e.2.toValue))) =
      .ok ('\x7b' :: commas (t.files.toList.map fun e => e.2.text e.1) ++ ['\x7d']) := by
  have hfiles : writeFields showFloat _ = _ := writeFields_map t.files.toList write_entry
  have hkeys : ((t.files.toList.map fun e => (e.1, e.2.valueText)).map (·.1)).Pairwise (· < ·) := by
    rw [map_map]
    exact pairwise_keys t
  rw [write_obj_ok hfiles hkeys, map_map]
  simp only [entry_text]
  rfl

/-- The encoder of trees writes what the generic one does. -/
theorem write_toValue : write showFloat t.toValue = .ok t.text := by
  have houter : writeFields showFloat
    [("files", .obj (t.files.toList.map fun e => (e.1, e.2.toValue)))] =
      .ok [("files", '\x7b' :: commas (t.files.toList.map fun e => e.2.text e.1) ++ ['\x7d'])] := by
    rw [writeFields, write_files]
    rfl
  rw [Tree.toValue, write_obj_ok houter (pairwise_singleton _ _)]
  have hkey : string "files" = ['"', 'f', 'i', 'l', 'e', 's', '"'] := by decide
  rw [Tree.text, map_singleton, hkey]
  simp [commas, List.intercalate]

/-! ## The value of a tree -/

theorem mapM_map_some {β : Type} {f : β → Option α} {g : α → β} (xs : List α)
    (h : ∀ x, f (g x) = some x) : (xs.map g).mapM f = some xs := by
  induction xs with
  | nil => rfl
  | cons x xs ih => rw [map_cons, mapM_cons, h, ih]; rfl

theorem u64_int (n : UInt64) : Serde.u64 (.int n.toNat) = some n.toNat := by
  have hlt := n.toNat_lt
  rw [Serde.u64, Json.asU64, if_pos (by omega), Int.toNat_natCast]

theorem u32_int (n : UInt32) : Serde.u32 (.int n.toNat) = some n.toNat := by
  have hlt := n.toNat_lt
  rw [Serde.u32, Json.asU64, if_pos (by omega), Int.toNat_natCast, Option.filter_some,
    if_pos (by simpa using hlt)]

theorem link_ofValue (l : Link) : Link.ofValue l.toValue = some l := by
  simp [Link.ofValue, Link.toValue, u64_int, u32_int, Serde.string, Json.asStr]

theorem entry_ofValue : Entry.ofValue e.toValue = some e := by
  simp [Entry.ofValue, Entry.toValue, u64_int, Serde.string, Json.asStr, Serde.vec, Json.asArray,
    mapM_map_some e.chain link_ofValue]

theorem tree_ofValue : Tree.ofValue t.toValue = some t := by
  have hfiles : (t.files.toList.map fun e => (e.1, e.2.toValue)).mapM
      (fun e => (Entry.ofValue e.2).map fun v => (e.1, v)) = some t.files.toList :=
    mapM_map_some _ fun e => by rw [entry_ofValue]; rfl
  simp [Tree.ofValue, Tree.toValue, Serde.source, Serde.Source.req, Serde.Source.at?, Serde.map,
    Json.asObject, hfiles, Maps.ofList_toList]

theorem orderedList_map (xs : List α) (h : ∀ x, Ordered (f x)) : OrderedList (xs.map f) := by
  induction xs with
  | nil => trivial
  | cons x xs ih => exact ⟨h x, ih⟩

theorem ordered_nat {n : Nat} (h : n < 2 ^ 64) : Ordered (.int n) := by
  unfold Ordered
  omega

theorem ordered_link (l : Link) : Ordered l.toValue := by
  have hpart : l.part.toNat < 2 ^ 64 := Nat.lt_trans l.part.toNat_lt (by decide)
  exact ⟨trivial, trivial, ordered_nat hpart, ordered_nat l.offset.toNat_lt,
    ordered_nat l.length.toNat_lt, trivial, trivial⟩

theorem ordered_entry : Ordered e.toValue :=
  ⟨trivial, ordered_nat e.size.toNat_lt, trivial, orderedList_map e.chain ordered_link, trivial⟩

theorem orderedFields_map (es : List (String × α)) (h : ∀ x, Ordered (f x)) :
    OrderedFields (es.map fun e => (e.1, f e.2)) := by
  induction es with
  | nil => trivial
  | cons e es ih => exact ⟨h e.2, ih⟩

theorem ordered_tree : Ordered t.toValue := by
  refine ⟨pairwise_singleton _ _, ⟨?_, orderedFields_map _ ordered_entry⟩, trivial⟩
  rw [map_map]
  exact pairwise_keys t

/-- The bytes of a tree are a JSON text of it. -/
theorem denotes_text : Denotes t.toValue t.text :=
  denotes_of_write (ordered_tree t) (write_toValue t : write (fun _ => "") _ = _)

/-! ## Valid trees -/

structure Link.Valid (kind : String) (l : Link) : Prop where
  state : isUuid l.state = true
  attempt : validAttempt l.attempt = true
  part : l.part.toNat < maxParts
  length : l.length ≠ 0
  range : l.offset.toNat + l.length.toNat < 2 ^ 64
  kind : l.kind = kind

/-- A file has a mode of a file, a hash, and a chain of not too many deltas on one full frame. -/
structure Entry.Valid : Prop where
  mode : e.mode ∈ ["100644", "100755", "120000"]
  sha : validSha e.sha = true
  length : e.chain.length ≤ maxFileDeltas + 1
  chain : ∃ deltas full, e.chain = deltas ++ [full] ∧ (∀ l ∈ deltas, l.Valid "delta") ∧
    full.Valid "full"

/-- The paths are safe, no file is a folder above another one, and the entries are valid. -/
structure Tree.Valid : Prop where
  paths : ∀ path, path ∈ t.files → safePath path = true
  above : ∀ p q, p ∈ t.files → q ∈ t.files → ¬Paths.Above '/' p.toList q.toList
  entries : ∀ (path : String) (e : Entry), t.files[path]? = some e → e.Valid

theorem checkLink_iff {last : Bool} {l : Link} :
    checkLink last l = .ok () ↔ l.Valid (if last then "full" else "delta") := by
  simp only [checkLink, bind_eq_ok, ensure_eq_ok, exists_const, Bool.and_eq_true, decide_eq_true_eq,
    bne_iff_ne, beq_iff_eq]
  constructor
  · rintro ⟨⟨⟨⟨hstate, hattempt⟩, hpart⟩, hlength⟩, hkind, hrange⟩
    exact ⟨hstate, hattempt, hpart, hlength, hrange, hkind⟩
  · rintro ⟨hstate, hattempt, hpart, hlength, hrange, hkind⟩
    exact ⟨⟨⟨⟨hstate, hattempt⟩, hpart⟩, hlength⟩, hkind, hrange⟩

/-- The last frame of a chain is full, the others are deltas. -/
theorem forM_checkLink_iff {deltas : List Link} {full : Link} :
    forM (deltas ++ [full]).zipIdx (fun l => checkLink (l.2 + 1 == (deltas ++ [full]).length) l.1) =
      (.ok () : Except String Unit) ↔ (∀ l ∈ deltas, l.Valid "delta") ∧ full.Valid "full" := by
  have hlast : checkLink (deltas.length + 1 == (deltas ++ [full]).length) full = .ok () ↔
      full.Valid "full" := by
    rw [checkLink_iff]
    simp
  rw [forM_eq_ok, zipIdx_append]
  simp only [mem_append, or_imp, forall_and, Nat.zero_add, zipIdx_cons, zipIdx_nil, mem_singleton,
    forall_eq, hlast]
  refine and_congr_left fun _ => ⟨fun h l hl => ?_, fun h x hx => ?_⟩
  · obtain ⟨i, hi, rfl⟩ := mem_iff_getElem.1 hl
    have hdelta := h (deltas[i], i) (mem_zipIdx_iff_getElem?.2 (getElem?_eq_getElem hi))
    rw [checkLink_iff] at hdelta
    simpa [Nat.ne_of_lt hi] using hdelta
  · have hx' := mem_zipIdx_iff_getElem?.1 hx
    obtain ⟨hi, heq⟩ := List.getElem?_eq_some_iff.1 hx'
    rw [checkLink_iff]
    simpa [Nat.ne_of_lt hi] using h x.1 (heq ▸ getElem_mem hi)

variable {t : Tree} {env : Env}

theorem checkEntry_iff {path : String} {e : Entry} : checkEntry env t path e = .ok () ↔
      safePath path = true ∧ e.Valid ∧ ∀ p ∈ parents path, p ∉ t.files := by
  have hparents : forM (parents path) (fun p =>
      ensure (!t.files.contains p) ("tree path has a file parent: " ++ path)) = .ok () ↔
      ∀ p ∈ parents path, p ∉ t.files := by
    refine forM_eq_ok.trans (forall₂_congr fun p _ => ?_)
    rw [ensure_eq_ok, Bool.not_eq_true', ← Bool.not_eq_true, Std.ExtTreeMap.contains_iff_mem]
  simp only [checkEntry, bind_eq_ok, ensure_eq_ok, exists_const, exists_unit_eq_ok, hparents,
    Bool.and_eq_true, decide_eq_true_eq]
  constructor
  · rintro ⟨hpath, hmode, hsha, ⟨hne, hlen⟩, hchain, hfree⟩
    refine ⟨hpath, ⟨by simpa using hmode, hsha, hlen, ?_⟩, hfree⟩
    rcases eq_nil_or_concat' e.chain with hnil | ⟨deltas, full, heq⟩
    · rw [hnil] at hne
      cases hne
    · rw [heq] at hchain
      exact ⟨deltas, full, heq, forM_checkLink_iff.1 hchain⟩
  · rintro ⟨hpath, ⟨hmode, hsha, hlen, deltas, full, heq, hlinks⟩, hfree⟩
    refine ⟨hpath, by simpa using hmode, hsha, ⟨by rw [heq]; simp, hlen⟩, ?_, hfree⟩
    rw [heq]
    exact forM_checkLink_iff.2 hlinks

/-- A safe path that is a folder above another one is what `Path::parent` comes to. -/
theorem mem_parents_iff {p q : String} (hp : safePath p = true) :
    p ∈ parents q ↔ Paths.Above '/' p.toList q.toList := by
  have hne : p.toList ≠ [] := by
    intro h
    have hempty : p = "" := String.toList_injective h
    rw [hempty] at hp
    exact absurd hp (by decide)
  rw [← Paths.mem_parents hne, parents, mem_map]
  constructor
  · rintro ⟨cs, hcs, rfl⟩
    rwa [String.toList_ofList]
  · exact fun h => ⟨p.toList, h, String.ofList_toList⟩

theorem forM_checkEntry_iff :
    forM t.files.toList (fun e => checkEntry env t e.1 e.2) = (.ok () : Except String Unit) ↔
      t.Valid := by
  have hmem : ∀ path, path ∈ t.files ↔ ∃ e, (path, e) ∈ t.files.toList := by
    intro path
    rw [Maps.mem_iff_exists]
    exact exists_congr fun e => mem_toList_iff_getElem?_eq_some.symm
  rw [forM_eq_ok]
  constructor
  · intro h
    have hall := fun path e he => checkEntry_iff.1 (h (path, e) he)
    have hsafe : ∀ path, path ∈ t.files → safePath path = true := by
      intro path hpath
      obtain ⟨e, he⟩ := (hmem path).1 hpath
      exact (hall path e he).1
    refine ⟨hsafe, fun p q hp hq habove => ?_, fun path e he => ?_⟩
    · obtain ⟨e, he⟩ := (hmem q).1 hq
      exact (hall q e he).2.2 p ((mem_parents_iff (hsafe p hp)).2 habove) hp
    · exact (hall path e (mem_toList_iff_getElem?_eq_some.2 he)).2.1
  · rintro h ⟨path, e⟩ he
    have hpath := (hmem path).2 ⟨e, he⟩
    refine checkEntry_iff.2 ⟨h.paths path hpath,
      h.entries path e (mem_toList_iff_getElem?_eq_some.1 he), fun p hp hfile => ?_⟩
    exact h.above p path hfile hpath ((mem_parents_iff (h.paths p hfile)).1 hp)

/-! ## Parsing -/

mutual

/-- How many arrays and objects of the value lie in each other. -/
def depth : Json → Nat
  | .arr xs => depthList xs + 1
  | .obj kvs => depthFields kvs + 1
  | _ => 0

def depthList : List Json → Nat
  | [] => 0
  | x :: xs => max (depth x) (depthList xs)

def depthFields : List (String × Json) → Nat
  | [] => 0
  | (_, v) :: kvs => max (depth v) (depthFields kvs)

end

theorem depthList_map_le {n : Nat} (xs : List α) (h : ∀ x, depth (f x) ≤ n) :
    depthList (xs.map f) ≤ n := by
  induction xs with
  | nil => exact Nat.zero_le n
  | cons x xs ih => exact max_le (h x) ih

theorem depthFields_map_le {n : Nat} (es : List (String × α)) (h : ∀ x, depth (f x) ≤ n) :
    depthFields (es.map fun e => (e.1, f e.2)) ≤ n := by
  induction es with
  | nil => exact Nat.zero_le n
  | cons e es ih => exact max_le (h e.2) ih

/-- A tree is an object of an object of entries, which are arrays of chains of links. -/
theorem depth_tree (t : Tree) : depth t.toValue ≤ 5 := by
  have hlink : ∀ l : Link, depth l.toValue ≤ 1 := fun l => by simp [Link.toValue, depth, depthList]
  have hentry : ∀ e : Entry, depth e.toValue ≤ 3 := fun e => by
    have hchain := depthList_map_le e.chain hlink
    simp only [Entry.toValue, depth, depthList]
    omega
  have hfiles := depthFields_map_le t.files.toList hentry
  simp only [Tree.toValue, depth, depthFields]
  omega

/-- A parser that reads the compact texts of JSON values, as deep as `serde_json` reads them. -/
def Reads (fromSlice : ByteArray → Except String Json) : Prop :=
  ∀ v s, Denotes v s → depth v < 128 → fromSlice (String.ofList s).toUTF8 = .ok v

theorem parse_eq_ok (hreads : Reads env.fromSlice) {bytes : ByteArray} :
    Tree.parse env bytes = .ok t ↔ bytes = t.canonical ∧ t.Valid := by
  simp only [Tree.parse, bind_eq_ok, context_eq_ok, ensure_eq_ok, exists_const, exists_unit_eq_ok,
    pure_eq_ok, forM_checkEntry_iff, decide_eq_true_eq]
  constructor
  · rintro ⟨j, -, t', -, rfl, hvalid, rfl⟩
    exact ⟨rfl, hvalid⟩
  · rintro ⟨rfl, hvalid⟩
    exact ⟨t.toValue, hreads _ _ (denotes_text t) ((depth_tree t).trans_lt (by decide)), t,
      tree_ofValue t, rfl, hvalid, rfl⟩

theorem canonical_injective {t' : Tree} (h : t.canonical = t'.canonical) : t = t' := by
  have hread : fromSlice t.canonical = .ok t.toValue := fromSlice_of_denotes (denotes_text t)
  rw [h, show fromSlice t'.canonical = .ok t'.toValue from fromSlice_of_denotes
    (denotes_text t')] at hread
  have hvalue := congrArg Tree.ofValue (Except.ok.inj hread)
  rw [tree_ofValue, tree_ofValue] at hvalue
  exact (some.inj hvalue).symm

/-- With a parser of JSON that reads the texts of values, the parser of trees takes exactly the
canonical bytes of valid trees. What it takes encodes to the same bytes, what is encoded is read as
the same tree, and the encoder of trees agrees with the generic one. -/
theorem parse_canonical (showFloat : UInt64 → String) {env : Env} (hreads : Reads env.fromSlice) :
    (∀ bytes, (∃ t, Tree.parse env bytes = .ok t) ↔ ∃ t : Tree, t.Valid ∧ bytes = t.canonical) ∧
    (∀ bytes t, Tree.parse env bytes = .ok t → t.canonical = bytes) ∧
    (∀ t : Tree, t.Valid → Tree.parse env t.canonical = .ok t) ∧
    ∀ t : Tree, canonical showFloat t.toValue = .ok t.canonical := by
  refine ⟨fun bytes => ?_, fun bytes t h => ?_, fun t ht => ?_, fun t => ?_⟩
  · exact exists_congr fun t => (parse_eq_ok hreads).trans And.comm
  · exact ((parse_eq_ok hreads).1 h).1.symm
  · exact (parse_eq_ok hreads).2 ⟨rfl, ht⟩
  · rw [canonical, write_toValue]
    rfl

/-- The parser of JSON that is proved to read texts. -/
def Env.reference : Env := ⟨JsonText.fromSlice, fun s => s⟩

theorem reads_reference : Reads Env.reference.fromSlice := fun _ _ h _ => fromSlice_of_denotes h

/-- A file in a folder, whose name is escaped and whose content is a delta on a full frame, and a
symlink beside the folder. -/
def folder : Tree :=
  let sha := "0000000000000000000000000000000000000000000000000000000000000000"
  let full : Link := ⟨"01a12290-0000-7000-8000-000000000001", "0123abcd", 0, 0, 9, "full"⟩
  let delta : Link := ⟨"01a12290-0000-7000-8000-000000000002", "4567abcd", 1, 9, 3, "delta"⟩
  ⟨((∅ : BTreeMap Entry).insert "a/\"b\"" ⟨"100755", 5, sha, [delta, full]⟩).insert "c"
    ⟨"120000", 1, sha, [full]⟩⟩

theorem parse_canonical_folder : folder.Valid ∧ Tree.parse Env.reference folder.canonical =
    .ok folder := by
  have hcheck : forM folder.files.toList (fun e => checkEntry Env.reference folder e.1 e.2) =
      (.ok () : Except String Unit) := by decide +kernel
  have hvalid := forM_checkEntry_iff.1 hcheck
  exact ⟨hvalid, (parse_canonical (fun _ => "") reads_reference).2.2.1 folder hvalid⟩

namespace OtherMode

def tree : Tree := ⟨(∅ : BTreeMap Entry).insert "a" ⟨"100600", 0, "", []⟩⟩

theorem mem_files {p : String} (h : p ∈ tree.files) : p = "a" := by
  rw [tree, mem_insert] at h
  rcases h with h | h
  · exact (Std.LawfulEqCmp.compare_eq_iff_eq.1 h).symm
  · exact absurd h not_mem_empty

/-- Safe paths and no file above another one are not enough for the parser. -/
theorem otherMode_refused : (∀ path, path ∈ tree.files → safePath path = true) ∧
    (∀ p q, p ∈ tree.files → q ∈ tree.files → ¬Paths.Above '/' p.toList q.toList) ∧
    ¬∃ t, Tree.parse Env.reference tree.canonical = .ok t := by
  refine ⟨fun path h => ?_, fun p q hp hq h => ?_, ?_⟩
  · rw [mem_files h]
    decide
  · exact h.1 (by rw [mem_files hp, mem_files hq])
  · rintro ⟨t, ht⟩
    obtain ⟨heq, hvalid⟩ := (parse_eq_ok reads_reference).1 ht
    obtain rfl := canonical_injective heq
    have hmode := (hvalid.entries "a" ⟨"100600", 0, "", []⟩ (by simp [tree])).mode
    exact absurd hmode (by decide)

end OtherMode

end Format

end Layr
