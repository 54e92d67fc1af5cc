import Layr.RecordSegmentsRun

/-!
# Reading record segments

Segments that are slices of signed logs and leave no number out are merged without an error and
without a gap, however they overlap: the reader gets the prefix of each log that the segments reach.
-/

namespace Layr.Segments

open Format Maps Runs Tables TextLines List

section
variable {B : Type} {c : Codec} {ks : Keys B} {project : String} {objects : BTreeMap B}
  {w : World B} {m key line : String} {logs : String → List String} {log : List String}
  {first last k n overlaps : ℕ} {machines : BTreeMap BySeq}

/-! ## Merging -/

def look (machines : BTreeMap BySeq) (m : String) (k : ℕ) : Option String :=
  machines[m]?.bind (·[k]?)

structure Reads (logs : String → List String) (places : String → ℕ → Prop)
    (machines : BTreeMap BySeq) : Prop where
  look : ∀ (m : String) (k : ℕ) (line : String),
    look machines m k = some line ↔ places m k ∧ 0 < k ∧ (logs m)[k - 1]? = some line
  nonempty : ∀ (m : String) (bySeq : BySeq), machines[m]? = some bySeq →
    ∃ (k : ℕ) (line : String), bySeq[k]? = some line

theorem Reads.congr {places places' : String → ℕ → Prop} (h : Reads logs places machines)
    (hiff : ∀ m k, places m k ↔ places' m k) : Reads logs places' machines :=
  ⟨fun m k line => by rw [h.look, hiff], h.nonempty⟩

theorem look_insert {bySeq : BySeq} {m' : String} {k' : ℕ} :
    look (machines.insert m bySeq) m' k' = if m = m' then bySeq[k']? else look machines m' k' := by
  by_cases hm : m = m'
  · subst hm
    rw [look, getElem?_insert_self, if_pos rfl, Option.bind_some]
  · rw [look, getElem?_insert_ne hm, if_neg hm, look]

theorem getElem?_getD_eq_look : (machines[m]?.getD ∅)[k]? = look machines m k := by
  rw [look]
  cases machines[m]? with
  | none => exact getElem?_empty
  | some bySeq => rfl

variable {places : String → ℕ → Prop}

/-- A line of a log is put at its place, whether it is there already or not. -/
theorem Reads.addLine (h : Reads logs places machines) (overlaps : ℕ) (hk : 0 < k)
    (hline : (logs m)[k - 1]? = some line) :
    ∃ out, addLine m k line machines overlaps = .ok out ∧
      Reads logs (fun m' k' => places m' k' ∨ m' = m ∧ k' = k) out.1 := by
  unfold Segments.addLine
  dsimp only
  rw [getElem?_getD_eq_look]
  split
  · next previous hprevious =>
    obtain ⟨hplace, -, hget⟩ := (h.look m k previous).1 hprevious
    cases hget.symm.trans hline
    refine ⟨_, if_pos rfl, h.congr fun m' k' => ⟨.inl, ?_⟩⟩
    rintro (hold | ⟨rfl, rfl⟩)
    · exact hold
    · exact hplace
  · next hnone =>
    refine ⟨_, rfl, fun m' k' line' => ?_, fun m' bySeq hbySeq => ?_⟩
    · rw [look_insert]
      by_cases hm : m = m'
      · subst hm
        rw [if_pos rfl]
        by_cases hkk : k = k'
        · subst hkk
          rw [getElem?_insert_self, hline]
          simp [hk]
        · rw [getElem?_insert_ne hkk]
          rw [getElem?_getD_eq_look, h.look]
          simp [Ne.symm hkk]
      · rw [if_neg hm, h.look]
        simp [Ne.symm hm]
    · by_cases hm : m = m'
      · subst hm
        rw [getElem?_insert_self] at hbySeq
        cases hbySeq
        exact ⟨k, line, getElem?_insert_self⟩
      · rw [getElem?_insert_ne hm] at hbySeq
        exact h.nonempty m' bySeq hbySeq

/-- The lines of a segment are read to its end. -/
theorem Reads.readLines (hlog : SignedLog c project m (logs m)) (hlast : last ≤ (logs m).length)
    (h : Reads logs places machines) (key : String) (overlaps : ℕ) (hfirst : 0 < first)
    (hle : first ≤ last + 1) :
    ∃ machines' overlaps', (slice (logs m) first last).foldlM (readLine c project key m last)
      (first, machines, overlaps) =
        .ok (last + 1, machines', overlaps') ∧
      Reads logs (fun m' k => places m' k ∨ m' = m ∧ first ≤ k ∧ k ≤ last) machines' := by
  -- The induction is on the number of lines that are left.
  induction hn : last + 1 - first generalizing first machines overlaps places with
  | zero =>
    obtain rfl : first = last + 1 := by omega
    have hnil : slice (logs m) (last + 1) last = [] := by
      rw [slice, drop_eq_nil_of_le (by rw [length_take]; omega)]
    refine ⟨machines, overlaps, by rw [hnil, foldlM_nil]; rfl, h.congr fun m' k => ?_⟩
    exact ⟨.inl, fun hplace => hplace.resolve_right fun hrange => by omega⟩
  | succ n ih =>
    have hlt : first - 1 < (logs m).length := by omega
    have hget : (logs m)[first - 1]? = some (logs m)[first - 1] := getElem?_eq_getElem hlt
    have hcons : slice (logs m) first last = (logs m)[first - 1] ::
        slice (logs m) (first + 1) last := by
      rw [slice, drop_eq_getElem_cons (by rw [length_take]; omega), getElem_take, slice]
      congr 2
      omega
    obtain ⟨r, hbody, hm, hseq, hproject, hvalid⟩ := hlog.read _ _ hget
    obtain ⟨⟨machines₁, overlaps₁⟩, hadd, hreads⟩ := h.addLine overlaps hfirst hget
    have hshort := hlog.short
    have hline : readLine c project key m last (first, machines, overlaps) (logs m)[first - 1] =
        .ok (first + 1, machines₁, overlaps₁) := by
      have hparse : c.parse (logs m)[first - 1] none = .ok r := Codec.parse_eq_ok.2 ⟨hbody, by simp⟩
      have hplace : (r.machine == m && r.seq == first && decide (first ≤ last)) = true := by
        simp only [hm, hseq, Bool.and_eq_true, beq_iff_eq, decide_eq_true_eq, true_and]
        omega
      simp only [readLine, bind_eq_ok, ensure_eq_ok, pure_eq_ok, exists_const, exists_unit_eq_ok,
        decide_eq_true_eq]
      exact ⟨r, hparse, hplace, beq_iff_eq.2 hproject, hvalid, _, hadd, by omega, rfl⟩
    obtain ⟨machines', overlaps', hfold, hreads'⟩ :=
      ih hreads overlaps₁ (show 0 < first + 1 from Nat.succ_pos first) (by omega) (by omega)
    refine ⟨machines', overlaps', ?_, hreads'.congr fun m' k => ?_⟩
    · rw [hcons, foldlM_cons, bind_eq_ok]
      exact ⟨_, hline, hfold⟩
    · constructor
      · rintro ((hplace | ⟨rfl, rfl⟩) | ⟨rfl, hk, hk'⟩)
        · exact .inl hplace
        · exact .inr ⟨rfl, Nat.le_refl _, by omega⟩
        · exact .inr ⟨rfl, by omega, hk'⟩
      · rintro (hplace | ⟨rfl, hk, hk'⟩)
        · exact .inl (.inl hplace)
        · rcases Nat.eq_or_lt_of_le hk with rfl | hlt
          · exact .inl (.inr ⟨rfl, rfl⟩)
          · exact .inr ⟨rfl, hlt, hk'⟩

theorem lines_slice (hlog : SignedLog c project m log) (hlast : last ≤ log.length)
    (hfirst : 0 < first) (hle : first ≤ last) :
    lines (text (slice log first last)) = slice log first last := by
  refine lines_text ?_ fun line hmem => hlog.plain line (mem_of_mem_take (mem_of_mem_drop hmem))
  rw [slice]
  simp only [ne_eq, drop_eq_nil_iff, length_take]
  omega

section

variable (hlogs : ∀ m, SignedLog c project m (logs m)) (h : Reads logs places machines)
include hlogs h

/-- A segment that is a slice of a log is merged. -/
theorem Reads.readSegment (overlaps : ℕ) {object : String × B}
    (hsegment : SegmentOk ks logs object.1 object.2) :
    ∃ out, readSegment c ks project (machines, overlaps) object = .ok out ∧
      Reads logs (fun m k => places m k ∨ ∃ first last, parseSegmentName object.1 =
        some (m, first, last) ∧ first ≤ k ∧ k ≤ last)
        out.1 := by
  obtain ⟨m, first, last, hparse, hfirst, hle, hlast, htext⟩ := hsegment
  obtain ⟨machines', overlaps', hfold, hreads⟩ :=
    h.readLines (hlogs m) hlast object.1 overlaps hfirst
    (Nat.le_succ_of_le hle)
  refine ⟨(machines', overlaps'), ?_, hreads.congr fun m' k => ?_⟩
  · simp only [Segments.readSegment, bind_eq_ok, context_eq_ok, ensure_eq_ok, pure_eq_ok,
      exists_const]
    refine ⟨_, hparse, _, htext, (last + 1, machines', overlaps'), ?_, by simp, rfl⟩
    rw [lines_slice (hlogs m) hlast hfirst hle]
    exact hfold
  · rw [hparse]
    simp only [some.injEq, Prod.mk.injEq]
    constructor
    · rintro (hplace | ⟨rfl, hk⟩)
      · exact .inl hplace
      · exact .inr ⟨first, last, ⟨rfl, rfl, rfl⟩, hk⟩
    · rintro (hplace | ⟨_, _, ⟨rfl, rfl, rfl⟩, hk⟩)
      · exact .inl hplace
      · exact .inr ⟨rfl, hk⟩

/-- Segments that are slices of logs are merged. -/
theorem Reads.readSegments {l : List (String × B)} (overlaps : ℕ)
    (hl : ∀ object ∈ l, SegmentOk ks logs object.1 object.2) :
    ∃ out, l.foldlM (Segments.readSegment c ks project) (machines, overlaps) = .ok out ∧
      Reads logs (fun m k => places m k ∨ ∃ object ∈ l, ∃ first last, parseSegmentName object.1 =
        some (m, first, last) ∧
        first ≤ k ∧ k ≤ last) out.1 := by
  induction l generalizing machines overlaps places with
  | nil => exact ⟨_, rfl, h.congr fun m k => by simp⟩
  | cons object l ih =>
    rw [forall_mem_cons] at hl
    obtain ⟨⟨machines₁, overlaps₁⟩, hone, hreads⟩ := h.readSegment hlogs overlaps hl.1
    obtain ⟨out, hfold, hreads'⟩ := ih hreads overlaps₁ hl.2
    refine ⟨out, ?_, hreads'.congr fun m k => ?_⟩
    · rw [foldlM_cons, bind_eq_ok]
      exact ⟨_, hone, hfold⟩
    · simp [or_assoc]

end

/-! ## What the segments reach -/

def reach (objects : BTreeMap B) (m : String) : ℕ :=
  highest (objects.keys.filterMap fun key => (parseSegmentName key).bind fun e => if e.1 =
    m then some e.2.2 else none)

theorem mem_ends : k ∈ objects.keys.filterMap
    (fun key => (parseSegmentName key).bind fun e => if e.1 = m then some e.2.2 else none) ↔
    ∃ key first, key ∈ objects ∧ parseSegmentName key = some (m, first, k) := by
  simp only [mem_filterMap, mem_keys, bind_eq_some_iff, ite_none_right_eq_some,
    some.injEq, Prod.exists]
  constructor
  · rintro ⟨key, hmem, m', first, last, hparse, rfl, rfl⟩
    exact ⟨key, first, hmem, hparse⟩
  · rintro ⟨key, first, hmem, hparse⟩
    exact ⟨key, hmem, m, first, k, hparse, rfl, rfl⟩

theorem le_reach (h : Covered objects m k) : k ≤ reach objects m := by
  obtain ⟨key, first, last, hmem, hparse, -, hle⟩ := h
  exact hle.trans (le_highest (mem_ends.2 ⟨key, first, hmem, hparse⟩))

/-- The numbers of a machine in the store are those up to the last. -/
theorem Inv.covered_iff (h : Inv c ks project w) (hk : 0 < k) : Covered w.objects m k ↔
    k ≤ reach w.objects m := by
  refine ⟨le_reach, fun hle => ?_⟩
  rcases highest_eq_zero_or_mem (w.objects.keys.filterMap fun key =>
    (parseSegmentName key).bind fun e => if e.1 = m then some e.2.2 else none) with hzero | hmem
  · rw [reach, hzero] at hle
    omega
  obtain ⟨key, first, hkey, hparse⟩ := mem_ends.1 hmem
  exact h.down m k _ hk hle ⟨key, first, _, hkey, hparse, (h.segment hkey hparse).1, Nat.le_refl _⟩

theorem Inv.reach_le (h : Inv c ks project w) (m : String) :
    reach w.objects m ≤ (w.logs m).length := by
  rcases Nat.eq_zero_or_pos (reach w.objects m) with hzero | hpos
  · rw [hzero]
    exact Nat.zero_le _
  · exact h.le_length ((h.covered_iff hpos).2 (Nat.le_refl _))

/-! ## One machine -/

def IsPrefix (bySeq : BySeq) (log : List String) (n : ℕ) : Prop :=
  ∀ (k : ℕ) (line : String), bySeq[k]? = some line ↔ 0 < k ∧ k ≤ n ∧ log[k - 1]? = some line

variable {bySeq : BySeq}

theorem contiguous_eq (h : IsPrefix bySeq log n) (hn : n ≤ log.length) (hk : 0 < k)
    (hle : k ≤ n + 1) {fuel : ℕ} (hfuel : n + 1 < fuel + k) :
    contiguous bySeq fuel k = ((log.take n).drop (k - 1), n + 1) := by
  induction fuel generalizing k with
  | zero => omega
  | succ fuel ih =>
    rw [contiguous]
    rcases Nat.eq_or_lt_of_le hle with rfl | hlt
    · have hnone : bySeq[n + 1]? = none := by
        rw [eq_none_iff_forall_ne_some]
        intro line hline
        have := ((h _ _).1 hline).2.1
        omega
      rw [hnone, drop_eq_nil_of_le (by rw [length_take]; omega)]
    · have hget : log[k - 1]? = some log[k - 1] := getElem?_eq_getElem (by omega)
      have hline : bySeq[k]? = some log[k - 1] := (h _ _).2 ⟨hk, by omega, hget⟩
      have hdrop : (log.take n).drop (k - 1) = log[k - 1] :: (log.take n).drop k := by
        rw [drop_eq_getElem_cons (by rw [length_take]; omega), getElem_take, Nat.sub_add_cancel hk]
      have hrest := ih (show 0 < k + 1 from Nat.succ_pos k) (by omega) (by omega)
      simp [hline, hrest, hdrop]

theorem IsPrefix.le_of_mem_keys (h : IsPrefix bySeq log n) (hk : k ∈ bySeq.keys) : k ≤ n := by
  rw [mem_keys] at hk
  exact ((h _ _).1 (Std.ExtTreeMap.getElem?_eq_some_getElem hk)).2.1

/-- The records of a machine verify, and none is missing. -/
theorem readMachine_eq_ok (hlog : SignedLog c project m log) (hn : n ≤ log.length) (hpos : 0 < n)
    (h : IsPrefix bySeq log n) (out : Records c) : ∃ key, readMachine c out (m, bySeq) =
      .ok { out with lines := out.lines ++ log.take n, keys := out.keys.insert m key } := by
  have hfirst : log[0]? = some log[0] := getElem?_eq_getElem (by omega)
  obtain ⟨r, key, hbody, hop, hkey, hsigned⟩ := hlog.key _ hfirst
  have hone : bySeq[1]? = some log[0] := (h 1 _).2 ⟨by omega, hpos, hfirst⟩
  have hlast : n ∈ bySeq.keys := by
    rw [mem_keys, mem_iff_exists]
    exact ⟨_, (h n _).2 ⟨hpos, Nat.le_refl _, getElem?_eq_getElem (by omega)⟩⟩
  have hcontiguous : contiguous bySeq (highest bySeq.keys + 1) 1 = (log.take n, n + 1) := by
    have hle := le_highest hlast
    exact contiguous_eq h hn Nat.one_pos (by omega) (by omega)
  have hgap : bySeq.keys.getLast?.any (fun k => decide (n + 1 ≤ k)) = false := by
    rw [Option.any_eq_false]
    intro k hk
    have := h.le_of_mem_keys (mem_of_getLast? hk)
    rw [decide_eq_false (by omega)]
  have hverify : ∀ e ∈ bySeq.toList, ∃ r, c.parse e.2 (some key) = .ok r := by
    rintro ⟨k, line⟩ hmem
    obtain ⟨-, -, hget⟩ := (h k line).1 (mem_toList_iff_getElem?_eq_some.1 hmem)
    obtain ⟨r, hr, -⟩ := hlog.read _ _ hget
    exact ⟨r, Codec.parse_eq_ok.2 ⟨hr, by simpa using hsigned line (mem_of_getElem? hget)⟩⟩
  refine ⟨key, ?_⟩
  simp only [readMachine, hone, bind_eq_ok, ensure_eq_ok, exists_const, pure_eq_ok, hcontiguous,
    hgap, forM_eq_forM, forM_eq_ok, Codec.parse_eq_ok]
  refine ⟨r, ⟨hbody, by simp⟩, beq_iff_eq.2 hop, key, hkey, fun e hmem => ?_, by simp⟩
  obtain ⟨r', hr'⟩ := hverify e hmem
  exact ⟨r', Codec.parse_eq_ok.1 hr', trivial⟩

variable {last : String → ℕ}

/-- The machines are read one after another. -/
theorem readMachines_eq_ok (hlogs : ∀ m, SignedLog c project m (logs m))
    (hlast : ∀ m, last m ≤ (logs m).length) {l : List (String × BySeq)}
    (hl : ∀ e ∈ l, 0 < last e.1 ∧ IsPrefix e.2 (logs e.1) (last e.1)) (out : Records c) :
    ∃ out', l.foldlM (readMachine c) out = .ok out' ∧ out'.gaps = out.gaps ∧
      out'.lines = out.lines ++ l.flatMap fun e => (logs e.1).take (last e.1) := by
  induction l generalizing out with
  | nil => exact ⟨out, rfl, rfl, by simp⟩
  | cons e l ih =>
    rw [forall_mem_cons] at hl
    obtain ⟨key, hone⟩ := readMachine_eq_ok (hlogs e.1) (hlast e.1) hl.1.1 hl.1.2 out
    obtain ⟨out', hfold, hgaps, hlines⟩ := ih hl.2 { out with
      lines := out.lines ++ (logs e.1).take (last e.1), keys := out.keys.insert e.1 key }
    refine ⟨out', ?_, hgaps, ?_⟩
    · rw [foldlM_cons, bind_eq_ok]
      exact ⟨_, hone, hfold⟩
    · rw [hlines, flatMap_cons, append_assoc]

/-! ## The whole store -/

def isOf (c : Codec) (m line : String) : Bool := (c.body line).any (·.machine == m)

theorem SignedLog.isOf_iff {m' : String} (hlog : SignedLog c project m log) (hline : line ∈ log) :
    isOf c m' line = true ↔ m' = m := by
  obtain ⟨i, hi, rfl⟩ := getElem_of_mem hline
  obtain ⟨r, hr, rfl, -⟩ := hlog.read i _ (getElem?_eq_getElem hi)
  rw [isOf, hr, Option.any_some, beq_iff_eq]
  exact eq_comm

/-- The lines of one machine among those of different machines. -/
theorem filter_flatMap (hlogs : ∀ m, SignedLog c project m (logs m)) {l : List String}
    (hl : l.Nodup) (m : String) :
    (l.flatMap fun m => (logs m).take (last m)).filter (isOf c m) = if m ∈ l then (logs m).take
      (last m) else [] := by
  induction l with
  | nil => rfl
  | cons m' l ih =>
    rw [nodup_cons] at hl
    rw [flatMap_cons, filter_append, ih hl.2]
    by_cases hm : m = m'
    · subst hm
      have hall : ((logs m).take (last m)).filter (isOf c m) = (logs m).take (last m) :=
        filter_eq_self.2 fun line hline => ((hlogs m).isOf_iff (mem_of_mem_take hline)).2 rfl
      rw [hall, if_neg hl.1, if_pos mem_cons_self, append_nil]
    · have hnil : ((logs m').take (last m')).filter (isOf c m) = [] :=
        filter_eq_nil_iff.2 fun line hline hof =>
          hm (((hlogs m').isOf_iff (mem_of_mem_take hline)).1 hof)
      simp [hnil, hm]

/-- Lines that all parse are read as rows of these lines. -/
theorem exists_readRows {ls : List String} (h : ∀ line ∈ ls, ∃ r, c.body line = some r) :
    ∃ rows, readRows c ls = .ok rows ∧ rows.map (·.raw) = ls := by
  have hex : ∃ rows, readRows c ls = .ok rows := exists_mapM_eq_ok.2 fun line hline => by
    obtain ⟨r, hr⟩ := h line hline
    exact ⟨⟨r, line⟩, bind_eq_ok.2 ⟨r, Codec.parse_eq_ok.2 ⟨hr, by simp⟩, rfl⟩⟩
  exact hex.imp fun _ hrows => ⟨hrows, (readRows_eq_ok hrows).1⟩

section

variable (h : Inv c ks project w)
include h

/-- The merged lines of a store are the prefixes that its segments reach. -/
theorem Inv.isPrefix (hreads : Reads w.logs (Covered w.objects) machines)
    {entry : String × BySeq} (hmem : entry ∈ machines.toList) :
    0 < reach w.objects entry.1 ∧ IsPrefix entry.2 (w.logs entry.1) (reach w.objects entry.1) := by
  have hget := mem_toList_iff_getElem?_eq_some.1 hmem
  have hlook : ∀ (k : ℕ) (line : String), entry.2[k]? = some line ↔
      Covered w.objects entry.1 k ∧ 0 < k ∧ (w.logs entry.1)[k - 1]? = some line := fun k line => by
    rw [← hreads.look, look, hget, Option.bind_some]
  constructor
  · obtain ⟨k, line, hline⟩ := hreads.nonempty entry.1 entry.2 hget
    obtain ⟨hcovered, hk, -⟩ := (hlook k line).1 hline
    exact Nat.lt_of_lt_of_le hk (le_reach hcovered)
  · intro k line
    rw [hlook]
    constructor
    · rintro ⟨hcovered, hk, hline⟩
      exact ⟨hk, le_reach hcovered, hline⟩
    · rintro ⟨hk, hle, hline⟩
      exact ⟨(h.covered_iff hk).2 hle, hk, hline⟩

theorem Inv.reach_eq_zero (hreads : Reads w.logs (Covered w.objects) machines)
    (hm : machines[m]? = none) : reach w.objects m = 0 := by
  by_contra hne
  have hpos : 0 < reach w.objects m := Nat.pos_of_ne_zero hne
  have hle := h.reach_le m
  have hget : (w.logs m)[1 - 1]? = some (w.logs m)[0] := getElem?_eq_getElem (by omega)
  have hlook := (hreads.look m 1 _).2 ⟨(h.covered_iff Nat.one_pos).2 hpos, Nat.one_pos, hget⟩
  rw [look, hm] at hlook
  cases hlook

theorem Inv.exists_reads :
    ∃ machines overlaps, (listPrefix w.objects "records/").foldlM
      (readSegment c ks project) (∅, 0) =
      .ok (machines, overlaps) ∧ Reads w.logs (Covered w.objects) machines := by
  have hempty : Reads w.logs (fun _ _ => False) ∅ := by
    refine ⟨fun m k line => ?_, fun m bySeq hbySeq => ?_⟩
    · rw [look, getElem?_empty]
      simp
    · rw [getElem?_empty] at hbySeq
      cases hbySeq
  have hok : ∀ object ∈ listPrefix w.objects "records/", SegmentOk ks w.logs object.1 object.2 :=
      fun object hmem =>
    h.segments object.1 object.2 (getElem?_of_mem_listPrefix hmem).1
      (getElem?_of_mem_listPrefix hmem).2
  obtain ⟨⟨machines, overlaps⟩, hsegments, hreads⟩ := hempty.readSegments h.logs 0 hok
  refine ⟨machines, overlaps, hsegments, hreads.congr fun m k => ?_⟩
  rw [false_or]
  constructor
  · rintro ⟨object, hmem, first, last, hparse, hk⟩
    exact ⟨object.1, first, last, mem_iff_exists.2 ⟨_, (getElem?_of_mem_listPrefix hmem).1⟩,
      hparse, hk⟩
  · rintro ⟨key, first, last, hmem, hparse, hk⟩
    have hget := Std.ExtTreeMap.getElem?_eq_some_getElem hmem
    refine ⟨(key, _), mem_filter.2 ⟨mem_toList_iff_getElem?_eq_some.2 hget, ?_⟩, first, last,
      hparse, hk⟩
    exact startsWith_of_parseSegmentName hparse

/-- Reading the store succeeds, finds no gap, and gives the prefix of each log that the segments
reach. -/
theorem Inv.exists_records : ∃ out, records c ks project w.objects = .ok out ∧ out.gaps = [] ∧
      (∀ m, (out.lines.filter (isOf c m)).Perm ((w.logs m).take (reach w.objects m))) ∧
      ∀ line ∈ out.lines, ∃ m, isOf c m line = true := by
  obtain ⟨machines, overlaps, hsegments, hreads⟩ := h.exists_reads
  obtain ⟨out, hmachines, hgaps, hlines⟩ := readMachines_eq_ok h.logs h.reach_le
    (fun _ hmem => h.isPrefix hreads hmem) { overlaps }
  rw [nil_append] at hlines
  have hof : ∀ line ∈ out.lines, ∃ m, line ∈ w.logs m := fun line hline => by
    rw [hlines] at hline
    obtain ⟨entry, -, hmem⟩ := mem_flatMap.1 hline
    exact ⟨entry.1, mem_of_mem_take hmem⟩
  have hread : ∀ line ∈ out.lines, ∃ r, c.body line = some r := fun line hline => by
    obtain ⟨m, hmem⟩ := hof line hline
    obtain ⟨i, hi, rfl⟩ := getElem_of_mem hmem
    obtain ⟨r, hr, -⟩ := (h.logs m).read i _ (getElem?_eq_getElem hi)
    exact ⟨r, hr⟩
  obtain ⟨rows, hrows, hraw⟩ := exists_readRows hread
  -- The order of the lines is that of their time; each machine's are the same ones.
  have hperm : ((rows.insertionSort (Db.applyLe · ·)).map (·.raw)).Perm out.lines := by
    rw [← hraw]
    exact (perm_insertionSort _ rows).map _
  refine ⟨{ out with lines := (rows.insertionSort (Db.applyLe · ·)).map (·.raw) }, ?_, hgaps,
    fun m => ?_, fun line hline => ?_⟩
  · simp only [records, recordsWithLocal, bind_eq_ok, pure_eq_ok]
    exact ⟨(machines, overlaps), hsegments, machines, rfl, out, hmachines, rows, hrows, rfl⟩
  · have hfilter : out.lines.filter (isOf c m) = (w.logs m).take (reach w.objects m) := by
      have hflat : out.lines = (machines.toList.map (·.1)).flatMap fun m =>
          (w.logs m).take (reach w.objects m) := by
        rw [hlines, flatMap_map]
      rw [hflat, filter_flatMap h.logs (Tables.nodup_keys machines)]
      split
      · rfl
      next hnot =>
      have hnone : machines[m]? = none := by
        rw [eq_none_iff_forall_ne_some]
        intro bySeq hget
        exact hnot (mem_map.2 ⟨(m, bySeq), mem_toList_iff_getElem?_eq_some.2 hget, rfl⟩)
      rw [h.reach_eq_zero hreads hnone, take_zero]
    rw [← hfilter]
    exact hperm.filter _
  · obtain ⟨m, hmem⟩ := hof line (hperm.mem_iff.1 hline)
    exact ⟨m, ((h.logs m).isOf_iff hmem).2 rfl⟩

end

/-- Whatever pushes ran, each object of the records decodes to consecutive records of one machine,
and reading the store gives the prefix of each log that the segments reach. -/
theorem records_of_run (h : Start c project w) {events : List Event}
    (hfits : Along (World.step c ks) (Fits c project) w events) :
    let w' := events.foldl (World.step c ks) w
    (∀ (key : String) (blob : B), w'.objects[key]? = some blob → startsWith key "records/" = true →
      ∃ (m : String) (first last : ℕ) (body : String),
        parseSegmentName key = some (m, first, last) ∧
        ks.decrypt blob = .ok body ∧ (lines body).length = last + 1 - first ∧
        ∀ (i : ℕ) (line : String), (lines body)[i]? = some line →
          ∃ r, c.parse line none = .ok r ∧ r.machine = m ∧ r.seq = first + i) ∧
    ∃ out, records c ks project w'.objects = .ok out ∧ out.gaps = [] ∧
      (∀ m, reach w'.objects m ≤ (w'.logs m).length ∧
        (out.lines.filter (isOf c m)).Perm ((w'.logs m).take (reach w'.objects m))) ∧
      ∀ line ∈ out.lines, ∃ m, isOf c m line = true := by
  intro w'
  have hinv : Inv c ks project w' := run_inv h hfits
  constructor
  · intro key blob hblob hstart
    obtain ⟨m, first, last, hparse, hfirst, hle, hlast, htext⟩ :=
      hinv.segments key blob hblob hstart
    refine ⟨m, first, last, _, hparse, htext, ?_, fun i line hline => ?_⟩
    · rw [lines_slice (hinv.logs m) hlast hfirst hle, slice, length_drop, length_take]
      omega
    · rw [lines_slice (hinv.logs m) hlast hfirst hle, slice, getElem?_drop, getElem?_take] at hline
      split at hline
      · obtain ⟨r, hbody, hm, hseq, -⟩ := (hinv.logs m).read _ _ hline
        exact ⟨r, Codec.parse_eq_ok.2 ⟨hbody, by simp⟩, hm, by omega⟩
      · cases hline
  · obtain ⟨out, hout, hgaps, hlines, hof⟩ := hinv.exists_records
    exact ⟨out, hout, hgaps, fun m => ⟨hinv.reach_le m, hlines m⟩, hof⟩

end

/-! ### Two writers -/

namespace TwoWriters

def ada : String := "01a12290-0000-7000-8000-00000000000a"

def ben : String := "01a12290-0000-7000-8000-00000000000b"

def row (machine : String) (seq : ℕ) (raw op : String) : Row where
  record :=
    { id := "01a12290-0000-7000-8000-000000000001", machine, seq, time := 1, op
      data := .obj [("name", .str "a"), ("public_key", .str "k")] }
  raw := raw

def rows : List Row :=
  [row ada 1 "a1" "machine", row ada 2 "a2" "rename", row ben 1 "b1" "machine"]

def codec : Codec :=
  { Codec.silent with
    body := fun line => (rows.find? (·.raw == line)).map (·.record)
    verifies := fun _ _ => true
    decodeKey := fun _ => some ()
    keyText := fun _ => "k" }

def plainKeys : Keys String := ⟨fun _ body => body, .ok, fun _ _ => rfl⟩

def logs (m : String) : List String :=
  if m = ada then ["a1", "a2"] else if m = ben then ["b1"] else []

def world : World String := ⟨logs, ∅, []⟩

/-- One writer holds a record of one machine, the other holds all. Both list the empty store before
they publish, the second push stops before it comes to the second machine, and its next one goes on
from there. -/
def pushed : List Event :=
  [.start false { records := rows.take 1 }, .start false { records := rows }, .list 0, .list 1,
    .publish 1 0, .publish 0 1, .stop 1, .start false { records := rows }, .list 1, .list 1,
    .publish 1 2]

theorem signedLog (m : String) : SignedLog codec "" m (logs m) := by
  have hvalid : ∀ row ∈ rows, validate codec row.record = .ok () := by decide +kernel
  simp only [rows, forall_mem_cons] at hvalid
  have hplain : ∀ line ∈ ["a1", "a2", "b1"], '\n' ∉ line.toList ∧
      line.toList.getLast? ≠ some '\r' := by decide
  rw [logs]
  split_ifs with ha hb
  · subst ha
    refine ⟨fun i line hline => ?_, fun line hline => ?_, fun line hline => hplain line ?_,
      by decide⟩
    · rcases i with _ | _ | i <;> cases hline <;>
        exact ⟨_, rfl, rfl, rfl, rfl, by simp [hvalid]⟩
    · cases hline
      exact ⟨_, (), rfl, rfl, rfl, fun _ _ => rfl⟩
    · exact mem_append_left ["b1"] hline
  · subst hb
    refine ⟨fun i line hline => ?_, fun line hline => ?_, fun line hline => hplain line ?_,
      by decide⟩
    · rcases i with _ | i <;> cases hline
      exact ⟨_, rfl, rfl, rfl, rfl, hvalid.2.2.1⟩
    · cases hline
      exact ⟨_, (), rfl, rfl, rfl, fun _ _ => rfl⟩
    · exact mem_append_right ["a1", "a2"] hline
  · exact ⟨fun _ _ => nofun, fun _ => nofun, fun _ => nofun, by decide⟩

theorem holds {n : ℕ} (hn : n = 1 ∨ n = 3) : Holds logs { records := rows.take n } := by
  intro m
  rw [logs]
  split_ifs with ha hb
  · subst ha
    rcases hn with rfl | rfl
    · refine ⟨1, by decide, fun k => ?_⟩
      rcases k with _ | k
      · decide +kernel
      · simp [Db.linesAfter, rows, row]
    · refine ⟨2, by decide, fun k => ?_⟩
      rcases k with _ | _ | k
      · decide +kernel
      · decide +kernel
      · simp [Db.linesAfter, rows, row]
  · subst hb
    rcases hn with rfl | rfl
    · exact ⟨0, by decide, fun k => by simp [Db.linesAfter, rows, row, Ne.symm ha]⟩
    · refine ⟨1, by decide, fun k => ?_⟩
      rcases k with _ | k
      · decide +kernel
      · simp [Db.linesAfter, rows, row, Ne.symm ha]
  · refine ⟨0, by decide, fun k => ?_⟩
    rcases hn with rfl | rfl <;> simp [Db.linesAfter, rows, row, Ne.symm ha, Ne.symm hb]

theorem start : Start codec "" world :=
  ⟨signedLog, fun _ hkey => absurd hkey not_mem_empty, rfl⟩

theorem records_of_run_twoWriters :
    Start codec "" world ∧ Along (World.step codec plainKeys) (Fits codec "") world pushed ∧
      (pushed.foldl (World.step codec plainKeys) world).objects.keys =
        [segmentName ada 1 1, segmentName ada 1 2, segmentName ben 1 1] ∧
      ∃ out, records codec plainKeys "" (pushed.foldl (World.step codec plainKeys) world).objects =
        .ok out ∧ out.gaps = [] := by
  have hfits : Along (World.step codec plainKeys) (Fits codec "") world pushed :=
    ⟨holds (.inl rfl), holds (.inr rfl), trivial, trivial, trivial, trivial, trivial,
      holds (.inr rfl), trivial, trivial, trivial, trivial⟩
  obtain ⟨-, out, hout, hgaps, -⟩ := records_of_run start hfits
  exact ⟨start, hfits, by decide +kernel, out, hout, hgaps⟩

end TwoWriters

end Layr.Segments
