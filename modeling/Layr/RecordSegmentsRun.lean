import Layr.Lib.Runs
import Layr.RecordSegments
import Layr.ValidRecord

/-!
# Pushes of record segments

Whatever pushes take turns, the segments of a machine in the store are slices of its log, and they
leave no number out: a push starts after a number up to which the store had everything when it
listed, and the store only grows.
-/

namespace Layr

open Tables TextLines List

/-! ## Names -/

variable {machine : String}

namespace Format

theorem dash_notMem_padded (w n : ℕ) : '-' ∉ (padded w n).toList := fun hmem =>
  absurd (isDigit_of_mem_padded hmem) (by decide)

theorem parseSequence_padded {n : ℕ} (hn : n < 2 ^ 64) : parseSequence (padded 20 n) = some n := by
  have hlen : (padded 20 n).toList.length = 20 := length_padded (by decide) (by omega)
  have hall : (padded 20 n).toList.all Char.isDigit = true :=
    all_eq_true.2 fun _ => isDigit_of_mem_padded
  simp only [parseSequence, hlen, hall, ofDigitChars_padded, guard, hn, beq_self_eq_true,
    Bool.and_self, if_true]
  rfl

/-- The name of a segment says its machine and its numbers. -/
theorem parseSegmentName_segmentName {first last : ℕ} (hm : isUuid machine = true)
    (hfirst : 0 < first) (hle : first ≤ last) (hlast : last < 2 ^ 64) :
    parseSegmentName (segmentName machine first last) = some (machine, first, last) := by
  have hname : segmentName machine first last = "records/" ++ (machine ++ String.singleton '/' ++
      (padded 20 first ++ String.singleton '-' ++ padded 20 last ++ ".age")) := by
    simp only [segmentName, String.append_assoc]
    rfl
  simp only [parseSegmentName, hname, stripPrefix_append, Option.bind_eq_bind, Option.bind_some,
    splitOnce_append _ (slash_notMem_of_isUuid hm), stripSuffix_append,
      splitOnce_append _ (dash_notMem_padded _ _), hm,
    parseSequence_padded hlast, parseSequence_padded (Nat.lt_of_le_of_lt hle hlast), guard, hfirst,
      hle, and_self, if_true]
  rfl

end Format

namespace Segments

open Format Runs

variable {B : Type} {c : Codec} {ks : Keys B} {project : String} {objects : BTreeMap B}
  {w w' : World B} {m : String} {log : List String} {first last k : ℕ}

/-! ## Logs -/

/-- The signed log of a machine: its records from the first on, which has its key. `sign_line`
writes a record on one line, and the sequence number of a stored record is an `i64`. -/
structure SignedLog (c : Codec) (project m : String) (log : List String) : Prop where
  read : ∀ (i : ℕ) (line : String), log[i]? = some line → ∃ r, c.body line = some r ∧
    r.machine = m ∧ r.seq = i + 1 ∧
    r.project = project ∧ validate c r = .ok ()
  key : ∀ line, log[0]? = some line → ∃ r key, c.body line = some r ∧ r.op = "machine" ∧
    machineKey c r = .ok key ∧
    ∀ l ∈ log, c.verifies key l = true
  plain : ∀ line ∈ log, Plain line
  short : log.length < 2 ^ 63

theorem SignedLog.isUuid (h : SignedLog c project m log) (hne : log ≠ []) : isUuid m = true := by
  obtain ⟨line, hline⟩ := exists_mem_of_ne_nil log hne
  obtain ⟨i, hi, hget⟩ := getElem_of_mem hline
  obtain ⟨r, -, rfl, -, -, hvalid⟩ := h.read i line (by rw [getElem?_eq_getElem hi, hget])
  exact (validRecord_of_validate hvalid).machine

/-- The records of a log from one number to another. -/
def slice (log : List String) (first last : ℕ) : List String := (log.take last).drop (first - 1)

/-! ## What the store holds -/

/-- A segment of the store has the number of the machine. -/
def Covered (objects : BTreeMap B) (m : String) (k : ℕ) : Prop :=
  ∃ (key : String) (first last : ℕ), key ∈ objects ∧ parseSegmentName key = some (m, first, last) ∧
    first ≤ k ∧ k ≤ last

def SegmentOk (ks : Keys B) (logs : String → List String) (key : String) (blob : B) : Prop :=
  ∃ (m : String) (first last : ℕ), parseSegmentName key = some (m, first, last) ∧ 0 < first ∧
    first ≤ last ∧
    last ≤ (logs m).length ∧ ks.decrypt blob = .ok (text (slice (logs m) first last))

/-- The records of a writer are a prefix of each machine's log. -/
def Holds (logs : String → List String) (db : Db) : Prop :=
  ∀ m, ∃ n ≤ (logs m).length, ∀ k, db.linesAfter m k = ((logs m).take n).drop k

/-- A push has records of its machine from a number on, before which the store has all. -/
structure PushOk (logs : String → List String) (objects : BTreeMap B) (push : Push) : Prop where
  holds : Holds logs push.db
  lines : ∃ a b, b ≤ (logs push.machine).length ∧ push.lines = ((logs push.machine).take b).drop a ∧
    ∀ k, 0 < k → k ≤ a → Covered objects push.machine k

structure Inv (c : Codec) (ks : Keys B) (project : String) (w : World B) : Prop where
  logs : ∀ m, SignedLog c project m (w.logs m)
  segments : ∀ (key : String) (blob : B), w.objects[key]? = some blob →
    startsWith key "records/" = true →
    SegmentOk ks w.logs key blob
  /-- The numbers of a machine in the store have no gap. -/
  down : ∀ (m : String) (j k : ℕ), 0 < j → j ≤ k → Covered w.objects m k → Covered w.objects m j
  pushes : ∀ push ∈ w.pushes, PushOk w.logs w.objects push

theorem startsWith_of_parseSegmentName {key : String}
    (h : parseSegmentName key = some (m, first, last)) :
    startsWith key "records/" = true := by
  unfold parseSegmentName at h
  by_contra hstart
  rw [stripPrefix, if_neg hstart] at h
  cases h

theorem getElem?_of_mem_listPrefix {start : String} {object : String × B}
    (h : object ∈ listPrefix objects start) :
    objects[object.1]? = some object.2 ∧ startsWith object.1 start = true := by
  obtain ⟨hmem, hstart⟩ := mem_filter.1 h
  exact ⟨mem_toList_iff_getElem?_eq_some.1 hmem, hstart⟩

theorem Inv.segment (h : Inv c ks project w) {key : String} (hmem : key ∈ w.objects)
    (hparse : parseSegmentName key = some (m, first, last)) :
    first ≤ last ∧ last ≤ (w.logs m).length := by
  obtain ⟨blob, hblob⟩ := Maps.mem_iff_exists.1 hmem
  obtain ⟨_, _, _, hparse', -, hle, hlast, -⟩ :=
    h.segments key blob hblob (startsWith_of_parseSegmentName hparse)
  cases hparse.symm.trans hparse'
  exact ⟨hle, hlast⟩

/-- A covered number is one of the log. -/
theorem Inv.le_length (h : Inv c ks project w) (hk : Covered w.objects m k) :
    k ≤ (w.logs m).length := by
  obtain ⟨key, first, last, hmem, hparse, -, hle⟩ := hk
  exact hle.trans (h.segment hmem hparse).2

/-! ## Events keep it -/

theorem Inv.endPush (h : Inv c ks project w) (i : ℕ) : Inv c ks project (w.endPush i) :=
  { h with pushes := fun push hmem => h.pushes push (mem_of_mem_eraseIdx hmem) }

theorem Inv.sign (h : Inv c ks project w) {line : String}
    (hline : SignedLog c project m (w.logs m ++ [line])) :
    Inv c ks project (w.step c ks (.sign m line)) := by
  -- A log grows at its end, so what is a slice of it stays one.
  have hlog : ∀ m', ∃ more, (w.step c ks (.sign m line)).logs m' = w.logs m' ++ more := fun m' => by
    by_cases hm : m' = m
    · exact ⟨[line], by simp [World.step, hm]⟩
    · exact ⟨[], by simp [World.step, hm]⟩
  have htake : ∀ m' n, n ≤ (w.logs m').length → n ≤ ((w.step c ks (.sign m line)).logs m').length ∧
      ((w.step c ks (.sign m line)).logs m').take n = (w.logs m').take n := by
    intro m' n hn
    obtain ⟨more, hmore⟩ := hlog m'
    rw [hmore, take_append_of_le_length hn, length_append]
    exact ⟨by omega, rfl⟩
  constructor
  · intro m'
    by_cases hm : m' = m
    · subst hm
      simpa [World.step] using hline
    · simpa [World.step, hm] using h.logs m'
  · intro key blob hblob hstart
    obtain ⟨m', first, last, hparse, hfirst, hle, hlast, htext⟩ := h.segments key blob hblob hstart
    refine ⟨m', first, last, hparse, hfirst, hle, (htake m' last hlast).1, ?_⟩
    rw [htext, slice, slice, (htake m' last hlast).2]
  · exact h.down
  · intro push hmem
    obtain ⟨hholds, a, b, hb, hlines, hcovered⟩ := h.pushes push hmem
    refine ⟨fun m' => ?_, a, b, (htake _ b hb).1, ?_, hcovered⟩
    · obtain ⟨n, hn, hafter⟩ := hholds m'
      exact ⟨n, (htake m' n hn).1, fun k => by rw [hafter, (htake m' n hn).2]⟩
    · rw [hlines, (htake _ b hb).2]

theorem Inv.start (h : Inv c ks project w) {blindLayer : Bool} {db : Db} (hdb : Holds w.logs db) :
    Inv c ks project (w.step c ks (.start blindLayer db)) := by
  rw [World.step]
  split
  · next push hpush =>
    simp only [beginPush, bind_eq_ok, pure_eq_ok] at hpush
    obtain ⟨_, -, rfl⟩ := hpush
    refine { h with pushes := fun push' hmem => ?_ }
    rcases mem_append.1 hmem with hold | hnew
    · exact h.pushes push' hold
    · obtain rfl := mem_singleton.1 hnew
      exact ⟨hdb, 0, 0, Nat.zero_le _, by simp, fun k hk hle => absurd hk (by omega)⟩
  · exact h

/-- The last number that a writer finds is zero or the end of a segment. -/
theorem lastPublished_eq_ok (h : lastPublished objects m = .ok last) :
    last = 0 ∨ ∃ (key : String) (first : ℕ), key ∈ objects ∧
      parseSegmentName key = some (m, first, last) := by
  refine foldlM_keeps (P := fun last : ℕ => last = 0 ∨ ∃ (key : String) (first : ℕ), key ∈ objects ∧
    parseSegmentName key = some (m, first, last)) ?_ (.inl rfl) h
  intro object hmem last last' hlast hstep
  simp only [bind_eq_ok, context_eq_ok, ensure_eq_ok, beq_iff_eq, pure_eq_ok, exists_const] at hstep
  obtain ⟨⟨m', first, stop⟩, hparse, rfl, rfl⟩ := hstep
  rcases Nat.le_total last stop with hle | hle
  · rw [Nat.max_eq_right hle]
    exact .inr
      ⟨object.1, first, Maps.mem_iff_exists.2 ⟨_, (getElem?_of_mem_listPrefix hmem).1⟩, hparse⟩
  · rw [Nat.max_eq_left hle]
    exact hlast

variable {objects' : BTreeMap B}

theorem Covered.mono (hsub : ∀ key, key ∈ objects → key ∈ objects') (h : Covered objects m k) :
    Covered objects' m k := by
  obtain ⟨key, first, last, hmem, hrest⟩ := h
  exact ⟨key, first, last, hsub key hmem, hrest⟩

variable {push : Push}

theorem PushOk.mono {logs : String → List String}
    (hsub : ∀ key, key ∈ objects → key ∈ objects') (h : PushOk logs objects push) :
    PushOk logs objects' push := by
  obtain ⟨hholds, a, b, hb, hlines, hcovered⟩ := h
  exact ⟨hholds, a, b, hb, hlines, fun k hk hle => (hcovered k hk hle).mono hsub⟩

variable {push' : Push}

theorem PushOk.nextMachine (h : Inv c ks project w) {rest : List String}
    (hpush : PushOk w.logs w.objects push)
    (hnext : Segments.nextMachine w.objects push machine rest = .ok push') :
    PushOk w.logs w.objects push' := by
  simp only [Segments.nextMachine, bind_eq_ok, pure_eq_ok] at hnext
  obtain ⟨last, hlast, rfl⟩ := hnext
  obtain ⟨n, hn, hafter⟩ := hpush.holds machine
  refine ⟨hpush.holds, last, n, hn, hafter last, fun k hk hle => ?_⟩
  unfold publishAfter at hlast
  split at hlast
  · cases hlast
    omega
  rcases lastPublished_eq_ok hlast with rfl | ⟨key, first, hmem, hparse⟩
  · omega
  · exact h.down machine k last hk hle
      ⟨key, first, last, hmem, hparse, (h.segment hmem hparse).1, Nat.le_refl _⟩

theorem joining_le (size : ℕ) (lines : List String) : joining size lines ≤ lines.length := by
  induction lines generalizing size with
  | nil => exact Nat.le_refl _
  | cons line lines ih =>
    rw [joining]
    split
    · exact Nat.succ_le_succ (ih _)
    · exact Nat.zero_le _

/-- A segment has a line and only lines that there are. -/
theorem segmentLength_bounds {lines : List String} (hne : lines ≠ []) :
    0 < segmentLength lines ∧ segmentLength lines ≤ lines.length := by
  cases lines with
  | nil => exact absurd rfl hne
  | cons line lines => exact ⟨Nat.succ_pos _, Nat.succ_le_succ (joining_le _ _)⟩

/-- What a push publishes: the next numbers of its machine under their name. -/
theorem publish_eq_ok (hlog : SignedLog c project m log) {nonce a b : ℕ}
    (hm : push.machine = m) (hb : b ≤ log.length) (hlines : push.lines = (log.take b).drop a)
    (hne : push.lines ≠ []) (h : publish c ks objects push nonce = .ok (objects', push')) :
    ∃ stop, a < stop ∧ stop ≤ b ∧
    objects' = objects.insertIfNew (segmentName m (a + 1) stop)
      (ks.encrypt nonce (text (slice log (a + 1) stop))) ∧
    push' = { push with lines := (log.take b).drop stop } := by
  have hlen : push.lines.length = b - a := by
    rw [hlines, length_drop, length_take, Nat.min_eq_left hb]
  obtain ⟨hpos, hle⟩ := segmentLength_bounds hne
  simp only [publish, bind_eq_ok, context_eq_ok, pure_eq_ok, Codec.parse_eq_ok] at h
  obtain ⟨line, hhead, r, ⟨hr, -⟩, line', hlast, r', ⟨hr', -⟩, h⟩ := h
  generalize segmentLength push.lines = n at *
  -- The lines of the segment are those after `a`.
  have hsegment : push.lines.take n = slice log (a + 1) (a + n) := by
    rw [hlines, slice, Nat.add_sub_cancel, drop_take, drop_take, Nat.add_sub_cancel_left, take_take,
      Nat.min_eq_left (by omega)]
  have hseq : ∀ {i : ℕ} {line : String} {r : Record}, (slice log (a + 1) (a + n))[i]? = some line →
      c.body line = some r → r.seq = a + i + 1 := by
    intro i line r hline hbody
    rw [slice, Nat.add_sub_cancel, getElem?_drop, getElem?_take] at hline
    split at hline
    · obtain ⟨r₁, hbody₁, -, hseq₁, -⟩ := hlog.read _ _ hline
      rw [hbody] at hbody₁
      rw [some.inj hbody₁, hseq₁]
    · cases hline
  have hlength : (slice log (a + 1) (a + n)).length = n := by
    rw [← hsegment, length_take, Nat.min_eq_left hle]
  rw [hsegment] at h hhead hlast
  rw [head?_eq_getElem?] at hhead
  rw [getLast?_eq_getElem?, hlength] at hlast
  have hlastSeq := hseq hlast hr'
  refine ⟨a + n, by omega, by omega, ?_, ?_⟩
  · rw [← (Prod.mk.inj h).1, hm, hseq hhead hr, hlastSeq]
    congr 2
    omega
  · rw [← (Prod.mk.inj h).2, hlines, drop_drop]

/-- The segment goes on where the store ends, so the numbers of its machine have no gap. -/
theorem Inv.publish (h : Inv c ks project w) {objects : BTreeMap B} {i nonce : ℕ}
    (hpush : push ∈ w.pushes) (hne : push.lines ≠ [])
    (hpublish : Segments.publish c ks w.objects push nonce = .ok (objects, push')) :
    Inv c ks project { w with objects := objects, pushes := w.pushes.set i push' } := by
  obtain ⟨hholds, a, b, hb, hlines, hcovered⟩ := h.pushes push hpush
  have hlog := h.logs push.machine
  obtain ⟨stop, hstart, hstop, rfl, rfl⟩ := publish_eq_ok hlog rfl hb hlines hne hpublish
  have hparse : parseSegmentName (segmentName push.machine (a + 1) stop) =
      some (push.machine, a + 1, stop) := by
    have hshort := hlog.short
    refine parseSegmentName_segmentName (hlog.isUuid ?_) (Nat.succ_pos _) hstart (by omega)
    rintro hnil
    rw [hnil, length_nil] at hb
    omega
  have hsub : ∀ key, key ∈ w.objects →
    key ∈ w.objects.insertIfNew (segmentName push.machine (a + 1) stop)
      (ks.encrypt nonce (text (slice (w.logs push.machine) (a + 1) stop))) := fun key hkey =>
    mem_insertIfNew.2 (.inr hkey)
  refine ⟨h.logs, fun key blob hblob hrecords => ?_, fun m j k hj hjk hk => ?_, fun p hp => ?_⟩
  · rw [getElem?_insertIfNew] at hblob
    split at hblob
    · next hnew =>
      obtain rfl := Std.LawfulEqCmp.compare_eq_iff_eq.1 hnew.1
      cases hblob
      exact ⟨_, _, _, hparse, Nat.succ_pos _, hstart, hstop.trans hb, ks.decrypt_encrypt _ _⟩
    · exact h.segments key blob hblob hrecords
  · -- What the push adds follows what the store has.
    obtain ⟨key, first, last, hmem, hparse', hfirst, hlast⟩ := hk
    rcases mem_insertIfNew.1 hmem with hkey | hkey
    · obtain rfl := Std.LawfulEqCmp.compare_eq_iff_eq.1 hkey
      cases hparse.symm.trans hparse'
      by_cases hja : j ≤ a
      · exact (hcovered j hj hja).mono hsub
      · exact ⟨_, _, _, hmem, hparse, by omega, by omega⟩
    · exact (h.down m j k hj hjk ⟨key, first, last, hkey, hparse', hfirst, hlast⟩).mono hsub
  · rcases mem_or_eq_of_mem_set hp with hold | rfl
    · exact (h.pushes p hold).mono hsub
    · refine ⟨hholds, stop, b, hb, rfl, fun k hk hle => ?_⟩
      by_cases hka : k ≤ a
      · exact (hcovered k hk hka).mono hsub
      · exact ⟨_, _, _, mem_insertIfNew.2 (.inl (Std.LawfulEqCmp.compare_eq_iff_eq.2 rfl)), hparse,
          by omega, hle⟩

/-- The events of the runs: a machine extends its signed log, and a writer that pushes holds
prefixes of the logs. -/
def Fits (c : Codec) (project : String) (w : World B) : Event → Prop
  | .sign m line => SignedLog c project m (w.logs m ++ [line])
  | .start _ db => Holds w.logs db
  | _ => True

/-- Every event that fits keeps the invariant. -/
theorem Inv.step (h : Inv c ks project w) {event : Event} (hevent : Fits c project w event) :
    Inv c ks project (w.step c ks event) := by
  cases event with
  | sign m line => exact h.sign hevent
  | start blindLayer db => exact h.start hevent
  | list i =>
    rw [World.step]
    split
    · next push hpush =>
      unfold World.list
      split
      · split
        · next machine rest _ _ push' hnext =>
          have hok := PushOk.nextMachine h (h.pushes push (mem_of_getElem? hpush)) hnext
          refine { h with pushes := fun p hp => ?_ }
          rcases mem_or_eq_of_mem_set hp with hold | rfl
          · exact h.pushes p hold
          · exact hok
        · exact h.endPush i
      · exact h
    · exact h
  | publish i nonce =>
    rw [World.step]
    split
    · next push hpush =>
      unfold World.publish
      split
      · exact h
      next hlines =>
      split
      · next objects push' hpublish =>
        exact h.publish (mem_of_getElem? hpush) (by rw [hlines]; simp) hpublish
      · exact h.endPush i
    · exact h
  | stop i => exact h.endPush i

structure Start (c : Codec) (project : String) (w : World B) : Prop where
  logs : ∀ m, SignedLog c project m (w.logs m)
  objects : ∀ key ∈ w.objects, startsWith key "records/" = false
  pushes : w.pushes = []

theorem Start.inv (h : Start c project w) : Inv c ks project w := by
  have hnone : ∀ {m k}, ¬ Covered w.objects m k := by
    rintro m k ⟨key, first, last, hmem, hparse, -⟩
    have hstart := startsWith_of_parseSegmentName hparse
    rw [h.objects key hmem] at hstart
    cases hstart
  refine ⟨h.logs, fun key blob hblob hrecords => ?_, fun m j k _ _ hk => absurd hk hnone,
    fun push hmem => ?_⟩
  · rw [h.objects key (Maps.mem_iff_exists.2 ⟨blob, hblob⟩)] at hrecords
    cases hrecords
  · rw [h.pushes] at hmem
    cases hmem

theorem run_inv (h : Start c project w) {events : List Event}
    (hfits : Along (World.step c ks) (Fits c project) w events) :
    Inv c ks project (events.foldl (World.step c ks) w) :=
  hfits.invariant h.inv fun _ _ h hevent => h.step hevent

end Segments

end Layr
