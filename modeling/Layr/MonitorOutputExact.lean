import Layr.MonitorOutput

/-!
# Output is delivered once and in order

The pieces of an output lie one after the other (`Tiled`), so the bytes that a piece adds to the log
are those of the output (`append_isPrefix`), and the piece that is committed at the offset of the
record is the next one that is not empty (`next_of_offset`). `Inv` says this of a world with the
changes that were made to its record so far. It holds after every step (`inv_step`): the log is a
beginning of the output, the record is what the committed pieces and the changes of other code make
of the first record, and the committed pieces are the first ones of the output, each once and in
order.
-/

namespace Layr.Monitors

open List

variable {Rest : Type}

/-! ## Pieces lie one after the other -/

def total (ps : List Piece) : ℕ := (ps.map (·.bytes.length)).sum

/-- Each piece begins where the one before it ends. -/
def Tiled : ℕ → List Piece → Prop
  | _, [] => True
  | offset, p :: ps => p.offset = offset ∧ Tiled (offset + p.bytes.length) ps

def outputPieces (offset : ℕ) : List Chunk → List Piece
  | [] => []
  | chunk :: chunks => pieces offset chunk ++ outputPieces (offset + chunk.bytes.length) chunks

def outputBytes (output : List Chunk) : List UInt8 := output.flatMap (·.bytes)

abbrev filled (ps : List Piece) : List Piece := ps.filter fun p => p.bytes ≠ []

section
variable {offset : ℕ} {ps qs : List Piece} {p : Piece} {output : List Chunk}

@[simp] theorem total_nil : total [] = 0 := rfl

@[simp] theorem total_cons : total (p :: ps) = p.bytes.length + total ps := by simp [total]

@[simp] theorem total_append : total (ps ++ qs) = total ps + total qs := by simp [total]

theorem total_eq_length : total ps = (ps.flatMap (·.bytes)).length := by simp [total]

theorem tiled_append : Tiled offset (ps ++ qs) ↔ Tiled offset ps ∧
    Tiled (offset + total ps) qs := by
  induction ps generalizing offset with
  | nil => simp [Tiled]
  | cons p ps ih => simp [Tiled, ih, total_cons, and_assoc, Nat.add_assoc]

theorem Tiled.filled (h : Tiled offset ps) : Tiled offset (filled ps) := by
  induction ps generalizing offset with
  | nil => trivial
  | cons p ps ih =>
    obtain ⟨hoffset, hrest⟩ := h
    by_cases hp : p.bytes = []
    · rw [filled, filter_cons_of_neg (by simpa using hp)]
      rw [hp, length_nil] at hrest
      exact ih hrest
    · rw [filled, filter_cons_of_pos (by simpa using hp)]
      exact ⟨hoffset, ih hrest⟩

theorem Tiled.mem (h : Tiled offset ps) (hp : p ∈ ps) :
    offset ≤ p.offset ∧ p.offset + p.bytes.length ≤ offset + total ps := by
  induction ps generalizing offset with
  | nil => cases hp
  | cons q ps ih =>
    obtain ⟨hoffset, hrest⟩ := h
    rw [total_cons]
    rcases mem_cons.1 hp with rfl | hp
    · omega
    · have := ih hrest hp
      omega

theorem Tiled.bytes (h : Tiled offset ps) (hp : p ∈ ps) :
    ((ps.flatMap (·.bytes)).drop (p.offset - offset)).take p.bytes.length = p.bytes := by
  induction ps generalizing offset with
  | nil => cases hp
  | cons q ps ih =>
    obtain ⟨hoffset, hrest⟩ := h
    rw [flatMap_cons]
    rcases mem_cons.1 hp with rfl | hp
    · rw [hoffset, Nat.sub_self, drop_zero, take_left]
    · have hle := (hrest.mem hp).1
      have hsub : p.offset - offset = q.bytes.length + (p.offset - (offset + q.bytes.length)) :=
        by omega
      rw [hsub, drop_length_add_append]
      exact ih hrest hp

theorem cut_tiled (stream : String) (offset : ℕ) (bytes : List UInt8) :
    Tiled offset (cut stream offset bytes) ∧ (cut stream offset bytes).flatMap (·.bytes) =
      bytes := by
  induction offset, bytes using cut.induct with
  | case1 => simp [cut, Tiled]
  | case2 offset bytes hne ih =>
    rw [cut, if_neg hne, flatMap_cons, ih.2, take_append_drop]
    refine ⟨⟨rfl, ?_⟩, rfl⟩
    by_cases hlen : chunkBytes ≤ bytes.length
    · rw [length_take, Nat.min_eq_left hlen]
      exact ih.1
    · have hnil : bytes.drop chunkBytes = [] := drop_eq_nil_of_le (by omega)
      rw [hnil, cut, if_pos rfl]
      trivial

theorem pieces_tiled (offset : ℕ) (chunk : Chunk) :
    Tiled offset (pieces offset chunk) ∧ (pieces offset chunk).flatMap (·.bytes) = chunk.bytes := by
  unfold pieces
  split
  · next hempty => exact ⟨⟨rfl, trivial⟩, by simp [hempty]⟩
  · exact cut_tiled ..

theorem pieces_ne_nil (offset : ℕ) (chunk : Chunk) : pieces offset chunk ≠ [] := by
  unfold pieces
  split
  · exact cons_ne_nil _ _
  · next hne =>
    rw [cut, if_neg hne]
    exact cons_ne_nil _ _

theorem outputPieces_tiled (offset : ℕ) (output : List Chunk) :
    Tiled offset (outputPieces offset output) ∧
      (outputPieces offset output).flatMap (·.bytes) = outputBytes output := by
  induction output generalizing offset with
  | nil => exact ⟨trivial, rfl⟩
  | cons chunk output ih =>
    obtain ⟨htiled, hbytes⟩ := pieces_tiled offset chunk
    have htotal : total (pieces offset chunk) = chunk.bytes.length :=
      by rw [total_eq_length, hbytes]
    refine ⟨tiled_append.2 ⟨htiled, ?_⟩, ?_⟩
    · rw [htotal]
      exact (ih _).1
    · rw [outputPieces, flatMap_append, hbytes, (ih _).2]
      rfl

theorem mem_outputPieces {index : ℕ} {chunk : Chunk} (hchunk : output[index]? = some chunk)
    (hp : p ∈ pieces (offset + offsetOf output index) chunk) : p ∈ outputPieces offset output := by
  induction output generalizing offset index with
  | nil => cases hchunk
  | cons first output ih =>
    cases index with
    | zero =>
      cases hchunk
      exact mem_append_left _ hp
    | succ index =>
      refine mem_append_right _ (ih hchunk ?_)
      rwa [Nat.add_assoc, show first.bytes.length + offsetOf output index =
          offsetOf (first :: output) (index + 1) by simp [offsetOf]]

/-- The piece at the end of some first pieces is the next one. -/
theorem next_of_offset (htiled : Tiled 0 (ps ++ qs)) (hfilled : ∀ q ∈ ps ++ qs, q.bytes ≠ [])
    (hp : p ∈ ps ++ qs) (hoffset : p.offset = total ps) : ∃ rest, qs = p :: rest := by
  obtain ⟨hps, hqs⟩ := tiled_append.1 htiled
  have hpos := length_pos_iff.2 (hfilled p hp)
  rcases mem_append.1 hp with hmem | hmem
  · have := hps.mem hmem
    omega
  cases qs with
  | nil => cases hmem
  | cons q qs =>
    rcases mem_cons.1 hmem with rfl | hmem
    · exact ⟨qs, rfl⟩
    · have hq := length_pos_iff.2 (hfilled q (mem_append_right _ mem_cons_self))
      have := (hqs.2.mem hmem).1
      omega

end

/-! ## The log -/

section
variable {output : List Chunk} {log : List UInt8} {p : Piece}

structure Fits (output : List Chunk) (p : Piece) : Prop where
  le : p.offset + p.bytes.length ≤ (outputBytes output).length
  bytes : ((outputBytes output).drop p.offset).take p.bytes.length = p.bytes

theorem fits_of_mem (hp : p ∈ outputPieces 0 output) : Fits output p := by
  obtain ⟨htiled, hbytes⟩ := outputPieces_tiled 0 output
  have hle := (htiled.mem hp).2
  have hp' := htiled.bytes hp
  rw [total_eq_length, hbytes, Nat.zero_add] at hle
  rw [hbytes, Nat.sub_zero] at hp'
  exact ⟨hle, hp'⟩

def missing (log : List UInt8) (p : Piece) : List UInt8 :=
  p.bytes.drop (min (log.length - p.offset) p.bytes.length)

/-- The missing bytes are those of the output after the log. -/
theorem missing_eq (hfits : Fits output p) (hle : p.offset ≤ log.length) :
    missing log p = ((outputBytes output).drop log.length).take
      (p.offset + p.bytes.length - log.length) := by
  have hdrop : ∀ n, p.bytes.drop n = ((outputBytes output).drop (p.offset + n)).take
      (p.bytes.length - n) := by
    intro n
    rw [← drop_drop, ← drop_take, hfits.bytes]
  rw [missing, hdrop]
  by_cases hlen : log.length ≤ p.offset + p.bytes.length
  · congr 1
    · omega
    · congr 1
      omega
  · have hnone : p.bytes.length - min (log.length - p.offset) p.bytes.length = 0 := by omega
    have hnone' : p.offset + p.bytes.length - log.length = 0 := by omega
    rw [hnone, hnone', take_zero, take_zero]

/-- The missing bytes of a piece go on with the output, as far as they are written. -/
theorem append_isPrefix (hfits : Fits output p) (hlog : log <+: outputBytes output)
    (hle : p.offset ≤ log.length) (n : ℕ) : log ++ (missing log p).take n <+:
        outputBytes output := by
  rw [missing_eq hfits hle, take_take]
  nth_rewrite 1 [prefix_iff_eq_take.1 hlog]
  rw [← take_add]
  exact take_prefix ..

theorem length_append_missing (hle : p.offset ≤ log.length) :
    p.offset + p.bytes.length ≤ (log ++ missing log p).length := by
  rw [missing, length_append, length_drop]
  omega

end

/-! ## Inspecting and committing a piece -/

variable {event : Option (String × OutputEvent)} {actor : Actor}

section
variable {fromUtf8 : List UInt8 → Utf8} {record : MonitorRecord Rest} {log : List UInt8}
  {operation : Operation} {p : Piece}

/-- What `inspect` found out if it wants to write: the piece is the next one of a running monitor.
-/
theorem inspect_write {bytes : List UInt8}
    (h : inspect record log operation p = .ok (.write bytes)) :
    record.status = .running ∧ p.offset = record.bytes ∧ p.offset ≤ log.length ∧
      bytes = missing log p := by
  simp only [inspect, bind_eq_ok, ensure_eq_ok, exists_const] at h
  obtain ⟨-, h⟩ := h
  by_cases hrunning : record.status = .running
  · simp only [hrunning, ne_eq, not_true_eq_false, if_false, bind_eq_ok, ensure_eq_ok, exists_const,
      decide_eq_true_eq] at h
    obtain ⟨hgap, hlog, -, h⟩ := h
    by_cases hlt : p.offset < record.bytes
    · simp only [if_pos hlt, bind_eq_ok, ensure_eq_ok, exists_const, pure_eq_ok, reduceCtorEq,
        and_false] at h
    · rw [if_neg hlt, pure_eq_ok, Inspected.write.injEq] at h
      exact ⟨hrunning, by omega, hlog, h.symm⟩
  · simp [hrunning] at h

/-- A piece that `inspect` takes for a duplicate is below the cursor. -/
theorem inspect_duplicate (h : inspect record log operation p = .ok .duplicate) :
    p.offset + p.bytes.length ≤ record.bytes := by
  simp only [inspect, bind_eq_ok, ensure_eq_ok, exists_const] at h
  obtain ⟨-, h⟩ := h
  by_cases hrunning : record.status = .running
  · simp only [hrunning, ne_eq, not_true_eq_false, if_false, bind_eq_ok, ensure_eq_ok,
      exists_const] at h
    obtain ⟨-, -, -, h⟩ := h
    by_cases hlt : p.offset < record.bytes
    · simp only [if_pos hlt, bind_eq_ok, ensure_eq_ok, exists_const, decide_eq_true_eq] at h
      exact h.1
    · simp [hlt] at h
  · simp [hrunning] at h

/-- A finished monitor ignores every piece of its command. -/
theorem inspect_ignored (hfinished : record.status ≠ .running)
    (hof : ofOperation record operation) :
    inspect record log operation p = .ok .ignored := by
  rw [inspect, hof, if_pos hfinished]
  rfl

/-- A running monitor refuses bytes that differ from those of its log. -/
theorem inspect_refuses (hrunning : record.status = .running) {i : ℕ} (hi : i < p.bytes.length)
    (hlog : p.offset + i < log.length) (hne : p.bytes[i]? ≠ log[p.offset + i]?) :
    ∃ e, inspect record log operation p = .error e := by
  match h : inspect record log operation p with
  | .error e => exact ⟨e, rfl⟩
  | .ok inspected =>
    refine absurd ?_ hne
    simp only [inspect, hrunning, bind_eq_ok, ensure_eq_ok, exists_const, ne_eq, not_true_eq_false,
      if_false, decide_eq_true_eq] at h
    obtain ⟨-, -, -, hsame, -⟩ := h
    have hi' : i < min (log.length - p.offset) p.bytes.length := by omega
    have hget := congrArg (·[i]?) hsame
    simp only [getElem?_take_of_lt hi', getElem?_drop] at hget
    exact hget.symm

/-- A committed piece moves the cursor of a running monitor by its length. -/
theorem outputStream_bytes {stream : String} {chunk : List UInt8} {now : ℚ}
    {record' : MonitorRecord Rest} (hrunning : record.status = .running)
    (h : outputStream fromUtf8 record actor operation stream chunk now = .ok (record', event)) :
    record'.bytes = record.bytes + chunk.length := by
  simp only [outputStream, hrunning, bind_eq_ok, ensure_eq_ok, exists_const, ne_eq,
    not_true_eq_false, if_false] at h
  obtain ⟨-, -, -, appended, -, -, h⟩ := h
  by_cases hempty : chunk = []
  · rw [if_pos hempty, pure_eq_ok] at h
    cases h
    rfl
  · simp only [if_neg hempty, bind_eq_ok, ensure_eq_ok, exists_const, pure_eq_ok] at h
    obtain ⟨-, -, h⟩ := h
    cases h
    rfl

end

/-! ## Runs -/

inductive RecordOp (Rest : Type) where
  | commit (piece : Piece) (operation : Operation) (actor : Actor) (now : ℚ)
  | other (change : MonitorRecord Rest → MonitorRecord Rest)

def applyOp (fromUtf8 : List UInt8 → Utf8) (record : MonitorRecord Rest) : RecordOp Rest →
    Option (MonitorRecord Rest)
  | .commit piece operation actor now =>
    ((outputStream fromUtf8 record actor operation piece.stream piece.bytes now).toOption).map (·.1)
  | .other change => some (change record)

def RecordOp.source : RecordOp Rest → Event Rest
  | .commit _ _ actor now => .commit actor now
  | .other change => .other change

def RecordOp.piece? : RecordOp Rest → Option Piece
  | .commit piece .. => some piece
  | .other _ => none

def RecordOp.change? : RecordOp Rest → Option (MonitorRecord Rest → MonitorRecord Rest)
  | .commit .. => none
  | .other change => some change

def Event.change? : Event Rest → Option (MonitorRecord Rest → MonitorRecord Rest)
  | .other change => some change
  | _ => none

def Stage.Sound (log : List UInt8) (p : Piece) : Stage Rest → Prop
  | .next => True
  | .opened before bytes =>
    before.status = .running ∧ p.offset = before.bytes ∧ p.offset ≤ log.length ∧
      bytes = missing log p
  | .written before =>
    before.status = .running ∧ p.offset = before.bytes ∧ p.offset + p.bytes.length ≤ log.length

def Delivery.Sound (output : List Chunk) (log : List UInt8) (delivery : Delivery Rest) : Prop :=
  ∃ chunk done p rest, output[delivery.index]? = some chunk ∧ delivery.pieces = p :: rest ∧
    done ++ p :: rest = Monitors.pieces (offsetOf output delivery.index) chunk ∧
      delivery.stage.Sound log p

/-- A world, and the changes that were made to its record. -/
structure Inv (fromUtf8 : List UInt8 → Utf8) (output : List Chunk) (start : MonitorRecord Rest)
    (world : World Rest) (ops : List (RecordOp Rest)) : Prop where
  log : world.log <+: outputBytes output
  record : ops.foldlM (applyOp fromUtf8) start = some world.record
  once : filled (ops.filterMap RecordOp.piece?) <+: filled (outputPieces 0 output)
  bytes : world.record.bytes = total (filled (ops.filterMap RecordOp.piece?))
  le : world.record.bytes ≤ world.log.length
  delivery : ∀ delivery, world.delivery = some delivery → delivery.Sound output world.log
  reports : ∀ index, (index, .success) ∈ world.reports →
    offsetOf output (index + 1) ≤ world.record.bytes

section
variable {fromUtf8 : List UInt8 → Utf8} {output : List Chunk} {start : MonitorRecord Rest}
  {world : World Rest} {ops : List (RecordOp Rest)} {delivery : Delivery Rest} {p : Piece}
  {rest : List Piece}

theorem mem_outputPieces_of_eq {index : ℕ} {chunk : Chunk} {done : List Piece}
    (hchunk : output[index]? = some chunk)
        (hpieces : done ++ p :: rest = pieces (offsetOf output index) chunk) :
    p ∈ outputPieces 0 output := by
  refine mem_outputPieces hchunk ?_
  rw [Nat.zero_add, ← hpieces]
  simp

theorem end_of_last {index : ℕ} {chunk : Chunk} {done : List Piece}
    (hchunk : output[index]? = some chunk)
    (hpieces : done ++ [p] = pieces (offsetOf output index) chunk) :
    p.offset + p.bytes.length = offsetOf output (index + 1) := by
  obtain ⟨htiled, hbytes⟩ := pieces_tiled (offsetOf output index) chunk
  rw [← hpieces] at htiled hbytes
  obtain ⟨-, hoffset, -⟩ := tiled_append.1 htiled
  have htotal : total done + p.bytes.length = chunk.bytes.length := by
    rw [← hbytes, ← total_eq_length, total_append, total_cons, total_nil, Nat.add_zero]
  have hnext : offsetOf output (index + 1) = offsetOf output index + chunk.bytes.length := by
    simp [offsetOf, take_add_one, hchunk]
  omega

theorem inv_start (hstart : start.bytes = 0) :
    Inv fromUtf8 output start ⟨start, [], none, []⟩ [] where
  log := nil_prefix
  record := rfl
  once := nil_prefix
  bytes := hstart
  le := hstart.le
  delivery := fun _ hd => nomatch hd
  reports := fun _ hmem => nomatch hmem

section

variable (h : Inv fromUtf8 output start world ops)
include h

theorem Inv.noDelivery : Inv fromUtf8 output start { world with delivery := none } ops :=
  { h with delivery := fun _ hd => nomatch hd }

/-- A delivery reports its outcome. For a success its chunk has to be below the cursor. -/
theorem Inv.report {outcome : Outcome}
    (hsuccess : outcome = .success → offsetOf output (delivery.index + 1) ≤ world.record.bytes) :
    Inv fromUtf8 output start (world.report delivery outcome) ops := by
  refine { h.noDelivery with reports := fun index hmem => ?_ }
  rcases mem_append.1 hmem with hmem | hmem
  · exact h.reports index hmem
  · cases mem_singleton.1 hmem
    exact hsuccess rfl

/-- The first piece of a delivery is done. For a success it has to be below the cursor. -/
theorem Inv.advance {outcome : Outcome} {log : List UInt8} (hd : delivery.Sound output log)
    (hpieces : delivery.pieces = p :: rest)
    (hsuccess : outcome = .success → p.offset + p.bytes.length ≤ world.record.bytes) :
    Inv fromUtf8 output start (world.advance delivery outcome) ops := by
  obtain ⟨chunk, done, q, ps, hchunk, heq, hdone, -⟩ := hd
  obtain ⟨rfl, rfl⟩ := cons.inj (hpieces.symm.trans heq)
  simp only [World.advance, hpieces]
  cases rest with
  | nil =>
    refine h.report fun houtcome => ?_
    rw [← end_of_last hchunk hdone]
    exact hsuccess houtcome
  | cons q rest =>
    refine { h with delivery := fun d hd => ?_ }
    cases hd
    exact ⟨chunk, done ++ [p], q, rest, hchunk, rfl, by rw [append_assoc]; exact hdone, trivial⟩

/-- A piece that is committed is the next one after those that are, as it begins at the cursor. -/
theorem inv_commit {operation : Operation} {now : ℚ} {record : MonitorRecord Rest}
    (hp : p ∈ outputPieces 0 output) (hstage : (Stage.written world.record).Sound world.log p)
    (hok : outputStream fromUtf8 world.record actor operation p.stream p.bytes now =
      .ok (record, event)) :
    Inv fromUtf8 output start { world with record := record }
      (ops ++ [RecordOp.commit p operation actor now]) := by
  obtain ⟨hrunning, hoffset, hlen⟩ := hstage
  have hbytes := outputStream_bytes hrunning hok
  have hrecord : (ops ++ [RecordOp.commit p operation actor now]).foldlM (applyOp fromUtf8) start =
      some record := by
    rw [foldlM_append, h.record]
    simp [applyOp, hok]
  have hle : record.bytes ≤ world.log.length := by omega
  have hreports : ∀ index, (index, .success) ∈ world.reports →
      offsetOf output (index + 1) ≤ record.bytes :=
    fun index hmem => (h.reports index hmem).trans (by omega)
  by_cases hempty : p.bytes = []
  · -- an empty piece leaves the cursor where it is
    have hfilled : filled
      ((ops ++ [RecordOp.commit p operation actor now]).filterMap RecordOp.piece?) =
        filled (ops.filterMap RecordOp.piece?) := by
      simp [filled, RecordOp.piece?, hempty]
    refine ⟨h.log, hrecord, hfilled ▸ h.once, ?_, hle, h.delivery, hreports⟩
    rw [hfilled, ← h.bytes, hbytes, hempty]
    rfl
  · have hfilled : filled
      ((ops ++ [RecordOp.commit p operation actor now]).filterMap RecordOp.piece?) =
        filled (ops.filterMap RecordOp.piece?) ++ [p] := by
      simp [filled, RecordOp.piece?, hempty]
    refine ⟨h.log, hrecord, ?_, ?_, hle, h.delivery, hreports⟩
    · obtain ⟨qs, hqs⟩ := h.once
      have htiled := (outputPieces_tiled 0 output).1.filled
      rw [← hqs] at htiled
      have hall : ∀ q ∈ filled (ops.filterMap RecordOp.piece?) ++ qs, q.bytes ≠ [] := by
        rw [hqs]
        exact fun q hq => by simpa using (mem_filter.1 hq).2
      have hmem : p ∈ filled (ops.filterMap RecordOp.piece?) ++ qs := by
        rw [hqs]
        exact mem_filter.2 ⟨hp, by simpa using hempty⟩
      obtain ⟨rest, rfl⟩ := next_of_offset htiled hall hmem (hoffset.trans h.bytes)
      rw [hfilled, ← hqs]
      exact ⟨rest, by simp⟩
    · rw [hfilled, total_append, ← h.bytes, hbytes]
      simp

/-- A change by other code that keeps the cursor. -/
theorem inv_other {change : MonitorRecord Rest → MonitorRecord Rest}
    (hchange : ∀ record, (change record).bytes = record.bytes) :
    Inv fromUtf8 output start { world with record := change world.record }
      (ops ++ [.other change]) := by
  have hops : (ops ++ [RecordOp.other change]).filterMap RecordOp.piece? =
      ops.filterMap RecordOp.piece? := by
    rw [filterMap_append]
    exact append_nil _
  refine ⟨h.log, ?_, hops ▸ h.once, ?_, ?_, h.delivery, ?_⟩
  · rw [foldlM_append, h.record]
    simp [applyOp]
  · rw [hops, ← h.bytes]
    exact hchange _
  · rw [hchange]
    exact h.le
  · rw [hchange]
    exact h.reports

/-- The log grows by missing bytes of the piece of the delivery. -/
theorem inv_write {p : Piece} {n : ℕ} {delivery : Option (Delivery Rest)}
    (hp : p ∈ outputPieces 0 output) (hle : p.offset ≤ world.log.length)
    (hdelivery : ∀ d, delivery = some d →
      d.Sound output (world.log ++ (missing world.log p).take n)) :
    Inv fromUtf8 output start
      { world with log := world.log ++ (missing world.log p).take n, delivery := delivery } ops :=
  ⟨append_isPrefix (fits_of_mem hp) h.log hle n, h.record, h.once, h.bytes, h.le.trans (by simp),
    hdelivery, h.reports⟩

variable [DecidableEq Rest]

/-- One step keeps the invariant, with at most one more change of the record: that of the event. -/
theorem inv_step {event : Event Rest}
    (hother : ∀ change, event = .other change → ∀ record, (change record).bytes = record.bytes) :
    ∃ op, Inv fromUtf8 output start (world.step fromUtf8 output event) (ops ++ op) ∧
      op.map RecordOp.source <+ [event] ∧ op.filterMap RecordOp.change? = event.change?.toList := by
  have hsame : ∀ {world' : World Rest}, Inv fromUtf8 output start world' ops →
      ∃ op, Inv fromUtf8 output start world' (ops ++ op) ∧ op.map RecordOp.source <+ [event] ∧
        op.filterMap RecordOp.change? = [] :=
    fun h => ⟨[], by rwa [append_nil], nil_sublist _, rfl⟩
  cases event with
  | deliver operation index =>
    refine hsame ?_
    simp only [World.step]
    split
    · next chunk hnone hchunk =>
      refine { h with delivery := fun d hd => ?_ }
      cases hd
      obtain ⟨p, rest, hpieces⟩ :=
        exists_cons_of_ne_nil (pieces_ne_nil (offsetOf output index) chunk)
      exact ⟨chunk, [], p, rest, hchunk, hpieces, hpieces.symm, trivial⟩
    · exact h
  | inspect =>
    refine hsame ?_
    simp only [World.step]
    split
    · next operation index p rest hdelivery =>
      have hd := h.delivery _ hdelivery
      split
      · exact h.report fun houtcome => by cases houtcome
      · next bytes hinspect =>
        obtain ⟨chunk, done, _, _, hchunk, heq, hdone, -⟩ := hd
        cases heq
        refine { h with delivery := fun d hd => ?_ }
        cases hd
        exact ⟨chunk, done, p, rest, hchunk, rfl, hdone, inspect_write hinspect⟩
      · next hinspect => exact h.advance hd rfl fun _ => inspect_duplicate hinspect
      · exact h.advance hd rfl fun houtcome => by cases houtcome
    · exact h
  | write =>
    refine hsame ?_
    simp only [World.step]
    split
    · next operation index ps before bytes hdelivery =>
      obtain ⟨chunk, done, p, rest, hchunk, heq, hdone, hrunning, hoffset, hle, rfl⟩ :=
        h.delivery _ hdelivery
      rw [← take_length (l := missing world.log p)]
      refine inv_write h (mem_outputPieces_of_eq hchunk hdone) hle fun d hd => ?_
      cases hd
      rw [take_length]
      exact ⟨chunk, done, p, rest, hchunk, heq, hdone, hrunning, hoffset, length_append_missing hle⟩
    · exact h
  | commit actor now =>
    simp only [World.step]
    split
    · next operation index p rest before hdelivery =>
      have hd := h.delivery _ hdelivery
      obtain ⟨chunk, done, _, _, hchunk, heq, hdone, hstage⟩ := id hd
      cases heq
      unfold World.commit
      split
      · exact hsame (h.report fun houtcome => by cases houtcome)
      next hrecord =>
      obtain rfl := not_not.1 hrecord
      split
      · exact hsame (h.report fun houtcome => by cases houtcome)
      next record event hok =>
      refine ⟨_, (inv_commit h (mem_outputPieces_of_eq hchunk hdone) hstage hok).advance hd
        rfl fun _ => ?_, Sublist.refl _, rfl⟩
      exact (outputStream_bytes hstage.1 hok).symm ▸ Nat.add_le_add_right hstage.2.1.le _
    · exact hsame h
  | crash kept =>
    refine hsame ?_
    simp only [World.step]
    split
    · next operation index ps before bytes hdelivery =>
      obtain ⟨chunk, done, p, rest, hchunk, -, hdone, -, -, hle, rfl⟩ := h.delivery _ hdelivery
      exact inv_write h (mem_outputPieces_of_eq hchunk hdone) hle fun d hd => nomatch hd
    · exact h.noDelivery
  | other change => exact ⟨[.other change], inv_other h (hother change rfl), Sublist.refl _, rfl⟩

/-- A run keeps the invariant, with the changes that its commits and other code made, in the order
of the run. -/
theorem inv_run {events : List (Event Rest)}
    (hothers : ∀ change, .other change ∈ events → ∀ record, (change record).bytes = record.bytes) :
    ∃ ops', Inv fromUtf8 output start (world.run fromUtf8 output events) (ops ++ ops') ∧
      ops'.map RecordOp.source <+ events ∧
      ops'.filterMap RecordOp.change? = events.filterMap Event.change? := by
  induction events generalizing world ops with
  | nil => exact ⟨[], by rwa [append_nil], Sublist.refl _, rfl⟩
  | cons event events ih =>
    obtain ⟨op, hstep, hevent, hop⟩ := inv_step h fun change heq =>
      hothers change (heq ▸ mem_cons_self)
    obtain ⟨ops', hrun, hevents, hops'⟩ :=
      ih hstep fun change hmem => hothers change (mem_cons_of_mem _ hmem)
    refine ⟨op ++ ops', by rwa [append_assoc] at hrun, ?_, ?_⟩
    · rw [map_append]
      exact hevent.append hevents
    · rw [filterMap_append, hop, hops', filterMap_cons]
      cases event.change? <;> rfl

end

variable [DecidableEq Rest]

/-- After every run of deliveries, crashes and changes of the record by other code, the log begins
with the output up to the cursor of the record, and the record is what other code and the first
pieces of the output, each committed once and in order, make of the first record, with the owners
and times of the commits of the run. A chunk whose delivery reported success is below the cursor. A
running monitor refuses other bytes below the cursor, and a finished one ignores all bytes. -/
theorem delivered_once (fromUtf8 : List UInt8 → Utf8) (output : List Chunk)
    (start : MonitorRecord Rest) (hstart : start.bytes = 0) (events : List (Event Rest))
    (hothers : ∀ change, .other change ∈ events → ∀ record, (change record).bytes = record.bytes) :
    let world := World.run fromUtf8 output ⟨start, [], none, []⟩ events
    (world.record.bytes ≤ world.log.length ∧
        world.log.take world.record.bytes = (outputBytes output).take world.record.bytes) ∧
      (∃ ops : List (RecordOp Rest), ops.foldlM (applyOp fromUtf8) start = some world.record ∧
        ops.map RecordOp.source <+ events ∧
        ops.filterMap RecordOp.change? = events.filterMap Event.change? ∧
        filled (ops.filterMap RecordOp.piece?) <+: filled (outputPieces 0 output) ∧
        world.record.bytes = total (filled (ops.filterMap RecordOp.piece?))) ∧
      (∀ index, (index, .success) ∈ world.reports →
        offsetOf output (index + 1) ≤ world.record.bytes) ∧
      ∀ (operation : Operation) (piece : Piece),
        (world.record.status = .running → ∀ i < piece.bytes.length,
          piece.offset + i < world.record.bytes →
          piece.bytes[i]? ≠ (outputBytes output)[piece.offset + i]? →
          ∃ e, inspect world.record world.log operation piece = .error e) ∧
        (world.record.status ≠ .running → ofOperation world.record operation →
          inspect world.record world.log operation piece = .ok .ignored) := by
  intro world
  obtain ⟨ops, hinv, hevents, hops⟩ := inv_run (inv_start hstart) hothers
  have hlog : world.log = (outputBytes output).take world.log.length :=
    prefix_iff_eq_take.1 hinv.log
  refine ⟨⟨hinv.le, ?_⟩, ⟨ops, hinv.record, hevents, hops, hinv.once, hinv.bytes⟩, hinv.reports,
    fun operation piece => ⟨fun hrunning i hi hlt hne => ?_, inspect_ignored⟩⟩
  · rw [hlog, take_take, Nat.min_eq_left hinv.le]
  · have hlt' : piece.offset + i < world.log.length := hlt.trans_le hinv.le
    refine inspect_refuses hrunning hi hlt' ?_
    rw [hlog, getElem?_take_of_lt hlt']
    exact hne

end

/-! ## A monitor with one line of output -/

def command : Operation := ⟨"agent", 1, "account", "connection", none, none, none, none⟩

def started : MonitorRecord Unit where
  id := "monitor"
  epoch := 1
  status := .running
  operation := some command
  ruleId := none
  bytes := 0
  tail := []
  activityAt := 0
  activityGeneration := 0
  outputPatterns := some ["B"]
  outputUtf8Pending := none
  outputMatcherTail := none
  outputLineTail := none
  outputLineOffsets := none
  outputMatchesPending := none
  outputMatchesTotal := none
  outputMatchExcerpts := none
  outputWakeAt := none
  outputWakeBudget := none
  outputEventSequence := none
  outputEventCount := none
  outputEventIds := none
  rest := ()

def ascii (bytes : List UInt8) : Utf8 := .valid (bytes.map fun b => Char.ofNat b.toNat)

def line : List Chunk := [⟨"stdout", [65, 66]⟩]

/-- The write crashes after one byte, the line is delivered again and committed, it comes once more,
and it comes after the monitor has finished. -/
def finished : List (Event Unit) :=
  [.deliver command 0, .inspect, .crash 1, .deliver command 0, .inspect, .write,
    .commit ⟨none, true, 1⟩ 10, .deliver command 0, .inspect,
    .other fun record => { record with status := .completed }, .deliver command 0, .inspect]

def afterFinish : World Unit := World.run ascii line ⟨started, [], none, []⟩ finished

theorem delivered_once_finished :
    afterFinish.reports = [(0, .success), (0, .success), (0, .ignored)] ∧
      offsetOf line 1 ≤ afterFinish.record.bytes ∧
      afterFinish.log.take afterFinish.record.bytes =
        (outputBytes line).take afterFinish.record.bytes := by
  have hreports : afterFinish.reports = [(0, .success), (0, .success), (0, .ignored)] := by
    decide +kernel
  obtain ⟨hlog, -, hsuccess, -⟩ :=
    delivered_once ascii line started rfl finished fun change hchange record => by
      simp only [finished, mem_cons, reduceCtorEq, Event.other.injEq, not_mem_nil, false_or,
        or_false] at hchange
      rw [hchange]
  exact ⟨hreports, hsuccess 0 (by change _ ∈ afterFinish.reports; simp [hreports]), hlog.2⟩

/-- A finished monitor does not refuse other bytes at an offset that is committed: it ignores them
and reports success. -/
theorem finished_ignores_other_bytes : afterFinish.record.bytes = 2 ∧
    (inspect afterFinish.record afterFinish.log command ⟨0, "stdout", [67, 68]⟩).toOption =
      some .ignored := by
  decide +kernel

end Layr.Monitors
