import Layr.MonitorMatches

/-!
# Delivery of monitor output

Model of `monitor_output.rs`, and of `output_stream` of `monitor_policy.rs`. The output of a command
comes in chunks at their byte offsets. A delivery writes a chunk to the log file of the monitor and
then commits it to the record of the monitor in the database. Both can fail or crash, so a chunk can
come again, and then its bytes are compared with those of the log.

`World.step` is one step of a delivery, a crash, or a change of the record by other code. Only one
delivery of a monitor runs at a time (the locks of `MonitorOutput`).
-/

namespace Layr.Monitors

variable {Rest : Type}

/-! ## The policy -/

def chunkBytes : ℕ := 65536

/-- The largest number that a counter of a record holds. -/
def maxCounter : ℕ := 9007199254740991

/-- The owner of a monitor, as its wakes depend on it. -/
structure Actor where
  deletedAt : Option ℚ
  autoWake : Bool
  epoch : ℕ

def activeOwner (record : MonitorRecord Rest) (actor : Actor) : Bool :=
  actor.deletedAt.all (· = 0) && actor.autoWake && actor.epoch = record.epoch

/-- Does the delivery belong to the command that the monitor runs? -/
def ofOperation (record : MonitorRecord Rest) (operation : Operation) : Bool :=
  record.operation.any (·.sameIdentity operation)

/-- `output_stream`: the record after a chunk, and the event that it makes. -/
def outputStream (fromUtf8 : List UInt8 → Utf8) (record : MonitorRecord Rest) (actor : Actor)
    (operation : Operation) (stream : String) (chunk : List UInt8) (now : ℚ) :
    Except MonitorError (MonitorRecord Rest × Option (String × OutputEvent)) := do
  ensure (ofOperation record operation) (.refused "Monitor operation identity changed")
  if record.status ≠ .running then
    return (record, none)
  ensure (chunk.length ≤ chunkBytes) (.refused "Monitor output chunk exceeds bound")
  ensure (record.bytes + chunk.length < 2 ^ 63) (.refused "Monitor output counter exhausted")
  let appended ← append fromUtf8 record stream chunk (activeOwner record actor)
  let (woken, event) :=
    if record.ruleId.isNone && activeOwner record actor then pending appended now false
      else (appended, none)
  ensure (record.bytes + chunk.length ≤ maxCounter) (.refused "Monitor counter exhausted")
  let counted := { woken with bytes := record.bytes + chunk.length }
  if chunk = [] then
    return (counted, event)
  ensure (0 ≤ now) (.refused "Invalid monitor time")
  ensure (record.activityGeneration + 1 ≤ maxCounter)
    (.refused "Monitor activity counter exhausted")
  return ({ counted with activityAt := now, activityGeneration := record.activityGeneration + 1 },
    event)

/-! ## Deliveries -/

structure Chunk where
  stream : String
  bytes : List UInt8

structure Piece where
  offset : ℕ
  stream : String
  bytes : List UInt8

/-- The pieces that `append_stream` makes of bytes that are not empty. -/
def cut (stream : String) (offset : ℕ) (bytes : List UInt8) : List Piece :=
  if bytes = [] then []
  else ⟨offset, stream, bytes.take chunkBytes⟩ :: cut stream (offset + chunkBytes)
    (bytes.drop chunkBytes)
termination_by bytes.length
decreasing_by
  rename_i hne
  have hpos := List.length_pos_iff.2 hne
  rw [List.length_drop]
  have : 0 < chunkBytes := by decide
  omega

/-- The pieces of a chunk at an offset. An empty chunk is one empty piece. -/
def pieces (offset : ℕ) (chunk : Chunk) : List Piece :=
  if chunk.bytes = [] then [⟨offset, chunk.stream, []⟩] else cut chunk.stream offset chunk.bytes

/-- What `append_chunk` does with a piece before it writes. -/
inductive Inspected where
  /-- The monitor has finished. -/
  | ignored
  /-- The piece was committed before. -/
  | duplicate
  /-- These bytes are not in the log yet. -/
  | write (rest : List UInt8)
  deriving DecidableEq

/-- The checks of `append_chunk`, of the record that it reads and of the log file. -/
def inspect (record : MonitorRecord Rest) (log : List UInt8) (operation : Operation)
    (piece : Piece) :
    Except MonitorError Inspected := do
  ensure (ofOperation record operation) (.invalidOutputReceipt "operation identity changed")
  if record.status ≠ .running then
    return .ignored
  ensure (piece.offset ≤ record.bytes) (.invalidOutputReceipt "cursor has a gap")
  ensure (piece.offset ≤ log.length) (.invalidOutputReceipt "log is missing committed output")
  let existing := min (log.length - piece.offset) piece.bytes.length
  ensure ((log.drop piece.offset).take existing = piece.bytes.take existing)
    (.invalidOutputReceipt "receipt bytes differ at committed offset")
  if piece.offset < record.bytes then
    ensure (piece.offset + piece.bytes.length ≤ record.bytes)
      (.invalidOutputReceipt "receipt overlaps committed cursor")
    return .duplicate
  return .write (piece.bytes.drop existing)

/-- Where a delivery is: before its next piece, before the write of a piece to the log, or before
its commit. The record is the one that `append_chunk` read. -/
inductive Stage (Rest : Type) where
  | next
  | opened (before : MonitorRecord Rest) (rest : List UInt8)
  | written (before : MonitorRecord Rest)

structure Delivery (Rest : Type) where
  operation : Operation
  index : ℕ
  pieces : List Piece
  stage : Stage Rest

/-- What a delivery reports: `append_stream` returns `Ok` for the first two. -/
inductive Outcome where
  /-- The last piece is committed. -/
  | success
  /-- The monitor had finished before the last piece. -/
  | ignored
  | failed (error : MonitorError)
  deriving DecidableEq

structure World (Rest : Type) where
  record : MonitorRecord Rest
  log : List UInt8
  delivery : Option (Delivery Rest)
  /-- A history that no step reads: the chunks of the deliveries that ended, with what they
  reported. -/
  reports : List (ℕ × Outcome)

inductive Event (Rest : Type) where
  /-- A delivery of a chunk begins. -/
  | deliver (operation : Operation) (index : ℕ)
  /-- The next piece is inspected. -/
  | inspect
  /-- The missing bytes are written to the log and synced. -/
  | write
  /-- The piece is committed to the record, for the owner as the transaction reads it and at the
  time that the caller gave. -/
  | commit (actor : Actor) (now : ℚ)
  /-- A file or the database fails, or the runtime crashes: no success is reported. Of bytes that
  are being written, some may be in the log. -/
  | crash (kept : ℕ)
  | other (change : MonitorRecord Rest → MonitorRecord Rest)

def offsetOf (output : List Chunk) (index : ℕ) : ℕ := ((output.take index).map (·.bytes.length)).sum

def World.report (world : World Rest) (delivery : Delivery Rest) (outcome : Outcome) : World Rest :=
  { world with delivery := none, reports := world.reports ++ [(delivery.index, outcome)] }

/-- A piece is done: the delivery goes on with the next one, or reports the outcome of the last. -/
def World.advance (world : World Rest) (delivery : Delivery Rest) (outcome : Outcome) :
    World Rest :=
  match delivery.pieces with
  | _ :: piece :: pieces =>
    { world with delivery := some { delivery with pieces := piece :: pieces, stage := .next } }
  | _ => world.report delivery outcome

section
variable [DecidableEq Rest] (fromUtf8 : List UInt8 → Utf8) (output : List Chunk)

/-- Commit the first piece of a delivery, if the record is still the one that was read. -/
def World.commit (world : World Rest) (delivery : Delivery Rest) (piece : Piece)
    (before : MonitorRecord Rest) (actor : Actor) (now : ℚ) : World Rest :=
  if world.record ≠ before then
    world.report delivery
      (.failed (.refused "Monitor changed during log delivery; reconcile exact receipt"))
  else
    match outputStream fromUtf8 world.record actor delivery.operation piece.stream
        piece.bytes now with
    | .error e => world.report delivery (.failed e)
    | .ok (record, _) => { world with record := record }.advance delivery .success

def World.step (world : World Rest) : Event Rest → World Rest
  | .deliver operation index =>
    match world.delivery, output[index]? with
    | none, some chunk =>
      { world with
        delivery := some ⟨operation, index, pieces (offsetOf output index) chunk, .next⟩ }
    | _, _ => world
  | .inspect =>
    match world.delivery with
    | some ⟨operation, index, piece :: rest, .next⟩ =>
      let delivery : Delivery Rest := ⟨operation, index, piece :: rest, .next⟩
      match Monitors.inspect world.record world.log operation piece with
      | .error e => world.report delivery (.failed e)
      | .ok (.write bytes) =>
        { world with delivery := some { delivery with stage := .opened world.record bytes } }
      | .ok .duplicate => world.advance delivery .success
      | .ok .ignored => world.advance delivery .ignored
    | _ => world
  | .write =>
    match world.delivery with
    | some ⟨operation, index, pieces, .opened before bytes⟩ =>
      { world with
        log := world.log ++ bytes, delivery := some ⟨operation, index, pieces, .written before⟩ }
    | _ => world
  | .commit actor now =>
    match world.delivery with
    | some ⟨operation, index, piece :: rest, .written before⟩ =>
      world.commit fromUtf8 ⟨operation, index, piece :: rest, .written before⟩ piece before
        actor now
    | _ => world
  | .crash kept =>
    match world.delivery with
    | some ⟨_, _, _, .opened _ bytes⟩ =>
      { world with log := world.log ++ bytes.take kept, delivery := none }
    | _ => { world with delivery := none }
  | .other change => { world with record := change world.record }

def World.run (world : World Rest) (events : List (Event Rest)) : World Rest :=
  events.foldl (World.step fromUtf8 output) world

end

end Layr.Monitors
