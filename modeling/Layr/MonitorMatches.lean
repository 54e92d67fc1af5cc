import Layr.Json
import Layr.Lib.Fallible

/-!
# What a monitor keeps of its output

Model of `monitor_matches.rs` of `runtime-services`: the tail of the decoded output, the matches of
literal patterns with an excerpt of the first matching line, and the wake that a batch of matches
makes.

`append` takes one chunk of a stream into a record. Bytes that end in the middle of a character wait
for the next chunk of their stream (`outputUtf8Pending`), and the last bytes of a stream are kept
for matches that go across chunks (`outputLineTail`, `outputMatcherTail`). `pending` turns the
matches of a batch into an event, as far as the wake budget of the monitor allows it.

Saved bytes are lists of bytes here, without their Base64 form. Times and tokens are rational
numbers, and the UTF-8 decoder of the standard library is a parameter.
-/

namespace Layr.Monitors

inductive MonitorError where
  | invalidOutputReceipt (message : String)
  | refused (message : String)
  deriving DecidableEq

inductive MonitorStream where
  | stdout
  | stderr
  deriving DecidableEq

structure StreamValues (T : Type) where
  stdout : Option T
  stderr : Option T
  deriving DecidableEq

namespace StreamValues
variable {T : Type}

def empty : StreamValues T := ⟨none, none⟩

def get (values : StreamValues T) : MonitorStream → Option T
  | .stdout => values.stdout
  | .stderr => values.stderr

def set (values : StreamValues T) (value : Option T) : MonitorStream → StreamValues T
  | .stdout => { values with stdout := value }
  | .stderr => { values with stderr := value }

end StreamValues

structure OutputMatchExcerpt where
  excerpt : List Char
  logOffset : ℕ
  deriving DecidableEq

structure OutputWakeBudget where
  tokens : ℚ
  updatedAt : ℚ
  suppressedMatches : ℕ
  totalSuppressedMatches : ℕ
  paused : Bool
  floodSince : Option ℚ
  lastSuppressedAt : Option ℚ
  noticeSent : Bool
  deriving DecidableEq

inductive MonitorStatus where
  | approval
  | starting
  | running
  | completed
  | failed
  | cancelled
  | lost
  deriving DecidableEq

/-- What identifies the command that a monitor runs. -/
structure Operation where
  agent : String
  epoch : ℕ
  accountKey : String
  connectionId : String
  rootRequestId : Option String
  providerGeneration : Option ℕ
  providerRequest : Option String
  /-- Kept, but not part of the identity. -/
  threadId : Option String
  deriving DecidableEq

def Operation.sameIdentity (a b : Operation) : Bool :=
  a.agent = b.agent && a.epoch = b.epoch && a.accountKey = b.accountKey && a.connectionId =
    b.connectionId &&
    a.rootRequestId = b.rootRequestId && a.providerGeneration = b.providerGeneration &&
    a.providerRequest = b.providerRequest

/-- The fields of a monitor that the delivery of output reads or writes. `rest` stands for all
others. -/
structure MonitorRecord (Rest : Type) where
  id : String
  epoch : ℕ
  status : MonitorStatus
  operation : Option Operation
  ruleId : Option String
  bytes : ℕ
  tail : List Char
  activityAt : ℚ
  activityGeneration : ℕ
  outputPatterns : Option (List String)
  outputUtf8Pending : Option (StreamValues (List UInt8))
  outputMatcherTail : Option (StreamValues (List UInt8))
  outputLineTail : Option (StreamValues (List UInt8))
  outputLineOffsets : Option (StreamValues (List (Option ℕ)))
  outputMatchesPending : Option (BTreeMap ℕ)
  outputMatchesTotal : Option (BTreeMap ℕ)
  outputMatchExcerpts : Option (BTreeMap OutputMatchExcerpt)
  outputWakeAt : Option ℚ
  outputWakeBudget : Option OutputWakeBudget
  outputEventSequence : Option ℕ
  outputEventCount : Option ℕ
  outputEventIds : Option (List String)
  rest : Rest
  deriving DecidableEq

/-! ## Limits -/

def outputWakeCapacity : ℚ := 10

def outputWakeRefillSeconds : ℚ := 2

def outputWakeRecoverySeconds : ℚ := 3 * outputWakeRefillSeconds

def outputWakeFloodSeconds : ℚ := 30

def outputExcerptBytes : ℕ := 1024

def outputContextBytes : ℕ := outputExcerptBytes

def maxPatternBytes : ℕ := 256

def maxMatchCount : ℕ := 2147483647

def wakeCooldownSeconds : ℚ := 1

def retainedEventIds : ℕ := 32

def tailCodepoints : ℕ := 12000

/-! ## Decoding -/

/-- What the decoder says of some bytes: they are the text, or only a part of them is. Then the next
bytes are no character (with their number), or the bytes end in the middle of a character (`none`).
-/
inductive Utf8 where
  | valid (text : List Char)
  | error (text : List Char) (validUpTo : ℕ) (errorLen : Option ℕ)

def replacement : Char := Char.ofNat 0xfffd

variable {Rest : Type}

section
variable (fromUtf8 : List UInt8 → Utf8)

/-- The decoded text and the bytes that wait for more. Each round takes at least one byte. -/
def decodeLoop (final : Bool) : ℕ → List UInt8 → List Char × List UInt8
  | 0, remaining => ([], remaining)
  | fuel + 1, remaining =>
    match fromUtf8 remaining with
    | .valid text => (text, [])
    | .error text validUpTo (some length) =>
      let (more, waiting) := decodeLoop final fuel ((remaining.drop validUpTo).drop length)
      (text ++ replacement :: more, waiting)
    | .error text validUpTo none =>
      if final then (text ++ [replacement], []) else (text, remaining.drop validUpTo)

def decodeBytes (final : Bool) (bytes : List UInt8) : List Char × List UInt8 :=
  decodeLoop fromUtf8 final (bytes.length + 1) bytes

def bytesOf (fields : Option (StreamValues (List UInt8))) (stream : MonitorStream) : List UInt8 :=
  (fields.bind (·.get stream)).getD []

def saveBytes (fields : Option (StreamValues (List UInt8))) (stream : MonitorStream)
    (bytes : List UInt8) :
    Option (StreamValues (List UInt8)) :=
  some ((fields.getD .empty).set (if bytes = [] then none else some bytes) stream)

def appendTail (tail text : List Char) : List Char :=
  if text = [] then tail else (tail ++ text).drop ((tail ++ text).length - tailCodepoints)

def decode (record : MonitorRecord Rest) (stream : MonitorStream) (chunk : List UInt8)
    (final : Bool) :
    MonitorRecord Rest :=
  let (text, waiting) := decodeBytes fromUtf8 final
    (bytesOf record.outputUtf8Pending stream ++ chunk)
  { record with
    outputUtf8Pending := saveBytes record.outputUtf8Pending stream waiting
    tail := appendTail record.tail text }

end

/-! ## Matching -/

def increment (values : Option (BTreeMap ℕ)) (key : String) (count : ℕ) : Option (BTreeMap ℕ) :=
  let values := values.getD ∅
  some (values.insert key (min (values[key]?.getD 0 + count) maxMatchCount))

def hitsFrom (combined needle : List UInt8) (start : ℕ) : List ℕ :=
  ((List.range (combined.length - start + 1 - needle.length)).map (start + ·)).filter
    fun place => (combined.drop place).take needle.length = needle

/-- The characters of a text that fit into a number of bytes. -/
def takeBytes : ℕ → List Char → List Char
  | _, [] => []
  | limit, c :: cs => if c.utf8Size ≤ limit then c :: takeBytes (limit - c.utf8Size) cs else []

/-- The line of a match, cut to the limit, and the place where it begins. -/
def excerptAt (fromUtf8 : List UInt8 → Utf8) (combined needle : List UInt8) (first firstKnown : ℕ) :
    List Char × ℕ :=
  let newline : UInt8 := 10
  let lineStart := match (combined.take first).reverse.findIdx? (· = newline) with
    | some back => first - back
    | none => 0
  -- each malformed byte can become one replacement character
  let rawLimit := outputExcerptBytes / replacement.utf8Size
  let excerptStart := max (max lineStart (first + needle.length - rawLimit)) firstKnown
  let matchEnd := first + needle.length
  let lineEnd := match (combined.drop matchEnd).findIdx? (· = newline) with
    | some index => matchEnd + index
    | none => combined.length
  let excerptEnd := min lineEnd (excerptStart + rawLimit)
  let text :=
    (decodeBytes fromUtf8 true ((combined.drop excerptStart).take (excerptEnd - excerptStart))).1
  (takeBytes outputExcerptBytes text, excerptStart)

/-- What the chunks before leave for a match, and the offsets of all bytes in the log. -/
structure Context where
  previous : List UInt8
  combined : List UInt8
  offsets : List (Option ℕ)
  firstKnown : ℕ

def contextOf (record : MonitorRecord Rest) (stream : MonitorStream) (chunk : List UInt8) :
    Context :=
  let lineTail := record.outputLineTail.bind (·.get stream)
  let previous := lineTail.getD (bytesOf record.outputMatcherTail stream)
  let known :=
    ((record.outputLineOffsets.bind (·.get stream)).filter (·.length = previous.length)).getD
    (List.replicate previous.length none)
  let offsets := known ++ (List.range chunk.length).map fun index => some (record.bytes + index)
  { previous := previous
    combined := previous ++ chunk
    offsets := offsets
    firstKnown := (offsets.findIdx? (·.isSome)).getD previous.length }

def streamKind (stream : String) : Except MonitorError MonitorStream :=
  if stream = "stdout" then .ok .stdout
  else if stream = "stderr" then .ok .stderr
  else .error (.invalidOutputReceipt "invalid output stream")

def matchPattern (fromUtf8 : List UInt8 → Utf8) (context : Context) (stream : String)
    (record : MonitorRecord Rest) (pattern : String × ℕ) :
    Except MonitorError (MonitorRecord Rest) :=
  let needle := pattern.1.toUTF8.data.toList
  if needle = [] ∨ maxPatternBytes < needle.length then
    .error (.invalidOutputReceipt "invalid saved pattern size")
  else
    let start := context.previous.length - (needle.length - 1)
    match hitsFrom context.combined needle start with
    | [] => .ok record
    | first :: hits =>
      let key := stream ++ ":" ++ toString pattern.2
      let count := 1 + hits.length
      let record := { record with
        outputMatchesPending := increment record.outputMatchesPending key count
        outputMatchesTotal := increment record.outputMatchesTotal key count }
      let excerpts := record.outputMatchExcerpts.getD ∅
      if excerpts.contains key then .ok { record with outputMatchExcerpts := some excerpts }
      else
        let (excerpt, place) := excerptAt fromUtf8 context.combined needle first context.firstKnown
        match (context.offsets[place]?).join with
        | none => .error (.invalidOutputReceipt "missing output offset")
        | some offset =>
          .ok { record with outputMatchExcerpts := some (excerpts.insert key ⟨excerpt, offset⟩) }

def append (fromUtf8 : List UInt8 → Utf8) (record : MonitorRecord Rest) (stream : String)
    (chunk : List UInt8) (matchOutput : Bool) : Except MonitorError (MonitorRecord Rest) := do
  let kind ← streamKind stream
  let record := decode fromUtf8 record kind chunk false
  let patterns := record.outputPatterns.getD []
  if !matchOutput || patterns = [] || chunk = [] then
    return record
  let context := contextOf record kind chunk
  let record := { record with
    outputMatchesPending := some (record.outputMatchesPending.getD ∅)
    outputMatchesTotal := some (record.outputMatchesTotal.getD ∅) }
  let record ← patterns.zipIdx.foldlM (matchPattern fromUtf8 context stream) record
  let longest := (patterns.map fun pattern => pattern.toUTF8.size).foldl max 0
  let contextStart := context.combined.length - outputContextBytes
  return { record with
    outputLineTail := saveBytes record.outputLineTail kind (context.combined.drop contextStart)
    outputLineOffsets := some ((record.outputLineOffsets.getD .empty).set
      (some (context.offsets.drop contextStart)) kind)
    outputMatcherTail := saveBytes record.outputMatcherTail kind
      (context.combined.drop (context.combined.length - (longest - 1))) }

/-! ## Wakes -/

structure OutputMatch where
  stream : String
  pattern : String
  count : ℕ
  excerpt : Option (List Char)
  logOffset : Option ℕ
  deriving DecidableEq

structure OutputEvent where
  monitorId : String
  epoch : ℕ
  sequence : ℕ
  matches' : List OutputMatch
  finalChunk : Bool
  suppressedMatches : Option ℕ
  message : Option String
  outputWakesPaused : Option Bool
  deriving DecidableEq

def splitOnce (text : String) : Option (String × String) :=
  match text.toList.span (· ≠ ':') with
  | (before, _ :: after) => some (String.ofList before, String.ofList after)
  | _ => none

/-- The number that some digits say, which may have a plus sign before them. -/
def parseIndex (text : String) : Option ℕ :=
  let digits := match text.toList with
    | '+' :: digits => digits
    | digits => digits
  if digits ≠ [] ∧ digits.all (·.isDigit) then some (Nat.ofDigitChars 10 digits 0) else none

def counts (record : MonitorRecord Rest) (values : Option (BTreeMap ℕ)) : List OutputMatch :=
  (values.getD ∅).toList.filterMap fun entry => do
    let (stream, index) ← splitOnce entry.1
    let pattern ← (← record.outputPatterns)[← parseIndex index]?
    if 0 < entry.2 then some ⟨stream, pattern, entry.2, none, none⟩ else none

def withExcerpts (record : MonitorRecord Rest) (found : List OutputMatch) :
    Option (List OutputMatch) :=
  match record.outputMatchExcerpts with
  | none => some found
  | some excerpts => found.mapM fun item => do
    let index ← (← record.outputPatterns).findIdx? (· = item.pattern)
    match excerpts[item.stream ++ ":" ++ toString index]? with
    | some value =>
      some { item with excerpt := some value.excerpt, logOffset := some value.logOffset }
    | none => some item

def saturating (n : ℕ) : ℕ := min n (2 ^ 64 - 1)

def newBudget (now : ℚ) : OutputWakeBudget :=
  ⟨outputWakeCapacity, now, 0, 0, false, none, none, false⟩

/-- The budget at a time: tokens come back, and a flood ends after a while without a further
suppression. -/
def refill (budget : OutputWakeBudget) (now : ℚ) : OutputWakeBudget :=
  { budget with
    tokens := min (budget.tokens + max (now - budget.updatedAt) 0 / outputWakeRefillSeconds)
      outputWakeCapacity
    updatedAt := max now budget.updatedAt
    floodSince :=
      if !budget.paused && budget.lastSuppressedAt.any fun last => outputWakeRecoverySeconds <
        now - last then none
      else budget.floodSince }

/-- The budget after a batch of matches, whether the batch is suppressed, whether the owner is told
of it, and whether the wakes pause from now on. -/
def spend (budget : OutputWakeBudget) (now : ℚ) (count : ℕ) (final : Bool) :
    OutputWakeBudget × Bool × Bool × Bool :=
  if budget.paused || budget.tokens < 1 then
    let budget := { budget with
      suppressedMatches := saturating (budget.suppressedMatches + count)
      totalSuppressedMatches := saturating (budget.totalSuppressedMatches + count) }
    if budget.paused then (budget, true, false, false)
    else
      let since := budget.floodSince.getD now
      let newlyPaused := decide (outputWakeFloodSeconds ≤ now - since)
      let notice := !budget.noticeSent || newlyPaused || final
      ({ budget with
          floodSince := some since, lastSuppressedAt := some now
          paused := newlyPaused, noticeSent := true },
        true, notice, newlyPaused)
  else ({ budget with tokens := budget.tokens - 1 }, false, false, false)

/-- Make the event of a batch of matches. The record is changed also if the batch is suppressed. -/
def pending (record : MonitorRecord Rest) (now : ℚ) (final : Bool) :
    MonitorRecord Rest × Option (String × OutputEvent) :=
  let found := counts record record.outputMatchesPending
  if found = [] ||
    (!final && decide (now - record.outputWakeAt.getD 0 < wakeCooldownSeconds)) then (record, none)
  else
    match withExcerpts record found with
    | none => (record, none)
    | some found =>
      let count := saturating (found.map (·.count)).sum
      let (budget, suppress, notice, newlyPaused) :=
        spend (refill (record.outputWakeBudget.getD (newBudget now)) now) now count final
      let suppressed := if newlyPaused then budget.totalSuppressedMatches
        else budget.suppressedMatches
      let budget := if !suppress || notice then { budget with suppressedMatches := 0 } else budget
      let record := { record with
        outputMatchesPending := some ∅, outputMatchExcerpts := some ∅
        outputWakeBudget := some budget }
      let sequence := record.outputEventSequence.getD 0 + 1
      if suppress && !notice || 2 ^ 64 ≤ sequence then (record, none)
      else
        let id := "monitor-output:" ++ record.id ++ ":" ++ toString record.epoch ++ ":" ++
          toString sequence
        let ids := record.outputEventIds.getD [] ++ [id]
        let message :=
          if newlyPaused then "Output-match wakes paused after sustained output. " ++
            toString suppressed ++
            " matches suppressed. The command and exit wake remain active. " ++
            "To resume output wakes, cancel this monitor and start a new monitor with more " ++
            "selective output_patterns."
          else toString suppressed ++ " output matches suppressed by the monitor wake budget."
        ({ record with
            outputEventIds := some (ids.drop (ids.length - retainedEventIds))
            outputEventSequence := some sequence
            outputEventCount := some (min (record.outputEventCount.getD 0 + 1) maxMatchCount)
            outputWakeAt := some now },
          some (id,
            { monitorId := record.id
              epoch := record.epoch
              sequence := sequence
              matches' := found
              finalChunk := final
              suppressedMatches := if 0 < suppressed then some suppressed else none
              message := if 0 < suppressed then some message else none
              outputWakesPaused := if newlyPaused then some true else none }))

end Layr.Monitors
