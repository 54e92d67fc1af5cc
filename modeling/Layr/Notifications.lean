import Layr.Lib.Runs

/-!
# Resource notifications

A model of `resource_notify.rs` and of the cursor of `change_notifications.rs`: publications number
the changes of resources (`publish_once`, `notify_store_commit`), `changes_since` samples the
versions of a subscriber's resources, and `changes_since_with_content` reads those that are newer
than its cursor and compares them with a cache that all subscribers share.

A poll is not atomic. It samples its versions, and for each resource it looks into the cache, reads
the resource and updates the cache, with other polls, publications and changes in between. After the
reply the subscriber reads the selected resources again. The kind of a resource is a function of its
key, and the hash is a function of the content; the epoch of the cursor, which is constant, is left
out.
-/

namespace Layr.Notifications

def maxNotifyReceipts : ℕ := 256

def maxResourceVersions : ℕ := 4096

def maxSafeRevision : ℕ := 2 ^ 53 - 1

inductive ResourceKind where
  | state | agentDetail | costs | desktop | monitors | sessionCost | terminal | terminals
  | transcript | transcripts | room | processes | complaint | work | terminalOutput | task | tasks
  | workspace | multiServer | other
deriving DecidableEq, Repr

/-- Kinds that are delivered by entity cursors and not compared by content. -/
def ResourceKind.isEntity : ResourceKind → Bool
  | .state | .agentDetail | .costs | .desktop | .monitors | .sessionCost | .task | .tasks
  | .terminal | .terminals
  | .work => true
  | _ => false

inductive ResourceNotifyError where
  | conflict | unavailable
deriving DecidableEq, Repr

/-! ## The cursor -/

structure ChangeSnapshot where
  revision : ℕ
  /-- The last broad invalidation. -/
  resourceRevision : ℕ
  closed : Bool
deriving DecidableEq, Repr

/-- `try_publish` of a hub that is open. -/
def ChangeSnapshot.publish (hub : ChangeSnapshot) (steps : ℕ) (invalidateAll : Bool) :
    ChangeSnapshot :=
  let revision := min (hub.revision + steps) maxSafeRevision
  { hub with
    revision, resourceRevision := if invalidateAll then revision else hub.resourceRevision }

/-! ## Publications -/

structure Publications where
  /-- The request ids with the keys that they published. -/
  receipts : List (String × Finset String)
  versions : List (String × ℕ)
  prunedRevision : ℕ
  entityResetRevision : ℕ
  entityRevision : ℕ

variable (kind : String → ResourceKind)

namespace Publications

def resourceRevision (pubs : Publications) (key : String) : ℕ :=
  ((pubs.versions.find? fun entry => entry.1 = key).map (·.2)).getD 0

/-- Move a resource to the end of the versions; the oldest one goes if there are too many. -/
def record (revision version : ℕ) (pubs : Publications) (key : String) : Publications :=
  if kind key = .state then { pubs with entityResetRevision := revision }
  else
    let versions := pubs.versions.filter fun entry => entry.1 ≠ key
    if versions.length = maxResourceVersions then
      { pubs with
        versions := versions.tail ++ [(key, version)]
        prunedRevision := max pubs.prunedRevision ((versions.head?.map (·.2)).getD 0) }
    else { pubs with versions := versions ++ [(key, version)] }

def receive (pubs : Publications) (requestId : String) (signature : Finset String) : Publications :=
  let receipts := if pubs.receipts.length = maxNotifyReceipts then pubs.receipts.tail
    else pubs.receipts
  { pubs with receipts := receipts ++ [(requestId, signature)] }

end Publications

def publishOnce (hub : ChangeSnapshot) (pubs : Publications) (requestId : String)
    (resources : List String) : Except ResourceNotifyError (ChangeSnapshot × Publications × Bool) :=
  let signature := resources.toFinset
  let replay := pubs.receipts.find? fun receipt => receipt.1 = requestId
  if replay.any fun receipt => receipt.2 ≠ signature then .error .conflict
  else if hub.closed then .error .unavailable
  else if replay.isSome then
    let pubs := { pubs with receipts := pubs.receipts.eraseP fun receipt => receipt.1 = requestId }
    .ok (hub.publish 0 false, pubs.receive requestId signature, false)
  else
    let hasState := resources.any fun key => kind key = .state
    let hasOthers := resources.any fun key => kind key ≠ .state
    let hub := hub.publish (hasState.toNat + hasOthers.toNat) false
    let pubs := resources.foldl
      (Publications.record kind hub.revision (hub.revision - hasState.toNat)) pubs
    .ok (hub, pubs.receive requestId signature, true)

inductive ResourceChange where
  | all | entities
deriving DecidableEq, Repr

def notifyStoreCommit (hub : ChangeSnapshot) (pubs : Publications) : ResourceChange →
    ChangeSnapshot × Publications
  | .all => if hub.closed then (hub, pubs) else (hub.publish 1 true, pubs)
  | .entities =>
    if hub.closed then (hub, pubs)
    else (hub.publish 1 false, { pubs with entityRevision := (hub.publish 1 false).revision })

/-! ## Samples -/

def versionOf (hub : ChangeSnapshot) (pubs : Publications) (key : String) : ℕ :=
  let explicit := if kind key = .state then pubs.entityResetRevision else pubs.resourceRevision key
  match kind key with
  | .multiServer => explicit
  | .other => max explicit hub.resourceRevision
  | _ => max (max explicit hub.resourceRevision) pubs.entityRevision

/-- A view of the resources of a subscriber: those that changed, with their versions. -/
structure ResourceChanges where
  cursor : ChangeSnapshot
  resources : List (String × ℕ)
  entityReset : Bool
  overflow : Bool
deriving DecidableEq, Repr

def changesSince (hub : ChangeSnapshot) (pubs : Publications) (resources : List String)
    (after : Option ℕ) : ResourceChanges :=
  let overflow := after.any fun revision => revision < pubs.prunedRevision
  let selected := resources.filter fun key =>
    (after.all fun revision => revision < versionOf kind hub pubs key) || overflow
  { cursor := hub
    resources := selected.map fun key =>
      (key, if versionOf kind hub pubs key = 0 ∨
        overflow then hub.revision else versionOf kind hub pubs key)
    entityReset := after.any fun revision => revision < pubs.entityResetRevision
    overflow }

/-! ## The cache of contents -/

section
variable {Content Digest : Type} [DecidableEq Digest]

structure ContentVersion (Digest : Type) where
  key : String
  digest : Option Digest
  checkedRevision : ℕ
  revision : ℕ

/-- Put a digest that was read for a sampled version into the cache, unless a later sample was there
first; the revision is the old one if the content is. -/
def checkContent (cache : List (ContentVersion Digest)) (key : String) (version : ℕ)
    (digest : Option Digest) :
    Option (List (ContentVersion Digest) × ℕ) :=
  let existing := cache.find? fun entry => entry.key = key
  if existing.any fun entry => version < entry.checkedRevision then none
  else
    let revision :=
      ((existing.filter fun entry => digest.isSome ∧ entry.digest = digest).map (·.revision)).getD
      version
    let cache := cache.eraseP fun entry => entry.key = key
    let cache := if cache.length = maxResourceVersions then cache.tail else cache
    some (cache ++ [⟨key, digest, version, revision⟩], revision)

/-! ## Subscribers -/

/-- Where a poll is with the next resource of its view. -/
inductive Stage (Digest : Type) where
  | lookup
  | read
  | update (digest : Option Digest)

structure Poll (Digest : Type) where
  view : ResourceChanges
  rest : List (String × ℕ)
  selected : List (String × ℕ)
  stage : Stage Digest

/-- A subscriber: the cursor of its last reply, its copies, and the selected resources that it has
not read again yet. -/
structure Subscriber (Content Digest : Type) where
  resources : List String
  after : Option ℕ
  copy : String → Option Content
  todo : List String
  poll : Option (Poll Digest)

def Subscriber.reply (sub : Subscriber Content Digest) (cursor : ℕ) (selected : List (String × ℕ)) :
    Subscriber Content Digest :=
  { sub with after := some cursor, todo := selected.map (·.1), poll := none }

/-- Go on with the next resource; this one is selected if its revision is above the cursor. -/
def Subscriber.next (sub : Subscriber Content Digest) (poll : Poll Digest) (key : String)
    (revision : ℕ) :
    Subscriber Content Digest :=
  { sub with
    poll := some { poll with
      rest := poll.rest.tail
      selected := if sub.after.all fun after => after < revision then poll.selected ++
        [(key, revision)]
        else poll.selected
      stage := .lookup } }

/-! ## The system -/

structure World (Content Digest : Type) where
  hub : ChangeSnapshot
  pubs : Publications
  cache : List (ContentVersion Digest)
  content : String → Content
  /-- Resources that changed since their last publication. -/
  pending : String → Bool
  subs : ℕ → Subscriber Content Digest

def World.start (content : String → Content) (resources : ℕ → List String) :
    World Content Digest where
  hub := ⟨0, 0, false⟩
  pubs := ⟨[], [], 0, 0, 0⟩
  cache := []
  content
  pending := fun _ => false
  subs := fun s => ⟨resources s, none, fun _ => none, [], none⟩

inductive Event (Content : Type) where
  | change (key : String) (content : Content)
  | publish (requestId : String) (resources : List String)
  | commit (change : ResourceChange)
  | close
  | sample (s : ℕ)
  | lookup (s : ℕ)
  | read (s : ℕ) (computable : Bool)
  | update (s : ℕ)
  | reply (s : ℕ)
  | fetch (s : ℕ) (key : String)

/-- The resources that a commit is about. -/
def ResourceChange.covers : ResourceChange → String → Bool
  | .all, key => kind key ≠ .multiServer
  | .entities, key => kind key ≠ .multiServer ∧ kind key ≠ .other

namespace World

variable (kind : String → ResourceKind) (hash : Content → Digest) (w : World Content Digest) (s : ℕ)

def setSub (sub : Subscriber Content Digest) : World Content Digest :=
  { w with subs := Function.update w.subs s sub }

/-- Begin a poll, if the subscriber has finished the last one. A closed hub replies at once. -/
def sample : World Content Digest :=
  let sub := w.subs s
  if sub.poll.isNone ∧ sub.todo = [] then
    let view := changesSince kind w.hub w.pubs sub.resources sub.after
    if view.cursor.closed then w.setSub s (sub.reply view.cursor.revision view.resources)
    else w.setSub s { sub with poll := some ⟨view, view.resources, [], .lookup⟩ }
  else w

def lookup : World Content Digest :=
  let sub := w.subs s
  match sub.poll with
  | some ⟨view, (key, version) :: rest, selected, .lookup⟩ =>
    let poll : Poll Digest := ⟨view, (key, version) :: rest, selected, .lookup⟩
    if (kind key).isEntity then
      w.setSub s
        { sub with poll := some { poll with rest, selected := selected ++ [(key, version)] } }
    else
      match (w.cache.find? fun entry => entry.key = key).filter fun entry => entry.checkedRevision =
          version with
      | some entry => w.setSub s (sub.next poll key entry.revision)
      | none => w.setSub s { sub with poll := some { poll with stage := .read } }
  | _ => w

def read (computable : Bool) : World Content Digest :=
  let sub := w.subs s
  match sub.poll with
  | some ⟨view, (key, version) :: rest, selected, .read⟩ =>
    let digest := if computable then some (hash (w.content key)) else none
    w.setSub s { sub with poll := some ⟨view, (key, version) :: rest, selected, .update digest⟩ }
  | _ => w

def update : World Content Digest :=
  let sub := w.subs s
  match sub.poll with
  | some ⟨view, (key, version) :: rest, selected, .update digest⟩ =>
    let poll : Poll Digest := ⟨view, (key, version) :: rest, selected, .update digest⟩
    if w.hub.closed then w.setSub s (sub.reply view.cursor.revision view.resources)
    else
      match checkContent w.cache key version digest with
      | none => w.setSub s (sub.next poll key version)
      | some (cache, revision) => { w with cache }.setSub s (sub.next poll key revision)
  | _ => w

def reply : World Content Digest :=
  let sub := w.subs s
  match sub.poll with
  | some ⟨view, [], selected, _⟩ => w.setSub s (sub.reply view.cursor.revision selected)
  | _ => w

def fetch (key : String) : World Content Digest :=
  let sub := w.subs s
  if sub.poll.isNone ∧ key ∈ sub.todo then
    w.setSub s { sub with
      copy := Function.update sub.copy key (some (w.content key))
      todo := sub.todo.filter fun k => k ≠ key }
  else w

def change (key : String) (content : Content) : World Content Digest :=
  { w with
    content := Function.update w.content key content
    pending := Function.update w.pending key true }

def publish (requestId : String) (resources : List String) : World Content Digest :=
  match publishOnce kind w.hub w.pubs requestId resources with
  | .ok (hub, pubs, true) =>
    { w with hub, pubs, pending := fun key => w.pending key && decide (key ∉ resources) }
  | .ok (hub, pubs, false) => { w with hub, pubs }
  | .error _ => w

def commit (change : ResourceChange) : World Content Digest :=
  if w.hub.closed then w
  else
    let published := notifyStoreCommit w.hub w.pubs change
    { w with
      hub := published.1, pubs := published.2
      pending := fun key => w.pending key && !change.covers kind key }

def step : Event Content → World Content Digest
  | .change key content => w.change key content
  | .publish requestId resources => w.publish kind requestId resources
  | .commit change => w.commit kind change
  | .close => { w with hub := { w.hub with closed := true } }
  | .sample s => w.sample kind s
  | .lookup s => w.lookup kind s
  | .read s computable => w.read hash s computable
  | .update s => w.update s
  | .reply s => w.reply s
  | .fetch s key => w.fetch s key

/-- A subscriber that finished a poll at the present cursor holds the present content of each
resource that has no change without a publication. -/
def Current : Prop :=
  ∀ s, (w.subs s).poll.isNone → (w.subs s).todo = [] → (w.subs s).after = some w.hub.revision →
    ∀ key ∈ (w.subs s).resources, (kind key).isEntity = false → w.pending key = false →
      (w.subs s).copy key = some (w.content key)

/-- A resource that a subscriber found changed and has not read again yet. -/
def Open (key : String) : Prop :=
  (∃ poll, (w.subs s).poll = some poll ∧ key ∈ poll.view.resources.map (·.1)) ∨
    key ∈ (w.subs s).todo

/-- What must not happen in a run: a resource changes while a poll of it is open, a poll begins
while a change of its resources is not published, or without a cursor when versions were pruned, and
the revision comes to its end. -/
def Undisturbed : Event Content → Prop
  | .change key _ => ∀ s, ¬ w.Open s key
  | .publish .. => w.hub.revision + 2 ≤ maxSafeRevision
  | .commit _ => w.hub.revision + 2 ≤ maxSafeRevision
  | .sample s =>
    (∀ key ∈ (w.subs s).resources, (kind key).isEntity = false → w.pending key = false) ∧
    ((w.subs s).after = none → w.pubs.prunedRevision = 0)
  | _ => True

end World

end

end Layr.Notifications
