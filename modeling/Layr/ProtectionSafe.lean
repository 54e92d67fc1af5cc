import Layr.PolicyStrict
import Layr.Protection

/-!
# What an allowed merge has

When `mergeStatus` allows a merge, the actor has the role, the checks have passed on the candidate,
the changed paths are covered, and there are enough approvals, each a standing approval of exactly
this state by a principal of its own who may approve and wrote nothing that comes in. One thing is
missing: a deny rule that takes `approve` away from a user does not keep the user's approvals from
counting. For a person it does.
-/

namespace Layr

open List

namespace Project

section

variable {c : Codec} {p : Project}

/-! ## Evidence -/

def Passed (c : Codec) (p : Project) (subject : String) (argv : List String) : Prop :=
  ∃ a ∈ p.attestationList subject (some "check"), p.isRevoked c a.attestationId = false ∧
    ∃ r ∈ p.records, r.id = a.attestationId ∧
      ((checkResult r).get "argv").bind (Serde.vec Serde.string) = some argv ∧
      ((checkResult r).idx "exit").asI64 = some 0

variable {argv : List String}

theorem argvMatches_of_two_le {result : Json} (hlen : 2 ≤ argv.length)
    (h : argvMatches result argv = true) :
    (result.get "argv").bind (Serde.vec Serde.string) = some argv := by
  unfold argvMatches at h
  split at h
  · next v hv =>
    rw [hv]
    simpa using h
  · split at h
    · simp at hlen
    · cases h

/-- What the loop over the evidence finds is the exit code of one result that still counts. -/
theorem checkExitLoop_some {wanted : Option Int} {code : Int}
    {as : List Attestation} (h : p.checkExitLoop c argv wanted as = some code) :
    ∃ a ∈ as, p.isRevoked c a.attestationId = false ∧ ∃ r ∈ p.records, r.id = a.attestationId ∧
      exitOf (checkResult r) argv wanted = some code := by
  induction as with
  | nil => cases h
  | cons a rest ih =>
    rw [checkExitLoop] at h
    split at h
    · exact (ih h).imp fun _ => And.imp_left (mem_cons_of_mem a)
    next hrev =>
    split at h
    · cases h
    next r hr =>
    cases hex : exitOf (checkResult r) argv wanted with
    | none =>
      rw [hex] at h
      exact (ih h).imp fun _ => And.imp_left (mem_cons_of_mem a)
    | some e =>
      rw [hex] at h
      cases h
      refine ⟨a, mem_cons_self, by simpa using hrev, r, mem_of_find?_eq_some hr, ?_, hex⟩
      simpa using find?_some hr

/-- A required check that counts as passed has passed. -/
theorem passed_of_checkOn {candidate : Option String} {name : String}
    (h : (p.checkOn c candidate name).result = .passed) :
    ∃ command s, (p.setting ("check." ++ name)).bind Json.asStr = some command ∧
      candidate = some s ∧ Passed c p s (checkArgv command) := by
  unfold checkOn requiredCheck at h
  cases hcmd : (p.setting ("check." ++ name)).bind Json.asStr with
  | none => simp [hcmd] at h
  | some command =>
    cases hcand : candidate with
    | none =>
      simp only [hcmd, hcand] at h
      simp at h
    | some s =>
      simp only [hcmd, hcand, Option.map_some, Option.getD_some, Option.any_some,
        Option.isNone_some, Bool.false_eq_true, if_false] at h
      split at h
      · next hpass =>
        obtain ⟨code, hcode⟩ := isSome_iff_exists.1 hpass
        obtain ⟨a, ha, hrev, r, hr, hid, hexit⟩ := checkExitLoop_some hcode
        refine ⟨command, s, rfl, rfl, a, mem_reverse.1 ha, hrev, r, hr, hid, ?_⟩
        unfold exitOf at hexit
        split at hexit
        · next hargv =>
          obtain ⟨he, hw⟩ := filter_eq_some_iff.1 hexit
          have hzero : 0 = code := by simpa using hw
          exact ⟨argvMatches_of_two_le (by simp [checkArgv]) hargv, hzero ▸ he⟩
        · cases hexit
      · split at h <;> cases h

/-! ## Approvals -/

variable {time : Int}

theorem getElem?_raiseTime {κ : Type} [Ord κ] [Std.TransOrd κ] [Std.LawfulEqOrd κ]
    {m : Std.ExtTreeMap κ Int} {k k' : κ} :
    (∃ t, (raiseTime m k time)[k']? = some t) ↔ k' = k ∨ ∃ t, m[k']? = some t := by
  unfold raiseTime
  by_cases h : k = k'
  · subst h
    simp
  · rw [Maps.getElem?_insert_ne h]
    simp [Ne.symm h]

variable {uid : UInt32} {subject : String}

/-- The users with a local approval are those of the attestations that count. -/
theorem mem_approvals_iff : (∃ time, (uid, time) ∈ p.approvals c subject) ↔
      ∃ e ∈ p.attestations, p.approvalCounts c subject e = true ∧
        (p.recordAt e.1).actor.uid = uid := by
  have hfold : ∀ (es : List (Nat × Attestation)) (m : Std.ExtTreeMap UInt32 Int),
      (∃ t, (es.foldl (fun m e => raiseTime m (p.recordAt e.1).actor.uid e.2.time) m)[uid]? =
        some t) ↔
        (∃ t, m[uid]? = some t) ∨ ∃ e ∈ es, (p.recordAt e.1).actor.uid = uid := by
    intro es
    induction es with
    | nil => simp
    | cons e es ih =>
      intro m
      rw [foldl_cons, ih, getElem?_raiseTime]
      simp only [exists_mem_cons_iff, eq_comm (a := uid)]
      tauto
  simp only [approvals, mem_toList_iff_getElem?_eq_some, hfold]
  simp [and_assoc]

def PersonApproves (c : Codec) (p : Project) (subject login : String) (e : Nat × Attestation) :
    Prop :=
  stripPrefix e.2.signer "person:" = some login ∧ e.2.subject.id = subject ∧
    e.2.kind = "approval" ∧ p.isRevoked c e.2.attestationId = false ∧
    p.personRecordPinned c (p.recordAt e.1) = true ∧
    ((p.recordAt e.1).data.get "declassify").isNone = true

/-- A person with an approval has a standing approval of the exact subject. -/
theorem exists_of_mem_personApprovals {login : String}
    (h : (login, time) ∈ p.personApprovals c subject) :
    ∃ e ∈ p.attestations, PersonApproves c p subject login e := by
  unfold personApprovals at h
  rw [mem_toList_iff_getElem?_eq_some] at h
  -- A fold that only adds persons with such an approval has no others.
  refine List.foldlRecOn (motive := fun m : BTreeMap Int => (∃ t, m[login]? = some t) →
    ∃ e ∈ p.attestations, PersonApproves c p subject login e) _ _ (by simp) (fun m ih e he h => ?_)
      ⟨time, h⟩
  split at h
  · exact ih h
  next login' hl =>
  split at h
  · next hc =>
    rcases getElem?_raiseTime.1 h with rfl | h
    · simp only [Bool.and_eq_true, beq_iff_eq, Bool.not_eq_true'] at hc
      exact ⟨e, he, hl, hc.1.1.1.1, hc.1.1.1.2, hc.1.1.2, hc.1.2, hc.2⟩
    · exact ih h
  · exact ih h

/-- What becomes of the approval of a user who wrote nothing that comes in. -/
def verdict (policy : Policy) (rule : Rule) (context : MergeContext) (a : Approval) :
    Option Approval :=
  if policy.mayApprove rule (approverWho context a.approver) then some a
  else if !context.approverGroups.contains a.approver && groupNeeded policy rule a.approver then
    some { a with met := none }
  else none

variable {context : MergeContext} {policy : Policy} {rule : Rule} {status : MergeStatus}
  {as : List Approval}

theorem foldl_judgeApproval : (as.foldl (judgeApproval policy rule context) status).approvals =
      status.approvals ++ as.filterMap (verdict policy rule context) ∧
    (as.foldl (judgeApproval policy rule context) status).allowed = status.allowed := by
  induction as generalizing status with
  | nil => simp
  | cons a as ih =>
    rw [foldl_cons, ih.1, ih.2, filterMap_cons]
    unfold judgeApproval verdict
    split
    · simp
    · split <;> simp

variable {a b : Approval}

/-- An approval that is decided is one of a user who may approve. -/
theorem verdict_eq_some (h : verdict policy rule context a = some b) (hmet : b.met ≠ none) :
    b = a ∧ policy.mayApprove rule (approverWho context a.approver) = true := by
  unfold verdict at h
  split at h
  · next hmay => exact ⟨(some.inj h).symm, hmay⟩
  · split at h
    · cases h
      exact absurd rfl hmet
    · cases h

/-! ## The decision taken apart -/

def listedApprovals (c : Codec) (p : Project) (rule : Rule) (state target : String)
    (context : MergeContext) : List Approval :=
  let policy := Policy.fromProject p context.now false
  let base := p.targetBase target context.now
  (p.countApprovals state base (approvalMode target) (p.approvals c state) fun _ => true).filterMap
    (verdict policy rule context) ++ p.allowedPersonApprovals c state base
      (approvalMode target) policy rule

variable {state target : String} {st : MergeStatus}

/-- A merge that is allowed without a rule passes the check of its action. -/
theorem allowed_of_no_rule (h : p.mergeStatusForMachine c state target context = .ok st)
    (hst : st.allowed = some true) (hrule : p.targetRule target context.now = none) : ∃ actor,
      context.actor = some actor ∧
      ((Policy.fromProject p context.now false).check actor (mergeAction target)).toBool =
          true := by
  unfold mergeStatusForMachine at h
  simp only [bind_eq_ok, context_eq_ok, hrule, pure_eq_ok] at h
  obtain ⟨_, -, rfl⟩ := h
  exact map_eq_some_iff.1 hst

theorem gatherStatus_allowed : (p.gatherStatus c state target context rule).allowed = none :=
  foldl_judgeApproval.2

theorem gatherStatus_approvals : (p.gatherStatus c state target context rule).approvals =
      listedApprovals c p rule state target context := by
  unfold gatherStatus listedApprovals
  simp only [foldl_judgeApproval.1]
  rfl

/-- What an allowed merge under a rule has, in the words of the code. -/
structure Allowed (c : Codec) (p : Project) (rule : Rule) (state target : String)
    (context : MergeContext) (st : MergeStatus) (actor : Who) : Prop where
  known : context.actor = some actor
  approvals : st.approvals = listedApprovals c p rule state target context
  decided : ∀ a ∈ st.approvals, a.met ≠ none
  role : rule.update ≤ (Policy.fromProject p context.now false).role actor
  notDenied : (Policy.fromProject p context.now false).deniedBy actor (mergeAction target) = none
  evidence : p.alreadyIn state target context.now = true ∨
    ((rule.approvals ≤ st.approvals.length ∨ (refNamespace target = false ∧ actor.uid = 0)) ∧
      (∀ name ∈ rule.check,
        (p.checkOn c (p.candidateOf state target context) name).result = .passed) ∧
      ∀ path ∈ context.changedPaths, rule.roleForPath path ≤
        (Policy.fromProject p context.now false).role actor)

theorem allowed_of_rule (h : p.mergeStatusForMachine c state target context = .ok st)
    (hst : st.allowed = some true) (hrule : p.targetRule target context.now = some rule) :
    ∃ actor, Allowed c p rule state target context st actor := by
  unfold mergeStatusForMachine at h
  simp only [bind_eq_ok, context_eq_ok, hrule] at h
  obtain ⟨_, -, h⟩ := h
  cases hactor : context.actor with
  | none =>
    simp only [hactor, pure_eq_ok] at h
    rw [← h, gatherStatus_allowed] at hst
    cases hst
  | some actor =>
    simp only [hactor] at h
    split at h
    · rw [pure_eq_ok] at h
      rw [← h] at hst
      exact absurd hst (by simp [gatherStatus_allowed])
    next hknown =>
    rw [pure_eq_ok] at h
    subst h
    have hrole : p.actorRole context = (Policy.fromProject p context.now false).role actor := by
      simp [actorRole, hactor]
    simp only [some.injEq, mayMerge, Bool.and_eq_true, Bool.or_eq_true, decide_eq_true_eq,
      isNone_iff_eq_none, hrole] at hst
    obtain ⟨⟨hupdate, hdeny⟩, hev⟩ := hst
    refine ⟨actor, hactor, gatherStatus_approvals, ?_, hupdate, hdeny, ?_⟩
    · simpa using hknown
    · refine hev.imp_right ?_
      rintro ⟨⟨⟨henough, hchecks⟩, hpaths⟩, -⟩
      refine ⟨?_, ?_, ?_⟩
      · simpa using henough
      · simpa [gatherStatus] using hchecks
      · simpa [gatherStatus, hactor, pathRequirements, hrole] using hpaths

/-! ## What comes in with a merge -/

def AlreadyIn (p : Project) (state target : String) (now : Int) : Prop :=
  refNamespace target = false ∧ ∃ base, p.targetBase target now = some base ∧
    p.history.Reaches base state

variable {now : Int}

theorem alreadyIn_iff : p.alreadyIn state target now = true ↔ AlreadyIn p state target now := by
  unfold alreadyIn AlreadyIn ancestors
  cases p.targetBase target now <;> simp [Search.Graph.mem_search]

/-- The merge brings the state in: the merged state is made from it and the target is not. A ref
always counts the merged state itself. -/
def BringsIn (p : Project) (state target : String) (now : Int) (id : String) : Prop :=
  (p.lineage (approvalMode target)).Reaches state id ∧
    ((∀ base, p.targetBase target now = some base →
        ¬ (p.lineage (approvalMode target)).Reaches base id) ∨
      (refNamespace target = true ∧ id = state))

theorem approvalMode_eq_ref {target : String} : approvalMode target = .ref ↔
    refNamespace target = true := by
  unfold approvalMode
  split <;> simp_all

theorem mem_incoming_iff {id : String} : id ∈ p.incoming (approvalMode target)
        (((p.targetBase target now).map (p.ancestry (approvalMode target))).getD []) state ↔
      BringsIn p state target now id := by
  unfold incoming ancestry BringsIn
  cases p.targetBase target now <;>
    simp [Search.Graph.mem_search, approvalMode_eq_ref]

/-- Source history is part of what a state is made from, in either mode. -/
theorem reaches_lineage {mode : ApprovalMode} {a b : String} (h : p.history.Reaches a b) :
    (p.lineage mode).Reaches a b := by
  cases mode with
  | merge => exact h
  | ref =>
    refine Relation.ReflTransGen.mono (fun x y hxy => ?_) a b h
    simp only [Search.Graph.Step, history, lineage, provenance] at hxy ⊢
    cases hx : p.state x with
    | none => simp [hx] at hxy
    | some s =>
      simp only [hx, Option.map_some, Option.getD_some] at hxy ⊢
      exact mem_append_left _ hxy

/-- Persons are excluded as authors of everything that the merge brings in. -/
theorem mem_incoming_person {id : String} (h : BringsIn p state target now id) :
    id ∈ p.incoming (approvalMode target) (((p.targetBase target now).map p.ancestors).getD [])
      state := by
  obtain ⟨hreach, hnew⟩ := h
  unfold incoming ancestry ancestors
  simp only [mem_filter, Search.Graph.mem_search, hreach, true_and, Bool.or_eq_true]
  rcases hnew with hnew | ⟨href, rfl⟩
  · left
    cases hbase : p.targetBase target now with
    | none => simp
    | some base =>
      simpa [Search.Graph.mem_search] using fun h => hnew base hbase (reaches_lineage h)
  · right
    simp [approvalMode_eq_ref.2 href]

/-! ## The safety of a decision -/

def principalOf (context : MergeContext) (a : Approval) : Principal :=
  match a.person with
  | none => .user (approverWho context a.approver)
  | some login => .person login

def Wrote (p : Project) (id : String) : Principal → Prop
  | .user who => ∃ s, p.state id = some s ∧ s.author.uid = who.uid
  | .person login => ∃ s, p.state id = some s ∧ s.author.email = login

/-- The principal has a standing approval of exactly this state, signed on the project's machine or,
for a person, under the pinned key. -/
def Approved (c : Codec) (p : Project) (state : String) : Principal → Prop
  | .user who => ∃ e ∈ p.attestations, p.approvalCounts c state e = true ∧
      (p.recordAt e.1).actor.uid = who.uid
  | .person login => ∃ e ∈ p.attestations, PersonApproves c p state login e

/-- A deny rule takes `approve` away from the principal. -/
def approveDenied (policy : Policy) : Principal → Bool
  | .user who => (policy.deniedBy who "approve").isSome
  | .person login => policy.personDenied login "approve"

structure GoodApproval (c : Codec) (p : Project) (rule : Rule) (state target : String)
    (context : MergeContext) (who : Principal) : Prop where
  approved : Approved c p state who
  mayApprove : (Policy.fromProject p context.now false).approves rule who = true
  notDenied : approveDenied (Policy.fromProject p context.now false) who = false
  notAuthor : ∀ id, BringsIn p state target context.now id → ¬ Wrote p id who

/-- What the evidence for a merge under a rule is meant to be. -/
structure GoodEvidence (c : Codec) (p : Project) (rule : Rule) (state target : String)
    (context : MergeContext) (st : MergeStatus) (actor : Who) : Prop where
  enough : rule.approvals ≤ st.approvals.length ∨ (refNamespace target = false ∧ actor.uid = 0)
  exact : ∀ a ∈ st.approvals, a.state = state
  approvals : ∀ a ∈ st.approvals, GoodApproval c p rule state target context (principalOf context a)
  distinct : (st.approvals.map (principalOf context)).Nodup
  checks : ∀ name ∈ rule.check, ∃ command s, (p.setting ("check." ++ name)).bind Json.asStr =
    some command ∧
      p.candidateOf state target context = some s ∧ Passed c p s (checkArgv command)
  paths : ∀ path ∈ context.changedPaths, rule.roleForPath path ≤
    (Policy.fromProject p context.now false).role actor

/-- What an allowed merge is meant to have, seen from the machine of the target. -/
structure SafeMerge (c : Codec) (p : Project) (state target : String) (context : MergeContext)
    (st : MergeStatus) (actor : Who) : Prop where
  known : context.actor = some actor
  notDenied : (Policy.fromProject p context.now false).deniedBy actor (mergeAction target) = none
  role : ∀ rule, p.targetRule target context.now = some rule →
    rule.update ≤ (Policy.fromProject p context.now false).role actor
  evidence : AlreadyIn p state target context.now ∨ ∀ rule,
    p.targetRule target context.now = some rule →
      GoodEvidence c p rule state target context st actor

/-- No user whose approval counts is denied `approve`. -/
def NoDeniedApprover (c : Codec) (p : Project) (state target : String) (context : MergeContext) :
    Prop :=
  ∀ rule, p.targetRule target context.now = some rule →
    ∀ uid, Approved c p state (.user (approverWho context uid)) →
    (∀ id, BringsIn p state target context.now id →
      ¬ Wrote p id (.user (approverWho context uid))) →
    (Policy.fromProject p context.now false).mayApprove rule (approverWho context uid) = true →
      (Policy.fromProject p context.now false).deniedBy (approverWho context uid) "approve" = none

/-! ## Counted approvals -/

section

variable {rule : Rule} {state target : String} {context : MergeContext} {st : MergeStatus}

/-- The user is no author of what comes in exactly if the list of those authors misses it. -/
theorem notMem_authors_iff (context : MergeContext) : uid ∉ (p.incoming (approvalMode target)
        (((p.targetBase target context.now).map (p.ancestry (approvalMode target))).getD [])
        state).filterMap (fun id => (p.state id).map (·.author.uid)) ↔
      ∀ id, BringsIn p state target context.now id →
        ¬ Wrote p id (.user (approverWho context uid)) := by
  simp [mem_incoming_iff, Wrote, approverWho]

theorem mem_userApprovals
    (ha : a ∈ (p.countApprovals state (p.targetBase target context.now) (approvalMode target)
      (p.approvals c state) fun _ => true).filterMap
        (verdict (Policy.fromProject p context.now false) rule context)) (hmet : a.met ≠ none) :
    ∃ uid time, a = ⟨uid, none, state, time, some true⟩ ∧ (uid, time) ∈ p.approvals c state ∧
      (Policy.fromProject p context.now false).mayApprove rule (approverWho context uid) = true ∧
      ∀ id, BringsIn p state target context.now id →
        ¬ Wrote p id (.user (approverWho context uid)) := by
  obtain ⟨b, hb, hab⟩ := mem_filterMap.1 ha
  obtain ⟨rfl, hmay⟩ := verdict_eq_some hab hmet
  simp only [countApprovals, mem_map, mem_filter, Bool.and_true, Bool.not_eq_true',
    contains_eq_mem, decide_eq_false_iff_not, notMem_authors_iff context] at hb
  obtain ⟨⟨uid, time⟩, ⟨hmem, hauthor⟩, rfl⟩ := hb
  exact ⟨uid, time, rfl, hmem, hmay, hauthor⟩

/-- Every user who has approved, may approve and wrote nothing that comes in is counted. -/
theorem mem_listedApprovals (hmem : (uid, time) ∈ p.approvals c state)
    (hmay : (Policy.fromProject p context.now false).mayApprove rule
      (approverWho context uid) = true)
    (hauthor : ∀ id, BringsIn p state target context.now id →
      ¬ Wrote p id (.user (approverWho context uid))) :
    ⟨uid, none, state, time, some true⟩ ∈ listedApprovals c p rule state target context := by
  refine mem_append_left _ (mem_filterMap.2 ⟨⟨uid, none, state, time, some true⟩, ?_, ?_⟩)
  · simp only [countApprovals, mem_map, mem_filter, Bool.and_true, Bool.not_eq_true',
      contains_eq_mem, decide_eq_false_iff_not]
    exact ⟨(uid, time), ⟨hmem, (notMem_authors_iff context).2 hauthor⟩, rfl⟩
  · rw [verdict, if_pos hmay]

theorem mem_personApprovals
    (ha : a ∈ p.allowedPersonApprovals c state (p.targetBase target context.now)
      (approvalMode target) (Policy.fromProject p context.now false) rule) :
    ∃ login time, a = ⟨2 ^ 32 - 1, some login, state, time, some true⟩ ∧
      GoodApproval c p rule state target context (.person login) := by
  simp only [allowedPersonApprovals, mem_map, mem_filter, Bool.and_eq_true,
    Bool.not_eq_true', contains_eq_mem, decide_eq_false_iff_not] at ha
  obtain ⟨⟨login, time⟩, ⟨hmem, hauthor, hmay⟩, rfl⟩ := ha
  refine ⟨login, time, rfl, exists_of_mem_personApprovals hmem, hmay, ?_, ?_⟩
  · simp only [Policy.personMayApprove, Bool.and_eq_true, Bool.not_eq_true'] at hmay
    exact hmay.1
  · rintro id hid ⟨s, hs, hlogin⟩
    refine hauthor (mem_flatMap.2 ⟨id, mem_incoming_person hid, ?_⟩)
    simp only [personAuthors, hs]
    exact hlogin ▸ mem_cons_self

/-- A verdict is about the same principal as the approval. -/
theorem principalOf_verdict
    (h : verdict policy rule context a = some b) :
    principalOf context b = principalOf context a := by
  unfold verdict at h
  split at h
  · cases h
    rfl
  · split at h
    · cases h
      rfl
    · cases h

/-- No two listed approvals are by the same principal. -/
theorem nodup_principals :
    ((listedApprovals c p rule state target context).map (principalOf context)).Nodup := by
  unfold listedApprovals countApprovals allowedPersonApprovals
  simp only [map_append, filterMap_map, map_filterMap]
  refine pairwise_append.2 ⟨?_, ?_, ?_⟩
  · refine List.Pairwise.filterMap _ ?_ (distinct_keys_toList.filter _)
    rintro ⟨uid, time⟩ ⟨uid', time'⟩ hne b hb b' hb' rfl
    obtain ⟨a, ha, rfl⟩ := map_eq_some_iff.1 hb
    obtain ⟨a', ha', heq⟩ := map_eq_some_iff.1 hb'
    rw [principalOf_verdict ha, principalOf_verdict ha'] at heq
    cases heq
    exact hne (by simp)
  · rw [map_map]
    refine List.Pairwise.map _ ?_ (distinct_keys_toList.filter _)
    rintro ⟨login, time⟩ ⟨login', time'⟩ hne heq
    cases heq
    exact hne (by simp)
  · rintro who hwho who' hwho' rfl
    obtain ⟨⟨uid, time⟩, -, hb⟩ := mem_filterMap.1 hwho
    obtain ⟨a, ha, rfl⟩ := map_eq_some_iff.1 hb
    rw [principalOf_verdict ha] at hwho'
    simp [principalOf] at hwho'

/-! ## The decision of one machine -/

variable {actor : Who}

theorem deniedBy_of_check {action : String}
    (h : (policy.check actor action).toBool = true) : policy.deniedBy actor action = none := by
  unfold Policy.check at h
  split at h
  · cases h
  · assumption

section

variable (h : Allowed c p rule state target context st actor)
  (hrule : p.targetRule target context.now = some rule)
include h hrule

/-- The approvals under a rule are good exactly if no counted user is denied `approve`. -/
theorem goodApprovals_iff :
    (∀ a ∈ st.approvals, GoodApproval c p rule state target context (principalOf context a)) ↔
      NoDeniedApprover c p state target context := by
  constructor
  · intro hgood rule' hrule' uid happroved hauthor hmay
    cases hrule.symm.trans hrule'
    obtain ⟨time, hmem⟩ := mem_approvals_iff.2 happroved
    have hlisted := mem_listedApprovals hmem hmay hauthor
    rw [← h.approvals] at hlisted
    simpa [approveDenied, principalOf, approverWho] using (hgood _ hlisted).notDenied
  · intro hno a ha
    have hmet := h.decided a ha
    rw [h.approvals] at ha
    rcases mem_append.1 ha with ha | ha
    · obtain ⟨uid, time, rfl, hmem, hmay, hauthor⟩ := mem_userApprovals ha hmet
      have happroved : Approved c p state (.user (approverWho context uid)) :=
        mem_approvals_iff.1 ⟨time, hmem⟩
      have hdeny := hno rule hrule uid happroved hauthor hmay
      exact ⟨happroved, hmay, by simp [approveDenied, principalOf, hdeny], hauthor⟩
    · obtain ⟨login, time, rfl, hgood⟩ := mem_personApprovals ha
      exact hgood

/-- Under a rule all but the deny rules of the approvers is sure. -/
theorem goodEvidence_iff (hin : ¬ AlreadyIn p state target context.now) :
    GoodEvidence c p rule state target context st actor ↔
      NoDeniedApprover c p state target context := by
  rw [← goodApprovals_iff h hrule]
  refine ⟨fun hev => hev.approvals, fun hgood => ?_⟩
  rw [← alreadyIn_iff] at hin
  obtain ⟨henough, hchecks, hpaths⟩ := h.evidence.resolve_left hin
  refine ⟨henough, fun a ha => ?_, hgood, ?_, fun name hname =>
    passed_of_checkOn (hchecks name hname), hpaths⟩
  · have hmet := h.decided a ha
    rw [h.approvals] at ha
    rcases mem_append.1 ha with ha | ha
    · obtain ⟨uid, time, rfl, -⟩ := mem_userApprovals ha hmet
      rfl
    · obtain ⟨login, time, rfl, -⟩ := mem_personApprovals ha
      rfl
  · rw [h.approvals]
    exact nodup_principals

end

/-- One machine's decision is safe exactly if the state is in already or no counted user is denied
`approve`. -/
theorem safeMerge_iff (h : p.mergeStatusForMachine c state target context = .ok st)
    (hst : st.allowed = some true) : (∃ actor, SafeMerge c p state target context st actor) ↔
      AlreadyIn p state target context.now ∨ NoDeniedApprover c p state target context := by
  cases hrule : p.targetRule target context.now with
  | none =>
    obtain ⟨actor, hactor, hcheck⟩ := allowed_of_no_rule h hst hrule
    constructor
    · intro _
      exact .inr fun rule hr => by simp [hrule] at hr
    · intro _
      refine ⟨actor, hactor, deniedBy_of_check hcheck, ?_, .inr ?_⟩ <;> intro rule hr <;>
        simp [hrule] at hr
  | some rule =>
    obtain ⟨actor, hallowed⟩ := allowed_of_rule h hst hrule
    by_cases hin : AlreadyIn p state target context.now
    · refine ⟨fun _ => .inl hin, fun _ => ⟨actor, hallowed.known, hallowed.notDenied, ?_, .inl hin⟩⟩
      intro rule' hr
      cases hrule.symm.trans hr
      exact hallowed.role
    rw [or_iff_right hin, ← goodEvidence_iff hallowed hrule hin]
    constructor
    · rintro ⟨actor', hsafe⟩
      cases hallowed.known.symm.trans hsafe.known
      exact hsafe.evidence.resolve_left hin rule hrule
    · intro hev
      refine ⟨actor, hallowed.known, hallowed.notDenied, ?_, .inr ?_⟩ <;> intro rule' hr <;>
        cases hrule.symm.trans hr
      · exact hallowed.role
      · exact hev

/-! ## The decision -/

/-- The view whose policy decides about the target: that of the target's machine. -/
def Decides (c : Codec) (p : Project) (target : String) (q : Project) : Prop :=
  ∃ machine, p.targetMachine target = some machine ∧
    if machine ≠ p.machine then fromRecords c p.id p.records machine = .ok q else q = p

theorem Decides.unique {q q' : Project} (h : Decides c p target q) (h' : Decides c p target q') :
    q = q' := by
  obtain ⟨m, hm, hq⟩ := h
  obtain ⟨m', hm', hq'⟩ := h'
  cases hm.symm.trans hm'
  split at hq
  · next hne =>
    rw [if_pos hne, hq] at hq'
    exact Except.ok.inj hq'
  · next heq =>
    rw [if_neg heq] at hq'
    exact hq.trans hq'.symm

/-- A decision is made from the view of the target's machine. -/
theorem exists_decides (h : p.mergeStatus c state target context = .ok st)
    (hst : st.allowed = some true) :
    ∃ q, Decides c p target q ∧ q.mergeStatusForMachine c state target context = .ok st := by
  unfold mergeStatus at h
  cases hm : p.targetMachine target with
  | none =>
    rw [hm] at h
    cases h
    cases hst
  | some machine =>
    simp only [hm] at h
    split at h
    · next hne =>
      rw [bind_eq_ok] at h
      obtain ⟨q, hq, h⟩ := h
      exact ⟨q, ⟨machine, hm, by rwa [if_pos hne]⟩, h⟩
    · next heq => exact ⟨p, ⟨machine, hm, by rw [if_neg heq]⟩, h⟩

/-- An allowed merge is safe exactly if the state is in the target already or no user whose approval
counts is denied `approve`. -/
theorem mergeStatus_safe_iff (h : p.mergeStatus c state target context = .ok st)
    (hst : st.allowed = some true) :
    (∃ q, Decides c p target q ∧ ∃ actor, SafeMerge c q state target context st actor) ↔
      ∃ q, Decides c p target q ∧
        (AlreadyIn q state target context.now ∨ NoDeniedApprover c q state target context) := by
  obtain ⟨q, hq, hstatus⟩ := exists_decides h hst
  have hiff := safeMerge_iff hstatus hst
  constructor
  · rintro ⟨q', hq', hsafe⟩
    obtain rfl := hq.unique hq'
    exact ⟨q, hq, hiff.1 hsafe⟩
  · rintro ⟨q', hq', hcond⟩
    obtain rfl := hq.unique hq'
    exact ⟨q, hq, hiff.2 hcond⟩

end

end

/-! ## A denied approver counts -/

namespace DeniedApprover

def machine : String := "01a12290-0000-7000-8000-000000000001"

def line : String := "01a12290-0000-7000-8000-000000000002"

/-- The head of the line, and the state that is merged. -/
def base : String := "01a12290-0000-7000-8000-000000000003"

def work : String := "01a12290-0000-7000-8000-000000000004"

def settings (deny : Json) : Record where
  id := "01a12290-0000-7000-8000-000000000005"
  machine := machine
  seq := 1
  time := 1
  op := "project"
  lines := (∅ : BTreeMap LineChange).insert line
    { before := none, after := some ⟨"main", base, 1001, machine⟩ }
  states := [{ id := base, author := { uid := 1001 } }]
  data := .obj [("config", .obj [("access", .obj [("*", .str "writer")]), ("deny", deny),
    ("protect", .obj [("main", .obj [("update", .str "writer"), ("approvals", .int 1),
      ("approvers", .arr [.str "user:1000"])])])])]

def save : Record where
  id := "01a12290-0000-7000-8000-000000000006"
  machine := machine
  seq := 2
  time := 2
  op := "save"
  states := [{ id := work, parents := [base], author := { uid := 1001 } }]

def approve : Record where
  id := "01a12290-0000-7000-8000-000000000007"
  machine := machine
  seq := 3
  time := 3
  op := "approve"
  actor := { uid := 1000 }
  data := .obj [("state", .str work)]

def codec : Codec :=
  { Codec.silent with verifies := fun _ _ => true, decodeKey := fun _ => some () }

def project (deny : Json) : Project :=
  (fromRecords codec "" [settings deny, save, approve] machine).toOption.getD
    { id := "", machine := machine }

def context : MergeContext where
  now := 4
  actor := some ⟨1001, []⟩
  approverGroups := ∅
  changedPaths := []
  candidate := none

def denyApprove : Json := .obj [("user:1000", .arr [.str "approve"])]

/-- The answer to user 1001 and the approvals it counts. -/
def decision (deny : Json) : Option (Option Bool × List Approval) :=
  ((project deny).mergeStatus codec work "main" context).toOption.map fun st =>
    (st.allowed, st.approvals)

theorem decision_denyApprove : decision denyApprove =
    some (some true, [⟨1000, none, work, 3, some true⟩]) := by
  decide +kernel

/-- The merge is under a rule and brings something in, and user 1000 is denied `approve`. -/
theorem project_facts : (project denyApprove).targetMachine "main" =
    some (project denyApprove).machine ∧
      (project denyApprove).alreadyIn work "main" context.now = false ∧
      ((project denyApprove).targetRule "main" context.now).isSome = true ∧
      approveDenied (Policy.fromProject (project denyApprove) context.now false)
        (principalOf context ⟨1000, none, work, 3, some true⟩) = true := by
  decide +kernel

/-- With the rule that user 1000 may not approve, the approval of user 1000 still lets user 1001
merge. -/
theorem deniedApprover_not_safe :
    ¬ ∀ (c : Codec) (p : Project) (state target : String) (context : MergeContext)
        (st : MergeStatus), p.mergeStatus c state target context = .ok st → st.allowed = some true →
        ∃ q, Decides c p target q ∧ ∃ actor, SafeMerge c q state target context st actor := by
  intro hall
  obtain ⟨st, hst, heq⟩ := map_eq_some_iff.1 decision_denyApprove
  obtain ⟨hallowed, happrovals⟩ := Prod.mk.inj heq
  obtain ⟨q, hq, actor, hsafe⟩ := hall _ _ _ _ _ st (toOption_eq_some.1 hst) hallowed
  obtain ⟨hmachine, hin, hrule, hdenied⟩ := project_facts
  have hself : Decides codec (project denyApprove) "main" (project denyApprove) :=
    ⟨_, hmachine, by rw [if_neg (not_not.2 rfl)]⟩
  obtain rfl := hself.unique hq
  obtain ⟨rule, hrule⟩ := isSome_iff_exists.1 hrule
  have hnew : ¬ AlreadyIn (project denyApprove) work "main" context.now := by
    rw [← alreadyIn_iff, hin]
    exact Bool.false_ne_true
  have hgood := (hsafe.evidence.resolve_left hnew rule hrule).approvals
    ⟨1000, none, work, 3, some true⟩ (by rw [happrovals]; exact mem_cons_self)
  exact absurd (hdenied.symm.trans hgood.notDenied) (by simp)

theorem mergeStatus_safe_iff_denyApprove :
    ∃ st, (project denyApprove).mergeStatus codec work "main" context = .ok st ∧
      st.allowed = some true ∧
      ((∃ q, Decides codec (project denyApprove) "main" q ∧
        ∃ actor, SafeMerge codec q work "main" context st actor) ↔
        ∃ q, Decides codec (project denyApprove) "main" q ∧ (AlreadyIn q work "main" context.now ∨
            NoDeniedApprover codec q work "main" context)) := by
  obtain ⟨st, hst, heq⟩ := map_eq_some_iff.1 decision_denyApprove
  have hok := toOption_eq_some.1 hst
  have hallowed := (Prod.mk.inj heq).1
  exact ⟨st, hok, hallowed, mergeStatus_safe_iff hok hallowed⟩

end DeniedApprover

end Project

end Layr
