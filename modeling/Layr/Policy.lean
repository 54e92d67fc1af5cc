import Layr.Json

/-!
# The access policy

Roles, protection rules and the policy that holds them (`layr-model/src/policy.rs`). A policy is
data read from signed settings; who asks, with which groups, comes from the caller. A rule of a
line is the combination of the rules of every pattern that matches the line's name.
-/

namespace Layr

/-! ## Roles -/

/-- The roles of a project, from the lowest to the highest. -/
inductive Role where
  | none
  | reader
  | writer
  | maintainer
  | admin
deriving DecidableEq, Repr, Inhabited

namespace Role

/-- The place of a role in the declaration order of the enumeration. -/
def rank : Role → Nat
  | .none => 0
  | .reader => 1
  | .writer => 2
  | .maintainer => 3
  | .admin => 4

theorem rank_injective : Function.Injective rank := by
  intro a b h
  cases a <;> cases b <;> first | rfl | cases h

/-- The derived order: roles compare by their place in the enumeration. -/
instance : LinearOrder Role := LinearOrder.lift' rank rank_injective

instance : OrderBot Role where
  bot := .none
  bot_le a := Nat.zero_le a.rank

def parse (s : String) : Option Role :=
  if s = "none" then some .none
  else if s = "reader" then some .reader
  else if s = "writer" then some .writer
  else if s = "maintainer" then some .maintainer
  else if s = "admin" then some .admin
  else Option.none

def name : Role → String
  | .none => "none"
  | .reader => "reader"
  | .writer => "writer"
  | .maintainer => "maintainer"
  | .admin => "admin"

end Role

/-- The actions of a project and the lowest role that takes each one. -/
def actions : List (String × Role) :=
  [("read", .reader), ("try", .reader), ("export", .reader), ("line.create", .writer),
    ("merge", .writer), ("line.manage", .maintainer), ("tag", .maintainer),
    ("push", .maintainer), ("access", .admin), ("config", .admin), ("remote", .admin),
    ("sync", .admin), ("gc", .admin), ("records", .admin), ("fsck", .admin)]

def actionRole (action : String) : Option Role := actions.lookup action

/-! ## Globs -/

/-- Whether the byte `c` is in the set of a `[...]` item: single bytes and ranges `a-b`. -/
def globSet (c : UInt8) : List UInt8 → Bool
  | a :: d :: b :: rest =>
    if d = 45 then (a ≤ c && c ≤ b) || globSet c rest
    else c == a || globSet c (d :: b :: rest)
  | a :: rest => c == a || globSet c rest
  | [] => false

/-- One pattern item at `p[i]` against the byte `c`: the length of the item if it matches. -/
def globItem (p : List UInt8) (i : Nat) (c : UInt8) : Option Nat :=
  match p.drop i with
  | [] => none
  | x :: rest =>
    if x = 63 then some 1
    else if x = 91 then
      match rest.findIdx? (· == 93) with
      | some off =>
        let set := rest.take off
        let neg := set.head? == some 33 || set.head? == some 94
        let set := if neg then set.tail else set
        if globSet c set != neg then some (off + 2) else none
      | none => if c = 91 then some 1 else none
    else if x = c then some 1 else none

/-- What is left to do in the loop of `glob`: the text bytes the last `*` may still take, then the
text bytes to match, then the pattern bytes. -/
def globMeasure (plen slen i j : Nat) (star : Option (Nat × Nat)) : Nat :=
  (star.elim (slen + 1) fun t => slen - t.2) * ((slen + 1) * (plen + 1)) +
    ((slen - j) * (plen + 1) + (plen - i))

section

variable {plen slen i j : Nat}

theorem globMeasure_rest_lt (plen slen i j : Nat) :
    (slen - j) * (plen + 1) + (plen - i) < (slen + 1) * (plen + 1) := by
  have h : (slen - j) * (plen + 1) ≤ slen * (plen + 1) :=
    Nat.mul_le_mul_right _ (Nat.sub_le _ _)
  rw [Nat.add_mul]
  omega

variable {star : Option (Nat × Nat)}

/-- A `*` becomes the last one: it stands no earlier in the text than the one before. -/
theorem globMeasure_star (hstar : ∀ t ∈ star, t.2 ≤ j) (hi : i < plen) :
    globMeasure plen slen (i + 1) j (some (i, j)) < globMeasure plen slen i j star := by
  have h : (slen - j) * ((slen + 1) * (plen + 1)) ≤
      (star.elim (slen + 1) fun t => slen - t.2) * ((slen + 1) * (plen + 1)) := by
    apply Nat.mul_le_mul_right
    cases star with
    | none => simp only [Option.elim_none]; omega
    | some t =>
      have := hstar t rfl
      simp only [Option.elim_some]
      omega
  simp only [globMeasure, Option.elim_some]
  omega

theorem globMeasure_match (n : Nat) (hj : j < slen) :
    globMeasure plen slen (i + n) (j + 1) star < globMeasure plen slen i j star := by
  have h : (slen - j) * (plen + 1) = (slen - (j + 1)) * (plen + 1) + (plen + 1) := by
    rw [show slen - j = slen - (j + 1) + 1 by omega, Nat.add_mul, Nat.one_mul]
  simp only [globMeasure]
  omega

theorem globMeasure_retry {si sj : Nat} (hsj : sj < slen) :
    globMeasure plen slen (si + 1) (sj + 1) (some (si, sj + 1)) < globMeasure plen slen i j
      (some (si, sj)) := by
  have h : (slen - sj) * ((slen + 1) * (plen + 1)) =
      (slen - (sj + 1)) * ((slen + 1) * (plen + 1)) + (slen + 1) * (plen + 1) := by
    rw [show slen - sj = slen - (sj + 1) + 1 by omega, Nat.add_mul, Nat.one_mul]
  have hlt := globMeasure_rest_lt plen slen (si + 1) (sj + 1)
  simp only [globMeasure, Option.elim_some]
  omega

end

/-- The loop of `glob`: positions `i` in the pattern and `j` in the text, and the positions of the
last `*` seen. -/
def globLoop (p s : List UInt8) (i j : Nat) (star : Option (Nat × Nat))
    (hstar : ∀ t ∈ star, t.2 ≤ j) : Bool :=
  if hj : j < s.length then
    if hi : i < p.length ∧ p[i]? = some 42 then
      globLoop p s (i + 1) j (some (i, j)) (by simp)
    else
      match globItem p i s[j] with
      | some n => globLoop p s (i + n) (j + 1) star fun t ht => Nat.le_succ_of_le (hstar t ht)
      | none =>
        match star with
        -- Let the last `*` take one more byte and try again from there.
        | some (si, sj) => globLoop p s (si + 1) (sj + 1) (some (si, sj + 1)) (by simp)
        | none => false
  else ((p.drop i).dropWhile (· == 42)).isEmpty
termination_by globMeasure p.length s.length i j star
decreasing_by
  · exact globMeasure_star hstar hi.1
  · exact globMeasure_match n hj
  · exact globMeasure_retry (Nat.lt_of_le_of_lt (hstar (si, sj) rfl) hj)

/-- Whether the text matches the glob pattern, byte by byte. -/
def glob (pat s : String) : Bool :=
  globLoop pat.toUTF8.data.toList s.toUTF8.data.toList 0 0 none (by simp)

def trimSlashes (s : String) : String :=
  String.ofList (s.toList.reverse.dropWhile (· == '/')).reverse

/-- A path rule matches the path itself, everything below a folder, or a glob. -/
def pathMatches (pattern path : String) : Bool :=
  let p := trimSlashes pattern
  path == p || startsWith path (p ++ "/") || glob p path

/-! ## Protection rules -/

/-- A protection rule of a line or ref name pattern, as stored. -/
structure RuleSpec where
  update : Option String := none
  expect : Option Bool := none
  check : List String := []
  direct : Option Bool := none
  rewrite : Option String := none
  /-- Paths (a folder, a file or a glob) whose change needs a higher role than `update`. -/
  paths : BTreeMap String := ∅
  /-- Approvals of the merged state that a merge needs. -/
  approvals : Option Nat := none
  /-- Who may approve: principals (an approver matches all of them); none: a maintainer. -/
  approvers : List String := []
deriving DecidableEq, Inhabited

/-- The rule that applies to a line or ref: every matching pattern combined. -/
structure Rule where
  update : Role
  expect : Bool
  check : List String
  direct : Bool
  rewrite : Role
  paths : BTreeMap Role
  approvals : Nat
  approvers : List String
deriving DecidableEq, Inhabited

/-- The role a merge needs that changes `path`: `update`, or higher for a path rule. -/
def Rule.roleForPath (r : Rule) (path : String) : Role :=
  ((r.paths.toList.filter fun e => pathMatches e.1 path).map (·.2)).foldl max r.update

/-- The role of a setting. An unknown role name is the most restrictive one: admin. -/
def roleOr (s : Option String) (default : Role) : Role :=
  (s.map fun x => (Role.parse x).getD .admin).getD default

/-- The rule of one stored pattern, with its defaults. -/
def RuleSpec.rule (s : RuleSpec) : Rule where
  update := roleOr s.update .maintainer
  expect := s.expect.getD true
  check := s.check
  direct := s.direct.getD false
  rewrite := roleOr s.rewrite .admin
  paths := s.paths.map fun _ r => (Role.parse r).getD .admin
  approvals := s.approvals.getD 0
  approvers := s.approvers

/-- Push the texts of the second list that the first does not hold yet. -/
def pushMissing (c xs : List String) : List String :=
  xs.foldl (fun c x => if x ∈ c then c else c ++ [x]) c

/-- `entry(p).or_insert(role)`, raised to `role`, for each path rule of the second map. -/
def mergePaths (m r : BTreeMap Role) : BTreeMap Role :=
  r.toList.foldl (fun m e => m.insert e.1 (max (m[e.1]?.getD e.2) e.2)) m

/-- The combination of the rules so far with the rule of one more pattern. -/
def Rule.combine (o r : Rule) : Rule where
  update := max o.update r.update
  expect := o.expect || r.expect
  check := pushMissing o.check r.check
  direct := o.direct && r.direct
  rewrite := max o.rewrite r.rewrite
  paths := mergePaths o.paths r.paths
  approvals := max o.approvals r.approvals
  approvers := pushMissing o.approvers r.approvers

/-! ## Policies -/

structure Who where
  uid : UInt32
  groups : List UInt32
deriving DecidableEq, Repr, Inhabited

def Who.keys (w : Who) : List String :=
  ("user:" ++ toString w.uid) :: (w.groups.map fun g => "group:" ++ toString g) ++ ["*"]

structure Policy where
  access : BTreeMap Role := ∅
  /-- Roles given for a time: principal to role and end. They add to the role in `access`. -/
  grants : BTreeMap (Role × Int) := ∅
  deny : BTreeMap (List String) := ∅
  protect : BTreeMap RuleSpec := ∅
deriving Inhabited

namespace Policy

variable (P : Policy)

/-- The highest role that `access` or `grants` gives to one of the principals. -/
def roleOfKeys (keys : List String) : Role :=
  ((keys.flatMap fun k => [P.access[k]?, P.grants[k]?.map (·.1)]).filterMap id).max?.getD .none

/-- Whether a deny entry of the principal names the action or everything. -/
def denies (action k : String) : Bool :=
  P.deny[k]?.any fun v => v.any fun a => a == action || a == "*"

def personKeys (login : String) : List String := ["person:" ++ login, "*"]

/-- The role of a person. Persons never inherit root's role. -/
def personRole (login : String) : Role := P.roleOfKeys (personKeys login)

/-- Whether a deny rule takes the action away from a person. -/
def personDenied (login action : String) : Bool :=
  (personKeys login).any (P.denies action)

def personMayApprove (rule : Rule) (login : String) : Bool :=
  !P.personDenied login "approve" && if rule.approvers.isEmpty then decide
    (.maintainer ≤ P.personRole login)
    else rule.approvers.all fun p => p == "*" || p == "person:" ++ login

/-- The highest role of the user, its groups and everyone. Root is admin. -/
def role (who : Who) : Role :=
  if who.uid = 0 then .admin else P.roleOfKeys who.keys

/-- The principal whose deny rule takes the action away, if any. Never for root. -/
def deniedBy (who : Who) (action : String) : Option String :=
  if who.uid = 0 then none else who.keys.find? (P.denies action)

/-- Whether `who` may take the action, with the reason when not. -/
def check (who : Who) (action : String) : Except String Unit :=
  match P.deniedBy who action with
  | some k => .error ("a deny rule for " ++ k ++ " takes '" ++ action ++ "' away")
  | none =>
    let need := (actionRole action).getD .admin
    let have' := P.role who
    if have' < need then
      .error ("'" ++ action ++ "' needs the role " ++ need.name ++ "; you are " ++ have'.name)
    else .ok ()

/-- Whether a pattern names the line: as a text or as a glob. -/
def matchesLine (pat line : String) : Bool := pat == line || glob pat line

/-- The rule of a line or ref: all matching patterns, in the order of the patterns. -/
def ruleFor (line : String) : Option Rule :=
  P.protect.toList.foldl (fun out e =>
    if matchesLine e.1 line then
      match out with
      | none => some e.2.rule
      | some o => some (o.combine e.2.rule)
    else out) none

/-- Whether `who` may approve for a rule: it matches every listed principal, or with none listed
it has the maintainer role. -/
def mayApprove (rule : Rule) (who : Who) : Bool :=
  if rule.approvers.isEmpty then decide (.maintainer ≤ P.role who)
  else rule.approvers.all fun a => who.keys.contains a

end Policy

end Layr
