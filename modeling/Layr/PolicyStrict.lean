import Layr.Lib.Join
import Layr.Lib.Tables
import Layr.Policy

/-!
# How strict a combined rule is

A line that several patterns match has one rule, combined from theirs. The settings of a rule are
ordered by how much they demand, and in that order the combined rule is a least upper bound of the
matching rules: it demands what each of them demands and nothing else. Every permission that a rule
gives shrinks when its settings grow, with one exception. An empty list of approvers stands for the
maintainer role, so the list that demands nothing of its own is not the weakest one. A pattern
without approvers next to a pattern with approvers loses its demand for the role.
-/

namespace Layr

open List

/-! ## The order of rules -/

/-- The second map has every path rule of the first, with the same role or a higher one. -/
def PathsLe (m m' : BTreeMap Role) : Prop :=
  ∀ (p : String) (role : Role), m[p]? = some role → ∃ role', m'[p]? = some role' ∧ role ≤ role'

/-- Every setting of the second rule demands what the same setting of the first does. -/
structure Rule.Le (r r' : Rule) : Prop where
  update : r.update ≤ r'.update
  expect : r.expect = true → r'.expect = true
  check : r.check ⊆ r'.check
  direct : r'.direct = true → r.direct = true
  rewrite : r.rewrite ≤ r'.rewrite
  paths : PathsLe r.paths r'.paths
  approvals : r.approvals ≤ r'.approvals
  approvers : r.approvers ⊆ r'.approvers

theorem PathsLe.refl (m : BTreeMap Role) : PathsLe m m := fun _ role h => ⟨role, h, le_rfl⟩

theorem PathsLe.trans {m m' m'' : BTreeMap Role} (h : PathsLe m m') (h' : PathsLe m' m'') :
    PathsLe m m'' := by
  intro p role hp
  obtain ⟨role', hp', hle⟩ := h p role hp
  obtain ⟨role'', hp'', hle'⟩ := h' p role' hp'
  exact ⟨role'', hp'', hle.trans hle'⟩

instance : Preorder Rule where
  le := Rule.Le
  le_refl _ := ⟨le_rfl, id, fun _ => id, id, le_rfl, .refl _, le_rfl, fun _ => id⟩
  le_trans _ _ _ h h' := {
    update := h.update.trans h'.update
    expect := h'.expect ∘ h.expect
    check := fun _ hx => h'.check (h.check hx)
    direct := h.direct ∘ h'.direct
    rewrite := h.rewrite.trans h'.rewrite
    paths := h.paths.trans h'.paths
    approvals := h.approvals.trans h'.approvals
    approvers := fun _ hx => h'.approvers (h.approvers hx) }

/-! ## The combination of two rules -/

@[simp] theorem mem_pushMissing {x : String} {c xs : List String} : x ∈ pushMissing c xs ↔
    x ∈ c ∨ x ∈ xs := by
  unfold pushMissing
  induction xs generalizing c with
  | nil => simp
  | cons y xs ih =>
    rw [foldl_cons, ih]
    split <;> grind

/-- The path rules after one more rule for the path `p`. -/
theorem getElem?_insert_max (m : BTreeMap Role) (p q : String) (role : Role) :
    (m.insert p (max (m[p]?.getD role) role))[q]? = if p = q then some (max (m[q]?.getD role) role)
      else m[q]? := by
  rw [getElem?_insert]
  by_cases h : p = q
  · subst h
    simp
  · simp [h]

/-- Inserting a list of path rules reaches the least map above the first and above each rule. -/
theorem foldl_insert_max (es : List (String × Role)) (m : BTreeMap Role) :
    let m' := es.foldl (fun m e => m.insert e.1 (max (m[e.1]?.getD e.2) e.2)) m
    PathsLe m m' ∧ (∀ e ∈ es, ∃ role, m'[e.1]? = some role ∧ e.2 ≤ role) ∧
      ∀ u, PathsLe m u → (∀ e ∈ es, ∃ role, u[e.1]? = some role ∧ e.2 ≤ role) → PathsLe m' u := by
  induction es generalizing m with
  | nil => exact ⟨.refl m, by simp, fun u hu _ => hu⟩
  | cons e es ih =>
    obtain ⟨hle, hmem, hleast⟩ := ih (m.insert e.1 (max (m[e.1]?.getD e.2) e.2))
    have hstep : PathsLe m (m.insert e.1 (max (m[e.1]?.getD e.2) e.2)) := by
      intro q role hq
      rw [getElem?_insert_max]
      split
      · exact ⟨_, rfl, by simp [hq]⟩
      · exact ⟨role, hq, le_rfl⟩
    refine ⟨hstep.trans hle, fun d hd => ?_, fun u hu hes => hleast u ?_ fun d hd => ?_⟩
    · rcases mem_cons.1 hd with rfl | hd
      · obtain ⟨role, hr, hge⟩ := hle d.1 (max (m[d.1]?.getD d.2) d.2) (by
          rw [getElem?_insert_max, if_pos rfl])
        exact ⟨role, hr, le_trans (le_max_right _ _) hge⟩
      · exact hmem d hd
    · intro q role hq
      rw [getElem?_insert_max] at hq
      split at hq
      · next h =>
        subst h
        cases hq
        obtain ⟨role', hr', hge⟩ := hes e mem_cons_self
        cases hm : m[e.1]? with
        | none => exact ⟨role', hr', by simpa using hge⟩
        | some old =>
          obtain ⟨role'', hr'', hge'⟩ := hu e.1 old hm
          cases hr'.symm.trans hr''
          exact ⟨role', hr', max_le (by simpa using hge') hge⟩
      · exact hu q role hq
    · exact hes d (mem_cons_of_mem _ hd)

theorem pathsLe_iff_toList {m u : BTreeMap Role} :
    PathsLe m u ↔ ∀ e ∈ m.toList, ∃ role, u[e.1]? = some role ∧ e.2 ≤ role := by
  constructor
  · intro h e he
    exact h e.1 e.2 (mem_toList_iff_getElem?_eq_some.1 he)
  · intro h p role hp
    exact h (p, role) (mem_toList_iff_getElem?_eq_some.2 hp)

/-- The merged path rules are a least upper bound of the two maps. -/
theorem mergePaths_lub (m r : BTreeMap Role) : PathsLe m (mergePaths m r) ∧
    PathsLe r (mergePaths m r) ∧
      ∀ u, PathsLe m u → PathsLe r u → PathsLe (mergePaths m r) u := by
  obtain ⟨hle, hmem, hleast⟩ := foldl_insert_max r.toList m
  exact ⟨hle, pathsLe_iff_toList.2 hmem, fun u hm hr => hleast u hm (pathsLe_iff_toList.1 hr)⟩

/-- The combination of two rules demands what both demand and nothing else. -/
theorem Rule.combine_isLUB (o r : Rule) : IsLUB {o, r} (o.combine r) := by
  obtain ⟨hpo, hpr, hpu⟩ := mergePaths_lub o.paths r.paths
  refine ⟨fun a ha => ?_, fun u hu => ?_⟩
  · rcases ha with rfl | rfl
    · exact {
        update := le_max_left _ _
        expect := fun h => by simp [combine, h]
        check := fun _ hx => mem_pushMissing.2 (.inl hx)
        direct := fun h => (Bool.and_eq_true_iff.1 h).1
        rewrite := le_max_left _ _
        paths := hpo
        approvals := le_max_left _ _
        approvers := fun _ hx => mem_pushMissing.2 (.inl hx) }
    · exact {
        update := le_max_right _ _
        expect := fun h => by simp [combine, h]
        check := fun _ hx => mem_pushMissing.2 (.inr hx)
        direct := fun h => (Bool.and_eq_true_iff.1 h).2
        rewrite := le_max_right _ _
        paths := hpr
        approvals := le_max_right _ _
        approvers := fun _ hx => mem_pushMissing.2 (.inr hx) }
  · have ho : o ≤ u := hu (by simp)
    have hr : r ≤ u := hu (by simp)
    exact {
      update := max_le ho.update hr.update
      expect := fun h => (Bool.or_eq_true_iff.1 h).elim ho.expect hr.expect
      check := fun _ hx => (mem_pushMissing.1 hx).elim (fun h => ho.check h) fun h => hr.check h
      direct := fun h => Bool.and_eq_true_iff.2 ⟨ho.direct h, hr.direct h⟩
      rewrite := max_le ho.rewrite hr.rewrite
      paths := hpu u.paths ho.paths hr.paths
      approvals := max_le ho.approvals hr.approvals
      approvers := fun _ hx =>
        (mem_pushMissing.1 hx).elim (fun h => ho.approvers h) fun h => hr.approvers h }

/-! ## The rule of a line -/

variable {P : Policy} {line : String} {r r' : Rule} {spec : RuleSpec}

namespace Policy

def Matching (P : Policy) (line : String) (spec : RuleSpec) : Prop :=
  ∃ pat, P.protect[pat]? = some spec ∧ matchesLine pat line = true

/-- The matching pattern rules, in the order of the patterns. -/
def matching (P : Policy) (line : String) : List RuleSpec :=
  (P.protect.toList.filter fun e => matchesLine e.1 line).map (·.2)

theorem mem_matching : spec ∈ P.matching line ↔ P.Matching line spec := by
  simp only [matching, Matching, mem_map, mem_filter, Prod.exists, mem_toList_iff_getElem?_eq_some]
  grind

theorem ruleFor_eq_all (P : Policy) (line : String) :
    P.ruleFor line = Join.all Rule.combine ((P.matching line).map RuleSpec.rule) := by
  rw [Join.all, matching, map_map,
    ← Join.foldl_filter_map Rule.combine (fun e : String × RuleSpec => matchesLine e.1 line)]
  unfold ruleFor
  congr 1
  funext out e
  cases out <;> rfl

theorem Matching.exists_ruleFor (h : P.Matching line spec) : ∃ r, P.ruleFor line = some r := by
  rw [ruleFor_eq_all]
  exact Join.all_isSome_of_mem _ (mem_map_of_mem (mem_matching.2 h))

theorem exists_matching (h : P.ruleFor line = some r) : ∃ spec, P.Matching line spec := by
  rw [ruleFor_eq_all] at h
  obtain ⟨_, ha⟩ := Join.exists_mem_of_all _ h
  obtain ⟨spec, hspec, -⟩ := mem_map.1 ha
  exact ⟨spec, mem_matching.1 hspec⟩

/-- The rule of a line is a least upper bound of the rules of the patterns that match it. -/
theorem ruleFor_isLUB (h : P.ruleFor line = some r) :
    IsLUB {r' | ∃ spec, P.Matching line spec ∧ spec.rule = r'} r := by
  rw [ruleFor_eq_all] at h
  have hlub := Join.all_isLUB Rule.combine_isLUB h
  simpa only [mem_map, mem_matching] using hlub

/-- The combined rule lists exactly the approvers that a matching pattern lists. -/
theorem mem_ruleFor_approvers (h : P.ruleFor line = some r) {a : String} :
    a ∈ r.approvers ↔ ∃ spec, P.Matching line spec ∧ a ∈ spec.approvers := by
  have hlub := ruleFor_isLUB h
  constructor
  · intro ha
    by_contra hno
    -- Without `a` the combined rule is still above every matching rule, so it is not the least.
    have hub : r ≤ { r with approvers := r.approvers.filter (· ≠ a) } := by
      refine hlub.2 ?_
      rintro _ ⟨spec, hs, rfl⟩
      have hle : spec.rule ≤ r := hlub.1 ⟨spec, hs, rfl⟩
      refine { hle with approvers := fun x hx => ?_ }
      have hne : x ≠ a := by
        rintro rfl
        exact hno ⟨spec, hs, hx⟩
      exact mem_filter.2 ⟨hle.approvers hx, by simpa using hne⟩
    have hmem := hub.approvers ha
    simp at hmem
  · rintro ⟨spec, hs, ha⟩
    have hle : spec.rule ≤ r := hlub.1 ⟨spec, hs, rfl⟩
    exact hle.approvers ha

def addPattern (P : Policy) (pat : String) (spec : RuleSpec) : Policy :=
  { P with protect := P.protect.insert pat spec }

/-- What matched before a new pattern matches after it. -/
theorem Matching.addPattern {line pat : String}
    (h : P.Matching line spec) (hnew : P.protect[pat]? = none) (new : RuleSpec) :
    (P.addPattern pat new).Matching line spec := by
  obtain ⟨p, hp, hm⟩ := h
  refine ⟨p, ?_, hm⟩
  have hne : pat ≠ p := by
    rintro rfl
    rw [hnew] at hp
    cases hp
  rw [Policy.addPattern, getElem?_insert]
  simpa [hne] using hp

/-- A new pattern only raises the rule of a line. -/
theorem ruleFor_le_addPattern {line pat : String} {new : RuleSpec}
    (hnew : P.protect[pat]? = none) (h : P.ruleFor line = some r)
    (h' : (P.addPattern pat new).ruleFor line = some r') : r ≤ r' := by
  refine (ruleFor_isLUB h).2 ?_
  rintro _ ⟨spec, hs, rfl⟩
  exact (ruleFor_isLUB h').1 ⟨spec, hs.addPattern hnew new, rfl⟩

end Policy

/-! ## What a rule permits -/

/-- Who asks: a user of a machine with its groups, or a person. -/
inductive Principal where
  | user (who : Who)
  | person (login : String)

/-- The names under which the settings can name the principal. -/
def Principal.keys : Principal → List String
  | .user who => who.keys
  | .person login => Policy.personKeys login

/-- The kinds of change that a rule of a line decides. -/
inductive Access where
  | update
  | rewrite
  | direct
  | path (path : String)
  | approve

variable {who : Principal}

namespace Policy

def roleOf (P : Policy) : Principal → Role
  | .user who => P.role who
  | .person login => P.personRole login

def approves (P : Policy) (r : Rule) : Principal → Bool
  | .user who => P.mayApprove r who
  | .person login => P.personMayApprove r login

/-- Whether the rule lets the principal make the change. -/
def Permits (P : Policy) (r : Rule) (who : Principal) : Access → Prop
  | .update => r.update ≤ P.roleOf who
  | .rewrite => r.rewrite ≤ P.roleOf who
  | .direct => r.direct = true
  | .path path => r.roleForPath path ≤ P.roleOf who
  | .approve => P.approves r who = true

/-- The deny rules take the approvals of the principal away: only a person's, as the code has it. -/
def barred (P : Policy) : Principal → Bool
  | .user _ => false
  | .person login => P.personDenied login "approve"

/-- Who approves under a rule: whoever matches every listed approver, or with none listed a
maintainer. -/
theorem approves_iff : P.approves r who = true ↔ P.barred who = false ∧
      if r.approvers = [] then .maintainer ≤ P.roleOf who else ∀ a ∈ r.approvers, a ∈ who.keys := by
  cases who with
  | user who =>
    simp only [approves, mayApprove, barred, roleOf, Principal.keys, List.isEmpty_iff]
    split <;> simp
  | person login =>
    simp only [approves, personMayApprove, barred, roleOf, Principal.keys, personKeys,
      List.isEmpty_iff, Bool.and_eq_true, Bool.not_eq_true']
    split <;> simp [or_comm]

end Policy

/-- The role a path needs is at most `b` when `update` and every matching path rule is. -/
theorem Rule.roleForPath_le {path : String} {b : Role} : r.roleForPath path ≤ b ↔ r.update ≤ b ∧
      ∀ pat role, r.paths[pat]? = some role → pathMatches pat path = true → role ≤ b := by
  simp only [roleForPath, Tables.foldl_max_le_iff, mem_map, mem_filter, Prod.exists,
    mem_toList_iff_getElem?_eq_some]
  grind

/-- A stricter rule needs at least as high a role for every path. -/
theorem Rule.roleForPath_mono (h : r ≤ r') (path : String) :
    r.roleForPath path ≤ r'.roleForPath path := by
  obtain ⟨hupdate, hpaths⟩ := roleForPath_le.1 (le_refl (r'.roleForPath path))
  refine roleForPath_le.2 ⟨h.update.trans hupdate, fun pat role hp hm => ?_⟩
  obtain ⟨role', hp', hle⟩ := h.paths pat role hp
  exact hle.trans (hpaths pat role' hp' hm)

/-- Under `P` the rule `r` is at least as strict as the rule `r'` is under `P'`. -/
structure Policy.Stricter (P : Policy) (r : Rule) (P' : Policy) (r' : Rule) : Prop where
  permits : ∀ who change, P.Permits r who change → P'.Permits r' who change
  check : ∀ c ∈ r'.check, c ∈ r.check
  approvals : r'.approvals ≤ r.approvals
  expect : r'.expect = true → r.expect = true

/-- A rule with higher settings is stricter, where the roles are the same, once everybody who
approves under it approves under the other. -/
theorem Policy.Stricter.of_le {P P' : Policy} (hrole : ∀ who, P.roleOf who = P'.roleOf who)
    (h : r' ≤ r) (happrove : ∀ who, P.approves r who = true → P'.approves r' who = true) :
    P.Stricter r P' r' where
  permits who change := by
    cases change with
    | update => exact fun hp => h.update.trans (hp.trans (hrole who).le)
    | rewrite => exact fun hp => h.rewrite.trans (hp.trans (hrole who).le)
    | direct => exact h.direct
    | path path => exact fun hp => (Rule.roleForPath_mono h path).trans (hp.trans (hrole who).le)
    | approve => exact happrove who
  check _ hc := h.check hc
  __ := h

/-! ## Strictness of the combined rule -/

namespace Policy

/-- The combined rule of a line is at least as strict as the rule of each pattern that matches, and
as the combined rule before any one of the patterns was added. A line that no pattern matches has no
rule: it is outside, and its default is the callers'. -/
structure RuleForStrict (P : Policy) (line : String) : Prop where
  each : ∀ spec, P.Matching line spec → ∃ r, P.ruleFor line = some r ∧ P.Stricter r P spec.rule
  adding : ∀ P₀ pat spec, P₀.protect[pat]? = none → P = P₀.addPattern pat spec →
    ∀ r₀, P₀.ruleFor line = some r₀ → ∃ r, P.ruleFor line = some r ∧ P.Stricter r P₀ r₀

/-- Whoever matches every approver that the matching patterns list, and may approve at all, is a
maintainer, as soon as one matching pattern lists no approver and another does. -/
def ApproversAreMaintainers (P : Policy) (line : String) : Prop :=
  (∃ spec, P.Matching line spec ∧ spec.approvers = []) →
    (∃ spec, P.Matching line spec ∧ spec.approvers ≠ []) →
      ∀ who, P.barred who = false →
        (∀ spec, P.Matching line spec → ∀ a ∈ spec.approvers, a ∈ who.keys) →
          .maintainer ≤ P.roleOf who

theorem roleOf_addPattern (P : Policy) (pat : String) (spec : RuleSpec) (who : Principal) :
    (P.addPattern pat spec).roleOf who = P.roleOf who := by
  cases who <;> rfl

/-- Who approves under the rule of every matching pattern approves under the combined rule. -/
theorem approves_ruleFor (h : P.ruleFor line = some r)
    (hall : ∀ spec, P.Matching line spec → P.approves spec.rule who = true) :
    P.approves r who = true := by
  obtain ⟨spec, hs⟩ := exists_matching h
  obtain ⟨hbar, hspec⟩ := approves_iff.1 (hall spec hs)
  refine approves_iff.2 ⟨hbar, ?_⟩
  split
  · next hnil =>
    have hempty : spec.rule.approvers = [] := by
      refine eq_nil_iff_forall_not_mem.2 fun a ha => ?_
      have := (mem_ruleFor_approvers h).2 ⟨spec, hs, ha⟩
      simp [hnil] at this
    rwa [if_pos hempty] at hspec
  · intro a ha
    obtain ⟨spec', hs', ha'⟩ := (mem_ruleFor_approvers h).1 ha
    have hne : spec'.rule.approvers ≠ [] := ne_nil_of_mem ha'
    have hkeys := (approves_iff.1 (hall spec' hs')).2
    rw [if_neg hne] at hkeys
    exact hkeys a ha'

/-- Who approves under the combined rule approves under each matching one, if listed approvers
leave the maintainer role in place. -/
theorem ApproversAreMaintainers.approves (hmain : P.ApproversAreMaintainers line)
    (h : P.ruleFor line = some r) (hs : P.Matching line spec) (hw : P.approves r who = true) :
    P.approves spec.rule who = true := by
  obtain ⟨hbar, hr⟩ := approves_iff.1 hw
  have hsub : ∀ a ∈ spec.approvers, a ∈ r.approvers := fun a ha =>
    (mem_ruleFor_approvers h).2 ⟨spec, hs, ha⟩
  refine approves_iff.2 ⟨hbar, ?_⟩
  by_cases hnil : r.approvers = []
  · have hempty : spec.rule.approvers = [] := by
      refine eq_nil_iff_forall_not_mem.2 fun a ha => ?_
      simpa [hnil] using hsub a ha
    rw [if_pos hnil] at hr
    rwa [if_pos hempty]
  rw [if_neg hnil] at hr
  split
  · next hempty =>
    obtain ⟨a, ha⟩ := exists_mem_of_ne_nil _ hnil
    obtain ⟨spec', hs', ha'⟩ := (mem_ruleFor_approvers h).1 ha
    exact hmain ⟨spec, hs, hempty⟩ ⟨spec', hs', ne_nil_of_mem ha'⟩ who hbar
      fun spec'' hs'' b hb => hr b ((mem_ruleFor_approvers h).2 ⟨spec'', hs'', hb⟩)
  · exact fun a ha => hr a (hsub a ha)

/-- The combined rule of a line is as strict as each matching rule, and adding a pattern weakens no
rule, exactly when no list of approvers lets somebody below maintainer approve where a matching
pattern asks for a maintainer. All other permissions, the required checks and the number of
approvals never get weaker. -/
theorem ruleForStrict_iff (P : Policy) (line : String) : P.RuleForStrict line ↔
    P.ApproversAreMaintainers line := by
  constructor
  · rintro hstrict ⟨spec, hs, hnil⟩ ⟨spec', hs', hne⟩ who hbar hkeys
    obtain ⟨r, hr, hle⟩ := hstrict.each spec hs
    have hrne : r.approvers ≠ [] := by
      obtain ⟨a, ha⟩ := exists_mem_of_ne_nil _ hne
      exact ne_nil_of_mem ((mem_ruleFor_approvers hr).2 ⟨spec', hs', ha⟩)
    have hw : P.approves r who = true := by
      refine approves_iff.2 ⟨hbar, ?_⟩
      rw [if_neg hrne]
      intro a ha
      obtain ⟨spec'', hs'', ha'⟩ := (mem_ruleFor_approvers hr).1 ha
      exact hkeys spec'' hs'' a ha'
    have hspec := (approves_iff.1 (hle.permits who .approve hw)).2
    rwa [if_pos (show spec.rule.approvers = [] from hnil)] at hspec
  · intro hmain
    refine ⟨fun spec hs => ?_, ?_⟩
    · obtain ⟨r, hr⟩ := hs.exists_ruleFor
      have hle : spec.rule ≤ r := (ruleFor_isLUB hr).1 ⟨spec, hs, rfl⟩
      exact ⟨r, hr, .of_le (fun _ => rfl) hle fun who hw => hmain.approves hr hs hw⟩
    · rintro P₀ pat spec hnew rfl r₀ hr₀
      obtain ⟨spec₀, hs₀⟩ := exists_matching hr₀
      obtain ⟨r, hr⟩ := (hs₀.addPattern hnew spec).exists_ruleFor
      refine ⟨r, hr, .of_le (roleOf_addPattern P₀ pat spec) (ruleFor_le_addPattern hnew hr₀ hr)
        fun who hw => approves_ruleFor hr₀ fun spec' hs' => ?_⟩
      exact hmain.approves hr (hs'.addPattern hnew spec) hw

/-- Every line needs one approval of a maintainer. -/
def maintainerApproves : RuleSpec := { approvals := some 1 }

def groupApproves : RuleSpec := { approvers := ["group:50"] }

/-- Everybody writes; every line is under the first rule and `main` also under the second. -/
def approverGap : Policy where
  access := (∅ : BTreeMap Role).insert "*" .writer
  protect := ((∅ : BTreeMap RuleSpec).insert "*" maintainerApproves).insert "main" groupApproves

/-- On `main` a writer of the group approves, where the pattern `*` asks for a maintainer. -/
theorem approverGap_not_strict :
    approverGap.ruleFor "main" = some (maintainerApproves.rule.combine groupApproves.rule) ∧
      approverGap.mayApprove (maintainerApproves.rule.combine groupApproves.rule) ⟨1000, [50]⟩ ∧
      ¬ approverGap.mayApprove maintainerApproves.rule ⟨1000, [50]⟩ ∧
        ¬ approverGap.RuleForStrict "main" := by
  have hrule : approverGap.ruleFor "main" =
      some (maintainerApproves.rule.combine groupApproves.rule) := by decide +kernel
  have happrove : approverGap.mayApprove (maintainerApproves.rule.combine groupApproves.rule)
      ⟨1000, [50]⟩ = true := by decide +kernel
  have hown : ¬ approverGap.mayApprove maintainerApproves.rule ⟨1000, [50]⟩ := by decide +kernel
  refine ⟨hrule, happrove, hown, fun hstrict => hown ?_⟩
  obtain ⟨r, hr, hle⟩ := hstrict.each maintainerApproves ⟨"*", by decide +kernel, by decide +kernel⟩
  cases hr.symm.trans hrule
  exact hle.permits (.user ⟨1000, [50]⟩) .approve happrove

end Policy

end Layr
