import Skep.Coordination.Derive
import Skep.Coordination.Noninterference
import Skep.Coordination.Scheduler

/-!
# The registration of rules

A submitted rule is validated once: its domain against the checker, its trigger against the
domain's elements, its action against the catalog. What passes joins the working set, under an
identifier that no other rule of the handle has. The lint for termination reads what validation
yields.
-/

namespace Coordination

/-- What a handle answers of definitions: the referent of a reference asked for at a level, and
the status of a start. -/
structure DefHandle where
  resolve : Resolver
  status : Address → DefStatus

/-- What the handle answers are definitions, each checked over definitions. -/
structure DefHandle.Answers (handle : DefHandle) (cat : TypeCatalog) (defs : DefSource) : Prop where
  resolved : ∀ a level r, handle.resolve a level = .ok r → defs a = some r ∧ Checked cat defs r
  defined : ∀ a tt, handle.status a = .defined tt → defs a = some tt ∧ Checked cat defs tt

inductive Trigger where
  | inline (trigger : TriggerTerm)
  | defAt (addr : Address)

/-- A rule as it is submitted. -/
structure Rule where
  domain : Dom
  trigger : Trigger
  view : View
  action : FireAction

/-- A rule whose inline trigger the checker built. -/
def Rule.Built (cat : TypeCatalog) (defs : DefSource) (rule : Rule) : Prop :=
  ∀ t, rule.trigger = .inline t → Checked cat defs t.term

inductive RuleError where
  | refBearingInlineTrigger
  | refBearingDomain
  | illFormedDomain (e : TypeError)
  | domainTriggerSortMismatch (expected found : ValueSort)
  | triggerNotBoolean
  | undefinedDefTrigger (addr : Address)
  | badTriggerArity
  | triggerExpansionTooLarge
  | badMarkerType (ty : TypeKey)
  | nonIdemMarkerType (ty : TypeKey)
  | predLayerMarkerType (ty : TypeKey)
  deriving DecidableEq

/-- What validation decides: the checked domain, the trigger, and the tree that the lint and the
armer graph read of it. -/
structure Validated where
  domain : CheckedDom
  trigger : TriggerTerm
  flatExpansion : Term

inductive RuleCertification where
  | certifiedTerminating
  | uncertified (sf marker growOnly : Bool)
  deriving DecidableEq, Repr

namespace Coordinator

variable (co : Coordinator) (handle : DefHandle)

/-- A definition with one parameter and a truth value, as a trigger captures it. -/
def captureDef (d : TypedTerm) : Outcome RuleError TriggerTerm :=
  match hparams : d.params with
  | [param] =>
      if hresult : d.result = .bool then .ok ⟨d, param, hparams, hresult⟩ else .err .triggerNotBoolean
  | _ => .err .badTriggerArity

/-- The trigger of a rule whose elements have the sort, and its flat expansion. A trigger without
references is its own. -/
def validateTrigger (elemSort : ValueSort) : Trigger → Outcome RuleError (TriggerTerm × Term)
  | .inline t => do
      Outcome.refuseIf (t.term.refFree = false) .refBearingInlineTrigger
      Outcome.refuseIf (t.param.2 ≠ elemSort) (.domainTriggerSortMismatch elemSort t.param.2)
      return (t, t.term.evaluable)
  | .defAt addr => do
      match handle.status addr with
      | .defined d => do
          let t ← captureDef d
          Outcome.refuseIf (t.param.2 ≠ elemSort) (.domainTriggerSortMismatch elemSort t.param.2)
          let flatExpansion ← (expand co.defs d.evaluable).mapErr fun _ => .triggerExpansionTooLarge
          return (t, flatExpansion)
      | .undisciplined | .neverRegistered => .err (.undefinedDefTrigger addr)

/-- The type of a marker: of one slot, idempotent, and none that the definitions' own writers
deposit. -/
def validateAction : FireAction → Outcome RuleError Unit
  | .marker _ ty => do
      let entry ← Outcome.okOr (co.catalog.get ty) (.badMarkerType ty)
      Outcome.refuseIf (entry.isUnary = false) (.badMarkerType ty)
      Outcome.refuseIf (entry.isIdem = false) (.nonIdemMarkerType ty)
      Outcome.refuseIf (co.catalog.isPredLayer entry.coverage = true) (.predLayerMarkerType ty)
  | .nullify _ => return ()

/-- The one validation: the domain, then the trigger, then the action. -/
def validateRule (rule : Rule) : Outcome RuleError Validated := do
  let domain ← (checkClosedDom ⟨co.catalog, handle.resolve⟩ rule.domain).mapErr .illFormedDomain
  Outcome.refuseIf (domain.refFree = false) .refBearingDomain
  let (trigger, flatExpansion) ← co.validateTrigger handle domain.elem rule.trigger
  co.validateAction rule.action
  return ⟨domain, trigger, flatExpansion⟩

/-- Validate a rule and add it to the working set. -/
def registerRule (rule : Rule) : Outcome RuleError (Coordinator × ℕ) := do
  let validated ← co.validateRule handle rule
  let id := co.nextRuleId
  return ({ co with
    nextRuleId := id + 1
    rules := co.rules ++ [⟨id, validated.domain, validated.trigger, rule.view, rule.action, none⟩] }, id)

/-- Whether a fire deposits the very membership that the trigger denies. -/
def markerLeg (rule : Rule) (validated : Validated) : Outcome Empty Bool :=
  match rule.action with
  | .marker _ ty =>
      if rule.view = .audit then do
        match ← negatedMembership validated.flatExpansion validated.trigger.param.1 with
        | some witnessTy => return (← co.catalog.classOf witnessTy) = (← co.catalog.classOf ty)
        | none => return false
      else return false
  | .nullify _ => return false

/-- Lint a rule for termination: a trigger that stays false, a marker that makes it so, and a
domain that only grows. -/
def certifyRule (rule : Rule) : Outcome RuleError RuleCertification := do
  let validated ← co.validateRule handle rule
  let analysis ← (analyzeTerm ⟨co.catalog, rule.view, false⟩ validated.flatExpansion).expect
  let marker ← (co.markerLeg rule validated).expect
  let domain ← (analyzeDom ⟨co.catalog, rule.view, false⟩ validated.domain.dom).expect
  if analysis.sf && marker && domain.growOnly then return .certifiedTerminating
  else return .uncertified analysis.sf marker domain.growOnly

/-- A registered rule, and what validation made of its submission. -/
structure Registered (raw : Rule) (flatExpansion : Term) (rule : CheckedRule) : Prop where
  validated : co.validateRule handle raw = .ok ⟨rule.domain, rule.trigger, flatExpansion⟩
  view : rule.view = raw.view
  action : rule.action = raw.action

/-- What registrations and turns make of an empty handle. -/
inductive WorkingSet (cat : TypeCatalog) (defs : DefSource) : Coordinator → Prop
  | new : WorkingSet cat defs ⟨cat, defs, [], 1, 0⟩
  | register {co co' : Coordinator} {rule : Rule} {id : ℕ} (h : WorkingSet cat defs co) (hbuilt : rule.Built cat defs)
      (hreg : co.registerRule handle rule = .ok (co', id)) : WorkingSet cat defs co'
  | turn {co co' : Coordinator} {snap : CoordinationWorld} {attempt : Attempt} {outcome : StepOutcome}
      (h : WorkingSet cat defs co) (hstep : co.step snap attempt = .ok (co', outcome)) : WorkingSet cat defs co'

variable {co handle}

theorem captureDef_eq_ok {d : TypedTerm} {t : TriggerTerm} (h : captureDef d = .ok t) : t.term = d := by
  unfold captureDef at h
  split at h
  · split at h
    · cases h
      rfl
    · cases h
  · cases h

/-- The flat expansion of a trigger is its own term, or what the term expands to. -/
def FlatOf (defs : DefSource) (t : TypedTerm) (flat : Term) : Prop :=
  t.refFree = true ∧ flat = t.evaluable ∨ expand defs t.evaluable = .ok flat

/-- What a validated rule is: a domain and a trigger that the checker accepted, the trigger over
the domain's elements, and a marker that dedups. -/
theorem validateRule_spec {rule : Rule} {v : Validated} (hans : handle.Answers co.catalog co.defs)
    (hbuilt : rule.Built co.catalog co.defs) (h : co.validateRule handle rule = .ok v) :
    CheckedClosed co.catalog co.defs v.domain ∧ v.domain.refFree = true ∧ Checked co.catalog co.defs v.trigger.term ∧
      v.trigger.param.2 = v.domain.elem ∧ FlatOf co.defs v.trigger.term v.flatExpansion ∧
      ∀ home ty, rule.action = .marker home ty → ∃ e, co.catalog.get ty = some e ∧ e.isUnary = true ∧ e.isIdem = true ∧
        co.catalog.isPredLayer e.coverage = false := by
  simp only [validateRule, Outcome.bind_eq_ok_iff, Outcome.mapErr_eq_ok_iff, Prod.exists, Outcome.pure_eq,
    Outcome.ok.injEq, Outcome.refuseIf_eq_ok_iff, Bool.not_eq_false] at h
  obtain ⟨domain, hdomain, _, hfree, trigger, flat, htrigger, _, haction, rfl⟩ := h
  have hclosed : CheckedClosed co.catalog co.defs domain := .intro rfl (fun a _ => hans.resolved a) hdomain
  have haction' : ∀ home ty, rule.action = .marker home ty → ∃ e, co.catalog.get ty = some e ∧ e.isUnary = true ∧
      e.isIdem = true ∧ co.catalog.isPredLayer e.coverage = false := by
    intro home ty heq
    simp only [heq, validateAction, Outcome.bind_eq_ok_iff, Outcome.okOr_eq_ok_iff, Outcome.refuseIf_eq_ok_iff,
      Bool.not_eq_false, Bool.not_eq_true] at haction
    obtain ⟨e, he, -, hunary, -, hidem, hlayer⟩ := haction
    exact ⟨e, he, hunary, hidem, hlayer⟩
  refine ⟨hclosed, hfree, ?_⟩
  cases hraw : rule.trigger with
  | inline t =>
    simp only [hraw, validateTrigger, Outcome.bind_eq_ok_iff, Outcome.refuseIf_eq_ok_iff, Bool.not_eq_false, not_not,
      Outcome.pure_eq, Outcome.ok.injEq, Prod.mk.injEq] at htrigger
    obtain ⟨-, hown, -, hsort, rfl, rfl⟩ := htrigger
    exact ⟨hbuilt t hraw, hsort, Or.inl ⟨hown, rfl⟩, haction'⟩
  | defAt addr =>
    rw [hraw, validateTrigger] at htrigger
    cases hstatus : handle.status addr with
    | defined d =>
      simp only [hstatus, Outcome.bind_eq_ok_iff, Outcome.refuseIf_eq_ok_iff, not_not, Outcome.mapErr_eq_ok_iff,
        Outcome.pure_eq, Outcome.ok.injEq, Prod.mk.injEq] at htrigger
      obtain ⟨t, hcapture, -, hsort, flat', hflat, rfl, rfl⟩ := htrigger
      obtain rfl := captureDef_eq_ok hcapture
      exact ⟨(hans.defined addr _ hstatus).2, hsort, Or.inr hflat, haction'⟩
    | undisciplined | neverRegistered =>
      rw [hstatus] at htrigger
      cases htrigger

/-- Validation reads the catalog and the definitions alone. -/
theorem validateRule_congr {co co' : Coordinator} (hcat : co'.catalog = co.catalog) (hdefs : co'.defs = co.defs)
    (rule : Rule) : co'.validateRule handle rule = co.validateRule handle rule := by
  have htrigger : ∀ s t, co'.validateTrigger handle s t = co.validateTrigger handle s t := by
    intro s t
    cases t with
    | inline => rfl
    | defAt => rw [validateTrigger, validateTrigger, hdefs]
  have haction : ∀ a, co'.validateAction a = co.validateAction a := by
    intro a
    cases a with
    | marker => rw [validateAction, validateAction, hcat]
    | nullify => rfl
  simp only [validateRule, hcat, htrigger, haction]

/-- The invariant of a working set. -/
structure WellRegistered (cat : TypeCatalog) (defs : DefSource) (handle : DefHandle) (co : Coordinator) : Prop where
  sameCatalog : co.catalog = cat
  sameDefs : co.defs = defs
  ids : co.rules.map CheckedRule.id = List.range' 1 co.rules.length
  next : co.nextRuleId = co.rules.length + 1
  registered : ∀ rule ∈ co.rules, ∃ raw flat, raw.Built cat defs ∧ co.Registered handle raw flat rule

theorem WellRegistered.register {cat : TypeCatalog} {defs : DefSource} {co' : Coordinator} {rule : Rule} {id : ℕ}
    (h : co.WellRegistered cat defs handle) (hbuilt : rule.Built cat defs)
    (hreg : co.registerRule handle rule = .ok (co', id)) : co'.WellRegistered cat defs handle := by
  simp only [registerRule, Outcome.bind_eq_ok_iff, Outcome.pure_eq, Outcome.ok.injEq, Prod.mk.injEq] at hreg
  obtain ⟨⟨domain, trigger, flat⟩, hvalid, rfl, rfl⟩ := hreg
  refine ⟨h.sameCatalog, h.sameDefs, ?_, ?_, fun r hr => ?_⟩
  · simp only [List.map_append, List.map_cons, List.map_nil, h.ids, List.length_append, List.length_cons,
      List.length_nil, h.next]
    rw [List.range'_concat, Nat.one_mul, Nat.add_comm 1]
  · simp only [List.length_append, List.length_cons, List.length_nil, h.next]
  · rcases List.mem_append.1 hr with hr | hr
    · obtain ⟨raw, flat, hraw, hvalidated, hview, haction⟩ := h.registered r hr
      exact ⟨raw, flat, hraw, (validateRule_congr rfl rfl raw).trans hvalidated, hview, haction⟩
    · obtain rfl := List.mem_singleton.1 hr
      exact ⟨rule, flat, hbuilt, (validateRule_congr rfl rfl rule).trans hvalid, rfl, rfl⟩

theorem rotate_ids (idx : ℕ) (arg : Arg) : (co.rotate idx arg).rules.map CheckedRule.id = co.rules.map CheckedRule.id := by
  refine List.ext_getElem? fun j => ?_
  rw [List.getElem?_map, List.getElem?_map, rotate_rules, Option.map_map]
  congr 1
  funext rule
  simp only [Function.comp_apply]
  split <;> rfl

theorem WellRegistered.rotate {cat : TypeCatalog} {defs : DefSource} (h : co.WellRegistered cat defs handle) (idx : ℕ)
    (arg : Arg) : (co.rotate idx arg).WellRegistered cat defs handle := by
  refine ⟨h.sameCatalog, h.sameDefs, ?_, ?_, fun r hr => ?_⟩
  · rw [rotate_length, rotate_ids, h.ids]
  · rw [rotate_length]
    exact h.next
  · obtain ⟨j, hj⟩ := List.getElem?_of_mem hr
    rw [rotate_rules, Option.map_eq_some_iff] at hj
    obtain ⟨rule, hget, rfl⟩ := hj
    obtain ⟨raw, flat, hraw, hvalidated, hview, haction⟩ := h.registered rule (List.mem_of_getElem? hget)
    refine ⟨raw, flat, hraw, ?_⟩
    split
    · exact ⟨(validateRule_congr rfl rfl raw).trans hvalidated, hview, haction⟩
    · exact ⟨(validateRule_congr rfl rfl raw).trans hvalidated, hview, haction⟩

/-- **Every rule of a working set was validated, and no two have one identifier.** -/
theorem WorkingSet.registered {cat : TypeCatalog} {defs : DefSource} {co : Coordinator} (h : WorkingSet handle cat defs co) :
    co.WellRegistered cat defs handle := by
  induction h with
  | new => exact ⟨rfl, rfl, rfl, rfl, List.forall_mem_nil _⟩
  | register _ hbuilt hreg ih => exact ih.register hbuilt hreg
  | turn _ hstep ih =>
    rcases step_eq_ok hstep with ⟨-, rfl, -⟩ | ⟨idx, rule, arg, -, rfl, -⟩
    · exact ih
    · exact ih.rotate idx arg

theorem WellRegistered.find {cat : TypeCatalog} {defs : DefSource} (h : co.WellRegistered cat defs handle) {idx : ℕ}
    {rule : CheckedRule} (hget : co.rules[idx]? = some rule) : co.rules.find? (fun r => r.id == rule.id) = some rule := by
  have hids : (co.rules.map CheckedRule.id).Nodup := h.ids ▸ List.nodup_range'
  obtain ⟨found, hfound⟩ := Option.isSome_iff_exists.1
    (List.find?_isSome.2 ⟨rule, List.mem_of_getElem? hget, beq_self_eq_true rule.id⟩ :
      (co.rules.find? fun r => r.id == rule.id).isSome = true)
  have hid : found.id = rule.id := by simpa using List.find?_some hfound
  rw [hfound, List.inj_on_of_nodup_map hids (List.mem_of_find?_eq_some hfound) (List.mem_of_getElem? hget) hid]

/-- What registration has checked of a registered rule. -/
theorem WellRegistered.accepted {cat : TypeCatalog} {defs : DefSource} (h : co.WellRegistered cat defs handle)
    (hans : handle.Answers cat defs) {rule : CheckedRule} (hrule : rule ∈ co.rules) : rule.Accepted cat defs := by
  obtain ⟨raw, flat, hbuilt, hvalidated, -, -⟩ := h.registered rule hrule
  obtain rfl := h.sameCatalog
  obtain rfl := h.sameDefs
  obtain ⟨hclosed, hfree, hchecked, hsorts, -, -⟩ := validateRule_spec hans hbuilt hvalidated
  exact ⟨hclosed, hfree, hchecked, hsorts⟩

end Coordinator

private def retiredType : TypeKey := TypeRegistry.build.reservedType .retired

private theorem address_submitted : ∀ p ∈ [((⟨0⟩ : VarId), ValueSort.addr)], p.1.IsSubmitted := by
  simp [VarId.IsSubmitted, expansionNameBase]

private def notRetiredBody : Term := .unary .not (.unary (.keyed .isK (.concrete retiredType)) (.var ⟨0⟩))

private theorem notRetired_submitted : (∀ p ∈ [((⟨0⟩ : VarId), ValueSort.addr)], p.1.IsSubmitted) ∧
    notRetiredBody.Names VarId.IsSubmitted := ⟨address_submitted, address_submitted _ List.mem_cons_self⟩

private def notRetiredTerm : TypedTerm :=
  ⟨⟨[(⟨0⟩, .addr)], notRetiredBody, notRetired_submitted⟩, .bool, notRetiredBody, true, 2⟩

private theorem notRetired_params : notRetiredTerm.params = [(⟨0⟩, .addr)] := rfl

private theorem notRetired_result : notRetiredTerm.result = .bool := rfl

/-- A handle without definitions. -/
def noDefs : DefHandle := ⟨fun _ _ => .error .undefined, fun _ => .neverRegistered⟩

/-- Retire what holds a stability certificate, once each. -/
def retireCertified : Rule where
  domain := .read .members (.concrete (TypeRegistry.build.reservedType .predStable))
  trigger := .inline ⟨notRetiredTerm, (⟨0⟩, .addr), notRetired_params, notRetired_result⟩
  view := .audit
  action := .marker headDocument (TypeRegistry.build.reservedType .retired)

/-- The working set of that one rule. -/
def retirer : Coordinator where
  catalog := ⟨TypeRegistry.build⟩
  defs := fun _ => none
  rules := [⟨1, ⟨.read .members (.concrete (TypeRegistry.build.reservedType .predStable)), .addr, true⟩,
    ⟨notRetiredTerm, (⟨0⟩, .addr), notRetired_params, notRetired_result⟩, .audit,
    .marker headDocument (TypeRegistry.build.reservedType .retired), none⟩]
  nextRuleId := 2
  cursor := 0

theorem noDefs_answers (cat : TypeCatalog) (defs : DefSource) : noDefs.Answers cat defs := by
  refine ⟨fun a level r h => ?_, fun a tt h => ?_⟩
  · cases h
  · cases h

theorem retireCertified_built : retireCertified.Built ⟨TypeRegistry.build⟩ fun _ => none := by
  rintro t ⟨⟩
  refine @Checked.intro _ _ ⟨⟨TypeRegistry.build⟩, fun _ _ => .error .undefined⟩ notRetiredTerm.signed 0 _ rfl
    (fun _ ha => ?_) (fun _ ha => ?_) rfl
  · cases ha
  · cases ha

theorem retirer_workingSet : Coordinator.WorkingSet noDefs ⟨TypeRegistry.build⟩ (fun _ => none) retirer :=
  .register .new retireCertified_built
    (show Coordinator.registerRule _ noDefs retireCertified = .ok (retirer, 1) from rfl)

end Coordination
