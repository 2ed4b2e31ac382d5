import Skep.Coordination.Inlining
import Skep.Coordination.Scheduler

/-!
# What arms a trigger

A rule's trigger is judged by the footprint of its flat expansion. A fire deposits one link of
one class, so it changes the slices of that class and its home's frontier, and a retraction the
active slices besides. Where that emission arms no footprint, the trigger's verdict stays.

## Main results

- `Footprint.agrees_deposits` — what a deposit leaves as it was
- `Coordinator.footprint_covers` — a value depends on its footprint, a verdict on what arms it
-/

namespace LinkState

variable {reg : TypeRegistry} {s s' : LinkState} {addr : Address} {value : Link}

/-- A deposit changes the slice of its own class alone. -/
theorem typeSlice_deposit (h : (s.applyLink reg (.deposit addr value) : Outcome Empty LinkState) = .ok s')
    {c k : CoverageClass} (hc : coverageClass value.typeSlot = .ok c) (hk : k ≠ c) :
    s.typeSlice k = s'.typeSlice k := by
  have hfresh := (applyLink_eq_ok h).1
  refine OrdMap.Ascending.eq_of_mem (s.links.ascending.filter _) (s'.links.ascending.filter _) fun e => ?_
  show e ∈ s.typeSlice k ↔ e ∈ s'.typeSlice k
  rw [mem_typeSlice, mem_typeSlice, readlink_deposit h]
  by_cases he : e.1 = addr
  · rw [if_pos he, he, hfresh]
    refine iff_of_false (fun hold => absurd hold.1.symm (Option.some_ne_none _)) fun hnew => hk ?_
    rw [← Option.some.inj hnew.1, hc] at hnew
    exact (Outcome.ok.inj hnew.2).symm
  · rw [if_neg he]

theorem typedLinks_congr {k : CoverageClass} (hk : s.typeSlice k = s'.typeSlice k) {view : View}
    (hr : view.isActive = true →
      s.typeSlice (reg.shippedClass .retraction) = s'.typeSlice (reg.shippedClass .retraction)) :
    s.typedLinks reg k view = s'.typedLinks reg k view := by
  rw [typedLinks, typedLinks, hk]
  cases hview : view.isActive with
  | false => rfl
  | true => simp only [nullified, hr hview]

end LinkState

/-- The later world has the documents of the earlier, and no other links but of the class. -/
structure Deposits (reg : TypeRegistry) (w w' : LinkWorld) (c : CoverageClass) : Prop where
  sound : w.Sound → w'.Sound
  documents : ∀ d, w.m3.isRegisteredDocument d = w'.m3.isRegisteredDocument d
  slices : ∀ k, k ≠ c → w.links.typeSlice k = w'.links.typeSlice k

theorem Deposits.refl (reg : TypeRegistry) (w : LinkWorld) (c : CoverageClass) : Deposits reg w w c :=
  ⟨id, fun _ => rfl, fun _ _ => rfl⟩

section

variable {reg : TypeRegistry} {w w' : LinkWorld} {seq : ℕ} {visibility : Address → Bool} {caller : Caller}
  {home : Address} {value : Link} {d : Deposited}

theorem Emitted.deposits {c : CoverageClass} (h : Emitted reg w visibility home value d w')
    (hc : coverageClass value.typeSlot = .ok c) : Deposits reg w w' c := by
  cases h with
  | incumbent => exact .refl reg w c
  | fresh hmint hm3 hlinks =>
    refine ⟨(LinkStep.deposit hmint hm3 hlinks).sound, fun d => ?_, fun k hk => LinkState.typeSlice_deposit hlinks hc hk⟩
    obtain ⟨hreg, rfl, hns, -⟩ := M3State.mintLink_eq_ok hmint
    have hlevel := M3State.level_of_linkNs (M3State.level_of_isRegisteredDocument hreg) hns
    rw [Bool.eq_iff_iff, M3State.isRegisteredDocument_allocate hm3]
    refine (or_iff_left ?_).symm
    rintro ⟨rfl, hdoc⟩
    rw [hlevel] at hdoc
    cases hdoc

theorem liftErr_eq_ok {ε ε' α : Type} {f : ε → Outcome ε' ε'} {x : Outcome ε α} {a : α}
    (h : x.liftErr f = .ok a) : x = .ok a := by
  cases x with
  | ok b =>
    cases h
    rfl
  | err e =>
    obtain ⟨b, -, hb⟩ := Outcome.bind_eq_ok_iff.1 (show f e >>= Outcome.err = .ok a from h)
    cases hb
  | fault => cases h

/-- A marker's deposit is of the marker's class, which is not the retractions'. -/
theorem emit_deposits {ty : Endset} {source addr : Address} {targets : List Address}
    (h : emit reg w seq visibility caller home ty source targets = .ok (addr, w')) {c : CoverageClass}
    (hc : coverageClass ty = .ok c) : reg.shippedClass .retraction ≠ c ∧ Deposits reg w w' c := by
  simp only [emit, Outcome.bind_eq_ok_iff, Outcome.okOr_eq_ok_iff, Prod.exists] at h
  obtain ⟨-, -, c', hc', -, -, -, -, -, -, value, hvalue, d, w'', hcore, h⟩ := h
  cases h
  have hcore := liftErr_eq_ok hcore
  have hty : value.typeSlot = ty := by
    rw [emitTuple] at hvalue
    split at hvalue
    · cases hvalue
    · cases hvalue
      rfl
  rw [← hty] at hc
  refine ⟨fun heq => ?_, (emitCore_spec hcore).deposits hc⟩
  simp only [emitCore, hc, Outcome.bind_eq_ok_iff, Outcome.expect_ok, Outcome.ok.injEq, exists_eq_left'] at hcore
  obtain ⟨-, -, registration, -, _, hclass, -⟩ := hcore
  exact Outcome.refuseIf_eq_ok_iff.1 hclass ⟨trivial, heq.symm⟩

theorem nullify_deposits {target addr : Address}
    (h : nullify reg w seq visibility caller home target = .ok (addr, w')) :
    Deposits reg w w' (reg.shippedClass .retraction) := by
  simp only [nullify, Outcome.bind_eq_ok_iff, Prod.exists] at h
  obtain ⟨-, -, -, -, next, -, -, -, d, w'', hcore, h⟩ := h
  cases h
  exact (emitCore_spec (liftErr_eq_ok hcore)).deposits (reg.coverageClass_reservedType .retraction)

end

namespace Coordination

/-- A deposit whose emission does not arm a footprint leaves what the footprint names as it was. -/
theorem Footprint.agrees_deposits {reg : TypeRegistry} {w w' : LinkWorld} {guest : Address → Bool} {e : Emission}
    {fp : Footprint} (h : Deposits reg w w' e.coverage)
    (hmarker : e.isRetraction = false → reg.shippedClass .retraction ≠ e.coverage) (harm : fp.armedBy e = false) :
    fp.Agrees reg ⟨w, guest⟩ ⟨w', guest⟩ := by
  simp only [armedBy, retractionShrinks, Bool.or_eq_false_iff, Bool.and_eq_false_iff, Bool.not_eq_false',
    List.contains_eq_mem, decide_eq_false_iff_not, List.isEmpty_iff] at harm
  obtain ⟨⟨⟨⟨hall, haudit⟩, hactive⟩, hfront⟩, hretract⟩ := harm
  have hslice : ∀ (c : CoverageClass) (s : Slice), c ≠ e.coverage →
      (s.view.isActive = true → e.isRetraction = false) →
        (⟨w, guest⟩ : CoordinationWorld).look.slice reg c s = (⟨w', guest⟩ : CoordinationWorld).look.slice reg c s := by
    intro c s hc hview
    have htyped : w.links.typedLinks reg c s.view = w'.links.typedLinks reg c s.view :=
      LinkState.typedLinks_congr (h.slices c hc) fun hactive => h.slices _ (hmarker (hview hactive))
    show ((w.links.typedLinks reg c s.view).map _).filter _ = ((w'.links.typedLinks reg c s.view).map _).filter _
    rw [htyped]
    rfl
  refine ⟨fun c hc => ?_, fun c hc => ?_, fun hf => ?_, fun _ => h.documents, fun hf => ?_⟩
  · exact hslice c .audit (fun heq => haudit (heq ▸ hc)) fun hview => absurd hview Bool.false_ne_true
  · refine hslice c .active (fun heq => hactive (heq ▸ hc)) fun _ => ?_
    refine hretract.resolve_right fun hempty => ?_
    rw [hempty] at hc
    cases hc
  · rw [hall] at hf
    cases hf
  · rw [hfront] at hf
    cases hf

theorem transact_eq_ok {ε α : Type} {refusal : Option KernelRefusal} {f : Outcome ε α} {a : α}
    (h : transact refusal f = .ok a) : f = .ok a := by
  simp only [transact, Outcome.bind_eq_ok_iff, Outcome.mapErr_eq_ok_iff, Outcome.pure_eq, Outcome.ok.injEq] at h
  obtain ⟨-, -, b, hb, -, -, rfl⟩ := h
  exact hb

namespace Coordinator

variable (co : Coordinator)

/-- What a rule's trigger reads, from its flat expansion at the rule's view. -/
def triggerFootprint (rule : CheckedRule) : Outcome BudgetSpent Footprint := do
  let flatExpansion ← expand co.defs rule.trigger.term.evaluable
  let analysis ← (analyzeTerm ⟨co.catalog, rule.view, false⟩ flatExpansion).expect
  return analysis.fp

/-- What a fire of an action deposits. -/
def emission : FireAction → Outcome Empty Emission
  | .marker _ ty => do return .marker (← co.catalog.classOf ty)
  | .nullify _ => return .retraction co.catalog.retractionClass

variable {co}

theorem fire_deposits {occurrence : Occurrence} {attempt : Attempt} {out : FireOutcome} {w : LinkWorld}
    (h : co.fire occurrence attempt = .ok (out, w)) {fired : CheckedRule}
    (hfired : co.rules.find? (fun r => r.id == occurrence.rule) = some fired) {e : Emission}
    (he : co.emission fired.action = .ok e) :
    w = attempt.base.toLinkWorld ∨ Deposits co.catalog.registry attempt.base.toLinkWorld w e.coverage ∧
      (e.isRetraction = false → co.catalog.registry.shippedClass .retraction ≠ e.coverage) := by
  simp only [fire, hfired, Outcome.expectSome, Outcome.bind_eq_ok_iff, Outcome.expect_eq_ok_iff, Outcome.ok.injEq,
    exists_eq_left'] at h
  obtain ⟨found, -, h⟩ := h
  cases found with
  | none =>
    cases h
    exact Or.inl rfl
  | some arg =>
    right
    simp only [Outcome.bind_eq_ok_iff] at h
    obtain ⟨-, -, h⟩ := h
    cases haction : fired.action with
    | marker home ty =>
      rw [haction] at he h
      simp only [emission, Outcome.bind_eq_ok_iff, Outcome.pure_eq, Outcome.ok.injEq] at he
      obtain ⟨c, hc, rfl⟩ := he
      simp only [Outcome.bind_eq_ok_iff, Outcome.mapErr_eq_ok_iff, Prod.exists] at h
      obtain ⟨effect, w', hwrite, h⟩ := h
      cases h
      obtain ⟨hclass, hdeposits⟩ :=
        emit_deposits (transact_eq_ok hwrite) (TypeCatalog.coverageClass_of_classOf hc)
      exact ⟨hdeposits, fun _ => hclass⟩
    | nullify home =>
      rw [haction] at he h
      cases he
      simp only [Outcome.bind_eq_ok_iff, Outcome.mapErr_eq_ok_iff, Prod.exists] at h
      obtain ⟨effect, w', hwrite, h⟩ := h
      cases h
      exact ⟨nullify_deposits (transact_eq_ok hwrite), fun hmarker => absurd hmarker.symm Bool.false_ne_true⟩

/-- A fire leaves what a footprint names as it was where its emission does not arm the footprint. -/
theorem fire_agrees {occurrence : Occurrence} {attempt : Attempt} {out : FireOutcome} {w : LinkWorld}
    (h : co.fire occurrence attempt = .ok (out, w)) {fired : CheckedRule}
    (hfired : co.rules.find? (fun r => r.id == occurrence.rule) = some fired) {e : Emission}
    (he : co.emission fired.action = .ok e) {fp : Footprint} (harm : fp.armedBy e = false) :
    fp.Agrees co.catalog.registry attempt.base ⟨w, attempt.base.guest⟩ ∧ (attempt.base.Sound → w.Sound) := by
  rcases fire_deposits h hfired he with rfl | ⟨hdeposits, hmarker⟩
  · exact ⟨⟨fun _ _ => rfl, fun _ _ => rfl, fun _ _ => rfl, fun _ _ => rfl, fun _ _ => rfl⟩, id⟩
  · exact ⟨Footprint.agrees_deposits hdeposits hmarker harm, hdeposits.sound⟩

/-- A trigger is evaluated as its flat expansion is. -/
theorem triggerTrue_eq {rule : CheckedRule} (hchecked : Checked co.catalog co.defs rule.trigger.term) {flat : Term}
    (hflat : expand co.defs rule.trigger.term.evaluable = .ok flat) (w : CoordinationWorld) (arg : Arg) :
    co.triggerTrue w rule arg = (evalTerm (w.ctx co.catalog rule.view none) (fun _ _ => .fault)
      (Env.empty.bind rule.trigger.param.1 arg.toValue) flat).bind asBool := by
  obtain ⟨-, -, heval⟩ := hchecked.expand_exact hflat (w.ctx co.catalog rule.view none)
  exact congrArg (Outcome.bind · asBool) (heval none (fun _ _ => .fault) maxDepth _ hchecked.within.2).symm

/-- Worlds that agree on a trigger's footprint have its verdicts in common. -/
theorem triggerTrue_congr {rule : CheckedRule} (hchecked : Checked co.catalog co.defs rule.trigger.term) {fp : Footprint}
    (hfp : co.triggerFootprint rule = .ok fp) {w w' : CoordinationWorld} (hs : w.Sound) (hs' : w'.Sound)
    (hagree : fp.Agrees co.catalog.registry w w') (arg : Arg) : co.triggerTrue w rule arg = co.triggerTrue w' rule arg := by
  simp only [triggerFootprint, Outcome.bind_eq_ok_iff, Outcome.expect_eq_ok_iff, Outcome.pure_eq, Outcome.ok.injEq] at hfp
  obtain ⟨flat, hflat, a, ha, rfl⟩ := hfp
  rw [triggerTrue_eq hchecked hflat, triggerTrue_eq hchecked hflat]
  exact congrArg (Outcome.bind · asBool) (evalTerm_congr hs hs' flat _ ha hagree)

/-- **A footprint covers what is read.** A term or a domain without references has one value at two
worlds that agree on what its footprint names. A fire whose emission does not arm the footprint of
a rule's trigger leaves the trigger's verdict as it was, at every argument. -/
theorem footprint_covers (co : Coordinator) :
    (∀ (az : Analyzer) (w w' : CoordinationWorld) (defs defs' : Option DefSource)
        (call call' : TypedTerm → Env → Outcome Empty Value), w.Sound → w'.Sound →
      (∀ t a, analyzeTerm az t = .ok a → a.fp.Agrees az.catalog.registry w w' → ∀ env,
        evalTerm (w.ctx az.catalog az.view defs) call env t =
          evalTerm (w'.ctx az.catalog az.view defs') call' env t) ∧
      ∀ d a, analyzeDom az d = .ok a → a.fp.Agrees az.catalog.registry w w' → ∀ env,
        enumDom (w.ctx az.catalog az.view defs) call env d =
          enumDom (w'.ctx az.catalog az.view defs') call' env d) ∧
    ∀ (rule fired : CheckedRule) (fp : Footprint) (e : Emission) (occurrence : Occurrence) (attempt : Attempt)
        (out : FireOutcome) (w : LinkWorld), Checked co.catalog co.defs rule.trigger.term →
      co.triggerFootprint rule = .ok fp → attempt.base.Sound →
      co.rules.find? (fun r => r.id == occurrence.rule) = some fired → co.emission fired.action = .ok e →
      co.fire occurrence attempt = .ok (out, w) → fp.armedBy e = false →
      ∀ arg, co.triggerTrue ⟨w, attempt.base.guest⟩ rule arg = co.triggerTrue attempt.base rule arg := by
  refine ⟨fun az w w' defs defs' call call' hs hs' => ⟨?_, ?_⟩, ?_⟩
  · exact fun t a ha hagree env => evalTerm_congr hs hs' t env ha hagree
  · exact fun d a ha hagree env => enumDom_congr hs hs' d env ha hagree
  · intro rule fired fp e occurrence attempt out w hchecked hfp hs hfired he hfire harm
    obtain ⟨hagree, hsound⟩ := fire_agrees hfire hfired he harm
    exact fun arg => (triggerTrue_congr hchecked hfp hs (hsound hs) hagree arg).symm

end Coordinator

private def shippedTypes : TypeCatalog := ⟨TypeRegistry.build⟩

private def stableKey : TypeKey := TypeRegistry.build.reservedType .predStable

private theorem var_submitted : ∀ p ∈ [((⟨0⟩ : VarId), ValueSort.addr)], p.1.IsSubmitted := by
  simp [VarId.IsSubmitted, expansionNameBase]

private def stableTerm : TypedTerm :=
  ⟨⟨[(⟨0⟩, .addr)], .unary (.keyed .isK (.concrete stableKey)) (.var ⟨0⟩), var_submitted,
      var_submitted _ List.mem_cons_self⟩,
    .bool, .unary (.keyed .isK (.concrete stableKey)) (.var ⟨0⟩), true, 1⟩

private theorem stableTerm_params : stableTerm.params = [(⟨0⟩, .addr)] := rfl

private theorem stableTerm_result : stableTerm.result = .bool := rfl

private def onStable : TriggerTerm := ⟨stableTerm, (⟨0⟩, .addr), stableTerm_params, stableTerm_result⟩

private theorem allTerm_submitted : (∀ p ∈ [((⟨0⟩ : VarId), ValueSort.addr)], p.1.IsSubmitted) ∧
    Term.Names VarId.IsSubmitted (.lit (.bool true)) := ⟨var_submitted, trivial⟩

private def allTerm : TypedTerm :=
  ⟨⟨[(⟨0⟩, .addr)], .lit (.bool true), allTerm_submitted⟩, .bool, .lit (.bool true), true, 0⟩

private theorem allTerm_params : allTerm.params = [(⟨0⟩, .addr)] := rfl

private theorem allTerm_result : allTerm.result = .bool := rfl

private def onAll : TriggerTerm := ⟨allTerm, (⟨0⟩, .addr), allTerm_params, allTerm_result⟩

private def overHead : CheckedDom :=
  ⟨.setTerm (.unary .elems (.unary
    (.keyed .chain (.concrete (TypeRegistry.build.reservedType .supersedes))) (.lit (.addr headDocument)))), .addr, true⟩

private def retiring : CheckedRule :=
  ⟨1, overHead, onAll, .active, .marker headDocument (TypeRegistry.build.reservedType .retired), none⟩

private def onStableRule : CheckedRule := ⟨0, overHead, onStable, .audit, .nullify headDocument, none⟩

private def pair : Coordinator := ⟨shippedTypes, fun _ => none, [onStableRule, retiring], 2, 0⟩

private def genesisWorld : CoordinationWorld := ⟨LinkWorld.genesis, fun _ => true⟩

private def onceAt : Attempt := ⟨genesisWorld, genesisWorld, 1, none⟩

/-- A marker of the retired class leaves a verdict on the stable class as it was. -/
theorem footprint_covers_pair : ∃ out w, pair.fire ⟨1, .addr headDocument⟩ onceAt = .ok (out, w) ∧ out ≠ .noOp ∧
    pair.triggerTrue ⟨w, fun _ => true⟩ onStableRule (.addr headDocument) =
      pair.triggerTrue genesisWorld onStableRule (.addr headDocument) ∧
    enumDom ((⟨w, fun _ => true⟩ : CoordinationWorld).ctx shippedTypes .audit none) (fun _ _ => .fault) Env.empty
        (.read .audit (.concrete stableKey)) =
      enumDom (genesisWorld.ctx shippedTypes .audit none) (fun _ _ => .fault) Env.empty
        (.read .audit (.concrete stableKey)) := by
  have hfired : ((pair.fire ⟨1, .addr headDocument⟩ onceAt).bind fun p =>
      Outcome.require (p.1 ≠ .noOp)).isOk = true := by decide +kernel
  obtain ⟨u, hfired⟩ := Outcome.isOk_iff.1 hfired
  obtain ⟨⟨out, w⟩, hfire, hout⟩ := Outcome.bind_eq_ok_iff.1 hfired
  have hchecked : Checked shippedTypes (fun _ => none) onStable.term := by
    refine @Checked.intro _ _ ⟨shippedTypes, fun _ _ => .error .undefined⟩ onStable.term.signed 0 _ rfl
      (fun _ ha => ?_) (fun _ ha => ?_) rfl
    · cases ha
    · cases ha
  have hemits : pair.emission retiring.action = .ok (.marker (shippedTypes.registry.shippedClass .retired)) := rfl
  have hstable : ({ audit := [shippedTypes.registry.shippedClass .predStable] } : Footprint).armedBy
      (.marker (shippedTypes.registry.shippedClass .retired)) = false := rfl
  obtain ⟨hagree, hsound⟩ := Coordinator.fire_agrees hfire (show _ = some retiring from rfl) hemits hstable
  obtain ⟨hterms, hfires⟩ := Coordinator.footprint_covers pair
  refine ⟨out, w, hfire, Outcome.require_eq_ok_iff.1 hout, ?_, ?_⟩
  · exact hfires onStableRule retiring _ _ _ onceAt out w hchecked rfl LinkWorld.sound_genesis rfl hemits hfire hstable _
  · exact ((hterms ⟨shippedTypes, .audit, false⟩ genesisWorld ⟨w, fun _ => true⟩ none none (fun _ _ => .fault)
      (fun _ _ => .fault) LinkWorld.sound_genesis (hsound LinkWorld.sound_genesis)).2
        (.read .audit (.concrete stableKey)) ⟨_, true⟩ rfl hagree Env.empty).symm

end Coordination
