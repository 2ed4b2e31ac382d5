import Skep.Coordination.Cataloged
import Skep.Coordination.Engine
import Skep.Links.Writes

/-!
# What a guest look reveals

A verdict reads the links through the look at guest class. Two worlds that differ in
links homed where the guest class may not read, and in nothing else, give every verdict
one answer if and only if they retract the same of the links the look sees. A retraction
reaches its target whatever its home, so a hidden one shows in what it retracts.

## Main results

- `LooksAlike.evalAt`, `LooksAlike.enumAt` — a cataloged term has one value
- `answersAlike_iff_retractAlike` — the verdicts agree where the retractions do
- `deposit_agreeApart` — a deposit into a refused home
-/

namespace Coordination

/-- Two worlds show the same of every type of the catalog. -/
structure LooksAlike (cat : TypeCatalog) (w w' : CoordinationWorld) : Prop where
  slice : ∀ ty s, w.look.slice cat.registry (cat.registry.shippedClass ty) s =
    w'.look.slice cat.registry (cat.registry.shippedClass ty) s
  documents : ∀ a, w.m3.isRegisteredDocument a = w'.m3.isRegisteredDocument a
  sound : w.Sound
  sound' : w'.Sound
  age : ∀ a, w.look.homeReadable a = true → w.ageOf a = w'.ageOf a

namespace LooksAlike

variable {cat : TypeCatalog} {w w' : CoordinationWorld} {view : View} (h : LooksAlike cat w w')
  (defs defs' : Option DefSource)

include h

theorem filters : FiltersAgree cat view w w' := fun _ j hj => by
  obtain ⟨ty, -, rfl⟩ := List.mem_map.1 hj
  exact h.slice ty .active

theorem observe (ty : ShippedType) (s : Slice) (pat : Pattern) :
    w.look.observe cat.registry (cat.registry.reservedType ty) pat s =
      w'.look.observe cat.registry (cat.registry.reservedType ty) pat s :=
  observe_congr (cat.registry.coverageClass_reservedType ty) (h.slice ty s) pat

theorem stale (ty : ShippedType) :
    w.look.stale cat.registry (cat.registry.reservedType ty) =
      w'.look.stale cat.registry (cat.registry.reservedType ty) := by
  have hc := cat.registry.coverageClass_reservedType ty
  funext horizon
  by_cases hage : cat.registry.declares (cat.registry.shippedClass ty) .age = true
  · rw [look_stale_eq h.sound hc hage, look_stale_eq h.sound' hc hage, ← h.slice]
    refine congrArg _ (congrArg _ (List.filter_congr fun a ha => ?_))
    rw [GuestLinks.slice_addrs, List.mem_filter] at ha
    rw [h.age a ha.2]
  · rw [look_stale_of_not_age hc hage, look_stale_of_not_age hc hage]

/-- What the look answers of a tuple's age, where it sees the tuple. -/
theorem guarded_age (ty : ShippedType) (x : Address) :
    (w.look.isActiveTuple cat.registry (cat.registry.reservedType ty) x >>= fun b =>
        if b then (do return .optNat (← w.look.age x)) else return .optNat none) =
      (w'.look.isActiveTuple cat.registry (cat.registry.reservedType ty) x >>= fun b =>
        if b then (do return Value.optNat (← w'.look.age x)) else return .optNat none) := by
  have hc := cat.registry.coverageClass_reservedType ty
  rw [GuestLinks.isActiveTuple_eq hc, GuestLinks.isActiveTuple_eq hc, ← h.slice, Outcome.ok_bind,
    Outcome.ok_bind]
  by_cases hseen : ((w.look.slice cat.registry (cat.registry.shippedClass ty) .active).any
      fun t => t.addr == x) = true
  · rw [if_pos hseen, if_pos hseen]
    obtain ⟨t, ht, hx⟩ := List.any_eq_true.1 hseen
    obtain rfl := beq_iff_eq.1 hx
    have hread : w.look.homeReadable t.addr = true := (List.mem_filter.1 ht).2
    rw [age_eq h.sound ht, age_eq h.sound' (h.slice ty .active ▸ ht), h.age _ hread]
  · rw [if_neg hseen, if_neg hseen]

theorem membersAt (ty : ShippedType) :
    (w.ctx cat view defs).membersAt (cat.registry.reservedType ty) =
      (w'.ctx cat view defs').membersAt (cat.registry.reservedType ty) :=
  membersAt_congr defs defs' (cat.registry.coverageClass_reservedType ty) (h.slice ty _) h.filters

theorem uvRewrite (k : TypeKey) :
    (w.ctx cat view defs).uvRewrite k = (w'.ctx cat view defs').uvRewrite k :=
  uvRewrite_congr defs defs' h.filters

theorem forwardClaims (ty : ShippedType) :
    w.look.forwardClaims cat.registry (cat.registry.reservedType ty) =
      w'.look.forwardClaims cat.registry (cat.registry.reservedType ty) :=
  forwardClaims_congr (cat.registry.coverageClass_reservedType ty) (h.slice ty .active)

theorem keyed (r : KeyedRead) (ty : ShippedType) :
    r.eval (w.ctx cat view defs) (cat.registry.reservedType ty) =
      r.eval (w'.ctx cat view defs') (cat.registry.reservedType ty) := by
  have hc := cat.registry.coverageClass_reservedType ty
  have huv : (w.ctx cat view defs).uvRewrite (cat.registry.reservedType ty) =
      (w'.ctx cat view defs').uvRewrite (cat.registry.reservedType ty) := h.uvRewrite defs defs' _
  have hfwd := h.forwardClaims ty
  funext operand
  cases r with
  | isK => simp only [KeyedRead.eval, isKAt_congr defs defs' hc (h.slice ty _)]
  | targetsOf => simp only [KeyedRead.eval, targetsOfAt_congr defs defs' hc (h.slice ty _) h.filters]
  | isFiltered => simp only [KeyedRead.eval, filteredBy_congr defs defs' hc (h.slice ty .active)]
  | succs =>
    simp only [KeyedRead.eval, CoordinationWorld.ctx_links, CoordinationWorld.ctx_catalog,
      GuestLinks.succs, hfwd, huv]
  | chain =>
    simp only [KeyedRead.eval, CoordinationWorld.ctx_links, CoordinationWorld.ctx_catalog,
      GuestLinks.chain, hfwd, uvKeeps_congr defs defs' h.filters]
  | tip =>
    simp only [KeyedRead.eval, CoordinationWorld.ctx_links, CoordinationWorld.ctx_catalog,
      GuestLinks.tip, hfwd]
  | sourcesTo =>
    simp only [KeyedRead.eval, CoordinationWorld.ctx_links, CoordinationWorld.ctx_catalog,
      GuestLinks.sourcesTo, GuestLinks.denoted, h.observe, huv]
  | targetOf =>
    simp only [KeyedRead.eval, CoordinationWorld.ctx_links, CoordinationWorld.ctx_catalog,
      targetOf_congr hc (h.slice ty .active)]
  | age =>
    cases hx : asAddr operand with
    | ok x =>
      simp only [KeyedRead.eval, CoordinationWorld.ctx_links, CoordinationWorld.ctx_catalog, hx,
        Outcome.ok_bind]
      exact h.guarded_age ty x
    | err e => exact e.elim
    | fault => simp only [KeyedRead.eval, hx, Outcome.fault_bind]
  | stale =>
    simp only [KeyedRead.eval, CoordinationWorld.ctx_links, CoordinationWorld.ctx_catalog, h.stale, huv]

theorem unary {op : UnaryOp} (hop : op.Cataloged cat) :
    op.eval (w.ctx cat view defs) = op.eval (w'.ctx cat view defs') := by
  cases op with
  | keyed r tr =>
    obtain ⟨ty, rfl⟩ := hop
    funext operand
    simp only [UnaryOp.eval, TypeRef.key, Outcome.pure_eq, Outcome.ok_bind, h.keyed defs defs']
  | targetsKeyed =>
    funext operand
    simp only [UnaryOp.eval, targetsKeyed_congr defs defs' fun j hj => by
      obtain ⟨ty, -, rfl⟩ := List.mem_map.1 hj
      exact h.slice ty .active]
  | isDoc =>
    funext operand
    simp only [UnaryOp.eval, CoordinationWorld.ctx_m3, h.documents]
  | isEmpty | elems | mapGet | defined | not => rfl

theorem binary {op : BinaryOp} (hop : op.Cataloged cat) :
    op.eval (w.ctx cat view defs) = op.eval (w'.ctx cat view defs') := by
  cases op with
  | isInChain tr =>
    obtain ⟨ty, rfl⟩ := hop
    funext x y
    simp only [BinaryOp.eval, TypeRef.key, Outcome.pure_eq, Outcome.ok_bind,
      CoordinationWorld.ctx_links, CoordinationWorld.ctx_catalog, GuestLinks.isInChain, h.forwardClaims]
  | addrEq | prefixOf | t1Lt | setMem | setEq | natEq | natLe | natAdd => rfl

theorem domRead (r : DomRead) (ty : ShippedType) :
    r.enum (w.ctx cat view defs) (cat.registry.reservedType ty) =
      r.enum (w'.ctx cat view defs') (cat.registry.reservedType ty) := by
  cases r <;>
    simp only [DomRead.enum, CoordinationWorld.ctx_links, CoordinationWorld.ctx_catalog,
      h.observe, h.membersAt defs defs']

theorem linkDom : (w.ctx cat view defs).linkDom = (w'.ctx cat view defs').linkDom := by
  simp only [EvalCtx.linkDom, CoordinationWorld.ctx_links, CoordinationWorld.ctx_catalog,
    TypeCatalog.classes, List.mapM_map, Function.comp_def, h.observe]

end LooksAlike

section

variable {cat : TypeCatalog} {w w' : CoordinationWorld} {view : View} {defs : Option DefSource}
  {call call' : TypedTerm → Env → Outcome Empty Value}

/-- What answers the references gives them the same values. -/
def CallsAlike (defs : Option DefSource) (call call' : TypedTerm → Env → Outcome Empty Value)
    (refs : List Address) : Prop :=
  ∀ a ∈ refs, ∀ source r, defs = some source → source a = some r → call r = call' r

theorem CallsAlike.left {refs refs' : List Address} (h : CallsAlike defs call call' (refs ++ refs')) :
    CallsAlike defs call call' refs := fun a ha => h a (List.mem_append_left _ ha)

theorem CallsAlike.right {refs refs' : List Address} (h : CallsAlike defs call call' (refs ++ refs')) :
    CallsAlike defs call call' refs' := fun a ha => h a (List.mem_append_right _ ha)

mutual

/-- **A cataloged term has one value where the looks are alike.** -/
theorem evalTerm_alike (h : LooksAlike cat w w') (t : Term) (env : Env) (ht : t.Cataloged cat)
    (hcall : CallsAlike defs call call' t.refs) :
    evalTerm (w.ctx cat view defs) call env t = evalTerm (w'.ctx cat view defs) call' env t := by
  cases t with
  | var | lit | tuple => rfl
  | members tr =>
    obtain ⟨ty, rfl⟩ := ht
    simp only [evalTerm, TypeRef.key, Outcome.pure_eq, Outcome.ok_bind, h.membersAt defs defs]
  | inCoverage slot e v => simp only [evalTerm, evalTerm_alike h e env ht hcall]
  | unary op e => simp only [evalTerm, evalTerm_alike h e env ht.2 hcall, h.unary defs defs ht.1]
  | binary op x y =>
    simp only [evalTerm, evalTerm_alike h x env ht.2.1 hcall.left, evalTerm_alike h y env ht.2.2 hcall.right,
      h.binary defs defs ht.1]
  | connective op x y =>
    simp only [evalTerm, evalTerm_alike h x env ht.1 hcall.left, evalTerm_alike h y env ht.2 hcall.right]
  | quantified q var d body =>
    have hbody := fun inner => evalTerm_alike h body inner ht.2 hcall.right
    simp only [evalTerm, enumDom_alike h d env ht.1 hcall.left, hbody]
  | letIn var bound body =>
    have hbody := fun inner => evalTerm_alike h body inner ht.2 hcall.right
    simp only [evalTerm, evalTerm_alike h bound env ht.1 hcall.left, hbody]
  | ifSome opt var thenTerm elseTerm =>
    have hthen := fun inner => evalTerm_alike h thenTerm inner ht.2.1 hcall.right.left
    simp only [evalTerm, evalTerm_alike h opt env ht.1 hcall.left, hthen,
      evalTerm_alike h elseTerm env ht.2.2 hcall.right.right]
  | aggregate op d => simp only [evalTerm, enumDom_alike h d env ht hcall]
  | bigUnion d var body =>
    have hbody := fun inner => evalTerm_alike h body inner ht.2 hcall.right
    simp only [evalTerm, enumDom_alike h d env ht.1 hcall.left, hbody]
  | ref addr args =>
    have hargs := fun params => evalArgs_alike h args params env ht fun a ha => hcall a (List.mem_cons_of_mem _ ha)
    have hvalue := hcall addr List.mem_cons_self
    simp only [evalTerm, CoordinationWorld.ctx_defs, hargs]
    match defs, hvalue with
    | none, _ => rfl
    | some source, hvalue =>
      refine Outcome.bind_congr_ok fun referent hr => ?_
      rw [hvalue source referent rfl (Outcome.expectSome_eq_ok_iff.1 hr)]

theorem evalArgs_alike (h : LooksAlike cat w w') (args : List Term) (params : List VarId) (env : Env)
    (hargs : argsCataloged cat args) (hcall : CallsAlike defs call call' (argRefs args)) :
    evalArgs (w.ctx cat view defs) call env params args =
      evalArgs (w'.ctx cat view defs) call' env params args := by
  cases args with
  | nil => cases params <;> rfl
  | cons arg args =>
    cases params with
    | nil => rfl
    | cons p params =>
      simp only [evalArgs, evalTerm_alike h arg env hargs.1 hcall.left,
        evalArgs_alike h args params env hargs.2 hcall.right]

/-- **A cataloged domain has one enumeration where the looks are alike.** -/
theorem enumDom_alike (h : LooksAlike cat w w') (d : Dom) (env : Env) (hd : d.Cataloged cat)
    (hcall : CallsAlike defs call call' d.refs) :
    enumDom (w.ctx cat view defs) call env d = enumDom (w'.ctx cat view defs) call' env d := by
  cases d with
  | read r tr =>
    obtain ⟨ty, rfl⟩ := hd
    simp only [enumDom, TypeRef.key, Outcome.pure_eq, Outcome.ok_bind, h.domRead defs defs]
  | linkDom => simp only [enumDom, h.linkDom defs defs]
  | reg => exact hd.elim
  | filter d var pred =>
    have hpred := fun inner => evalTerm_alike h pred inner hd.2 hcall.right
    simp only [enumDom, enumDom_alike h d env hd.1 hcall.left, hpred]
  | setTerm t => simp only [enumDom, evalTerm_alike h t env hd hcall]

end

end

/-- A checked definition's evaluated term is cataloged. -/
theorem Checked.cataloged {cat : TypeCatalog} {source : DefSource} {tt : TypedTerm}
    (h : Checked cat source tt) : tt.evaluable.Cataloged cat := h.def.judged.cataloged

namespace LooksAlike

variable {cat : TypeCatalog} {w w' : CoordinationWorld} {view : View} (h : LooksAlike cat w w')

include h

/-- A checked definition has one value, its references followed to any depth. -/
theorem evalAt (source : DefSource) (depth : ℕ) {tt : TypedTerm} (htt : Checked cat source tt) (env : Env) :
    Coordination.evalAt (w.ctx cat view (some source)) depth env tt.evaluable =
      Coordination.evalAt (w'.ctx cat view (some source)) depth env tt.evaluable := by
  induction depth generalizing tt env with
  | zero => exact evalTerm_alike h _ _ htt.cataloged fun _ _ _ _ _ _ => rfl
  | succ depth ih =>
    refine evalTerm_alike h _ _ htt.cataloged fun a ha source' r hsource hr => ?_
    cases hsource
    obtain ⟨r', hr', hchecked, -⟩ := htt.def.referent a ha
    obtain rfl : r' = r := Option.some.inj (hr'.symm.trans hr)
    exact funext fun inner => ih hchecked inner

/-- A checked domain has one enumeration. -/
theorem enumAt (source : DefSource) (depth : ℕ) {d : Dom} (hd : d.Cataloged cat)
    (hrefs : ∀ a ∈ d.refs, ∀ r, source a = some r → Checked cat source r) (env : Env) :
    Coordination.enumAt (w.ctx cat view (some source)) depth env d =
      Coordination.enumAt (w'.ctx cat view (some source)) depth env d := by
  cases depth with
  | zero => exact enumDom_alike h _ _ hd fun _ _ _ _ _ _ => rfl
  | succ depth =>
    refine enumDom_alike h _ _ hd fun a ha source' r hsource hr => ?_
    cases hsource
    exact funext fun inner => h.evalAt source depth (hrefs a ha r hr) inner

end LooksAlike

/-- A domain that the checker accepted over checked definitions. -/
inductive CheckedClosed (cat : TypeCatalog) (source : DefSource) : CheckedDom → Prop
  | intro {ch : Checker} {d : Dom} {cd : CheckedDom} (hcat : ch.catalog = cat)
      (hans : AnswersFrom ch source (Checked cat source) d.refs) (h : checkClosedDom ch d = .ok cd) :
      CheckedClosed cat source cd

/-- What registration has checked of a rule. -/
structure CheckedRule.Accepted (cat : TypeCatalog) (source : DefSource) (rule : CheckedRule) : Prop where
  domain : CheckedClosed cat source rule.domain
  domainRefFree : rule.domain.refFree = true
  trigger : Checked cat source rule.trigger.term
  sorts : rule.trigger.param.2 = rule.domain.elem

/-- The two worlds give every verdict one answer, at each view. -/
structure AnswersAlike (cat : TypeCatalog) (w w' : CoordinationWorld) : Prop where
  term : ∀ source tt, Checked cat source tt → ∀ view depth env,
    evalAt (w.ctx cat view (some source)) depth env tt.evaluable =
      evalAt (w'.ctx cat view (some source)) depth env tt.evaluable
  domain : ∀ source cd, CheckedClosed cat source cd → ∀ view depth env,
    enumAt (w.ctx cat view (some source)) depth env cd.dom =
      enumAt (w'.ctx cat view (some source)) depth env cd.dom
  trigger : ∀ co : Coordinator, co.catalog = cat → ∀ rule : CheckedRule, rule.Accepted cat co.defs →
    ∀ arg, co.triggerTrue w rule arg = co.triggerTrue w' rule arg
  nextEnabled : ∀ co : Coordinator, co.catalog = cat →
    (∀ rule ∈ co.rules, rule.Accepted cat co.defs) → co.nextEnabled w = co.nextEnabled w'
  quiescent : ∀ co : Coordinator, co.catalog = cat →
    (∀ rule ∈ co.rules, rule.Accepted cat co.defs) → co.quiescent w = co.quiescent w'

section

variable {cat : TypeCatalog} {w w' : CoordinationWorld} {source : DefSource}

theorem CheckedClosed.cataloged {cd : CheckedDom} (h : CheckedClosed cat source cd) :
    cd.dom.Cataloged cat ∧ ∀ a ∈ cd.dom.refs, ∀ r, source a = some r → Checked cat source r := by
  obtain ⟨rfl, hans, h⟩ := h
  simp only [checkClosedDom, Outcome.bind_eq_ok_iff, Prod.exists, Outcome.pure_eq, Outcome.ok.injEq] at h
  obtain ⟨cd', s', hcheck, rfl⟩ := h
  have hacc := (check_sound (maxDepth + 1)).2 _ _ _ _ _ _ hans hcheck
  refine ⟨hacc.judged.cataloged, fun a ha r hr => ?_⟩
  obtain ⟨r', hr', hchecked, -⟩ := hacc.reach a ha
  obtain rfl : r' = r := Option.some.inj (hr'.symm.trans hr)
  exact hchecked

/-- A rule's arguments and the truth of its trigger. -/
theorem firstEnabled_alike (h : LooksAlike cat w w') {co : Coordinator} (hco : co.catalog = cat)
    {rule : CheckedRule} (hrule : rule.Accepted cat co.defs) :
    co.triggerTrue w rule = co.triggerTrue w' rule ∧ co.firstEnabled w rule = co.firstEnabled w' rule := by
  have htrigger : co.triggerTrue w rule = co.triggerTrue w' rule := by
    funext arg
    simp only [Coordinator.triggerTrue, Coordinator.evalCtx, hco, h.evalAt co.defs maxDepth hrule.trigger]
  have hdom : co.enumRuleDom w rule = co.enumRuleDom w' rule := by
    rw [Coordinator.enumRuleDom, Coordinator.enumRuleDom, Coordinator.evalCtx, Coordinator.evalCtx, hco]
    exact enumDom_alike h rule.domain.dom Env.empty hrule.domain.cataloged.1 fun _ _ _ _ _ _ => rfl
  refine ⟨htrigger, ?_⟩
  funext keep
  rw [Coordinator.firstEnabled, Coordinator.firstEnabled, hdom, htrigger]

theorem LooksAlike.answers (h : LooksAlike cat w w') : AnswersAlike cat w w' := by
  have hnext : ∀ co : Coordinator, co.catalog = cat → (∀ rule ∈ co.rules, rule.Accepted cat co.defs) →
      co.nextEnabled w = co.nextEnabled w' := by
    intro co hco hrules
    refine Outcome.findSomeM_congr fun rule hrule => ?_
    rw [(firstEnabled_alike h hco (hrules rule hrule)).2]
  refine ⟨fun source tt htt view depth env => h.evalAt source depth htt env,
    fun source cd hcd view depth env => h.enumAt source depth hcd.cataloged.1 hcd.cataloged.2 env,
    fun co hco rule hrule arg => congrFun (firstEnabled_alike h hco hrule).1 arg, hnext, ?_⟩
  intro co hco hrules
  rw [Coordinator.quiescent, Coordinator.quiescent, hnext co hco hrules]

end

/-- The two worlds agree on all but the links of the homes the guest class may not read. -/
structure AgreeApart (w w' : CoordinationWorld) : Prop where
  guest : w.guest = w'.guest
  documents : ∀ a, w.m3.isRegisteredDocument a = w'.m3.isRegisteredDocument a
  links : ∀ a, w.look.homeReadable a = true → w.links.readlink a = w'.links.readlink a

/-- Of the links of the catalog that the look sees, the two worlds retract the same. -/
def RetractAlike (cat : TypeCatalog) (w w' : CoordinationWorld) : Prop :=
  ∀ ty a l, w.look.homeReadable a = true → w.links.readlink a = some l →
    coverageClass l.typeSlot = .ok (cat.registry.shippedClass ty) →
      w.links.nullified cat.registry a.tumbler = w'.links.nullified cat.registry a.tumbler

section

variable {cat : TypeCatalog} {w w' : CoordinationWorld}

theorem AgreeApart.homeReadable (h : AgreeApart w w') : w.look.homeReadable = w'.look.homeReadable := by
  funext a
  rw [GuestLinks.homeReadable, GuestLinks.homeReadable]
  exact congrArg (fun g => (documentOf a).any g) h.guest

/-- The links of a readable home are as many in both. -/
theorem AgreeApart.age (h : AgreeApart w w') {a : Address} (ha : w.look.homeReadable a = true) :
    w.ageOf a = w'.ageOf a := by
  obtain ⟨home, hdoc, hhome⟩ := (Option.any_eq_true _ _).1 ha
  have hentries : w.links.links.entries.filter (fun e => documentOf e.1 == some home) =
      w'.links.links.entries.filter fun e => documentOf e.1 == some home := by
    refine OrdMap.Ascending.eq_of_mem (w.links.links.ascending.filter _)
      (w'.links.links.ascending.filter _) fun e => ?_
    rw [List.mem_filter, List.mem_filter, ← OrdMap.get_eq_some_iff, ← OrdMap.get_eq_some_iff]
    refine and_congr_left fun he => ?_
    have hread : w.look.homeReadable e.1 = true := by
      rw [GuestLinks.homeReadable, beq_iff_eq.1 he]
      exact hhome
    exact iff_of_eq (congrArg (· = some e.2) (h.links e.1 hread))
  rw [LinkWorld.ageOf, LinkWorld.ageOf, hdoc, LinkState.homeFrontier, LinkState.homeFrontier]
  exact congrArg (fun l : List (Address × Link) => l.length - ordinal a.tumbler) hentries

theorem mem_slice {c : CoverageClass} {s : Slice} {t : Tuple} : t ∈ w.look.slice cat.registry c s ↔
    ∃ l, w.links.readlink t.addr = some l ∧ coverageClass l.typeSlot = .ok c ∧
      (s = .active → w.links.nullified cat.registry t.addr.tumbler = false) ∧
        t = l.tuple t.addr ∧ w.look.homeReadable t.addr = true := by
  rw [GuestLinks.slice, List.mem_filter, List.mem_map]
  constructor
  · rintro ⟨⟨e, he, rfl⟩, hread⟩
    obtain ⟨hl, hc, hs⟩ := LinkState.mem_typedLinks.1 he
    exact ⟨e.2, hl, hc, fun h => hs (by rw [h]; rfl), rfl, hread⟩
  · rintro ⟨l, hl, hc, hs, ht, hread⟩
    refine ⟨⟨(t.addr, l), LinkState.mem_typedLinks.2 ⟨hl, hc, fun hview => hs ?_⟩, ht.symm⟩, hread⟩
    cases s with
    | active => rfl
    | audit => cases hview

theorem slice_eq_map (c : CoverageClass) (s : Slice) : w.look.slice cat.registry c s =
    ((w.links.typedLinks cat.registry c s.view).filter fun e => w.look.homeReadable e.1).map
      fun e => e.2.tuple e.1 := by
  rw [GuestLinks.slice, List.filter_map]
  rfl

/-- Worlds that agree apart and retract alike look alike. -/
theorem AgreeApart.looksAlike (h : AgreeApart w w') (hs : w.Sound) (hs' : w'.Sound)
    (hretract : RetractAlike cat w w') : LooksAlike cat w w' := by
  refine ⟨fun ty s => ?_, h.documents, hs, hs', fun a ha => h.age ha⟩
  have hasc : ∀ (v : CoordinationWorld), OrdMap.Ascending ((v.links.typedLinks cat.registry
      (cat.registry.shippedClass ty) s.view).filter fun e => v.look.homeReadable e.1) := fun v =>
    ((v.links.links.ascending.filter _).filter _).filter _
  rw [slice_eq_map, slice_eq_map, (hasc w).eq_of_mem (hasc w') fun e => ?_]
  rw [List.mem_filter, List.mem_filter, LinkState.mem_typedLinks, LinkState.mem_typedLinks,
    ← h.homeReadable]
  refine and_congr_left fun hread => ?_
  rw [← h.links e.1 hread]
  refine and_congr_right fun hl => and_congr_right fun hc => ?_
  rw [hretract ty e.1 e.2 hread hl hc]

/-- The checker accepts the active tuples of a shipped type as a closed domain. -/
theorem checkedClosed_active (ty : ShippedType) :
    CheckedClosed cat (fun _ => none)
      ⟨.read .active (.concrete (cat.registry.reservedType ty)), .tup, true⟩ := by
  have hguard : cat.guarded (.concrete (cat.registry.reservedType ty)) .cataloged =
      .ok (cat.registry.reservedType ty) := by
    rw [TypeCatalog.guarded, TypeCatalog.get_reservedType]
    rfl
  have hrun : ∃ s', (checkDom ⟨cat, fun _ _ => .error .undefined⟩ (maxDepth + 1) Ctx.empty
      (.read .active (.concrete (cat.registry.reservedType ty))) 0).run {} =
        .ok (⟨.read .active (.concrete (cat.registry.reservedType ty)), .tup, true⟩, s') := by
    simp only [checkDom, enter, StateT.run_bind, Outcome.bind_eq_ok_iff, Prod.exists]
    exact ⟨_, (), _, ⟨(), _, run_reachTo.2 ⟨Nat.zero_le _, rfl⟩, run_chargeNodes.2 ⟨by decide, rfl⟩⟩,
      _, _, run_judge.2 ⟨hguard, rfl⟩, rfl⟩
  obtain ⟨s', hrun⟩ := hrun
  have hclosed : checkClosedDom ⟨cat, fun _ _ => .error .undefined⟩
      (.read .active (.concrete (cat.registry.reservedType ty))) =
        .ok ⟨.read .active (.concrete (cat.registry.reservedType ty)), .tup, true⟩ := by
    rw [checkClosedDom, hrun]
    rfl
  have hrefs : AnswersFrom ⟨cat, fun _ _ => .error .undefined⟩ (fun _ => none) (Checked cat fun _ => none)
      (Dom.read .active (.concrete (cat.registry.reservedType ty))).refs := by
    intro a ha
    cases ha
  exact .intro rfl hrefs hclosed

/-- Worlds that answer alike retract alike: the active tuples of a type are a domain. -/
theorem AgreeApart.retractAlike (h : AgreeApart w w') (hans : AnswersAlike cat w w') :
    RetractAlike cat w w' := by
  intro ty a l hread hl hc
  have hclass := cat.registry.coverageClass_reservedType ty
  have henum := hans.domain _ _ (checkedClosed_active ty) .active 0 Env.empty
  have hslice : w.look.slice cat.registry (cat.registry.shippedClass ty) .active =
      w'.look.slice cat.registry (cat.registry.shippedClass ty) .active := by
    have hval : ∀ v : CoordinationWorld, enumAt (v.ctx cat .active (some fun _ => none)) 0 Env.empty
        (.read .active (.concrete (cat.registry.reservedType ty))) =
          .ok ((v.look.slice cat.registry (cat.registry.shippedClass ty) .active).map Arg.tuple) := by
      intro v
      simp only [enumAt, enumDom, TypeRef.key, Outcome.pure_eq, Outcome.ok_bind, DomRead.enum,
        CoordinationWorld.ctx_links, CoordinationWorld.ctx_catalog, GuestLinks.observe_eq hclass]
      rw [show GuestLinks.probed {} = fun _ => true from rfl, List.filter_true]
    rw [hval, hval, Outcome.ok.injEq] at henum
    exact List.map_injective_iff.2 (fun t t' ht => Arg.tuple.inj ht) henum
  have hmem : ∀ v : CoordinationWorld, v.look.homeReadable a = true → v.links.readlink a = some l →
      (v.links.nullified cat.registry a.tumbler = false ↔
        l.tuple a ∈ v.look.slice cat.registry (cat.registry.shippedClass ty) .active) := by
    intro v hread hl
    rw [mem_slice]
    constructor
    · exact fun hnot => ⟨l, hl, hc, fun _ => hnot, rfl, hread⟩
    · rintro ⟨l', -, -, hnot, -, -⟩
      exact hnot rfl
  have hboth : w.links.nullified cat.registry a.tumbler = false ↔
      w'.links.nullified cat.registry a.tumbler = false := by
    rw [hmem w hread hl, hmem w' (h.homeReadable ▸ hread) (h.links a hread ▸ hl), hslice]
  cases hw : w.links.nullified cat.registry a.tumbler <;>
    cases hw' : w'.links.nullified cat.registry a.tumbler <;> simp_all

/-- **A guest look reveals only what hidden retractions reach.** Two reachable worlds that agree
on all but the links homed where the guest class may not read answer every verdict alike, at
each view, exactly where they retract the same of the links that the look sees. -/
theorem answersAlike_iff_retractAlike (hw : LinkWorld.Reachable cat.registry w.toLinkWorld)
    (hw' : LinkWorld.Reachable cat.registry w'.toLinkWorld) (h : AgreeApart w w') :
    AnswersAlike cat w w' ↔ RetractAlike cat w w' :=
  ⟨h.retractAlike, fun hretract => (h.looksAlike hw.sound hw'.sound hretract).answers⟩

/-- A deposit into a home the guest class may not read. -/
theorem deposit_agreeApart {reg : TypeRegistry} {lw lw' : LinkWorld} {guest : Address → Bool} {seq : ℕ}
    {home : Address} {value : Link} {d : Deposited}
    (h : mintAndDeposit reg lw seq home value = .ok (d, lw')) (hrefused : guest home = false) :
    AgreeApart ⟨lw, guest⟩ ⟨lw', guest⟩ := by
  have hemitted : Emitted reg lw (fun _ => true) home value d lw' := mintAndDeposit_spec h
  cases hemitted with
  | incumbent => exact ⟨rfl, fun _ => rfl, fun _ _ => rfl⟩
  | @fresh addr r seq m3 links hmint hm3 hlinks =>
    obtain ⟨hreg, rfl, hns, -⟩ := M3State.mintLink_eq_ok hmint
    have hlv := (M3State.isRegisteredDocument_iff.1 hreg).1
    have hdoc := M3State.documentOf_of_linkNs hlv hns
    refine ⟨rfl, fun a => ?_, fun a hread => ?_⟩
    · have hminted := M3State.isRegisteredDocument_allocate hm3 a
      have helem : addr.level = .element := (M3State.element_of_namespaceOf hlv
        (show linkSubspace ≠ 0 by decide) (M3State.linkNs_comps home) rfl hns).2.1
      rw [Bool.eq_iff_iff, hminted]
      refine ⟨.inl, fun h => h.resolve_right ?_⟩
      rintro ⟨rfl, hdocument⟩
      rw [helem] at hdocument
      cases hdocument
    · rw [LinkState.readlink_deposit hlinks, if_neg]
      rintro rfl
      have hhome : (documentOf a).any guest = true := hread
      rw [hdoc] at hhome
      exact absurd hhome (by simp [hrefused])

end

private def builtCatalog : TypeCatalog := ⟨TypeRegistry.build⟩

/-- The world after a deposit, the world itself where it is refused. -/
private def depositedInto (w : LinkWorld) (home : Address) (value : Link) : LinkWorld :=
  match mintAndDeposit TypeRegistry.build w 1 home value with
  | .ok (_, w') => w'
  | .err _ | .fault => w

private def certificateOn (a : Address) : Link :=
  ⟨enc [a], enc [], TypeRegistry.build.reservedType .predStable⟩

/-- One certificate, homed where the guest class may read. -/
private def certified : LinkWorld :=
  depositedInto LinkWorld.genesis headDocument (certificateOn headDocument)

/-- The next certificate is homed where the guest class may not read. -/
private def certifiedHidden : LinkWorld :=
  depositedInto certified ghostHomeDocument (certificateOn headDocument)

private def certificate : Address := (certified.links.links.entries.map Prod.fst).headD headDocument

/-- The certificate is retracted from where the guest class may not read. -/
private def certifiedRetracted : LinkWorld :=
  depositedInto certified ghostHomeDocument
    (retractionTuple TypeRegistry.build ghostHomeDocument certificate)

private def refusesGhostHome (d : Address) : Bool := d != ghostHomeDocument

private theorem depositedInto_eq {w : LinkWorld} {home : Address} {value : Link}
    (h : (mintAndDeposit TypeRegistry.build w 1 home value).isOk = true) :
    ∃ d, mintAndDeposit TypeRegistry.build w 1 home value = .ok (d, depositedInto w home value) := by
  obtain ⟨⟨d, w'⟩, hok⟩ := Outcome.isOk_iff.1 h
  refine ⟨d, ?_⟩
  rw [depositedInto, hok]

private theorem reachable_depositedInto {w : LinkWorld} {home : Address} {value : Link}
    (hw : w.Reachable TypeRegistry.build)
    (h : (mintAndDeposit TypeRegistry.build w 1 home value).isOk = true) :
    (depositedInto w home value).Reachable TypeRegistry.build := by
  obtain ⟨d, hok⟩ := depositedInto_eq h
  have hemitted : Emitted TypeRegistry.build w (fun _ => true) home value d (depositedInto w home value) :=
    mintAndDeposit_spec hok
  rcases hemitted.step with heq | hstep
  · rw [heq]
    exact hw
  · exact hw.tail hstep

private theorem reachable_certified : certified.Reachable TypeRegistry.build :=
  reachable_depositedInto .refl (by decide +kernel)

theorem answersAlike_hidden_certificate :
    AnswersAlike builtCatalog ⟨certified, refusesGhostHome⟩ ⟨certifiedHidden, refusesGhostHome⟩ := by
  have hok : (mintAndDeposit TypeRegistry.build certified 1 ghostHomeDocument
      (certificateOn headDocument)).isOk = true := by decide +kernel
  obtain ⟨d, hdeposit⟩ := depositedInto_eq hok
  have hapart : AgreeApart ⟨certified, refusesGhostHome⟩ ⟨certifiedHidden, refusesGhostHome⟩ :=
    deposit_agreeApart hdeposit (by decide +kernel)
  have hnone : certified.links.typeSlice (TypeRegistry.build.shippedClass .retraction) = [] ∧
      certifiedHidden.links.typeSlice (TypeRegistry.build.shippedClass .retraction) = [] := by
    decide +kernel
  refine (answersAlike_iff_retractAlike reachable_certified
    (reachable_depositedInto reachable_certified hok) hapart).2 fun ty a l _ _ _ => ?_
  show LinkState.nullified _ certified.links _ = LinkState.nullified _ certifiedHidden.links _
  rw [LinkState.nullified, LinkState.nullified]
  exact (congrArg (List.any · _) hnone.1).trans (congrArg (List.any · _) hnone.2).symm

/-- A retraction homed where the guest class may not read takes a link it may read out of
every active slice. -/
theorem not_answersAlike_of_agreeApart : ¬ ∀ (cat : TypeCatalog) (w w' : CoordinationWorld),
    LinkWorld.Reachable cat.registry w.toLinkWorld → LinkWorld.Reachable cat.registry w'.toLinkWorld →
      AgreeApart w w' → AnswersAlike cat w w' := by
  intro hclaim
  have hok : (mintAndDeposit TypeRegistry.build certified 1 ghostHomeDocument
      (retractionTuple TypeRegistry.build ghostHomeDocument certificate)).isOk = true := by
    decide +kernel
  obtain ⟨d, hdeposit⟩ := depositedInto_eq hok
  have hapart : AgreeApart ⟨certified, refusesGhostHome⟩ ⟨certifiedRetracted, refusesGhostHome⟩ :=
    deposit_agreeApart hdeposit (by decide +kernel)
  have hans := hclaim builtCatalog ⟨certified, refusesGhostHome⟩ ⟨certifiedRetracted, refusesGhostHome⟩
    reachable_certified (reachable_depositedInto reachable_certified hok) hapart
  have hread : certified.links.readlink certificate = some (certificateOn headDocument) := by
    decide +kernel
  have hretract := hapart.retractAlike hans .predStable certificate _ (by decide +kernel) hread
    (builtCatalog.registry.coverageClass_reservedType .predStable)
  have hdiffer : certified.links.nullified TypeRegistry.build certificate.tumbler = false ∧
      certifiedRetracted.links.nullified TypeRegistry.build certificate.tumbler = true := by
    decide +kernel
  exact absurd (hdiffer.1.symm.trans (hretract.trans hdiffer.2)) (by decide)

end Coordination
