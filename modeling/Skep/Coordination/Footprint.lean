import Skep.Coordination.Dynamics

/-!
# The footprint covers every read

Two worlds that agree on the slices a term's footprint names give the term one
value.
-/

namespace CoordinationWorld

open Coordination

/-- The look at a world. -/
def look (w : CoordinationWorld) : GuestLinks := ⟨w.links, w.guest⟩

/-- What a term is read in at a world. -/
def ctx (w : CoordinationWorld) (cat : TypeCatalog) (view : View) (defs : Option DefSource) : EvalCtx :=
  ⟨cat, w.look, w.m3, view, defs⟩

variable (w : CoordinationWorld) (cat : TypeCatalog) (view : View) (defs : Option DefSource)

@[simp] theorem ctx_catalog : (w.ctx cat view defs).catalog = cat := rfl

@[simp] theorem ctx_links : (w.ctx cat view defs).links = w.look := rfl

@[simp] theorem ctx_m3 : (w.ctx cat view defs).m3 = w.m3 := rfl

@[simp] theorem ctx_view : (w.ctx cat view defs).view = view := rfl

@[simp] theorem ctx_defs : (w.ctx cat view defs).defs = defs := rfl

end CoordinationWorld

namespace Coordination

/-- The two worlds agree on what the footprint names. The reverse-lookup join that
`targetsKeyed` names is a join of slices that `active` names too. -/
structure Footprint.Agrees (reg : TypeRegistry) (w w' : CoordinationWorld) (fp : Footprint) : Prop where
  audit : ∀ c ∈ fp.audit, w.look.slice reg c .audit = w'.look.slice reg c .audit
  active : ∀ c ∈ fp.active, w.look.slice reg c .active = w'.look.slice reg c .active
  allAudit : fp.allAudit = true → ∀ c, w.look.slice reg c .audit = w'.look.slice reg c .audit
  residence : fp.residence = true → ∀ a, w.m3.isRegisteredDocument a = w'.m3.isRegisteredDocument a
  homeFrontier : fp.homeFrontier = true → ∀ home, w.links.homeFrontier home = w'.links.homeFrontier home

namespace Footprint

variable {reg : TypeRegistry} {w w' : CoordinationWorld} {fp fp' : Footprint}

theorem agrees_union : (fp.union fp').Agrees reg w w' ↔ fp.Agrees reg w w' ∧ fp'.Agrees reg w w' := by
  constructor
  · intro h
    refine ⟨⟨fun c hc => h.audit c (List.mem_append_left _ hc), fun c hc =>
      h.active c (List.mem_append_left _ hc), fun hf => h.allAudit (by simp [union, hf]), fun hf =>
      h.residence (by simp [union, hf]), fun hf => h.homeFrontier (by simp [union, hf])⟩,
      ⟨fun c hc => h.audit c (List.mem_append_right _ hc), fun c hc =>
      h.active c (List.mem_append_right _ hc), fun hf => h.allAudit (by simp [union, hf]), fun hf =>
      h.residence (by simp [union, hf]), fun hf => h.homeFrontier (by simp [union, hf])⟩⟩
  · rintro ⟨h, h'⟩
    refine ⟨fun c hc => ?_, fun c hc => ?_, fun hf => ?_, fun hf => ?_, fun hf => ?_⟩
    · exact (List.mem_append.1 hc).elim (h.audit c) (h'.audit c)
    · exact (List.mem_append.1 hc).elim (h.active c) (h'.active c)
    · exact (Bool.or_eq_true _ _ ▸ hf).elim h.allAudit h'.allAudit
    · exact (Bool.or_eq_true _ _ ▸ hf).elim h.residence h'.residence
    · exact (Bool.or_eq_true _ _ ▸ hf).elim h.homeFrontier h'.homeFrontier

/-- Any two worlds agree on a footprint that names nothing. -/
theorem agrees_of_isStepConstant (h : fp.isStepConstant = true) : fp.Agrees reg w w' := by
  simp only [isStepConstant, Bool.and_eq_true, List.isEmpty_iff, Bool.not_eq_true'] at h
  obtain ⟨⟨⟨⟨⟨haudit, hactive⟩, hall⟩, hres⟩, hfront⟩, -⟩ := h
  exact ⟨by simp [haudit], by simp [hactive], by simp [hall], by simp [hres], by simp [hfront]⟩

end Footprint

section

variable {cat : TypeCatalog} {view : View} {w w' : CoordinationWorld} {k : TypeKey} {c : CoverageClass}
  (defs defs' : Option DefSource)

/-- The two worlds agree on the filters a reading at the view goes through. -/
def FiltersAgree (cat : TypeCatalog) (view : View) (w w' : CoordinationWorld) : Prop :=
  view = .default → ∀ j ∈ cat.readFilterClasses,
    w.look.slice cat.registry j.1 .active = w'.look.slice cat.registry j.1 .active

theorem filteredBy_congr (hc : coverageClass k = .ok c)
    (h : w.look.slice cat.registry c .active = w'.look.slice cat.registry c .active) :
    (w.ctx cat view defs).filteredBy k = (w'.ctx cat view defs').filteredBy k := by
  funext x
  show w.look.isK cat.registry k x.tumbler .active = w'.look.isK cat.registry k x.tumbler .active
  rw [GuestLinks.isK_eq hc, GuestLinks.isK_eq hc, h]

theorem filteredOther_congr (h : ∀ j ∈ cat.readFilterClasses,
    w.look.slice cat.registry j.1 .active = w'.look.slice cat.registry j.1 .active) (x : Address) :
    (w.ctx cat view defs).filteredOther k x = (w'.ctx cat view defs').filteredOther k x := by
  refine congrArg (cat.classOf k >>= ·) (funext fun kClass => Outcome.anyM_congr fun j hj => ?_)
  rw [filteredBy_congr defs defs' (TypeCatalog.coverageClass_of_readFilter hj) (h j hj)]

theorem uvKeeps_congr (h : FiltersAgree cat view w w') :
    (w.ctx cat view defs).uvKeeps k = (w'.ctx cat view defs').uvKeeps k := by
  funext e
  by_cases hv : view = .default
  · subst hv
    exact congrArg (· >>= fun filtered => return !filtered) (filteredOther_congr defs defs' (h rfl) e)
  · exact (if_pos hv).trans (if_pos hv).symm

theorem uvRewrite_congr (h : FiltersAgree cat view w w') :
    (w.ctx cat view defs).uvRewrite k = (w'.ctx cat view defs').uvRewrite k := by
  funext answer
  rw [EvalCtx.uvRewrite, EvalCtx.uvRewrite, uvKeeps_congr defs defs' h]

/-- Agreement on a slice of a class, as the reads of its type. -/
theorem observe_congr {s : Slice} (hc : coverageClass k = .ok c)
    (h : w.look.slice cat.registry c s = w'.look.slice cat.registry c s) (pat : Pattern) :
    w.look.observe cat.registry k pat s = w'.look.observe cat.registry k pat s :=
  congrFun (GuestLinks.observe_congr hc h) pat

theorem targetOf_congr (hc : coverageClass k = .ok c)
    (h : w.look.slice cat.registry c .active = w'.look.slice cat.registry c .active) :
    w.look.targetOf cat.registry k = w'.look.targetOf cat.registry k := by
  funext x
  simp only [GuestLinks.targetOf, GuestLinks.tuplesDenoting, observe_congr hc h]

theorem isKAt_congr (hc : coverageClass k = .ok c) (h : w.look.slice cat.registry c (Slice.of view) =
    w'.look.slice cat.registry c (Slice.of view)) :
    (w.ctx cat view defs).isKAt k = (w'.ctx cat view defs').isKAt k := by
  funext x
  show w.look.isK _ k _ _ = w'.look.isK _ k _ _
  rw [GuestLinks.isK_eq hc, GuestLinks.isK_eq hc]
  exact congrArg (fun tuples => Outcome.ok (tuples.any fun t => t.fromSlot.covers x.tumbler)) h

theorem membersAt_congr (hc : coverageClass k = .ok c) (h : w.look.slice cat.registry c (Slice.of view) =
    w'.look.slice cat.registry c (Slice.of view)) (hf : FiltersAgree cat view w w') :
    (w.ctx cat view defs).membersAt k = (w'.ctx cat view defs').membersAt k := by
  simp only [EvalCtx.membersAt, CoordinationWorld.ctx_links, CoordinationWorld.ctx_view,
    CoordinationWorld.ctx_catalog, GuestLinks.members, GuestLinks.denoted, observe_congr hc h,
    uvRewrite_congr defs defs' hf]

theorem targetsOfAt_congr (hc : coverageClass k = .ok c) (h : w.look.slice cat.registry c (Slice.of view) =
    w'.look.slice cat.registry c (Slice.of view)) (hf : FiltersAgree cat view w w') :
    (w.ctx cat view defs).targetsOfAt k = (w'.ctx cat view defs').targetsOfAt k := by
  funext x
  rw [EvalCtx.targetsOfAt, EvalCtx.targetsOfAt, uvRewrite_congr defs defs' hf]
  cases view with
  | audit =>
    simp only [CoordinationWorld.ctx_view, CoordinationWorld.ctx_links, CoordinationWorld.ctx_catalog,
      GuestLinks.targetsOfDenoting, GuestLinks.tuplesDenoting, observe_congr (s := .audit) hc h]
  | _ =>
    simp only [CoordinationWorld.ctx_view, CoordinationWorld.ctx_links, CoordinationWorld.ctx_catalog,
      GuestLinks.targetsOf, GuestLinks.denoted, observe_congr (s := .active) hc h]

theorem age_eq (hs : w.Sound) {s : Slice} {t : Tuple} (h : t ∈ w.look.slice cat.registry c s) :
    w.look.age t.addr = .ok (some (w.ageOf t.addr)) := by
  obtain ⟨hmem, hseen⟩ := List.mem_filter.1 h
  obtain ⟨e, he, rfl⟩ := List.mem_map.1 hmem
  have hread : w.look.homeReadable e.1 = true := hseen
  rw [GuestLinks.age, if_neg (by simp [Link.tuple, hread])]
  exact hs.age_eq (LinkState.mem_typedLinks.1 he).1

theorem forwardClaims_congr (hc : coverageClass k = .ok c)
    (h : w.look.slice cat.registry c .active = w'.look.slice cat.registry c .active) :
    w.look.forwardClaims cat.registry k = w'.look.forwardClaims cat.registry k := by
  simp only [GuestLinks.forwardClaims, observe_congr hc h]

theorem targetsKeyed_congr (h : ∀ j ∈ cat.reverseLookupClasses,
    w.look.slice cat.registry j.1 .active = w'.look.slice cat.registry j.1 .active) :
    (w.ctx cat view defs).targetsKeyed = (w'.ctx cat view defs').targetsKeyed := by
  funext x
  refine Outcome.foldlM_congr (fun j hj out => ?_) []
  have htarget : w.look.targetOf cat.registry j.2 = w'.look.targetOf cat.registry j.2 :=
    targetOf_congr (TypeCatalog.coverageClass_of_reverseLookup hj) (h j hj)
  rw [CoordinationWorld.ctx_links, CoordinationWorld.ctx_links, CoordinationWorld.ctx_catalog,
    CoordinationWorld.ctx_catalog, htarget]

theorem look_stale_eq (hs : w.Sound) (hc : coverageClass k = .ok c)
    (hage : cat.registry.declares c .age = true) (horizon : ℕ) :
    w.look.stale cat.registry k horizon =
      .ok (OrdSet.ofList (((w.look.slice cat.registry c .active).map Tuple.addr).filter
        fun a => decide (horizon < w.ageOf a))) := by
  rw [GuestLinks.stale, show w.look.unfiltered = w.links from rfl, hs.stale_eq hc hage,
    GuestLinks.slice_addrs, List.filter_filter, Outcome.ok_bind, List.filter_filter]
  exact congrArg _ (congrArg _ (List.filter_congr fun a _ => Bool.and_comm _ _))

theorem look_stale_of_not_age (hc : coverageClass k = .ok c)
    (hage : ¬ cat.registry.declares c .age = true) (horizon : ℕ) :
    w.look.stale cat.registry k horizon = .err .mk := by
  rw [GuestLinks.stale, LinkState.stale, hc]
  simp [Outcome.refuseIf, hage]

/-- Reading the stale links of a class takes its active slice and the home frontiers. -/
theorem stale_congr (hs : w.Sound) (hs' : w'.Sound) (hc : coverageClass k = .ok c)
    (h : w.look.slice cat.registry c .active = w'.look.slice cat.registry c .active)
    (hfront : ∀ home, w.links.homeFrontier home = w'.links.homeFrontier home) :
    w.look.stale cat.registry k = w'.look.stale cat.registry k := by
  funext horizon
  by_cases hage : cat.registry.declares c .age = true
  · rw [look_stale_eq hs hc hage, look_stale_eq hs' hc hage, h]
    refine congrArg _ (congrArg _ (List.filter_congr fun a _ => ?_))
    rw [LinkWorld.ageOf, LinkWorld.ageOf, hfront]
  · rw [look_stale_of_not_age hc hage, look_stale_of_not_age hc hage]

end

section

variable {az : Analyzer} {w w' : CoordinationWorld} {defs defs' : Option DefSource}

/-- To agree on a filtered footprint is to agree on it and on the filters. -/
theorem agrees_filtered {moves : Bool} {fp : Footprint}
    (h : (az.filtered moves fp).Agrees az.catalog.registry w w') :
    fp.Agrees az.catalog.registry w w' ∧ (moves = true → FiltersAgree az.catalog az.view w w') := by
  cases moves with
  | false => exact ⟨h, nofun⟩
  | true =>
    obtain ⟨hfp, hfilters⟩ := Footprint.agrees_union.1 h
    refine ⟨hfp, fun _ hview j hj => hfilters.active j.1 ?_⟩
    rw [Analyzer.readFilterFp, if_pos hview]
    exact List.mem_map_of_mem hj

theorem sliceFp_eq_ok {k : TypeKey} {s : Slice} {fp : Footprint} (h : az.sliceFp k s = .ok fp) :
    ∃ c, coverageClass k = .ok c ∧ ∀ {w w' : CoordinationWorld},
      fp.Agrees az.catalog.registry w w' →
        w.look.slice az.catalog.registry c s = w'.look.slice az.catalog.registry c s := by
  simp only [Analyzer.sliceFp, Outcome.bind_eq_ok_iff] at h
  obtain ⟨c, hc, h⟩ := h
  refine ⟨c, TypeCatalog.coverageClass_of_classOf hc, fun {w w'} hagree => ?_⟩
  cases s with
  | active =>
    cases h
    exact hagree.active c List.mem_cons_self
  | audit =>
    cases h
    exact hagree.audit c List.mem_cons_self

/-- What the atoms that read an active slice add to their operand's footprint. -/
theorem active_congr {r : KeyedRead} (hr : r ≠ .isK ∧ r ≠ .targetsOf) {k : TypeKey} {ae a : Analysis}
    (h : az.keyed r k ae = .ok a) (hagree : a.fp.Agrees az.catalog.registry w w') :
    ae.fp.Agrees az.catalog.registry w w' ∧ ∃ c, coverageClass k = .ok c ∧
      w.look.slice az.catalog.registry c .active = w'.look.slice az.catalog.registry c .active ∧
      (r = .age ∨ r = .stale → ∀ home, w.links.homeFrontier home = w'.links.homeFrontier home) := by
  have hslice : ∃ slice, az.sliceFp k .active = .ok slice ∧
      (ae.fp.union slice).Agrees az.catalog.registry w w' ∧
      (r = .age ∨ r = .stale → ∀ home, w.links.homeFrontier home = w'.links.homeFrontier home) := by
    cases r with
    | isK => exact absurd rfl hr.1
    | targetsOf => exact absurd rfl hr.2
    | age | stale =>
      simp only [Analyzer.keyed, Outcome.bind_eq_ok_iff, Outcome.pure_eq, Outcome.ok.injEq] at h
      obtain ⟨slice, hslice, rfl⟩ := h
      exact ⟨slice, hslice, ⟨hagree.audit, hagree.active, hagree.allAudit, hagree.residence, fun _ =>
        hagree.homeFrontier rfl⟩, fun _ => hagree.homeFrontier rfl⟩
    | _ =>
      simp only [Analyzer.keyed, Outcome.bind_eq_ok_iff, Outcome.pure_eq, Outcome.ok.injEq] at h
      obtain ⟨slice, hslice, rfl⟩ := h
      exact ⟨slice, hslice, hagree, by simp⟩
  obtain ⟨slice, hslice, hunion, hfront⟩ := hslice
  obtain ⟨hae, hsl⟩ := Footprint.agrees_union.1 hunion
  obtain ⟨c, hc, hread⟩ := sliceFp_eq_ok hslice
  exact ⟨hae, c, hc, hread hsl, hfront⟩

/-- A keyed atom reads what its analysis adds to its operand's footprint. -/
theorem keyed_congr (defs defs' : Option DefSource) (hs : w.Sound) (hs' : w'.Sound) {r : KeyedRead} {k : TypeKey} {ae a : Analysis}
    (h : az.keyed r k ae = .ok a) (hagree : a.fp.Agrees az.catalog.registry w w')
    (hfilters : r.movesWithView = true → FiltersAgree az.catalog az.view w w') :
    ae.fp.Agrees az.catalog.registry w w' ∧
      r.eval (w.ctx az.catalog az.view defs) k = r.eval (w'.ctx az.catalog az.view defs') k := by
  cases r with
  | isK =>
    simp only [Analyzer.keyed, Outcome.bind_eq_ok_iff, Outcome.pure_eq, Outcome.ok.injEq] at h
    obtain ⟨slice, hslice, rfl⟩ := h
    obtain ⟨hae, hsl⟩ := Footprint.agrees_union.1 hagree
    obtain ⟨c, hc, hread⟩ := sliceFp_eq_ok hslice
    exact ⟨hae, funext fun v => by
      simp only [KeyedRead.eval, isKAt_congr defs defs' hc (hread hsl)]⟩
  | targetsOf =>
    simp only [Analyzer.keyed, Outcome.bind_eq_ok_iff, Outcome.pure_eq, Outcome.ok.injEq] at h
    obtain ⟨slice, hslice, rfl⟩ := h
    obtain ⟨hae, hsl⟩ := Footprint.agrees_union.1 hagree
    obtain ⟨c, hc, hread⟩ := sliceFp_eq_ok hslice
    refine ⟨hae, funext fun v => ?_⟩
    simp only [KeyedRead.eval,
      targetsOfAt_congr defs defs' hc (hread hsl) (hfilters rfl)]
  | isFiltered =>
    obtain ⟨hae, c, hc, hread, -⟩ := active_congr (r := .isFiltered) (by simp) h hagree
    exact ⟨hae, funext fun v => by
      simp only [KeyedRead.eval, filteredBy_congr defs defs' hc hread]⟩
  | succs =>
    obtain ⟨hae, c, hc, hread, -⟩ := active_congr (r := .succs) (by simp) h hagree
    refine ⟨hae, funext fun v => ?_⟩
    simp only [KeyedRead.eval, CoordinationWorld.ctx_links, CoordinationWorld.ctx_catalog,
      GuestLinks.succs, forwardClaims_congr hc hread, uvRewrite_congr defs defs' (hfilters rfl)]
  | chain =>
    obtain ⟨hae, c, hc, hread, -⟩ := active_congr (r := .chain) (by simp) h hagree
    refine ⟨hae, funext fun v => ?_⟩
    simp only [KeyedRead.eval, CoordinationWorld.ctx_links, CoordinationWorld.ctx_catalog,
      GuestLinks.chain, forwardClaims_congr hc hread, uvKeeps_congr defs defs' (hfilters rfl)]
  | tip =>
    obtain ⟨hae, c, hc, hread, -⟩ := active_congr (r := .tip) (by simp) h hagree
    refine ⟨hae, funext fun v => ?_⟩
    simp only [KeyedRead.eval, CoordinationWorld.ctx_links, CoordinationWorld.ctx_catalog,
      GuestLinks.tip, forwardClaims_congr hc hread]
  | sourcesTo =>
    obtain ⟨hae, c, hc, hread, -⟩ := active_congr (r := .sourcesTo) (by simp) h hagree
    refine ⟨hae, funext fun v => ?_⟩
    simp only [KeyedRead.eval, CoordinationWorld.ctx_links, CoordinationWorld.ctx_catalog,
      GuestLinks.sourcesTo, GuestLinks.denoted, observe_congr hc hread, uvRewrite_congr defs defs' (hfilters rfl)]
  | targetOf =>
    obtain ⟨hae, c, hc, hread, -⟩ := active_congr (r := .targetOf) (by simp) h hagree
    refine ⟨hae, funext fun v => ?_⟩
    simp only [KeyedRead.eval, CoordinationWorld.ctx_links, CoordinationWorld.ctx_catalog,
      targetOf_congr hc hread]
  | age =>
    obtain ⟨hae, c, hc, hread, hfront⟩ := active_congr (r := .age) (by simp) h hagree
    refine ⟨hae, funext fun v => ?_⟩
    have hactive : ∀ x, w.look.isActiveTuple az.catalog.registry k x =
        w'.look.isActiveTuple az.catalog.registry k x := fun x => by
      rw [GuestLinks.isActiveTuple_eq hc, GuestLinks.isActiveTuple_eq hc, hread]
    simp only [KeyedRead.eval, CoordinationWorld.ctx_links, CoordinationWorld.ctx_catalog, hactive]
    refine congrArg (asAddr v >>= ·) (funext fun x => ?_)
    rw [GuestLinks.isActiveTuple_eq hc, Outcome.ok_bind, Outcome.ok_bind]
    by_cases hx : ((w'.look.slice az.catalog.registry c .active).any fun t => t.addr == x) = true
    · obtain ⟨t, ht, heq⟩ := List.any_eq_true.1 hx
      obtain rfl := beq_iff_eq.1 heq
      have hage : w.look.age t.addr = w'.look.age t.addr := by
        rw [age_eq hs' ht, age_eq hs (hread ▸ ht), LinkWorld.ageOf, LinkWorld.ageOf, hfront (by simp)]
      rw [if_pos hx, if_pos hx, hage]
    · rw [if_neg hx, if_neg hx]
  | stale =>
    obtain ⟨hae, c, hc, hread, hfront⟩ := active_congr (r := .stale) (by simp) h hagree
    refine ⟨hae, funext fun v => ?_⟩
    simp only [KeyedRead.eval, CoordinationWorld.ctx_links, CoordinationWorld.ctx_catalog,
      stale_congr hs hs' hc hread (hfront (by simp)), uvRewrite_congr defs defs' (hfilters rfl)]

/-- An operation on one operand reads what its analysis adds to its operand's footprint. -/
theorem unary_congr (defs defs' : Option DefSource) (hs : w.Sound) (hs' : w'.Sound) {op : UnaryOp} {ae a : Analysis}
    (h : az.unary op ae = .ok a) (hagree : a.fp.Agrees az.catalog.registry w w') :
    ae.fp.Agrees az.catalog.registry w w' ∧
      op.eval (w.ctx az.catalog az.view defs) = op.eval (w'.ctx az.catalog az.view defs') := by
  cases op with
  | keyed r tr =>
    simp only [Analyzer.unary, Outcome.bind_eq_ok_iff, Outcome.pure_eq, Outcome.ok.injEq] at h
    obtain ⟨k, hk, analysis, hanalysis, rfl⟩ := h
    obtain ⟨hfp, hfilters⟩ := agrees_filtered hagree
    obtain ⟨hae, heval⟩ := keyed_congr defs defs' hs hs' hanalysis hfp hfilters
    refine ⟨hae, funext fun v => ?_⟩
    simp only [UnaryOp.eval, hk, Outcome.ok_bind, heval]
  | targetsKeyed =>
    simp only [Analyzer.unary, Outcome.pure_eq, Outcome.ok.injEq] at h
    subst h
    have hae : ae.fp.Agrees az.catalog.registry w w' :=
      ⟨hagree.audit, fun c hc => hagree.active c (List.mem_append_left _ hc), hagree.allAudit,
        hagree.residence, hagree.homeFrontier⟩
    refine ⟨hae, funext fun v => ?_⟩
    have hjoin : (w.ctx az.catalog az.view defs).targetsKeyed =
        (w'.ctx az.catalog az.view defs').targetsKeyed :=
      targetsKeyed_congr defs defs' fun j hj =>
        hagree.active j.1 (List.mem_append_right _ (List.mem_map_of_mem hj))
    simp only [UnaryOp.eval, hjoin]
  | isDoc =>
    simp only [Analyzer.unary, Outcome.pure_eq, Outcome.ok.injEq] at h
    subst h
    refine ⟨⟨hagree.audit, hagree.active, hagree.allAudit, fun _ => hagree.residence rfl,
      hagree.homeFrontier⟩, funext fun v => ?_⟩
    simp only [UnaryOp.eval, CoordinationWorld.ctx_m3, hagree.residence rfl]
  | isEmpty | elems | mapGet _ | defined | not =>
    simp only [Analyzer.unary, stepConstant, Outcome.pure_eq, Outcome.ok.injEq] at h
    subst h
    exact ⟨hagree, rfl⟩

/-- An operation on two operands reads what its analysis adds to its operands' footprints. -/
theorem binary_congr (defs defs' : Option DefSource) {op : BinaryOp} {ax ay a : Analysis} (h : az.binary op ax ay = .ok a)
    (hagree : a.fp.Agrees az.catalog.registry w w') :
    (ax.fp.union ay.fp).Agrees az.catalog.registry w w' ∧
      op.eval (w.ctx az.catalog az.view defs) = op.eval (w'.ctx az.catalog az.view defs') := by
  cases op with
  | isInChain tr =>
    simp only [Analyzer.binary, Outcome.bind_eq_ok_iff, Outcome.pure_eq, Outcome.ok.injEq] at h
    obtain ⟨k, hk, slice, hslice, rfl⟩ := h
    obtain ⟨hsides, hsl⟩ := Footprint.agrees_union.1 hagree
    obtain ⟨c, hc, hread⟩ := sliceFp_eq_ok hslice
    refine ⟨hsides, funext fun x => funext fun y => ?_⟩
    simp only [BinaryOp.eval, hk, Outcome.ok_bind, CoordinationWorld.ctx_links,
      CoordinationWorld.ctx_catalog, GuestLinks.isInChain, forwardClaims_congr hc (hread hsl)]
  | addrEq | prefixOf | t1Lt | setMem | setEq | natEq | natLe | natAdd =>
    simp only [Analyzer.binary, stepConstant, Outcome.pure_eq, Outcome.ok.injEq] at h
    subst h
    exact ⟨hagree, rfl⟩

/-- A reading domain enumerates what its analysis names. -/
theorem domRead_congr (defs defs' : Option DefSource) {r : DomRead} {tr : TypeRef} {a : DomAnalysis}
    (h : analyzeDom az (.read r tr) = .ok a) (hagree : a.fp.Agrees az.catalog.registry w w') :
    ∃ k, tr.key = .ok k ∧
      r.enum (w.ctx az.catalog az.view defs) k = r.enum (w'.ctx az.catalog az.view defs') k := by
  cases r with
  | members =>
    simp only [analyzeDom, Outcome.bind_eq_ok_iff, Outcome.pure_eq, Outcome.ok.injEq] at h
    obtain ⟨k, hk, slice, hslice, rfl⟩ := h
    have hmoving : (az.filtered true slice).Agrees az.catalog.registry w w' := hagree
    obtain ⟨hsl, hfilters⟩ := agrees_filtered hmoving
    obtain ⟨c, hc, hread⟩ := sliceFp_eq_ok hslice
    refine ⟨k, hk, ?_⟩
    simp only [DomRead.enum, membersAt_congr defs defs' hc (hread hsl) (hfilters rfl)]
  | active =>
    simp only [analyzeDom, Outcome.bind_eq_ok_iff, Outcome.pure_eq, Outcome.ok.injEq] at h
    obtain ⟨k, hk, slice, hslice, rfl⟩ := h
    obtain ⟨c, hc, hread⟩ := sliceFp_eq_ok hslice
    refine ⟨k, hk, ?_⟩
    simp only [DomRead.enum, CoordinationWorld.ctx_links, CoordinationWorld.ctx_catalog,
      observe_congr (s := .active) hc (hread hagree)]
  | audit =>
    simp only [analyzeDom, Outcome.bind_eq_ok_iff, Outcome.pure_eq, Outcome.ok.injEq] at h
    obtain ⟨k, hk, slice, hslice, rfl⟩ := h
    obtain ⟨c, hc, hread⟩ := sliceFp_eq_ok hslice
    refine ⟨k, hk, ?_⟩
    simp only [DomRead.enum, CoordinationWorld.ctx_links, CoordinationWorld.ctx_catalog,
      observe_congr (s := .audit) hc (hread hagree)]

/-- The links of every cataloged type, over worlds that agree on every audit slice. -/
theorem linkDom_congr (defs defs' : Option DefSource) {cat : TypeCatalog} {view : View}
    (h : ∀ c, w.look.slice cat.registry c .audit = w'.look.slice cat.registry c .audit) :
    (w.ctx cat view defs).linkDom = (w'.ctx cat view defs').linkDom := by
  have hobserve : ∀ k, w.look.observe cat.registry k {} .audit = w'.look.observe cat.registry k {} .audit := by
    intro k
    cases hk : coverageClass k with
    | ok c => exact observe_congr (s := .audit) hk (h c) {}
    | err e => exact nomatch e
    | fault => simp [GuestLinks.observe, GuestLinks.candidates, LinkState.observe, hk]
  simp only [EvalCtx.linkDom, CoordinationWorld.ctx_links, CoordinationWorld.ctx_catalog, hobserve]

variable {call call' : TypedTerm → Env → Outcome Empty Value}

mutual

/-- **A term's value depends on its footprint alone.** -/
theorem evalTerm_congr (hs : w.Sound) (hs' : w'.Sound) (t : Term) (env : Env) {a : Analysis}
    (h : analyzeTerm az t = .ok a) (hagree : a.fp.Agrees az.catalog.registry w w') :
    evalTerm (w.ctx az.catalog az.view defs) call env t =
      evalTerm (w'.ctx az.catalog az.view defs') call' env t := by
  cases t with
  | var | lit | tuple => rfl
  | members tr =>
    simp only [analyzeTerm, Outcome.bind_eq_ok_iff, Outcome.pure_eq, Outcome.ok.injEq] at h
    obtain ⟨k, hk, slice, hslice, rfl⟩ := h
    have hmoving : (az.filtered true slice).Agrees az.catalog.registry w w' := hagree
    obtain ⟨hsl, hfilters⟩ := agrees_filtered hmoving
    obtain ⟨c, hc, hread⟩ := sliceFp_eq_ok hslice
    simp only [evalTerm, hk, Outcome.ok_bind, membersAt_congr defs defs' hc (hread hsl) (hfilters rfl)]
  | inCoverage slot e v =>
    simp only [analyzeTerm, Outcome.bind_eq_ok_iff, Outcome.pure_eq, Outcome.ok.injEq] at h
    obtain ⟨ae, hae, rfl⟩ := h
    simp only [evalTerm, evalTerm_congr hs hs' e env hae hagree]
  | unary op e =>
    simp only [analyzeTerm, Outcome.bind_eq_ok_iff] at h
    obtain ⟨ae, hae, h⟩ := h
    obtain ⟨he, heval⟩ := unary_congr defs defs' hs hs' h hagree
    simp only [evalTerm, evalTerm_congr hs hs' e env hae he, heval]
  | binary op x y =>
    have hsides : ∃ ax ay, analyzeTerm az x = .ok ax ∧ analyzeTerm az y = .ok ay ∧
        (ax.fp.union ay.fp).Agrees az.catalog.registry w w' ∧
        op.eval (w.ctx az.catalog az.view defs) = op.eval (w'.ctx az.catalog az.view defs') := by
      by_cases hop : op = .natLe
      · subst hop
        obtain ⟨ax, ay, hax, hay, hfp, -⟩ := analyzeTerm_natLe h
        exact ⟨ax, ay, hax, hay, hfp ▸ hagree, rfl⟩
      · simp only [analyzeTerm_binary hop, Outcome.bind_eq_ok_iff] at h
        obtain ⟨ax, hax, ay, hay, h⟩ := h
        obtain ⟨hsides, heval⟩ := binary_congr defs defs' h hagree
        exact ⟨ax, ay, hax, hay, hsides, heval⟩
    obtain ⟨ax, ay, hax, hay, hsides, heval⟩ := hsides
    obtain ⟨hx, hy⟩ := Footprint.agrees_union.1 hsides
    simp only [evalTerm, evalTerm_congr hs hs' x env hax hx, evalTerm_congr hs hs' y env hay hy, heval]
  | connective op x y =>
    simp only [analyzeTerm, Outcome.bind_eq_ok_iff, Outcome.pure_eq, Outcome.ok.injEq] at h
    obtain ⟨ax, hax, ay, hay, rfl⟩ := h
    obtain ⟨hx, hy⟩ := Footprint.agrees_union.1
      (show (ax.fp.union ay.fp).Agrees az.catalog.registry w w' by cases op <;> exact hagree)
    simp only [evalTerm, evalTerm_congr hs hs' x env hax hx, evalTerm_congr hs hs' y env hay hy]
  | quantified q var dom body =>
    simp only [analyzeTerm, Outcome.bind_eq_ok_iff, Outcome.pure_eq, Outcome.ok.injEq] at h
    obtain ⟨ad, had, ab, hab, rfl⟩ := h
    obtain ⟨hd, hb⟩ := Footprint.agrees_union.1 (Quantifier.analyze_fp q ad ab ▸ hagree)
    have hbody := fun inner => evalTerm_congr hs hs' body inner hab hb
    simp only [evalTerm, enumDom_congr hs hs' dom env had hd, hbody]
  | letIn var bound body =>
    simp only [analyzeTerm, Outcome.bind_eq_ok_iff, Outcome.pure_eq, Outcome.ok.injEq] at h
    obtain ⟨abound, habound, ab, hab, rfl⟩ := h
    obtain ⟨hbound, hb⟩ := Footprint.agrees_union.1 hagree
    have hbody := fun inner => evalTerm_congr hs hs' body inner hab hb
    simp only [evalTerm, evalTerm_congr hs hs' bound env habound hbound, hbody]
  | ifSome opt var thenTerm elseTerm =>
    simp only [analyzeTerm, Outcome.bind_eq_ok_iff, Outcome.pure_eq, Outcome.ok.injEq] at h
    obtain ⟨aopt, haopt, athen, hathen, aelse, haelse, rfl⟩ := h
    obtain ⟨hsides, helse⟩ := Footprint.agrees_union.1 hagree
    obtain ⟨hopt, hthen⟩ := Footprint.agrees_union.1 hsides
    have hthenTerm := fun inner => evalTerm_congr hs hs' thenTerm inner hathen hthen
    simp only [evalTerm, evalTerm_congr hs hs' opt env haopt hopt, hthenTerm,
      evalTerm_congr hs hs' elseTerm env haelse helse]
  | aggregate op dom =>
    simp only [analyzeTerm, Outcome.bind_eq_ok_iff, Outcome.pure_eq, Outcome.ok.injEq] at h
    obtain ⟨ad, had, rfl⟩ := h
    have hd : ad.fp.Agrees az.catalog.registry w w' := by cases op <;> exact hagree
    simp only [evalTerm, enumDom_congr hs hs' dom env had hd]
  | bigUnion dom var body =>
    simp only [analyzeTerm, Outcome.bind_eq_ok_iff, Outcome.pure_eq, Outcome.ok.injEq] at h
    obtain ⟨ad, had, ab, hab, rfl⟩ := h
    obtain ⟨hd, hb⟩ := Footprint.agrees_union.1 hagree
    have hbody := fun inner => evalTerm_congr hs hs' body inner hab hb
    simp only [evalTerm, enumDom_congr hs hs' dom env had hd, hbody]
  | ref addr args => exact nomatch h

/-- **A domain's elements depend on its footprint alone.** -/
theorem enumDom_congr (hs : w.Sound) (hs' : w'.Sound) (d : Dom) (env : Env) {a : DomAnalysis}
    (h : analyzeDom az d = .ok a) (hagree : a.fp.Agrees az.catalog.registry w w') :
    enumDom (w.ctx az.catalog az.view defs) call env d =
      enumDom (w'.ctx az.catalog az.view defs') call' env d := by
  cases d with
  | read r tr =>
    obtain ⟨k, hk, heq⟩ := domRead_congr defs defs' h hagree
    simp only [enumDom, hk, Outcome.ok_bind, heq]
  | linkDom =>
    simp only [analyzeDom, Outcome.pure_eq, Outcome.ok.injEq] at h
    subst h
    simp only [enumDom, linkDom_congr defs defs' (hagree.allAudit rfl)]
  | reg => exact nomatch h
  | filter dom var pred =>
    simp only [analyzeDom, Outcome.bind_eq_ok_iff, Outcome.pure_eq, Outcome.ok.injEq] at h
    obtain ⟨ad, had, ap, hap, rfl⟩ := h
    obtain ⟨hd, hp⟩ := Footprint.agrees_union.1 hagree
    have hpred := fun inner => evalTerm_congr hs hs' pred inner hap hp
    simp only [enumDom, enumDom_congr hs hs' dom env had hd, hpred]
  | setTerm t =>
    simp only [analyzeDom, Outcome.bind_eq_ok_iff, Outcome.pure_eq, Outcome.ok.injEq] at h
    obtain ⟨aset, haset, rfl⟩ := h
    simp only [enumDom, evalTerm_congr hs hs' t env haset hagree]

end

end

end Coordination
