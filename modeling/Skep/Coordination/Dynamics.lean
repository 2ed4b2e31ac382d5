import Skep.Coordination.Eval

/-!
# Static dynamics

What a term reads, and how its value can move as the world grows, both read
off its spelling at a view. A term over which no state is read is constant. A
true-stable term stays true, a false-stable term stays false, a grow-only set
or domain keeps its elements.
-/

namespace Coordination

/-- The slices a term reads. The classes of each kind are a list without order. -/
structure Footprint where
  audit : List CoverageClass := []
  active : List CoverageClass := []
  allAudit : Bool := false
  residence : Bool := false
  homeFrontier : Bool := false
  targetsKeyed : Bool := false

/-- What a fire deposits, by the class of its tuple. -/
inductive Emission where
  | marker (c : CoverageClass)
  | retraction (c : CoverageClass)
  deriving DecidableEq

namespace Emission

def coverage : Emission → CoverageClass
  | .marker c | .retraction c => c

def isRetraction : Emission → Bool
  | .marker _ => false
  | .retraction _ => true

end Emission

namespace Footprint

variable (fp : Footprint)

def retractionShrinks : Bool := !fp.active.isEmpty

/-- Whether an emission can change what the footprint reads. -/
def armedBy (e : Emission) : Bool :=
  fp.allAudit || fp.audit.contains e.coverage || fp.active.contains e.coverage || fp.homeFrontier ||
    (e.isRetraction && fp.retractionShrinks)

def isStepConstant : Bool :=
  fp.audit.isEmpty && fp.active.isEmpty && !fp.allAudit && !fp.residence && !fp.homeFrontier &&
    !fp.targetsKeyed

def union (fp other : Footprint) : Footprint where
  audit := fp.audit ++ other.audit
  active := fp.active ++ other.active
  allAudit := fp.allAudit || other.allAudit
  residence := fp.residence || other.residence
  homeFrontier := fp.homeFrontier || other.homeFrontier
  targetsKeyed := fp.targetsKeyed || other.targetsKeyed

end Footprint

/-- What is computed of a term: its footprint and its three stability flags. -/
structure Analysis where
  fp : Footprint
  st : Bool
  sf : Bool
  growOnly : Bool

structure DomAnalysis where
  fp : Footprint
  growOnly : Bool

def stepConstant (fp : Footprint) : Analysis :=
  ⟨fp, fp.isStepConstant, fp.isStepConstant, fp.isStepConstant⟩

def stateRead (fp : Footprint) : Analysis := ⟨fp, false, false, false⟩

/-- What the analysis is relative to. `widen` lets a parameter stand for a threshold. -/
structure Analyzer where
  catalog : TypeCatalog
  view : View
  widen : Bool

/-- Whether an operation leaves addresses out at the default view or picks its slice
by the view. -/
def KeyedRead.movesWithView : KeyedRead → Bool
  | .isK | .targetsOf | .succs | .chain | .sourcesTo | .stale => true
  | .isFiltered | .tip | .targetOf | .age => false

def UnaryOp.movesWithView : UnaryOp → Bool
  | .keyed r _ => r.movesWithView
  | _ => false

def DomRead.movesWithView : DomRead → Bool
  | .members => true
  | .active | .audit => false

namespace Analyzer

variable (az : Analyzer)

def admissibleThreshold (t : Term) : Bool :=
  match t with
  | .lit (.nat _) => true
  | .var _ => az.widen
  | _ => false

def sliceFp (k : TypeKey) (slice : Slice) : Outcome Empty Footprint := do
  let c ← az.catalog.classOf k
  match slice with
  | .audit => return { audit := [c] }
  | .active => return { active := [c] }

def readFilterFp : Footprint :=
  if az.view = .default then { active := az.catalog.readFilterClasses.map Prod.fst } else {}

/-- A footprint with the filters its reading goes through. -/
def filtered (moves : Bool) (fp : Footprint) : Footprint :=
  if moves then fp.union az.readFilterFp else fp

/-- An atom that reads a type, from the analysis of its operand. -/
def keyed (r : KeyedRead) (k : TypeKey) (ae : Analysis) : Outcome Empty Analysis := do
  match r with
  | .isK => do
      let slice ← az.sliceFp k (Slice.of az.view)
      return ⟨ae.fp.union slice, az.view == .audit && ae.fp.isStepConstant, false, false⟩
  | .targetsOf => do
      let slice ← az.sliceFp k (Slice.of az.view)
      return ⟨ae.fp.union slice, false, false, az.view == .audit && ae.fp.isStepConstant⟩
  | .isFiltered | .succs | .chain | .tip | .sourcesTo | .targetOf => do
      let slice ← az.sliceFp k .active
      return stateRead (ae.fp.union slice)
  | .age | .stale => do
      let slice ← az.sliceFp k .active
      return stateRead { ae.fp.union slice with homeFrontier := true }

/-- An operation on one operand, from the analysis of its operand. -/
def unary (op : UnaryOp) (ae : Analysis) : Outcome Empty Analysis := do
  match op with
  | .keyed r tr => do
      let k ← tr.key
      let analysis ← az.keyed r k ae
      return { analysis with fp := az.filtered r.movesWithView analysis.fp }
  | .targetsKeyed =>
      return stateRead { ae.fp with
        active := ae.fp.active ++ az.catalog.reverseLookupClasses.map Prod.fst
        targetsKeyed := true }
  | .isDoc => return ⟨{ ae.fp with residence := true }, ae.fp.isStepConstant, false, false⟩
  | .isEmpty =>
      let const := ae.fp.isStepConstant
      return ⟨ae.fp, const, const || ae.growOnly, const⟩
  | .elems | .defined | .mapGet _ => return stepConstant ae.fp
  | .not => return ⟨ae.fp, ae.sf, ae.st, ae.fp.isStepConstant⟩

/-- An operation on two operands that is not a comparison with a count. -/
def binary (op : BinaryOp) (ax ay : Analysis) : Outcome Empty Analysis := do
  match op with
  | .isInChain tr => do
      let k ← tr.key
      let slice ← az.sliceFp k .active
      return stateRead ((ax.fp.union ay.fp).union slice)
  | .setMem =>
      let fp := ax.fp.union ay.fp
      let const := fp.isStepConstant
      return ⟨fp, const || (ax.fp.isStepConstant && ay.growOnly), const, const⟩
  | .addrEq | .prefixOf | .t1Lt | .setEq | .natEq | .natAdd | .natLe =>
      return stepConstant (ax.fp.union ay.fp)

end Analyzer

def Connective.analyze (op : Connective) (ax ay : Analysis) : Analysis :=
  let fp := ax.fp.union ay.fp
  match op with
  | .and | .or => ⟨fp, ax.st && ay.st, ax.sf && ay.sf, fp.isStepConstant⟩
  | .implies => ⟨fp, ax.sf && ay.st, ax.st && ay.sf, fp.isStepConstant⟩
  | .iff =>
      let both := ax.st && ax.sf && ay.st && ay.sf
      ⟨fp, both, both, fp.isStepConstant⟩

def Quantifier.analyze (q : Quantifier) (ad : DomAnalysis) (ab : Analysis) : Analysis :=
  let fp := ad.fp.union ab.fp
  if ad.fp.isStepConstant then ⟨fp, ab.st, ab.sf, fp.isStepConstant⟩
  else if ad.growOnly then
    match q with
    | .all => ⟨fp, false, ab.sf, fp.isStepConstant⟩
    | .any => ⟨fp, ab.st, false, fp.isStepConstant⟩
  else ⟨fp, false, false, fp.isStepConstant⟩

@[simp] theorem Quantifier.analyze_fp (q : Quantifier) (ad : DomAnalysis) (ab : Analysis) :
    (q.analyze ad ab).fp = ad.fp.union ab.fp := by
  unfold analyze
  split
  · rfl
  · split
    · cases q <;> rfl
    · rfl

def Aggregate.analyze (op : Aggregate) (ad : DomAnalysis) : Analysis :=
  match op with
  | .count | .maxT1 | .minT1 => stepConstant ad.fp
  | .reflect =>
      let const := ad.fp.isStepConstant
      ⟨ad.fp, const, const, const || ad.growOnly⟩

mutual

/-- The analysis of a term. It is asked of trees without references. -/
def analyzeTerm (az : Analyzer) : Term → Outcome Empty Analysis
  | .var _ | .lit _ => return stepConstant {}
  | .members tr => do
      let k ← tr.key
      let slice ← az.sliceFp k (Slice.of az.view)
      return ⟨az.filtered true slice, false, false, az.view == .audit⟩
  | .tuple _ _ => return stepConstant {}
  | .inCoverage _ e _ => do return stepConstant (← analyzeTerm az e).fp
  | .unary op e => do az.unary op (← analyzeTerm az e)
  | .binary .natLe x y => do
      -- a count on a side is read for its domain's growth
      let (ax, sf) ← match x with
        | .aggregate .count d => do
            let ad ← analyzeDom az d
            pure (stepConstant ad.fp, az.admissibleThreshold y && ad.growOnly)
        | x => do pure ((← analyzeTerm az x), false)
      let (ay, st) ← match y with
        | .aggregate .count d => do
            let ad ← analyzeDom az d
            pure (stepConstant ad.fp, az.admissibleThreshold x && ad.growOnly)
        | y => do pure ((← analyzeTerm az y), false)
      let fp := ax.fp.union ay.fp
      let const := fp.isStepConstant
      return ⟨fp, st || const, sf || const, const⟩
  | .binary op x y => do az.binary op (← analyzeTerm az x) (← analyzeTerm az y)
  | .connective op x y => do return op.analyze (← analyzeTerm az x) (← analyzeTerm az y)
  | .quantified q _ dom body => do return q.analyze (← analyzeDom az dom) (← analyzeTerm az body)
  | .letIn _ bound body => do
      let abound ← analyzeTerm az bound
      let ab ← analyzeTerm az body
      let const := abound.fp.isStepConstant
      return ⟨abound.fp.union ab.fp, const && ab.st, const && ab.sf, const && ab.growOnly⟩
  | .ifSome opt _ thenTerm elseTerm => do
      let aopt ← analyzeTerm az opt
      let athen ← analyzeTerm az thenTerm
      let aelse ← analyzeTerm az elseTerm
      let const := aopt.fp.isStepConstant
      let fp := (aopt.fp.union athen.fp).union aelse.fp
      return ⟨fp, const && athen.st && aelse.st, const && athen.sf && aelse.sf, fp.isStepConstant⟩
  | .aggregate op dom => do return op.analyze (← analyzeDom az dom)
  | .bigUnion dom _ body => do
      let ad ← analyzeDom az dom
      let ab ← analyzeTerm az body
      let fp := ad.fp.union ab.fp
      let const := fp.isStepConstant
      return ⟨fp, const, const, const || (ad.growOnly && ab.fp.isStepConstant)⟩
  | .ref _ _ => .fault

/-- The analysis of a domain. -/
def analyzeDom (az : Analyzer) : Dom → Outcome Empty DomAnalysis
  | .read r tr => do
      let k ← tr.key
      match r with
      | .members => do
          let slice ← az.sliceFp k (Slice.of az.view)
          return ⟨az.filtered true slice, az.view == .audit⟩
      | .active => do return ⟨← az.sliceFp k .active, false⟩
      | .audit => do return ⟨← az.sliceFp k .audit, true⟩
  | .linkDom => return ⟨{ allAudit := true }, true⟩
  | .reg => .fault
  | .filter dom _ pred => do
      let ad ← analyzeDom az dom
      let ap ← analyzeTerm az pred
      return ⟨ad.fp.union ap.fp,
        (ad.growOnly && ap.st) || (ad.fp.isStepConstant && ap.fp.isStepConstant)⟩
  | .setTerm t => do
      let aset ← analyzeTerm az t
      return ⟨aset.fp, aset.growOnly || aset.fp.isStepConstant⟩

end

/-- A point of the stability lattice. -/
inductive Stability where
  | stSf
  | stOnly
  | sfOnly
  | neither
  deriving DecidableEq, Repr

/-- The readings at the active view under which a stable point may still move. -/
structure ActiveExceptions where
  retractionShrinks : Bool
  bh4HomeFrontier : Bool
  targetsKeyedCrossType : Bool
  deriving DecidableEq, Repr

/-- What is reported of a term. -/
structure Dynamics where
  footprint : Footprint
  stability : Stability
  activeExceptions : ActiveExceptions
  viewIndependent : Bool

mutual

/-- Whether no reading of the term moves with the view. -/
def viewIndependent : Term → Outcome Empty Bool
  | .var _ | .lit _ | .tuple _ _ => return true
  | .members _ => return false
  | .inCoverage _ e _ => viewIndependent e
  | .unary op e => if op.movesWithView then return false else viewIndependent e
  | .binary _ x y | .connective _ x y => do
      if ← viewIndependent x then viewIndependent y else return false
  | .quantified _ _ dom body | .bigUnion dom _ body => do
      if ← viewIndependentDom dom then viewIndependent body else return false
  | .letIn _ bound body => do
      if ← viewIndependent bound then viewIndependent body else return false
  | .ifSome opt _ thenTerm elseTerm => do
      if ← viewIndependent opt then
        if ← viewIndependent thenTerm then viewIndependent elseTerm else return false
      else return false
  | .aggregate _ dom => viewIndependentDom dom
  | .ref _ _ => .fault

def viewIndependentDom : Dom → Outcome Empty Bool
  | .read r _ => return !r.movesWithView
  | .linkDom | .reg => return true
  | .filter dom _ pred => do
      if ← viewIndependentDom dom then viewIndependent pred else return false
  | .setTerm t => viewIndependent t

end

/-- Whether a term may be certified at every view, its parameters as thresholds. -/
def stPlus (cat : TypeCatalog) (t : Term) : Outcome Empty Bool := do
  return (← analyzeTerm ⟨cat, .audit, true⟩ t).st

def stabilityOf (st sf : Bool) : Stability :=
  match st, sf with
  | true, true => .stSf
  | true, false => .stOnly
  | false, true => .sfOnly
  | false, false => .neither

/-- What is reported of a term at a view. -/
def classifyTerm (cat : TypeCatalog) (view : View) (t : Term) : Outcome Empty Dynamics := do
  let analysis ← analyzeTerm ⟨cat, view, false⟩ t
  let independent ← viewIndependent t
  return {
    footprint := analysis.fp
    stability := stabilityOf analysis.st analysis.sf
    activeExceptions :=
      ⟨analysis.fp.retractionShrinks, analysis.fp.homeFrontier, analysis.fp.targetsKeyed⟩
    viewIndependent := independent }

/-- The type of a trigger spelled as its parameter's negated membership. -/
def negatedMembership (t : Term) (param : VarId) : Outcome Empty (Option TypeKey) :=
  match t with
  | .unary .not (.unary (.keyed .isK tr) (.var v)) =>
      if v = param then do return some (← tr.key) else return none
  | .unary .not (.ref _ _) => .fault
  | _ => return none

theorem analyzeTerm_binary {az : Analyzer} {op : BinaryOp} (hop : op ≠ .natLe) (x y : Term) :
    analyzeTerm az (.binary op x y) = (do az.binary op (← analyzeTerm az x) (← analyzeTerm az y)) := by
  cases op <;> first | rfl | exact absurd rfl hop

/-- A side of a comparison that is a count over a grow-only domain, the other a threshold. -/
def CountSide (az : Analyzer) (t other : Term) : Prop :=
  ∃ d ad, t = .aggregate .count d ∧ analyzeDom az d = .ok ad ∧ ad.growOnly = true ∧
    az.admissibleThreshold other = true

/-- One side of a comparison: its analysis, and whether it is a bounding count. -/
def analyzeSide (az : Analyzer) (t other : Term) : Outcome Empty (Analysis × Bool) :=
  match t with
  | .aggregate .count d => do
      let ad ← analyzeDom az d
      pure (stepConstant ad.fp, az.admissibleThreshold other && ad.growOnly)
  | t => do pure ((← analyzeTerm az t), false)

theorem analyzeSide_spec {az : Analyzer} {t other : Term} {at' : Analysis} {bound : Bool}
    (h : analyzeSide az t other = .ok (at', bound)) :
    analyzeTerm az t = .ok at' ∧ (bound = true → CountSide az t other) := by
  unfold analyzeSide at h
  split at h
  · next d =>
    simp only [Outcome.bind_eq_ok_iff, Outcome.pure_eq, Outcome.ok.injEq, Prod.mk.injEq] at h
    obtain ⟨ad, had, rfl, rfl⟩ := h
    refine ⟨by simp [analyzeTerm, had, Aggregate.analyze], fun hb => ?_⟩
    rw [Bool.and_eq_true] at hb
    exact ⟨d, ad, rfl, had, hb.2, hb.1⟩
  · simp only [Outcome.bind_eq_ok_iff, Outcome.pure_eq, Outcome.ok.injEq, Prod.mk.injEq] at h
    obtain ⟨ax, hax, rfl, rfl⟩ := h
    exact ⟨hax, fun hb => absurd hb Bool.false_ne_true⟩

/-- A comparison of naturals is analyzed side by side. -/
theorem analyzeTerm_natLe_sides (az : Analyzer) (x y : Term) : analyzeTerm az (.binary .natLe x y) = (do
    let (ax, sf) ← analyzeSide az x y
    let (ay, st) ← analyzeSide az y x
    let fp := ax.fp.union ay.fp
    let const := fp.isStepConstant
    return ⟨fp, st || const, sf || const, const⟩) := by
  unfold analyzeTerm analyzeSide
  split <;> split <;> simp only [bind_assoc, pure_bind]

/-- A comparison of naturals: constant, or bounded by a count on one side. -/
theorem analyzeTerm_natLe {az : Analyzer} {x y : Term} {a : Analysis}
    (h : analyzeTerm az (.binary .natLe x y) = .ok a) :
    ∃ ax ay, analyzeTerm az x = .ok ax ∧ analyzeTerm az y = .ok ay ∧ a.fp = ax.fp.union ay.fp ∧
      (a.st = true → a.fp.isStepConstant = true ∨ CountSide az y x) ∧
      (a.sf = true → a.fp.isStepConstant = true ∨ CountSide az x y) ∧
      (a.growOnly = true → a.fp.isStepConstant = true) := by
  rw [analyzeTerm_natLe_sides] at h
  simp only [Outcome.bind_eq_ok_iff, Prod.exists, Outcome.pure_eq, Outcome.ok.injEq] at h
  obtain ⟨ax, sf, hx, ay, st, hy, rfl⟩ := h
  obtain ⟨hax, hsf⟩ := analyzeSide_spec hx
  obtain ⟨hay, hst⟩ := analyzeSide_spec hy
  refine ⟨ax, ay, hax, hay, rfl, fun h => ?_, fun h => ?_, id⟩
  · exact (Bool.or_eq_true _ _ ▸ h).elim (fun h => .inr (hst h)) .inl
  · exact (Bool.or_eq_true _ _ ▸ h).elim (fun h => .inr (hsf h)) .inl

end Coordination
