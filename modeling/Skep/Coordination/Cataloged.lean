import Skep.Coordination.Judgment

/-!
# What is evaluated names cataloged types

The term that the checker answers in a submission's place reads no type outside the
catalog and leaves no class variable.
-/

namespace Coordination

section

variable (cat : TypeCatalog)

/-- The key of a shipped type stands at the position. -/
def TypeRef.Cataloged (tr : TypeRef) : Prop :=
  ∃ ty, tr = .concrete (cat.registry.reservedType ty)

def UnaryOp.Cataloged : UnaryOp → Prop
  | .keyed _ tr | .mapGet tr => tr.Cataloged cat
  | .targetsKeyed | .isDoc | .isEmpty | .elems | .defined | .not => True

def BinaryOp.Cataloged : BinaryOp → Prop
  | .isInChain tr => tr.Cataloged cat
  | .addrEq | .prefixOf | .t1Lt | .setMem | .setEq | .natEq | .natLe | .natAdd => True

mutual

/-- Every type position of the term holds a shipped type's key. -/
def Term.Cataloged : Term → Prop
  | .var _ | .lit _ | .tuple _ _ => True
  | .members tr => tr.Cataloged cat
  | .inCoverage _ e _ => e.Cataloged
  | .unary op e => op.Cataloged cat ∧ e.Cataloged
  | .binary op x y => op.Cataloged cat ∧ x.Cataloged ∧ y.Cataloged
  | .connective _ x y => x.Cataloged ∧ y.Cataloged
  | .quantified _ _ d body | .bigUnion d _ body => d.Cataloged ∧ body.Cataloged
  | .letIn _ bound body => bound.Cataloged ∧ body.Cataloged
  | .ifSome opt _ thenTerm elseTerm => opt.Cataloged ∧ thenTerm.Cataloged ∧ elseTerm.Cataloged
  | .aggregate _ d => d.Cataloged
  | .ref _ args => argsCataloged args

def argsCataloged : List Term → Prop
  | [] => True
  | t :: ts => t.Cataloged ∧ argsCataloged ts

def Dom.Cataloged : Dom → Prop
  | .read _ tr => tr.Cataloged cat
  | .linkDom => True
  | .reg => False
  | .filter d _ pred => d.Cataloged ∧ pred.Cataloged
  | .setTerm t => t.Cataloged

end

end

variable {cat : TypeCatalog} {defs : DefSource}

theorem cataloged_of_guarded {tr : TypeRef} {guard : Guard} {k : TypeKey}
    (h : cat.guarded tr guard = .ok k) : (TypeRef.concrete k).Cataloged cat := by
  cases tr with
  | classVar v => cases h
  | concrete k' =>
    simp only [TypeCatalog.guarded, Outcome.bind_eq_ok_iff, Outcome.okOr_eq_ok_iff] at h
    obtain ⟨entry, hentry, h⟩ := h
    obtain ⟨ty, rfl, -⟩ := TypeCatalog.get_eq_some hentry
    have hk : k = cat.registry.reservedType ty := by
      cases guard <;>
        simp only [Outcome.bind_eq_ok_iff, Outcome.pure_eq, Outcome.ok.injEq] at h <;> grind
    exact ⟨ty, by rw [hk]⟩

theorem UnaryOp.cataloged_of_guarded {op op' : UnaryOp} (h : op.guarded cat = .ok op') :
    op'.Cataloged cat := by
  cases op with
  | keyed r tr =>
    simp only [UnaryOp.guarded, Outcome.bind_eq_ok_iff, Outcome.pure_eq, Outcome.ok.injEq] at h
    obtain ⟨k, hk, rfl⟩ := h
    exact Coordination.cataloged_of_guarded hk
  | mapGet tr =>
    simp only [UnaryOp.guarded, Outcome.bind_eq_ok_iff, Outcome.pure_eq, Outcome.ok.injEq] at h
    obtain ⟨k, hk, rfl⟩ := h
    exact Coordination.cataloged_of_guarded hk
  | targetsKeyed =>
    simp only [UnaryOp.guarded, Outcome.bind_eq_ok_iff, Outcome.pure_eq, Outcome.ok.injEq] at h
    obtain ⟨_, _, rfl⟩ := h
    trivial
  | isDoc | isEmpty | elems | defined | not =>
    cases h
    trivial

theorem BinaryOp.cataloged_of_guarded {op op' : BinaryOp} (h : op.guarded cat = .ok op') :
    op'.Cataloged cat := by
  cases op with
  | isInChain tr =>
    simp only [BinaryOp.guarded, Outcome.bind_eq_ok_iff, Outcome.pure_eq, Outcome.ok.injEq] at h
    obtain ⟨k, hk, rfl⟩ := h
    exact Coordination.cataloged_of_guarded hk
  | addrEq | prefixOf | t1Lt | setMem | setEq | natEq | natLe | natAdd =>
    cases h
    trivial

theorem cataloged_joined (q : Quantifier) {insts : List Term} (h : argsCataloged cat insts) :
    (joined q insts).Cataloged cat := by
  have hfold : ∀ (ts : List Term) (t : Term), t.Cataloged cat → argsCataloged cat ts →
      (ts.foldl (Term.connective q.join) t).Cataloged cat := by
    intro ts
    induction ts with
    | nil => exact fun t ht _ => ht
    | cons t' ts ih => exact fun t ht hts => ih _ ⟨ht, hts.1⟩ hts.2
  cases insts with
  | nil => trivial
  | cons t ts => exact hfold ts t h.1 h.2

mutual

/-- **What is evaluated in a term's place names cataloged types.** -/
theorem TermJudged.cataloged {ctx : Ctx} {t t' : Term} {s : ValueSort} :
    TermJudged cat defs ctx t s t' → t'.Cataloged cat
  | .var _ | .lit | .tuple _ | .countTypes => trivial
  | .members hk => cataloged_of_guarded hk
  | .inCoverage he _ => he.cataloged
  | .unary hop he _ => ⟨UnaryOp.cataloged_of_guarded hop, he.cataloged⟩
  | .binary hop hx hy => ⟨BinaryOp.cataloged_of_guarded hop, hx.cataloged, hy.cataloged⟩
  | .connective hx hy => ⟨hx.cataloged, hy.cataloged⟩
  | .quantified hd hb => ⟨hd.cataloged, hb.cataloged⟩
  | .overTypes hinsts => cataloged_joined _ hinsts.cataloged
  | .letIn hbound hb => ⟨hbound.cataloged, hb.cataloged⟩
  | .ifSome hopt _ hthen helse => ⟨hopt.cataloged, hthen.cataloged, helse.cataloged⟩
  | .aggregate hd _ => hd.cataloged
  | .bigUnion hd hb => ⟨hd.cataloged, hb.cataloged⟩
  | .ref _ hargs => hargs.cataloged

theorem DomJudged.cataloged {ctx : Ctx} {d d' : Dom} {s : ValueSort} :
    DomJudged cat defs ctx d s d' → d'.Cataloged cat
  | .read hk => cataloged_of_guarded hk
  | .linkDom => trivial
  | .filter hd hp => ⟨hd.cataloged, hp.cataloged⟩
  | .setTerm ht => ht.cataloged

theorem ArgsJudged.cataloged {ctx : Ctx} {sorts : List ValueSort} {ts ts' : List Term} :
    ArgsJudged cat defs ctx sorts ts ts' → argsCataloged cat ts'
  | .nil => trivial
  | .cons ht hts => ⟨ht.cataloged, hts.cataloged⟩

theorem InstancesJudged.cataloged {ctx : Ctx} {cvar : VarId} {body : Term} {keys : List TypeKey}
    {insts : List Term} : InstancesJudged cat defs ctx cvar body keys insts → argsCataloged cat insts
  | .nil => trivial
  | .cons hinst hrest => ⟨hinst.cataloged, hrest.cataloged⟩

end

end Coordination
