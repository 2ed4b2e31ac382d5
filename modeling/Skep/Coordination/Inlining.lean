import Skep.Coordination.Eval
import Skep.Coordination.Expand

/-!
# The expansion preserves meaning

The expansion puts a referent's body under bindings of its arguments, the body's parameters
and binders under names of the expansion's own. Each name it takes is past every name that
stands around it, so it captures none. The flat tree has the value that the body has where
each reference is followed in its referent's own environment.

## Main results

- `Renames.term` — what such a rewrite answers has its input's meaning
- `Checked.expand_exact` — the expansion of a checked definition has the definition's meaning
-/

namespace Coordination

mutual

/-- The variables that a term uses and does not bind. -/
def Term.free : Term → Set VarId
  | .lit _ | .members _ => ∅
  | .var v | .tuple _ v => {v}
  | .inCoverage _ e v => e.free ∪ {v}
  | .unary _ e => e.free
  | .binary _ x y | .connective _ x y => x.free ∪ y.free
  | .quantified _ var d body | .bigUnion d var body => d.free ∪ body.free \ {var}
  | .letIn var bound body => bound.free ∪ body.free \ {var}
  | .ifSome opt var thenTerm elseTerm => opt.free ∪ (thenTerm.free \ {var} ∪ elseTerm.free)
  | .aggregate _ d => d.free
  | .ref _ args => argFree args

def argFree : List Term → Set VarId
  | [] => ∅
  | t :: ts => t.free ∪ argFree ts

def Dom.free : Dom → Set VarId
  | .read _ _ | .linkDom | .reg => ∅
  | .filter d var pred => d.free ∪ pred.free \ {var}
  | .setTerm t => t.free

end

section

variable (p : VarId → Prop) (q : Address → ℕ → Prop)

mutual

/-- The binders of a term have a property, and its references and their numbers of arguments
another. -/
def Term.Takes : Term → Prop
  | .var _ | .lit _ | .members _ | .tuple _ _ => True
  | .inCoverage _ e _ | .unary _ e => e.Takes
  | .binary _ x y | .connective _ x y => x.Takes ∧ y.Takes
  | .quantified _ var d body | .bigUnion d var body => p var ∧ d.Takes ∧ body.Takes
  | .letIn var bound body => p var ∧ bound.Takes ∧ body.Takes
  | .ifSome opt var thenTerm elseTerm => p var ∧ opt.Takes ∧ thenTerm.Takes ∧ elseTerm.Takes
  | .aggregate _ d => d.Takes
  | .ref addr args => q addr args.length ∧ argsTake args

def argsTake : List Term → Prop
  | [] => True
  | t :: ts => t.Takes ∧ argsTake ts

def Dom.Takes : Dom → Prop
  | .read _ _ | .linkDom | .reg => True
  | .filter d var pred => p var ∧ d.Takes ∧ pred.Takes
  | .setTerm t => t.Takes

end

end

mutual

theorem Term.takes_true (t : Term) : t.Takes (fun _ => True) fun _ _ => True := by
  cases t with
  | var | lit | members | tuple => trivial
  | inCoverage _ e _ | unary _ e => exact e.takes_true
  | binary _ x y | connective _ x y => exact ⟨x.takes_true, y.takes_true⟩
  | quantified _ _ d body | bigUnion d _ body => exact ⟨trivial, d.takes_true, body.takes_true⟩
  | letIn _ bound body => exact ⟨trivial, bound.takes_true, body.takes_true⟩
  | ifSome opt _ thenTerm elseTerm =>
    exact ⟨trivial, opt.takes_true, thenTerm.takes_true, elseTerm.takes_true⟩
  | aggregate _ d => exact d.takes_true
  | ref addr args => exact ⟨trivial, argsTake_true args⟩

theorem argsTake_true (ts : List Term) : argsTake (fun _ => True) (fun _ _ => True) ts := by
  cases ts with
  | nil => trivial
  | cons t ts => exact ⟨t.takes_true, argsTake_true ts⟩

theorem Dom.takes_true (d : Dom) : d.Takes (fun _ => True) fun _ _ => True := by
  cases d with
  | read | linkDom | reg => trivial
  | filter d _ pred => exact ⟨trivial, d.takes_true, pred.takes_true⟩
  | setTerm t => exact t.takes_true

end

-- What the checker answers

section

variable {cat : TypeCatalog} {defs : DefSource}

/-- The join of instances has the variables of the instances. -/
theorem free_joined (q : Quantifier) {insts : List Term} : (joined q insts).free ⊆ argFree insts := by
  have hfold : ∀ (ts : List Term) (t : Term), (ts.foldl (Term.connective q.join) t).free = t.free ∪ argFree ts := by
    intro ts
    induction ts with
    | nil => exact fun t => (Set.union_empty _).symm
    | cons t' ts ih => exact fun t => (ih _).trans (Set.union_assoc _ _ _)
  cases insts with
  | nil => exact Set.empty_subset _
  | cons t ts => exact (hfold ts t).le

theorem free_update {F : Set VarId} {ctx : Ctx} {v : VarId} {s : ValueSort}
    (h : F ⊆ {u | (ctx.update v s u).isSome = true}) : F \ {v} ⊆ {u | (ctx u).isSome = true} := by
  intro u ⟨hu, hne⟩
  simpa [Ctx.update, show u ≠ v from hne] using h hu

mutual

/-- What is evaluated in a term's place uses the variables of its context. -/
theorem TermJudged.free {ctx : Ctx} {t t' : Term} {s : ValueSort} :
    TermJudged cat defs ctx t s t' → t'.free ⊆ {v | (ctx v).isSome = true}
  | .var hv | .tuple hv => Set.singleton_subset_iff.2 (Option.isSome_iff_exists.2 ⟨_, hv⟩)
  | .lit | .members _ | .countTypes => Set.empty_subset _
  | .inCoverage he hv =>
    Set.union_subset he.free (Set.singleton_subset_iff.2 (Option.isSome_iff_exists.2 ⟨_, hv⟩))
  | .unary _ he _ => he.free
  | .binary _ hx hy => Set.union_subset hx.free hy.free
  | .connective hx hy => Set.union_subset hx.free hy.free
  | .quantified hd hb => Set.union_subset hd.free (free_update hb.free)
  | .overTypes hinsts => (free_joined _).trans hinsts.free
  | .letIn hbound hb => Set.union_subset hbound.free (free_update hb.free)
  | .ifSome hopt _ hthen helse =>
    Set.union_subset hopt.free (Set.union_subset (free_update hthen.free) helse.free)
  | .aggregate hd _ => hd.free
  | .bigUnion hd hb => Set.union_subset hd.free (free_update hb.free)
  | .ref _ hargs => hargs.free

theorem DomJudged.free {ctx : Ctx} {d d' : Dom} {s : ValueSort} :
    DomJudged cat defs ctx d s d' → d'.free ⊆ {v | (ctx v).isSome = true}
  | .read _ | .linkDom => Set.empty_subset _
  | .filter hd hp => Set.union_subset hd.free (free_update hp.free)
  | .setTerm ht => ht.free

theorem ArgsJudged.free {ctx : Ctx} {sorts : List ValueSort} {ts ts' : List Term} :
    ArgsJudged cat defs ctx sorts ts ts' → argFree ts' ⊆ {v | (ctx v).isSome = true}
  | .nil => Set.empty_subset _
  | .cons ht hts => Set.union_subset ht.free hts.free

theorem InstancesJudged.free {ctx : Ctx} {cvar : VarId} {body : Term} {keys : List TypeKey}
    {insts : List Term} :
    InstancesJudged cat defs ctx cvar body keys insts → argFree insts ⊆ {v | (ctx v).isSome = true}
  | .nil => Set.empty_subset _
  | .cons hinst hrest => Set.union_subset hinst.free hrest.free

end

/-- A number of arguments is that of the definition's parameters. -/
def Fills (defs : DefSource) (a : Address) (n : ℕ) : Prop :=
  ∀ r, defs a = some r → r.params.length = n

theorem ArgsJudged.length {ctx : Ctx} {sorts : List ValueSort} {ts ts' : List Term} :
    ArgsJudged cat defs ctx sorts ts ts' → sorts.length = ts'.length
  | .nil => rfl
  | .cons _ hts => congrArg Nat.succ hts.length

theorem takes_joined {p : VarId → Prop} (q : Quantifier) {insts : List Term} (h : argsTake p (Fills defs) insts) :
    (joined q insts).Takes p (Fills defs) := by
  have hfold : ∀ (ts : List Term) (t : Term), t.Takes p (Fills defs) → argsTake p (Fills defs) ts →
      (ts.foldl (Term.connective q.join) t).Takes p (Fills defs) := by
    intro ts
    induction ts with
    | nil => exact fun t ht _ => ht
    | cons t' ts ih => exact fun t ht hts => ih _ ⟨ht, hts.1⟩ hts.2
  cases insts with
  | nil => trivial
  | cons t ts => exact hfold ts t h.1 h.2

mutual

/-- What is evaluated in a term's place binds the term's names and fills its references. -/
theorem TermJudged.takes {p : VarId → Prop} {ctx : Ctx} {t t' : Term} {s : ValueSort} :
    TermJudged cat defs ctx t s t' → t.Names p → t'.Takes p (Fills defs)
  | .var _, _ | .lit, _ | .members _, _ | .tuple _, _ | .countTypes, _ => trivial
  | .inCoverage he _, h => he.takes h.1
  | .unary _ he _, h => he.takes h
  | .binary _ hx hy, h => ⟨hx.takes h.1, hy.takes h.2⟩
  | .connective hx hy, h => ⟨hx.takes h.1, hy.takes h.2⟩
  | .quantified hd hb, h => ⟨h.1, hd.takes h.2.1, hb.takes h.2.2⟩
  | .overTypes hinsts, h => takes_joined _ (hinsts.takes h.2.2)
  | .letIn hbound hb, h => ⟨h.1, hbound.takes h.2.1, hb.takes h.2.2⟩
  | .ifSome hopt _ hthen helse, h =>
    ⟨h.1, hopt.takes h.2.1, hthen.takes h.2.2.1, helse.takes h.2.2.2⟩
  | .aggregate hd _, h => hd.takes h
  | .bigUnion hd hb, h => ⟨h.1, hd.takes h.2.1, hb.takes h.2.2⟩
  | .ref hr hargs, h => by
    refine ⟨fun r hr' => ?_, hargs.takes h⟩
    obtain rfl := Option.some.inj (hr.symm.trans hr')
    rw [← hargs.length, List.length_map]

theorem DomJudged.takes {p : VarId → Prop} {ctx : Ctx} {d d' : Dom} {s : ValueSort} :
    DomJudged cat defs ctx d s d' → d.Names p → d'.Takes p (Fills defs)
  | .read _, _ | .linkDom, _ => trivial
  | .filter hd hp, h => ⟨h.1, hd.takes h.2.1, hp.takes h.2.2⟩
  | .setTerm ht, h => ht.takes h

theorem ArgsJudged.takes {p : VarId → Prop} {ctx : Ctx} {sorts : List ValueSort} {ts ts' : List Term} :
    ArgsJudged cat defs ctx sorts ts ts' → argNames p ts → argsTake p (Fills defs) ts'
  | .nil, _ => trivial
  | .cons ht hts, h => ⟨ht.takes h.1, hts.takes h.2⟩

theorem InstancesJudged.takes {p : VarId → Prop} {ctx : Ctx} {cvar : VarId} {body : Term} {keys : List TypeKey}
    {insts : List Term} :
    InstancesJudged cat defs ctx cvar body keys insts → body.Names p → argsTake p (Fills defs) insts
  | .nil, _ => trivial
  | .cons hinst hrest, h => ⟨hinst.takes (names_substClass _ h), hrest.takes h⟩

end

end

mutual

/-- References that have one property and lie where another holds have both. -/
theorem Term.Takes.known {p : VarId → Prop} {q : Address → ℕ → Prop} {k : Address → Prop} {t : Term}
    (h : t.Takes p q) (hk : ∀ a ∈ t.refs, k a) : t.Takes p fun a n => k a ∧ q a n := by
  cases t with
  | var | lit | members | tuple => trivial
  | inCoverage _ e _ | unary _ e => exact Term.Takes.known (t := e) h hk
  | binary _ x y | connective _ x y =>
    exact ⟨h.1.known fun a ha => hk a (List.mem_append_left _ ha),
      h.2.known fun a ha => hk a (List.mem_append_right _ ha)⟩
  | quantified _ _ d body | bigUnion d _ body =>
    exact ⟨h.1, h.2.1.known fun a ha => hk a (List.mem_append_left _ ha),
      h.2.2.known fun a ha => hk a (List.mem_append_right _ ha)⟩
  | letIn _ bound body =>
    exact ⟨h.1, h.2.1.known fun a ha => hk a (List.mem_append_left _ ha),
      h.2.2.known fun a ha => hk a (List.mem_append_right _ ha)⟩
  | ifSome opt _ thenTerm elseTerm =>
    exact ⟨h.1, h.2.1.known fun a ha => hk a (List.mem_append_left _ ha),
      h.2.2.1.known fun a ha => hk a (List.mem_append_right _ (List.mem_append_left _ ha)),
      h.2.2.2.known fun a ha => hk a (List.mem_append_right _ (List.mem_append_right _ ha))⟩
  | aggregate _ d => exact Dom.Takes.known (d := d) h hk
  | ref addr args =>
    exact ⟨⟨hk addr List.mem_cons_self, h.1⟩, argsTake_known h.2 fun a ha => hk a (List.mem_cons_of_mem _ ha)⟩

theorem argsTake_known {p : VarId → Prop} {q : Address → ℕ → Prop} {k : Address → Prop} {ts : List Term}
    (h : argsTake p q ts) (hk : ∀ a ∈ argRefs ts, k a) : argsTake p (fun a n => k a ∧ q a n) ts := by
  cases ts with
  | nil => trivial
  | cons t ts =>
    exact ⟨h.1.known fun a ha => hk a (List.mem_append_left _ ha),
      argsTake_known h.2 fun a ha => hk a (List.mem_append_right _ ha)⟩

theorem Dom.Takes.known {p : VarId → Prop} {q : Address → ℕ → Prop} {k : Address → Prop} {d : Dom}
    (h : d.Takes p q) (hk : ∀ a ∈ d.refs, k a) : d.Takes p fun a n => k a ∧ q a n := by
  cases d with
  | read | linkDom | reg => trivial
  | filter d _ pred =>
    exact ⟨h.1, h.2.1.known fun a ha => hk a (List.mem_append_left _ ha),
      h.2.2.known fun a ha => hk a (List.mem_append_right _ ha)⟩
  | setTerm t => exact Term.Takes.known (t := t) h hk

end

-- Meaning

/-- The context with other definitions. -/
def EvalCtx.withDefs (cx : EvalCtx) (ds : Option DefSource) : EvalCtx := { cx with defs := ds }

theorem UnaryOp.eval_withDefs (cx : EvalCtx) (ds ds' : Option DefSource) (op : UnaryOp) :
    op.eval (cx.withDefs ds) = op.eval (cx.withDefs ds') := by
  cases op with
  | keyed r tr => cases r <;> rfl
  | targetsKeyed | isDoc | isEmpty | elems | mapGet | defined | not => rfl

theorem BinaryOp.eval_withDefs (cx : EvalCtx) (ds ds' : Option DefSource) (op : BinaryOp) :
    op.eval (cx.withDefs ds) = op.eval (cx.withDefs ds') := by
  cases op <;> rfl

theorem DomRead.enum_withDefs (cx : EvalCtx) (ds ds' : Option DefSource) (r : DomRead) :
    r.enum (cx.withDefs ds) = r.enum (cx.withDefs ds') := by
  cases r <;> rfl

theorem UnaryOp.retype_id (op : UnaryOp) : op.retype id = op := by cases op <;> rfl

theorem BinaryOp.retype_id (op : BinaryOp) : op.retype id = op := by cases op <;> rfl

section

variable (cx : EvalCtx) (ds ds' : Option DefSource) (call call' : TypedTerm → Env → Outcome Empty Value)

/-- What a rewritten term has of the term it stands for: its variables, renamed, and its value. -/
structure Means (use : VarId → VarId) (t t' : Term) : Prop where
  free : t'.free ⊆ use '' t.free
  eval : ∀ env env' : Env, (∀ u ∈ t.free, env' (use u) = env u) →
    evalTerm (cx.withDefs ds') call' env' t' = evalTerm (cx.withDefs ds) call env t

/-- What a rewritten domain has of the domain it stands for. -/
structure DomMeans (use : VarId → VarId) (d d' : Dom) : Prop where
  free : d'.free ⊆ use '' d.free
  eval : ∀ env env' : Env, (∀ u ∈ d.free, env' (use u) = env u) →
    enumDom (cx.withDefs ds') call' env' d' = enumDom (cx.withDefs ds) call env d

/-- What a rewritten body has of the body it stands for, each under its binder. -/
structure BodyMeans (use : VarId → VarId) (v : VarId) (body : Term) (v' : VarId) (body' : Term) : Prop where
  free : body'.free \ {v'} ⊆ use '' (body.free \ {v})
  eval : ∀ env env' : Env, (∀ u ∈ body.free \ {v}, env' (use u) = env u) → ∀ x,
    evalTerm (cx.withDefs ds') call' (env'.bind v' x) body' = evalTerm (cx.withDefs ds) call (env.bind v x) body

/-- A name that is submitted, or one that the expansion took before its `n`-th. -/
def VarId.Before (n : ℕ) (v : VarId) : Prop := v.index < expansionNameBase + n

/-- A rewrite that captures no variable, of trees whose binders have a property and whose
references another. -/
structure Renames {σ : Type} (r : Rewriter σ) (p : VarId → Prop) (q : Address → ℕ → Prop) : Prop where
  keeps : ∀ t, r.keeps t = false
  typeref : r.typeref = id
  under : ∀ {scope v v' inner s s'}, p v → (r.under scope v).run s = .ok ((v', inner), s') →
    s.nextName ≤ s'.nextName ∧ v'.Before s'.nextName ∧ r.varUse inner v = v' ∧
      ∀ u, u ≠ v → r.varUse inner u = r.varUse scope u ∧
        ((r.varUse scope u).Before s.nextName → r.varUse scope u ≠ v')
  reference : ∀ {scope addr args args' t' s s'}, r.meetsRefs = true → q addr args.length →
    List.Forall₂ (Means cx ds ds' call call' (r.varUse scope)) args args' →
    (∀ u ∈ argFree args, (r.varUse scope u).Before s.nextName) →
    (r.reference addr args').run s = .ok (t', s') →
      s.nextName ≤ s'.nextName ∧ Means cx ds ds' call call' (r.varUse scope) (.ref addr args) t'

end

theorem VarId.Before.mono {n n' : ℕ} {v : VarId} (h : v.Before n) (hle : n ≤ n') : v.Before n' :=
  lt_of_lt_of_le h (Nat.add_le_add_left hle _)

namespace Renames

variable {cx : EvalCtx} {ds ds' : Option DefSource} {call call' : TypedTerm → Env → Outcome Empty Value}
  {σ : Type} {r : Rewriter σ} {p : VarId → Prop} {q : Address → ℕ → Prop}

/-- A body that is rewritten under its binder's new name. -/
theorem body (hr : Renames cx ds ds' call call' r p q) {scope inner : σ} {v v' : VarId} {s s₁ s' : WalkState}
    {body body' : Term} (hv : p v) (hunder : (r.under scope v).run s = .ok ((v', inner), s₁))
    (hfits : ∀ u ∈ body.free \ {v}, (r.varUse scope u).Before s.nextName)
    (hbody : (∀ u ∈ body.free, (r.varUse inner u).Before s₁.nextName) →
      s₁.nextName ≤ s'.nextName ∧ Means cx ds ds' call call' (r.varUse inner) body body') :
    s.nextName ≤ s'.nextName ∧ BodyMeans cx ds ds' call call' (r.varUse scope) v body v' body' := by
  obtain ⟨hle, hv', hself, hother⟩ := hr.under hv hunder
  have hin : ∀ u ∈ body.free, (r.varUse inner u).Before s₁.nextName := by
    intro u hu
    by_cases huv : u = v
    · rw [huv, hself]
      exact hv'
    · rw [(hother u huv).1]
      exact (hfits u ⟨hu, huv⟩).mono hle
  obtain ⟨hle', hmeans⟩ := hbody hin
  refine ⟨hle.trans hle', ?_, ?_⟩
  · rintro y ⟨hy, hne⟩
    obtain ⟨u, hu, rfl⟩ := hmeans.free hy
    have huv : u ≠ v := by
      rintro rfl
      exact hne hself
    exact ⟨u, ⟨hu, huv⟩, (hother u huv).1.symm⟩
  · intro env env' hagree x
    refine hmeans.eval _ _ fun u hu => ?_
    by_cases huv : u = v
    · rw [huv, hself, Env.bind_self, Env.bind_self]
    · obtain ⟨hsame, hne⟩ := hother u huv
      rw [hsame, Env.bind_of_ne _ _ (hne (hfits u ⟨hu, huv⟩)), Env.bind_of_ne _ _ huv]
      exact hagree u ⟨hu, huv⟩

mutual

/-- **What a rewrite that captures no variable answers has its input's meaning.** -/
theorem term (hr : Renames cx ds ds' call call' r p q) (t : Term) {scope : σ} {s s' : WalkState} {t' : Term}
    (ht : t.Takes p q) (hfits : ∀ u ∈ t.free, (r.varUse scope u).Before s.nextName)
    (h : (r.term scope t).run s = .ok (t', s')) :
    s.nextName ≤ s'.nextName ∧ Means cx ds ds' call call' (r.varUse scope) t t' := by
  cases t with
  | var v =>
    unfold Rewriter.term at h
    obtain ⟨s₁, hs₁, h⟩ := Rewriter.rewritten (hr.keeps _) h
    cases h
    refine ⟨hs₁.ge, (Set.image_singleton).ge, fun env env' hagree => ?_⟩
    simp only [evalTerm, hagree v rfl]
  | lit l =>
    unfold Rewriter.term at h
    obtain ⟨s₁, hs₁, h⟩ := Rewriter.rewritten (hr.keeps _) h
    cases h
    exact ⟨hs₁.ge, Set.empty_subset _, fun env env' hagree => rfl⟩
  | members tr =>
    unfold Rewriter.term at h
    obtain ⟨s₁, hs₁, h⟩ := Rewriter.rewritten (hr.keeps _) h
    cases h
    rw [hr.typeref]
    exact ⟨hs₁.ge, Set.empty_subset _, fun env env' hagree => rfl⟩
  | tuple read v =>
    unfold Rewriter.term at h
    obtain ⟨s₁, hs₁, h⟩ := Rewriter.rewritten (hr.keeps _) h
    cases h
    refine ⟨hs₁.ge, (Set.image_singleton).ge, fun env env' hagree => ?_⟩
    simp only [evalTerm, tupleVar, hagree v rfl]
  | inCoverage slot e v =>
    unfold Rewriter.term at h
    obtain ⟨s₁, hs₁, h⟩ := Rewriter.rewritten (hr.keeps _) h
    simp only [StateT.run_bind, Outcome.bind_eq_ok_iff, Prod.exists] at h
    obtain ⟨e', s₂, he, h⟩ := h
    cases h
    obtain ⟨hle, hme⟩ := hr.term e ht (fun u hu => hs₁ ▸ hfits u (Or.inl hu)) he
    refine ⟨hs₁ ▸ hle, ?_, fun env env' hagree => ?_⟩
    · rw [Term.free, Term.free, Set.image_union, Set.image_singleton]
      exact Set.union_subset_union_left _ hme.free
    · simp only [evalTerm, tupleVar, hagree v (Or.inr rfl), hme.eval env env' fun u hu => hagree u (Or.inl hu)]
  | unary op e =>
    unfold Rewriter.term at h
    obtain ⟨s₁, hs₁, h⟩ := Rewriter.rewritten (hr.keeps _) h
    simp only [StateT.run_bind, Outcome.bind_eq_ok_iff, Prod.exists] at h
    obtain ⟨e', s₂, he, h⟩ := h
    cases h
    obtain ⟨hle, hme⟩ := hr.term e ht (fun u hu => hs₁ ▸ hfits u hu) he
    refine ⟨hs₁ ▸ hle, hme.free, fun env env' hagree => ?_⟩
    simp only [evalTerm, hr.typeref, UnaryOp.retype_id, hme.eval env env' hagree, UnaryOp.eval_withDefs cx ds' ds]
  | binary op x y =>
    unfold Rewriter.term at h
    obtain ⟨s₁, hs₁, h⟩ := Rewriter.rewritten (hr.keeps _) h
    simp only [StateT.run_bind, Outcome.bind_eq_ok_iff, Prod.exists] at h
    obtain ⟨x', s₂, hx, y', s₃, hy, h⟩ := h
    cases h
    obtain ⟨hlex, hmx⟩ := hr.term x ht.1 (fun u hu => hs₁ ▸ hfits u (Or.inl hu)) hx
    rw [hs₁] at hlex
    obtain ⟨hley, hmy⟩ := hr.term y ht.2 (fun u hu => (hfits u (Or.inr hu)).mono hlex) hy
    refine ⟨hlex.trans hley, ?_, fun env env' hagree => ?_⟩
    · rw [Term.free, Term.free, Set.image_union]
      exact Set.union_subset_union hmx.free hmy.free
    · simp only [evalTerm, hr.typeref, BinaryOp.retype_id, BinaryOp.eval_withDefs cx ds' ds,
        hmx.eval env env' fun u hu => hagree u (Or.inl hu), hmy.eval env env' fun u hu => hagree u (Or.inr hu)]
  | connective op x y =>
    unfold Rewriter.term at h
    obtain ⟨s₁, hs₁, h⟩ := Rewriter.rewritten (hr.keeps _) h
    simp only [StateT.run_bind, Outcome.bind_eq_ok_iff, Prod.exists] at h
    obtain ⟨x', s₂, hx, y', s₃, hy, h⟩ := h
    cases h
    obtain ⟨hlex, hmx⟩ := hr.term x ht.1 (fun u hu => hs₁ ▸ hfits u (Or.inl hu)) hx
    rw [hs₁] at hlex
    obtain ⟨hley, hmy⟩ := hr.term y ht.2 (fun u hu => (hfits u (Or.inr hu)).mono hlex) hy
    refine ⟨hlex.trans hley, ?_, fun env env' hagree => ?_⟩
    · rw [Term.free, Term.free, Set.image_union]
      exact Set.union_subset_union hmx.free hmy.free
    · simp only [evalTerm, hmx.eval env env' fun u hu => hagree u (Or.inl hu),
        hmy.eval env env' fun u hu => hagree u (Or.inr hu)]
  | quantified k v d body =>
    unfold Rewriter.term at h
    obtain ⟨s₁, hs₁, h⟩ := Rewriter.rewritten (hr.keeps _) h
    simp only [StateT.run_bind, Outcome.bind_eq_ok_iff, Prod.exists] at h
    obtain ⟨d', s₂, hd, v', inner, s₃, hunder, body', s₄, hbody, h⟩ := h
    cases h
    obtain ⟨hled, hmd⟩ := hr.dom d ht.2.1 (fun u hu => hs₁ ▸ hfits u (Or.inl hu)) hd
    rw [hs₁] at hled
    obtain ⟨hleb, hmb⟩ := hr.body ht.1 hunder (fun u hu => (hfits u (Or.inr hu)).mono hled) fun hin =>
      hr.term body ht.2.2 hin hbody
    refine ⟨hled.trans hleb, ?_, fun env env' hagree => ?_⟩
    · rw [Term.free, Term.free, Set.image_union]
      exact Set.union_subset_union hmd.free hmb.free
    · simp only [evalTerm, hmd.eval env env' fun u hu => hagree u (Or.inl hu),
        hmb.eval env env' fun u hu => hagree u (Or.inr hu)]
  | letIn v bound body =>
    unfold Rewriter.term at h
    obtain ⟨s₁, hs₁, h⟩ := Rewriter.rewritten (hr.keeps _) h
    simp only [StateT.run_bind, Outcome.bind_eq_ok_iff, Prod.exists] at h
    obtain ⟨bound', s₂, hbound, v', inner, s₃, hunder, body', s₄, hbody, h⟩ := h
    cases h
    obtain ⟨hlex, hmx⟩ := hr.term bound ht.2.1 (fun u hu => hs₁ ▸ hfits u (Or.inl hu)) hbound
    rw [hs₁] at hlex
    obtain ⟨hleb, hmb⟩ := hr.body ht.1 hunder (fun u hu => (hfits u (Or.inr hu)).mono hlex) fun hin =>
      hr.term body ht.2.2 hin hbody
    refine ⟨hlex.trans hleb, ?_, fun env env' hagree => ?_⟩
    · rw [Term.free, Term.free, Set.image_union]
      exact Set.union_subset_union hmx.free hmb.free
    · simp only [evalTerm, hmx.eval env env' fun u hu => hagree u (Or.inl hu),
        hmb.eval env env' fun u hu => hagree u (Or.inr hu)]
  | ifSome opt v thenTerm elseTerm =>
    unfold Rewriter.term at h
    obtain ⟨s₁, hs₁, h⟩ := Rewriter.rewritten (hr.keeps _) h
    simp only [StateT.run_bind, Outcome.bind_eq_ok_iff, Prod.exists] at h
    obtain ⟨opt', s₂, hopt, v', inner, s₃, hunder, then', s₄, hthen, else', s₅, helse, h⟩ := h
    cases h
    obtain ⟨hleo, hmo⟩ := hr.term opt ht.2.1 (fun u hu => hs₁ ▸ hfits u (Or.inl hu)) hopt
    rw [hs₁] at hleo
    obtain ⟨hlet, hmt⟩ := hr.body ht.1 hunder (fun u hu => (hfits u (Or.inr (Or.inl hu))).mono hleo) fun hin =>
      hr.term thenTerm ht.2.2.1 hin hthen
    obtain ⟨hlee, hme⟩ := hr.term elseTerm ht.2.2.2
      (fun u hu => (hfits u (Or.inr (Or.inr hu))).mono (hleo.trans hlet)) helse
    refine ⟨(hleo.trans hlet).trans hlee, ?_, fun env env' hagree => ?_⟩
    · rw [Term.free, Term.free, Set.image_union, Set.image_union]
      exact Set.union_subset_union hmo.free (Set.union_subset_union hmt.free hme.free)
    · simp only [evalTerm, hmo.eval env env' fun u hu => hagree u (Or.inl hu),
        hmt.eval env env' fun u hu => hagree u (Or.inr (Or.inl hu)),
        hme.eval env env' fun u hu => hagree u (Or.inr (Or.inr hu))]
  | aggregate op d =>
    unfold Rewriter.term at h
    obtain ⟨s₁, hs₁, h⟩ := Rewriter.rewritten (hr.keeps _) h
    simp only [StateT.run_bind, Outcome.bind_eq_ok_iff, Prod.exists] at h
    obtain ⟨d', s₂, hd, h⟩ := h
    cases h
    obtain ⟨hled, hmd⟩ := hr.dom d ht (fun u hu => hs₁ ▸ hfits u hu) hd
    refine ⟨hs₁ ▸ hled, hmd.free, fun env env' hagree => ?_⟩
    simp only [evalTerm, hmd.eval env env' hagree]
  | bigUnion d v body =>
    unfold Rewriter.term at h
    obtain ⟨s₁, hs₁, h⟩ := Rewriter.rewritten (hr.keeps _) h
    simp only [StateT.run_bind, Outcome.bind_eq_ok_iff, Prod.exists] at h
    obtain ⟨d', s₂, hd, v', inner, s₃, hunder, body', s₄, hbody, h⟩ := h
    cases h
    obtain ⟨hled, hmd⟩ := hr.dom d ht.2.1 (fun u hu => hs₁ ▸ hfits u (Or.inl hu)) hd
    rw [hs₁] at hled
    obtain ⟨hleb, hmb⟩ := hr.body ht.1 hunder (fun u hu => (hfits u (Or.inr hu)).mono hled) fun hin =>
      hr.term body ht.2.2 hin hbody
    refine ⟨hled.trans hleb, ?_, fun env env' hagree => ?_⟩
    · rw [Term.free, Term.free, Set.image_union]
      exact Set.union_subset_union hmd.free hmb.free
    · simp only [evalTerm, hmd.eval env env' fun u hu => hagree u (Or.inl hu),
        hmb.eval env env' fun u hu => hagree u (Or.inr hu)]
  | ref addr args =>
    unfold Rewriter.term at h
    obtain ⟨s₁, hs₁, h⟩ := Rewriter.rewritten (hr.keeps _) h
    cases hmeets : r.meetsRefs with
    | false =>
      rw [hmeets, if_neg Bool.false_ne_true] at h
      cases h
    | true =>
      rw [hmeets, if_pos rfl] at h
      simp only [StateT.run_bind, Outcome.bind_eq_ok_iff, Prod.exists] at h
      obtain ⟨args', s₂, hargs, h⟩ := h
      obtain ⟨hlea, hma⟩ := hr.terms args ht.2 (fun u hu => hs₁ ▸ hfits u hu) hargs
      rw [hs₁] at hlea
      obtain ⟨hle, hm⟩ := hr.reference hmeets ht.1 hma (fun u hu => (hfits u hu).mono hlea) h
      exact ⟨hlea.trans hle, hm⟩

theorem terms (hr : Renames cx ds ds' call call' r p q) (ts : List Term) {scope : σ} {s s' : WalkState}
    {ts' : List Term} (ht : argsTake p q ts) (hfits : ∀ u ∈ argFree ts, (r.varUse scope u).Before s.nextName)
    (h : (r.terms scope ts).run s = .ok (ts', s')) :
    s.nextName ≤ s'.nextName ∧ List.Forall₂ (Means cx ds ds' call call' (r.varUse scope)) ts ts' := by
  cases ts with
  | nil =>
    cases h
    exact ⟨le_rfl, .nil⟩
  | cons t ts =>
    unfold Rewriter.terms at h
    simp only [StateT.run_bind, Outcome.bind_eq_ok_iff, Prod.exists] at h
    obtain ⟨t', s₁, htt, ts', s₂, hts, h⟩ := h
    cases h
    obtain ⟨hlet, hmt⟩ := hr.term t ht.1 (fun u hu => hfits u (Or.inl hu)) htt
    obtain ⟨hles, hms⟩ := hr.terms ts ht.2 (fun u hu => (hfits u (Or.inr hu)).mono hlet) hts
    exact ⟨hlet.trans hles, .cons hmt hms⟩

theorem dom (hr : Renames cx ds ds' call call' r p q) (d : Dom) {scope : σ} {s s' : WalkState} {d' : Dom}
    (hd : d.Takes p q) (hfits : ∀ u ∈ d.free, (r.varUse scope u).Before s.nextName)
    (h : (r.dom scope d).run s = .ok (d', s')) :
    s.nextName ≤ s'.nextName ∧ DomMeans cx ds ds' call call' (r.varUse scope) d d' := by
  cases d with
  | read read tr =>
    unfold Rewriter.dom at h
    obtain ⟨s₁, hs₁, h⟩ := Rewriter.of_domNode h
    cases h
    refine ⟨hs₁.ge, Set.empty_subset _, fun env env' hagree => ?_⟩
    rw [hr.typeref]
    simp only [enumDom, id_eq, DomRead.enum_withDefs cx ds' ds]
  | linkDom =>
    unfold Rewriter.dom at h
    obtain ⟨s₁, hs₁, h⟩ := Rewriter.of_domNode h
    cases h
    exact ⟨hs₁.ge, Set.empty_subset _, fun env env' hagree => rfl⟩
  | reg =>
    unfold Rewriter.dom at h
    obtain ⟨s₁, hs₁, h⟩ := Rewriter.of_domNode h
    cases h
    exact ⟨hs₁.ge, Set.empty_subset _, fun env env' hagree => rfl⟩
  | filter d v pred =>
    unfold Rewriter.dom at h
    obtain ⟨s₁, hs₁, h⟩ := Rewriter.of_domNode h
    simp only [StateT.run_bind, Outcome.bind_eq_ok_iff, Prod.exists] at h
    obtain ⟨d', s₂, hdd, v', inner, s₃, hunder, pred', s₄, hpred, h⟩ := h
    cases h
    obtain ⟨hled, hmd⟩ := hr.dom d hd.2.1 (fun u hu => hs₁ ▸ hfits u (Or.inl hu)) hdd
    rw [hs₁] at hled
    obtain ⟨hlep, hmp⟩ := hr.body hd.1 hunder (fun u hu => (hfits u (Or.inr hu)).mono hled) fun hin =>
      hr.term pred hd.2.2 hin hpred
    refine ⟨hled.trans hlep, ?_, fun env env' hagree => ?_⟩
    · rw [Dom.free, Dom.free, Set.image_union]
      exact Set.union_subset_union hmd.free hmp.free
    · simp only [enumDom, hmd.eval env env' fun u hu => hagree u (Or.inl hu),
        hmp.eval env env' fun u hu => hagree u (Or.inr hu)]
  | setTerm t =>
    unfold Rewriter.dom at h
    obtain ⟨s₁, hs₁, h⟩ := Rewriter.of_domNode h
    simp only [StateT.run_bind, Outcome.bind_eq_ok_iff, Prod.exists] at h
    obtain ⟨t', s₂, ht, h⟩ := h
    cases h
    obtain ⟨hle, hm⟩ := hr.term t hd (fun u hu => hs₁ ▸ hfits u hu) ht
    refine ⟨hs₁ ▸ hle, hm.free, fun env env' hagree => ?_⟩
    simp only [enumDom, hm.eval env env' hagree]

end

end Renames

-- A reference's bindings

/-- The bindings in order, over an environment. -/
def Env.bindAll (env : Env) (l : List (VarId × Value)) : Env := l.foldl (fun env b => env.bind b.1 b.2) env

/-- The definition that a reference calls, followed `depth` deep. -/
def callAt (cx : EvalCtx) (depth : ℕ) (referent : TypedTerm) (inner : Env) : Outcome Empty Value :=
  match depth with
  | 0 => .fault
  | depth + 1 => evalAt cx depth inner referent.evaluable

theorem evalAt_eq_callAt (cx : EvalCtx) (depth : ℕ) (env : Env) (t : Term) :
    evalAt cx depth env t = evalTerm cx (callAt cx depth) env t := by
  cases depth <;> rfl

/-- The names that the parameters of a referent take: as many, each once, each past what was taken. -/
theorem run_mapM_fresh {α : Type} {l : List α} {s s' : WalkState} {names : List VarId}
    (h : (l.mapM fun _ => fresh).run s = .ok (names, s')) :
    names.length = l.length ∧ names.Nodup ∧ s.nextName ≤ s'.nextName ∧
      ∀ n ∈ names, ¬ n.Before s.nextName ∧ n.Before s'.nextName := by
  induction l generalizing s names with
  | nil =>
    cases h
    exact ⟨rfl, List.nodup_nil, le_rfl, List.forall_mem_nil _⟩
  | cons a l ih =>
    rw [List.mapM_cons] at h
    simp only [StateT.run_bind, Outcome.bind_eq_ok_iff, Prod.exists, run_fresh] at h
    obtain ⟨n, s₁, ⟨rfl, rfl⟩, rest, s₂, hrest, h⟩ := h
    cases h
    obtain ⟨hlen, hnodup, hle, hnames⟩ := ih hrest
    have hfirst : ¬ (VarId.expansion s.nextName).Before s.nextName := lt_irrefl _
    have hlater : (VarId.expansion s.nextName).Before (s.nextName + 1) := Nat.lt_succ_self _
    refine ⟨congrArg Nat.succ hlen, List.nodup_cons.2 ⟨fun hmem => (hnames _ hmem).1 hlater, hnodup⟩,
      (Nat.le_succ _).trans hle, List.forall_mem_cons.2 ⟨⟨hfirst, hlater.mono hle⟩, fun n hn => ?_⟩⟩
    exact ⟨fun hbefore => (hnames n hn).1 (hbefore.mono (Nat.le_succ _)), (hnames n hn).2⟩

/-- Under distinct names the parameters have the values they have under their own. -/
theorem bindAll_paramNames {params names : List VarId} {vals : List Value} (hnames : names.Nodup)
    (hlen : names.length = params.length) (hvals : vals.length = params.length)
    {map : VarId → Option VarId} {envp envn : Env} {u : VarId}
    (hmap : (∃ n, map u = some n ∧ n ∉ names ∧ envn n = envp u) ∨ u ∈ params) :
    ∃ n, (params.zip names).foldl (fun map p u => if u = p.1 then some p.2 else map u) map u = some n ∧
      envn.bindAll (names.zip vals) n = envp.bindAll (params.zip vals) u := by
  induction params generalizing names vals map envp envn with
  | nil =>
    obtain ⟨n, hn, -, heq⟩ := hmap.resolve_right List.not_mem_nil
    obtain rfl := List.length_eq_zero_iff.1 hlen
    exact ⟨n, hn, heq⟩
  | cons p params ih =>
    cases names with
    | nil => cases hlen
    | cons name names =>
      cases vals with
      | nil => cases hvals
      | cons x vals =>
        obtain ⟨hfresh, hnodup⟩ := List.nodup_cons.1 hnames
        refine @ih names vals hnodup (Nat.succ.inj hlen) (Nat.succ.inj hvals) _ _ _ ?_
        by_cases hu : u = p
        · refine .inl ⟨name, if_pos hu, hfresh, ?_⟩
          show envn.bind name x name = envp.bind p x u
          rw [hu, Env.bind_self, Env.bind_self]
        · rcases hmap with ⟨n, hn, hnot, heq⟩ | hmem
          · have hne : n ≠ name := fun h => hnot (h ▸ List.mem_cons_self)
            refine .inl ⟨n, (if_neg hu).trans hn, fun h => hnot (List.mem_cons_of_mem _ h), ?_⟩
            show envn.bind name x n = envp.bind p x u
            rw [Env.bind_of_ne _ _ hne, Env.bind_of_ne _ _ hu, heq]
          · exact .inr ((List.mem_cons.1 hmem).resolve_left hu)

section

variable {cx : EvalCtx} {ds ds' : Option DefSource} {call call' : TypedTerm → Env → Outcome Empty Value}

/-- The bindings of a reference's arguments hold the arguments' values. -/
theorem letChain_eval {use : VarId → VarId} {params names : List VarId} {args args' : List Term} {out : Term}
    (hlen : names.length = params.length) (hargs : List.Forall₂ (Means cx ds ds' call call' use) args args')
    {env env' : Env} (hagree : ∀ u ∈ argFree args, env' (use u) = env u)
    (hfresh : ∀ u ∈ argFree args, use u ∉ names) :
    evalTerm (cx.withDefs ds') call' env' (letChain names args' out) =
      evalArgs (cx.withDefs ds) call env params args >>= fun inner =>
        evalTerm (cx.withDefs ds') call' (env'.bindAll (names.zip (inner.map Prod.snd))) out := by
  induction names generalizing params args args' env' with
  | nil =>
    obtain rfl := List.length_eq_zero_iff.1 hlen.symm
    rw [evalArgs, Outcome.pure_eq, Outcome.ok_bind]
    · rfl
    · intro _ _ _ _ h
      cases h
  | cons name names ih =>
    cases params with
    | nil => cases hlen
    | cons p params =>
      cases hargs with
      | nil =>
        rw [evalArgs, Outcome.pure_eq, Outcome.ok_bind]
        · rfl
        · intro _ _ _ _ _ h
          cases h
      | @cons a a' args args' harg hargs =>
        have hfree : ∀ x : Value, ∀ u ∈ argFree args, env'.bind name x (use u) = env u := by
          intro x u hu
          have hne : use u ≠ name := fun h => hfresh u (Or.inr hu) (h ▸ List.mem_cons_self)
          rw [Env.bind_of_ne _ _ hne]
          exact hagree u (Or.inr hu)
        have htail := fun x : Value => ih (Nat.succ.inj hlen) hargs (hfree x)
          fun u hu h => hfresh u (Or.inr hu) (List.mem_cons_of_mem _ h)
        rw [evalArgs, show letChain (name :: names) (a' :: args') out = .letIn name a' (letChain names args' out) from rfl,
          evalTerm, harg.eval env env' fun u hu => hagree u (Or.inl hu)]
        simp only [htail, bind_assoc, pure_bind]
        rfl

/-- The bindings use the variables of the arguments, and the names only in the body. -/
theorem letChain_free {names : List VarId} {args : List Term} {out : Term} (hlen : names.length = args.length) :
    (letChain names args out).free ⊆ argFree args ∪ out.free \ {n | n ∈ names} := by
  induction names generalizing args with
  | nil =>
    intro u hu
    exact Or.inr ⟨hu, List.not_mem_nil⟩
  | cons name names ih =>
    cases args with
    | nil => cases hlen
    | cons a args =>
      rintro u (hu | ⟨hu, hne⟩)
      · exact Or.inl (Or.inl hu)
      · rcases ih (Nat.succ.inj hlen) hu with hu | ⟨hu, hnot⟩
        · exact Or.inl (Or.inr hu)
        · refine Or.inr ⟨hu, fun hmem => ?_⟩
          exact (List.mem_cons.1 hmem).elim hne hnot

theorem argFree_subset {use : VarId → VarId} {args args' : List Term}
    (h : List.Forall₂ (Means cx ds ds' call call' use) args args') : argFree args' ⊆ use '' argFree args := by
  induction h with
  | nil => exact Set.empty_subset _
  | cons ht _ ih =>
    rw [argFree, argFree, Set.image_union]
    exact Set.union_subset_union ht.free ih

/-- The values of the arguments are under the parameters they fill. -/
theorem evalArgs_params {params : List VarId} {args : List Term} {env : Env} {inner : List (VarId × Value)}
    (hlen : params.length = args.length) (h : evalArgs (cx.withDefs ds) call env params args = .ok inner) :
    inner = params.zip (inner.map Prod.snd) ∧ inner.length = params.length := by
  induction params generalizing args inner with
  | nil =>
    obtain rfl := List.length_eq_zero_iff.1 hlen.symm
    cases h
    exact ⟨rfl, rfl⟩
  | cons p params ih =>
    cases args with
    | nil => cases hlen
    | cons a args =>
      simp only [evalArgs, Outcome.bind_eq_ok_iff, Outcome.pure_eq, Outcome.ok.injEq] at h
      obtain ⟨x, -, rest, hrest, rfl⟩ := h
      obtain ⟨hzip, hrlen⟩ := ih (Nat.succ.inj hlen) hrest
      exact ⟨congrArg ((p, x) :: ·) hzip, congrArg Nat.succ hrlen⟩

/-- The renaming of a referent's body captures no variable. -/
theorem rename_renames : Renames cx ds ds' call call' Rename (fun _ => True) fun _ _ => True where
  keeps _ := rfl
  typeref := rfl
  under := by
    intro map v v' inner s s' _ h
    have hrun : ((VarId.expansion s.nextName, fun u => if u = v then some (VarId.expansion s.nextName) else map u),
        ({ s with nextName := s.nextName + 1 } : WalkState)) = ((v', inner), s') := Outcome.ok.inj h
    cases hrun
    refine ⟨Nat.le_succ _, Nat.lt_succ_self _, by simp [Rename], fun u hu => ⟨by simp [Rename, hu], fun hbefore heq => ?_⟩⟩
    rw [heq] at hbefore
    exact lt_irrefl _ hbefore
  reference := by
    intro _ _ _ _ _ _ _ hmeets
    cases hmeets

end

section

variable {cat : TypeCatalog} {defs : DefSource} {tt : TypedTerm}

theorem ctx_ofList {params : List (VarId × ValueSort)} {v : VarId} (h : (Ctx.ofList params v).isSome = true) :
    v ∈ params.map Prod.fst := by
  have hfold : ∀ (l : List (VarId × ValueSort)) (ctx : Ctx),
      ((l.foldl (fun ctx p => ctx.update p.1 p.2) ctx) v).isSome = true →
        (ctx v).isSome = true ∨ v ∈ l.map Prod.fst := by
    intro l
    induction l with
    | nil => exact fun ctx h => Or.inl h
    | cons p l ih =>
      intro ctx h
      rcases ih _ h with h | h
      · by_cases hv : v = p.1
        · exact Or.inr (List.mem_cons.2 (Or.inl hv))
        · simp only [Ctx.update, if_neg hv] at h
          exact Or.inl h
      · exact Or.inr (List.mem_cons_of_mem _ h)
  exact (hfold params Ctx.empty h).resolve_left Bool.false_ne_true

theorem mem_of_paramNames {params names : List VarId} {u n : VarId} (h : paramNames params names u = some n) :
    n ∈ names := by
  have hfold : ∀ (l : List (VarId × VarId)) (map : VarId → Option VarId),
      (l.foldl (fun map p u => if u = p.1 then some p.2 else map u) map) u = some n →
        map u = some n ∨ ∃ p ∈ l, p.2 = n := by
    intro l
    induction l with
    | nil => exact fun map h => Or.inl h
    | cons p l ih =>
      intro map h
      rcases ih _ h with h | ⟨p', hp', hn⟩
      · by_cases hu : u = p.1
        · exact Or.inr ⟨p, List.mem_cons_self, Option.some.inj ((if_pos hu).symm.trans h)⟩
        · exact Or.inl ((if_neg hu).symm.trans h)
      · exact Or.inr ⟨p', List.mem_cons_of_mem _ hp', hn⟩
  rcases hfold _ _ h with h | ⟨p, hp, rfl⟩
  · cases h
  · exact (List.of_mem_zip hp).2

theorem Checked.takes (h : Checked cat defs tt) :
    tt.evaluable.Takes VarId.IsSubmitted (Fills defs) ∧ tt.evaluable.free ⊆ {v | v ∈ tt.params.map Prod.fst} :=
  ⟨h.def.judged.takes tt.signed.submitted.2, fun _ hv => ctx_ofList (h.def.judged.free hv)⟩

/-- The expansion of a body has its meaning where the names that stand in it are submitted. -/
theorem Checked.expand_means (h : Checked cat defs tt) {cx : EvalCtx} {ds' : Option DefSource}
    {call' : TypedTerm → Env → Outcome Empty Value} {levels depth : ℕ}
    (hr : Renames cx (some defs) ds' (callAt (cx.withDefs (some defs)) depth) call' (Expander defs levels)
      VarId.IsSubmitted fun a n => KnownBelow cat defs (min levels depth) a ∧ Fills defs a n)
    (hlevels : tt.reach ≤ levels) (hdepth : tt.reach ≤ depth) {s s' : WalkState} {flat : Term}
    (hrun : ((Expander defs levels).term () tt.evaluable).run s = .ok (flat, s')) :
    s.nextName ≤ s'.nextName ∧
      Means cx (some defs) ds' (callAt (cx.withDefs (some defs)) depth) call' id tt.evaluable flat := by
  have huse : (Expander defs levels).varUse () = id := by
    cases levels <;> rfl
  have htakes := h.takes.1.known (h.knownBelow (le_min hlevels hdepth))
  have hfits : ∀ u ∈ tt.evaluable.free, ((Expander defs levels).varUse () u).Before s.nextName := by
    intro u hu
    obtain ⟨⟨v, sort⟩, hp, rfl⟩ := List.mem_map.1 (h.takes.2 hu)
    rw [huse]
    exact lt_of_lt_of_le (tt.signed.submitted.1 _ hp) (Nat.le_add_right _ _)
  have hterm := hr.term tt.evaluable htakes hfits hrun
  rwa [huse] at hterm

/-- A flat body under the names of its parameters has the value it has under its parameters. -/
theorem renamed_means (cx : EvalCtx) (ds' : Option DefSource) (call' : TypedTerm → Env → Outcome Empty Value)
    {params names : List VarId} (hlen : names.length = params.length) (hnodup : names.Nodup) {flat out : Term}
    (hflat : ∀ u ∈ flat.free, u ∈ params) {s s' : WalkState} (hnames : ∀ n ∈ names, n.Before s.nextName)
    (h : (Rename.term (paramNames params names) flat).run s = .ok (out, s')) :
    s.nextName ≤ s'.nextName ∧ (∀ n ∈ out.free, n ∈ names) ∧ ∀ (vals : List Value) (env : Env),
      vals.length = params.length → evalTerm (cx.withDefs ds') call' (env.bindAll (names.zip vals)) out =
        evalTerm (cx.withDefs ds') call' (Env.ofList (params.zip vals)) flat := by
  have hnamed : ∀ (vals : List Value) (env : Env), vals.length = params.length → ∀ u ∈ flat.free,
      ∃ n, paramNames params names u = some n ∧
        env.bindAll (names.zip vals) n = Env.ofList (params.zip vals) u := by
    intro vals env hvals u hu
    exact bindAll_paramNames hnodup hlen hvals (Or.inr (hflat u hu))
  have huse : ∀ u ∈ flat.free, Rename.varUse (paramNames params names) u ∈ names := by
    intro u hu
    obtain ⟨n, hn, -⟩ := hnamed (params.map fun _ => .bool true) Env.empty (List.length_map _) u hu
    rw [show Rename.varUse (paramNames params names) u = n from congrArg (Option.getD · u) hn]
    exact mem_of_paramNames hn
  have hr : Renames cx ds' ds' call' call' Rename (fun _ => True) fun _ _ => True := rename_renames
  obtain ⟨hle, hmeans⟩ := hr.term flat flat.takes_true (fun u hu => hnames _ (huse u hu)) h
  refine ⟨hle, fun n hn => ?_, fun vals env hvals => hmeans.eval _ _ fun u hu => ?_⟩
  · obtain ⟨u, hu, rfl⟩ := hmeans.free hn
    exact huse u hu
  · obtain ⟨n, hn, heq⟩ := hnamed vals env hvals u hu
    rw [show Rename.varUse (paramNames params names) u = n from congrArg (Option.getD · u) hn]
    exact heq

/-- What the expansion puts in a reference's place has the value that the referent's body has in
an environment of its own. -/
theorem inlined_means {cx : EvalCtx} {ds' : Option DefSource} {call' : TypedTerm → Env → Outcome Empty Value}
    {levels depth : ℕ} (hr : Renames cx (some defs) ds' (callAt (cx.withDefs (some defs)) depth) call'
      (Expander defs levels) VarId.IsSubmitted fun a n => KnownBelow cat defs (min levels depth) a ∧ Fills defs a n)
    {referent : TypedTerm} {addr : Address} (hdef : defs addr = some referent) (h : Checked cat defs referent)
    (hlevels : referent.reach ≤ levels) (hdepth : referent.reach ≤ depth) {args args' : List Term}
    (hlen : referent.params.length = args.length)
    (hargs : List.Forall₂ (Means cx (some defs) ds' (callAt (cx.withDefs (some defs)) (depth + 1)) call' id) args args')
    {s s' : WalkState} {t' : Term} (hfits : ∀ u ∈ argFree args, u.Before s.nextName)
    (hrun : (inlined defs ((Expander defs levels).term ()) addr args').run s = .ok (t', s')) :
    s.nextName ≤ s'.nextName ∧
      Means cx (some defs) ds' (callAt (cx.withDefs (some defs)) (depth + 1)) call' id (.ref addr args) t' := by
  simp only [inlined, StateT.run_bind, Outcome.bind_eq_ok_iff, Prod.exists] at hrun
  obtain ⟨r, s₀, hresolve, names, s₁, hnames, flat, s₂, hflat, out, s₃, hout, hrun⟩ := hrun
  rw [hdef] at hresolve
  cases hresolve
  cases hrun
  obtain ⟨hnlen, hnodup, hle₁, hfresh⟩ := run_mapM_fresh hnames
  obtain ⟨hle₂, hbody⟩ := h.expand_means hr hlevels hdepth hflat
  have hparam : ∀ u ∈ flat.free, u ∈ referent.params.map Prod.fst := by
    intro u hu
    obtain ⟨w, hw, rfl⟩ := hbody.free hu
    exact h.takes.2 hw
  have hplen : names.length = (referent.params.map Prod.fst).length := hnlen.trans (List.length_map _).symm
  obtain ⟨hle₃, hfree, heval⟩ := renamed_means cx ds' call' hplen hnodup hparam
    (fun n hn => (hfresh n hn).2.mono hle₂) hout
  refine ⟨hle₁.trans (hle₂.trans hle₃), ?_, fun env env' hagree => ?_⟩
  · intro n hn
    rcases letChain_free (hnlen.trans (hlen.trans hargs.length_eq)) hn with hn | ⟨hn, hnot⟩
    · exact argFree_subset hargs hn
    · exact absurd (hfree n hn) hnot
  · have hagreeArgs : ∀ u ∈ argFree args, env' (id u) = env u := fun u hu => hagree u hu
    have hnotName : ∀ u ∈ argFree args, id u ∉ names := fun u hu hmem => (hfresh u hmem).1 (hfits u hu)
    have hcall : evalTerm (cx.withDefs (some defs)) (callAt (cx.withDefs (some defs)) (depth + 1)) env (.ref addr args) =
        evalArgs (cx.withDefs (some defs)) (callAt (cx.withDefs (some defs)) (depth + 1)) env
          (referent.params.map Prod.fst) args >>= fun inner =>
            evalAt (cx.withDefs (some defs)) depth (Env.ofList inner) referent.evaluable := by
      rw [evalTerm, EvalCtx.withDefs]
      simp only [hdef]
      rfl
    rw [letChain_eval hplen hargs hagreeArgs hnotName, hcall]
    cases hinner : evalArgs (cx.withDefs (some defs)) (callAt (cx.withDefs (some defs)) (depth + 1)) env
        (referent.params.map Prod.fst) args with
    | ok inner =>
      obtain ⟨hzip, hilen⟩ := evalArgs_params ((List.length_map _).trans hlen) hinner
      rw [Outcome.ok_bind, Outcome.ok_bind, heval _ _ ((List.length_map _).trans hilen), ← hzip, evalAt_eq_callAt]
      exact hbody.eval _ _ fun u _ => rfl
    | err e => rfl
    | fault => rfl

theorem expander_renames (cx : EvalCtx) (ds' : Option DefSource) (call' : TypedTerm → Env → Outcome Empty Value)
    (levels depth : ℕ) :
    Renames cx (some defs) ds' (callAt (cx.withDefs (some defs)) depth) call' (Expander defs levels)
      VarId.IsSubmitted fun a n => KnownBelow cat defs (min levels depth) a ∧ Fills defs a n := by
  induction levels generalizing depth with
  | zero =>
    refine ⟨fun _ => rfl, rfl, fun hv hrun => ?_, fun _ hq => ?_⟩
    · cases hrun
      exact ⟨le_rfl, lt_of_lt_of_le hv (Nat.le_add_right _ _), rfl, fun u hne => ⟨rfl, fun _ => hne⟩⟩
    · obtain ⟨⟨referent, -, -, hreach⟩, -⟩ := hq
      rw [Nat.zero_min] at hreach
      cases hreach
  | succ levels ih =>
    refine ⟨fun _ => rfl, rfl, fun hv hrun => ?_, fun _ hq hargs hfits hrun => ?_⟩
    · cases hrun
      exact ⟨le_rfl, lt_of_lt_of_le hv (Nat.le_add_right _ _), rfl, fun u hne => ⟨rfl, fun _ => hne⟩⟩
    · obtain ⟨⟨referent, hdef, hchecked, hreach⟩, hfills⟩ := hq
      obtain ⟨hlevels, hdepth⟩ := lt_min_iff.1 hreach
      cases depth with
      | zero => cases hdepth
      | succ depth =>
        exact inlined_means (ih depth) hdef hchecked (Nat.lt_succ_iff.1 hlevels) (Nat.lt_succ_iff.1 hdepth)
          (hfills referent hdef) hargs hfits hrun

/-- **The expansion of a checked definition holds no reference and uses no variable but the
definition's parameters, and it has at every world the value of the definition's body, each
reference followed in an environment of its referent's own.** -/
theorem Checked.expand_exact (h : Checked cat defs tt) {flat : Term} (hexp : expand defs tt.evaluable = .ok flat)
    (cx : EvalCtx) :
    flat.refs = [] ∧ flat.free ⊆ {v | v ∈ tt.params.map Prod.fst} ∧
      ∀ (ds : Option DefSource) (call : TypedTerm → Env → Outcome Empty Value) (depth : ℕ) (env : Env),
        tt.reach ≤ depth → evalTerm (cx.withDefs ds) call env flat =
          evalAt (cx.withDefs (some defs)) depth env tt.evaluable := by
  obtain ⟨⟨out, s'⟩, hrun, hout⟩ := Outcome.bind_eq_ok_iff.1 hexp
  cases hout
  have hmeans := fun ds call depth (hdepth : tt.reach ≤ depth) =>
    (h.expand_means (expander_renames cx ds call maxDepth depth) h.within.2 hdepth hrun).2
  refine ⟨(h.expand_yields.2 flat hexp).1, fun v hv => ?_, fun ds call depth env hdepth => ?_⟩
  · obtain ⟨u, hu, rfl⟩ := (hmeans none (callAt cx 0) tt.reach le_rfl).free hv
    exact h.takes.2 hu
  · rw [evalAt_eq_callAt]
    exact (hmeans ds call depth hdepth).eval env env fun u _ => rfl

end

-- A reference under a binder of its referent's name

private def shipped : TypeCatalog := ⟨TypeRegistry.build⟩

/-- Its parameter and its binder have names that its caller uses. -/
private def itself : TypedTerm :=
  ⟨⟨[(⟨1⟩, .bool)], .letIn ⟨0⟩ (.var ⟨1⟩) (.connective .and (.var ⟨0⟩) (.var ⟨1⟩)),
      by simp [VarId.IsSubmitted, expansionNameBase], by simp [Term.Names, VarId.IsSubmitted, expansionNameBase]⟩,
    .bool, .letIn ⟨0⟩ (.var ⟨1⟩) (.connective .and (.var ⟨0⟩) (.var ⟨1⟩)), true, 2⟩

private def itselfAt (a : Address) : Option TypedTerm := if a = headDocument then some itself else none

private def denied : TypedTerm :=
  ⟨⟨[(⟨0⟩, .bool)], .letIn ⟨1⟩ (.unary .not (.var ⟨0⟩)) (.ref headDocument [.var ⟨1⟩]),
      by simp [VarId.IsSubmitted, expansionNameBase],
      by simp [Term.Names, argNames, VarId.IsSubmitted, expansionNameBase]⟩,
    .bool, .letIn ⟨1⟩ (.unary .not (.var ⟨0⟩)) (.ref headDocument [.var ⟨1⟩]), false, 6⟩

private theorem checked_denied : Checked shipped itselfAt denied := by
  have hitself : Checked shipped itselfAt itself := by
    refine @Checked.intro _ _ ⟨shipped, fun _ _ => .error .undefined⟩ itself.signed 0 _ rfl
      (fun _ _ _ _ h => ?_) (fun _ _ _ _ h => ?_) rfl
    · cases h
    · cases h
  have hresolve : ∀ a r, (if a = headDocument then .ok itself else .error .undefined : Except Unresolved TypedTerm) =
      .ok r → a = headDocument ∧ r = itself := by
    intro a r h
    by_cases ha : a = headDocument
    · rw [if_pos ha] at h
      exact ⟨ha, (Except.ok.inj h).symm⟩
    · rw [if_neg ha] at h
      cases h
  refine @Checked.intro _ _ ⟨shipped, fun a _ => if a = headDocument then .ok itself else .error .undefined⟩
    denied.signed 0 _ rfl (fun a _ _ r h => ?_) (fun a _ _ r h => ?_) rfl
  · obtain ⟨ha, rfl⟩ := hresolve a r h
    exact if_pos ha
  · obtain ⟨-, rfl⟩ := hresolve a r h
    exact hitself

private def deniedFlat : Term :=
  .letIn ⟨1⟩ (.unary .not (.var ⟨0⟩)) (.letIn (.expansion 0) (.var ⟨1⟩)
    (.letIn (.expansion 1) (.var (.expansion 0)) (.connective .and (.var (.expansion 1)) (.var (.expansion 0)))))

private def atGenesis : EvalCtx := ⟨shipped, ⟨LinkWorld.genesis.links, fun _ => true⟩, LinkWorld.genesis.m3, .active, none⟩

theorem expand_exact_denied : deniedFlat.free ⊆ {⟨0⟩} ∧
    evalTerm (atGenesis.withDefs none) (callAt atGenesis 0) (Env.ofList [(⟨0⟩, .bool true)]) deniedFlat =
      .ok (.bool false) := by
  obtain ⟨-, hfree, heval⟩ := checked_denied.expand_exact
    (show expand itselfAt denied.evaluable = .ok deniedFlat from rfl) atGenesis
  refine ⟨fun v hv => by simpa [denied, TypedTerm.params] using hfree hv, ?_⟩
  rw [heval none (callAt atGenesis 0) 6 (Env.ofList [(⟨0⟩, .bool true)]) le_rfl]
  rfl

end Coordination
