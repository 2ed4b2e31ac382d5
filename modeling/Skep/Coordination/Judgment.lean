import Skep.Coordination.Check

/-!
# What the checker establishes

The judgment as rules: a submitted term, in a context, has a sort and a term
that is evaluated in its place. What the checker accepts is derived by these
rules, its references resolve to checked definitions, and its reach is past the
reach of each.
-/

namespace Coordination

/-- The join of the instances of a quantifier over the types. -/
def joined (q : Quantifier) : List Term → Term
  | [] => .lit (.bool true)
  | t :: ts => ts.foldl (.connective q.join) t

section

variable (cat : TypeCatalog) (defs : DefSource)

mutual

/-- In a context, a term has a sort and is evaluated as the last term. -/
inductive TermJudged : Ctx → Term → ValueSort → Term → Prop
  | var {ctx : Ctx} {v : VarId} {s : ValueSort} (hv : ctx v = some s) : TermJudged ctx (.var v) s (.var v)
  | lit {ctx : Ctx} {l : Lit} : TermJudged ctx (.lit l) l.sort (.lit l)
  | members {ctx : Ctx} {tr : TypeRef} {k : TypeKey} (hk : cat.guarded tr .cataloged = .ok k) :
      TermJudged ctx (.members tr) .addrSet (.members (.concrete k))
  | tuple {ctx : Ctx} {r : TupleRead} {v : VarId} (hv : ctx v = some .tup) :
      TermJudged ctx (.tuple r v) r.result (.tuple r v)
  | inCoverage {ctx : Ctx} {slot : Slot} {e e' : Term} {v : VarId} (he : TermJudged ctx e .addr e')
      (hv : ctx v = some .tup) : TermJudged ctx (.inCoverage slot e v) .bool (.inCoverage slot e' v)
  | unary {ctx : Ctx} {op op' : UnaryOp} {e e' : Term} {s : ValueSort} (hop : op.guarded cat = .ok op')
      (he : TermJudged ctx e s e') (hs : op'.wants s = .ok ()) :
      TermJudged ctx (.unary op e) op'.result (.unary op' e')
  | binary {ctx : Ctx} {op op' : BinaryOp} {x x' y y' : Term} (hop : op.guarded cat = .ok op')
      (hx : TermJudged ctx x op'.operands.1 x') (hy : TermJudged ctx y op'.operands.2 y') :
      TermJudged ctx (.binary op x y) op'.result (.binary op' x' y')
  | connective {ctx : Ctx} {op : Connective} {x x' y y' : Term} (hx : TermJudged ctx x .bool x')
      (hy : TermJudged ctx y .bool y') :
      TermJudged ctx (.connective op x y) .bool (.connective op x' y')
  | quantified {ctx : Ctx} {q : Quantifier} {var : VarId} {d d' : Dom} {s : ValueSort} {body body' : Term}
      (hd : DomJudged ctx d s d') (hb : TermJudged (ctx.update var s) body .bool body') :
      TermJudged ctx (.quantified q var d body) .bool (.quantified q var d' body')
  | overTypes {ctx : Ctx} {q : Quantifier} {cvar : VarId} {body : Term} {insts : List Term}
      (hinsts : InstancesJudged ctx cvar body cat.classes insts) :
      TermJudged ctx (.quantified q cvar .reg body) .bool (joined q insts)
  | letIn {ctx : Ctx} {var : VarId} {bound bound' body body' : Term} {s r : ValueSort}
      (hbound : TermJudged ctx bound s bound') (hb : TermJudged (ctx.update var s) body r body') :
      TermJudged ctx (.letIn var bound body) r (.letIn var bound' body')
  | ifSome {ctx : Ctx} {opt opt' thenTerm then' elseTerm else' : Term} {var : VarId} {s n r : ValueSort}
      (hopt : TermJudged ctx opt s opt') (hn : narrowed s = .ok n)
      (hthen : TermJudged (ctx.update var n) thenTerm r then') (helse : TermJudged ctx elseTerm r else') :
      TermJudged ctx (.ifSome opt var thenTerm elseTerm) r (.ifSome opt' var then' else')
  | countTypes {ctx : Ctx} :
      TermJudged ctx (.aggregate .count .reg) .nat (.lit (.nat cat.classes.length))
  | aggregate {ctx : Ctx} {op : Aggregate} {d d' : Dom} {s : ValueSort} (hd : DomJudged ctx d s d')
      (hs : op.wants s = .ok ()) : TermJudged ctx (.aggregate op d) op.result (.aggregate op d')
  | bigUnion {ctx : Ctx} {d d' : Dom} {var : VarId} {s : ValueSort} {body body' : Term}
      (hd : DomJudged ctx d s d') (hb : TermJudged (ctx.update var s) body .addrSet body') :
      TermJudged ctx (.bigUnion d var body) .addrSet (.bigUnion d' var body')
  | ref {ctx : Ctx} {addr : Address} {args args' : List Term} {referent : TypedTerm}
      (hr : defs addr = some referent)
      (hargs : ArgsJudged ctx (referent.params.map Prod.snd) args args') :
      TermJudged ctx (.ref addr args) referent.result (.ref addr args')

/-- In a context, a domain has elements of a sort and is evaluated as the last domain. -/
inductive DomJudged : Ctx → Dom → ValueSort → Dom → Prop
  | read {ctx : Ctx} {r : DomRead} {tr : TypeRef} {k : TypeKey} (hk : cat.guarded tr .cataloged = .ok k) :
      DomJudged ctx (.read r tr) r.elem (.read r (.concrete k))
  | linkDom {ctx : Ctx} : DomJudged ctx .linkDom .addr .linkDom
  | filter {ctx : Ctx} {d d' : Dom} {var : VarId} {s : ValueSort} {pred pred' : Term}
      (hd : DomJudged ctx d s d') (hp : TermJudged (ctx.update var s) pred .bool pred') :
      DomJudged ctx (.filter d var pred) s (.filter d' var pred')
  | setTerm {ctx : Ctx} {t t' : Term} (ht : TermJudged ctx t .addrSet t') :
      DomJudged ctx (.setTerm t) .addr (.setTerm t')

/-- The arguments of a reference at the sorts of the parameters. -/
inductive ArgsJudged : Ctx → List ValueSort → List Term → List Term → Prop
  | nil {ctx : Ctx} : ArgsJudged ctx [] [] []
  | cons {ctx : Ctx} {s : ValueSort} {sorts : List ValueSort} {t t' : Term} {ts ts' : List Term}
      (ht : TermJudged ctx t s t') (hts : ArgsJudged ctx sorts ts ts') :
      ArgsJudged ctx (s :: sorts) (t :: ts) (t' :: ts')

/-- The instances of a body at the types. -/
inductive InstancesJudged : Ctx → VarId → Term → List TypeKey → List Term → Prop
  | nil {ctx : Ctx} {cvar : VarId} {body : Term} : InstancesJudged ctx cvar body [] []
  | cons {ctx : Ctx} {cvar : VarId} {body inst : Term} {key : TypeKey} {keys : List TypeKey}
      {insts : List Term} (hinst : TermJudged ctx (body.substClass cvar key) .bool inst)
      (hrest : InstancesJudged ctx cvar body keys insts) :
      InstancesJudged ctx cvar body (key :: keys) (inst :: insts)

end

end

section

variable {s s' : CheckState}

@[simp] theorem run_judge {α : Type} {x : Outcome TypeError α} {a : α} :
    (judge x).run s = .ok (a, s') ↔ x = .ok a ∧ s = s' := by
  show (x >>= fun a => Outcome.ok (a, s)) = _ ↔ _
  rw [Outcome.bind_eq_ok_iff]
  constructor
  · rintro ⟨a', rfl, h⟩
    cases h
    exact ⟨rfl, rfl⟩
  · rintro ⟨rfl, rfl⟩
    exact ⟨a, rfl, rfl⟩

@[simp] theorem run_reachTo {level : ℕ} {u : Unit} : (reachTo level).run s = .ok (u, s') ↔
    level ≤ maxDepth ∧ { s with deepest := max s.deepest level } = s' := by
  show (if _ then _ else _) = _ ↔ _
  split
  · simp
    omega
  · simp
    omega

@[simp] theorem run_chargeNodes {units : ℕ} {u : Unit} : (chargeNodes units).run s = .ok (u, s') ↔
    s.nodes + units ≤ maxTermNodes ∧ { s with nodes := s.nodes + units } = s' := by
  show (if _ then _ else _) = _ ↔ _
  split
  · simp
    omega
  · simp
    omega

theorem enter_deepest {units depth : ℕ} {u : Unit} (h : (enter units depth).run s = .ok (u, s')) :
    s.deepest ≤ s'.deepest := by
  simp only [enter, StateT.run_bind, Outcome.bind_eq_ok_iff, Prod.exists, run_reachTo,
    run_chargeNodes] at h
  obtain ⟨-, s₁, ⟨-, rfl⟩, -, rfl⟩ := h
  exact le_max_left _ _

theorem run_sub {check : Term → CheckM CheckedTerm} {t : Term} {expected : ValueSort} {c : CheckedTerm}
    (h : (sub check t expected).run s = .ok (c, s')) :
    (check t).run s = .ok (c, s') ∧ c.sort = expected := by
  simp only [sub, StateT.run_bind, Outcome.bind_eq_ok_iff, Prod.exists, run_judge, want,
    Outcome.refuseIf_eq_ok_iff, not_not] at h
  obtain ⟨c', s₁, hc, -, s₂, ⟨hsort, rfl⟩, h⟩ := h
  cases h
  exact ⟨hc, hsort.symm⟩

/-- An instance is the substituted body, and its substitution records no level. -/
theorem run_instantiate {cvar : VarId} {key : TypeKey} {body t : Term}
    (h : (instantiate cvar key body).run s = .ok (t, s')) :
    t = body.substClass cvar key ∧ s'.deepest = s.deepest := by
  have h' : ((substClassVar cvar key body).run { nodes := s.nodes }).mapErr (fun _ => TypeError.tooLarge) >>=
      (fun p => Outcome.ok (p.1, { s with nodes := p.2.nodes })) = .ok (t, s') := h
  simp only [Outcome.bind_eq_ok_iff, Outcome.mapErr_eq_ok_iff, Prod.exists] at h'
  obtain ⟨t', ws, hwalk, h'⟩ := h'
  cases h'
  exact ⟨term_substClassVar body hwalk, rfl⟩

end

section

variable {cat : TypeCatalog} {defs : DefSource} {Q : TypedTerm → Prop}

/-- Each address is a definition's whose reach a reference at the depth is charged for. -/
def ReachesRefs (defs : DefSource) (Q : TypedTerm → Prop) (depth deepest : ℕ) (refs : List Address) : Prop :=
  ∀ a ∈ refs, ∃ r, defs a = some r ∧ Q r ∧ referentDepth depth + r.reach ≤ deepest

theorem ReachesRefs.weaken {depth depth' deepest deepest' : ℕ} {refs : List Address}
    (h : ReachesRefs defs Q depth deepest refs) (hdepth : depth' ≤ depth) (hdeepest : deepest ≤ deepest') :
    ReachesRefs defs Q depth' deepest' refs := by
  intro a ha
  obtain ⟨r, hr, hq, hreach⟩ := h a ha
  refine ⟨r, hr, hq, ?_⟩
  rw [referentDepth] at hreach ⊢
  omega

theorem ReachesRefs.append {depth deepest : ℕ} {refs refs' : List Address}
    (h : ReachesRefs defs Q depth deepest refs) (h' : ReachesRefs defs Q depth deepest refs') :
    ReachesRefs defs Q depth deepest (refs ++ refs') := fun a ha =>
  (List.mem_append.1 ha).elim (h a) (h' a)

theorem reachesRefs_nil {depth deepest : ℕ} : ReachesRefs defs Q depth deepest [] := nofun

/-- What is answered at the addresses is what the definitions hold there. -/
def AnswersFrom (ch : Checker) (defs : DefSource) (Q : TypedTerm → Prop) (refs : List Address) : Prop :=
  ∀ a ∈ refs, ∀ level r, ch.resolve a level = .ok r → defs a = some r ∧ Q r

theorem AnswersFrom.subset {ch : Checker} {refs refs' : List Address} (h : AnswersFrom ch defs Q refs)
    (hsub : refs' ⊆ refs) : AnswersFrom ch defs Q refs' := fun a ha => h a (hsub ha)

/-- What an accepted term is. -/
structure TermAccepted (cat : TypeCatalog) (defs : DefSource) (Q : TypedTerm → Prop) (ctx : Ctx) (t : Term)
    (depth : ℕ) (s : CheckState) (c : CheckedTerm) (s' : CheckState) : Prop where
  judged : TermJudged cat defs ctx t c.sort c.term
  deepest : s.deepest ≤ s'.deepest
  reach : ReachesRefs defs Q depth s'.deepest c.term.refs
  refFree : c.refFree = true ↔ c.term.refs = []

/-- What an accepted domain is. -/
structure DomAccepted (cat : TypeCatalog) (defs : DefSource) (Q : TypedTerm → Prop) (ctx : Ctx) (d : Dom)
    (depth : ℕ) (s : CheckState) (c : CheckedDom) (s' : CheckState) : Prop where
  judged : DomJudged cat defs ctx d c.elem c.dom
  deepest : s.deepest ≤ s'.deepest
  reach : ReachesRefs defs Q depth s'.deepest c.dom.refs
  refFree : c.refFree = true ↔ c.dom.refs = []

theorem referenceArgs_sound {ch : Checker} {ctx : Ctx} {addr : Address} {arity found depth : ℕ}
    {check : ℕ → Term → CheckM CheckedTerm}
    (hcheck : ∀ level t s c s', AnswersFrom ch defs Q t.refs → (check level t).run s = .ok (c, s') →
      TermAccepted cat defs Q ctx t level s c s') :
    ∀ (sorts : List ValueSort) (args : List Term) (i : ℕ) (s : CheckState) (args' : List Term)
      (s' : CheckState), AnswersFrom ch defs Q (argRefs args) →
      (referenceArgs addr arity found depth check i sorts args).run s = .ok (args', s') →
      ArgsJudged cat defs ctx sorts args args' ∧ args'.length = args.length ∧ s.deepest ≤ s'.deepest ∧
        ReachesRefs defs Q depth s'.deepest (argRefs args')
  | [], [], i, s, args', s', _, h => by
    cases h
    exact ⟨.nil, rfl, le_rfl, reachesRefs_nil⟩
  | srt :: sorts, arg :: args, i, s, args', s', hans, h => by
    simp only [referenceArgs, StateT.run_bind, Outcome.bind_eq_ok_iff, Prod.exists, run_judge, want,
      Outcome.refuseIf_eq_ok_iff, not_not] at h
    obtain ⟨c, s₁, hc, -, s₂, ⟨hsort, rfl⟩, rest, s₃, hrest, h⟩ := h
    cases h
    have harg := hcheck _ arg s c s₁ (hans.subset (List.subset_append_left _ _)) hc
    obtain ⟨hargs, hlen, hdeep, hreach⟩ := referenceArgs_sound hcheck sorts args (i + 1) s₁ rest s'
      (hans.subset (List.subset_append_right _ _)) hrest
    refine ⟨.cons (hsort ▸ harg.judged) hargs, by simp [hlen], harg.deepest.trans hdeep, ?_⟩
    exact (harg.reach.weaken (by rw [argumentDepth]; omega) hdeep).append hreach
  | [], arg :: args, i, s, args', s', _, h => by
    simp [referenceArgs, Outcome.bind_eq_ok_iff] at h
  | srt :: sorts, [], i, s, args', s', _, h => by
    simp [referenceArgs] at h

/-- The accepted instances of a quantifier over the types. -/
theorem instances_sound {ch : Checker} {ctx : Ctx} {depth : ℕ} {check : Term → CheckM CheckedTerm}
    (hcheck : ∀ t s c s', AnswersFrom ch defs Q t.refs → (check t).run s = .ok (c, s') →
      TermAccepted cat defs Q ctx t depth s c s') {cvar : VarId} {body : Term}
    (hans : AnswersFrom ch defs Q body.refs) :
    ∀ (keys : List TypeKey) (s : CheckState) (cs : List CheckedTerm) (s' : CheckState),
      (instances check cvar body keys).run s = .ok (cs, s') →
      InstancesJudged cat defs ctx cvar body keys (cs.map CheckedTerm.term) ∧ cs.length = keys.length ∧
        s.deepest ≤ s'.deepest ∧ ∀ c ∈ cs, c.sort = .bool ∧ ReachesRefs defs Q depth s'.deepest c.term.refs ∧
          (c.refFree = true ↔ c.term.refs = [])
  | [], s, cs, s', h => by
    cases h
    exact ⟨.nil, rfl, le_rfl, nofun⟩
  | key :: keys, s, cs, s', h => by
    simp only [instances, StateT.run_bind, Outcome.bind_eq_ok_iff, Prod.exists] at h
    obtain ⟨inst, s₁, hinst, c, s₂, hc, rest, s₃, hrest, h⟩ := h
    cases h
    obtain ⟨rfl, hdeep₁⟩ := run_instantiate hinst
    obtain ⟨hc, hsort⟩ := run_sub (Outcome.mapErr_eq_ok_iff.1 hc)
    have hacc := hcheck _ s₁ c s₂ (by rw [refs_substClass]; exact hans) hc
    obtain ⟨hinsts, hlen, hdeep₃, hrest⟩ := instances_sound hcheck hans keys s₂ rest s' hrest
    have hdeep := hacc.deepest
    refine ⟨.cons (hsort ▸ hacc.judged) hinsts, by simp [hlen], by omega, ?_⟩
    intro c' hc'
    rcases List.mem_cons.1 hc' with rfl | hc'
    · exact ⟨hsort, hacc.reach.weaken le_rfl hdeep₃, hacc.refFree⟩
    · exact hrest c' hc'

theorem joinInstances_sound {q : Quantifier} {depth deepest : ℕ} {cs : List CheckedTerm} {c : CheckedTerm}
    (h : joinInstances q cs = .ok c) (hcs : ∀ c ∈ cs, c.sort = .bool ∧
      ReachesRefs defs Q depth deepest c.term.refs ∧ (c.refFree = true ↔ c.term.refs = [])) :
    c.term = joined q (cs.map CheckedTerm.term) ∧ c.sort = .bool ∧
      ReachesRefs defs Q depth deepest c.term.refs ∧ (c.refFree = true ↔ c.term.refs = []) := by
  cases cs with
  | nil => cases h
  | cons c₀ cs =>
    cases h
    rw [List.map_cons, joined]
    induction cs generalizing c₀ with
    | nil => exact ⟨rfl, hcs c₀ List.mem_cons_self⟩
    | cons c₁ cs ih =>
      obtain ⟨hc₀, hcs⟩ := List.forall_mem_cons.1 hcs
      obtain ⟨hc₁, hcs⟩ := List.forall_mem_cons.1 hcs
      refine ih _ (List.forall_mem_cons.2 ⟨⟨rfl, hc₀.2.1.append hc₁.2.1, ?_⟩, hcs⟩)
      rw [Bool.and_eq_true, hc₀.2.2, hc₁.2.2, Term.refs, List.append_eq_nil_iff]

variable {ch : Checker}

/-- A term the checker accepts at a number of levels, by its node. -/
theorem checkTerm_node {levels depth : ℕ}
    (ihTerm : ∀ ctx t d s c s', AnswersFrom ch defs Q t.refs →
      (checkTerm ch levels ctx t d).run s = .ok (c, s') → TermAccepted ch.catalog defs Q ctx t d s c s')
    (ihDom : ∀ ctx d n s c s', AnswersFrom ch defs Q d.refs →
      (checkDom ch levels ctx d n).run s = .ok (c, s') → DomAccepted ch.catalog defs Q ctx d n s c s')
    {ctx : Ctx} {t : Term} {s : CheckState} {c : CheckedTerm} {s' : CheckState}
    (hans : AnswersFrom ch defs Q t.refs)
    (h : (checkTerm ch (levels + 1) ctx t depth).run s = .ok (c, s')) :
    TermAccepted ch.catalog defs Q ctx t depth s c s' := by
  unfold checkTerm at h
  rw [StateT.run_bind, Outcome.bind_eq_ok_iff] at h
  obtain ⟨⟨⟨⟩, s₀⟩, henter, h⟩ := h
  have h₀ := enter_deepest henter
  cases t with
  | var v =>
    simp only [StateT.run_bind, Outcome.bind_eq_ok_iff, Prod.exists, run_judge,
      Outcome.okOr_eq_ok_iff] at h
    obtain ⟨srt, s₁, ⟨hv, rfl⟩, h⟩ := h
    cases h
    exact ⟨.var hv, h₀, reachesRefs_nil, by simp [Term.refs]⟩
  | lit l =>
    cases h
    exact ⟨.lit, h₀, reachesRefs_nil, by simp [Term.refs]⟩
  | members tr =>
    simp only [StateT.run_bind, Outcome.bind_eq_ok_iff, Prod.exists, run_judge] at h
    obtain ⟨k, s₁, ⟨hk, rfl⟩, h⟩ := h
    cases h
    exact ⟨.members hk, h₀, reachesRefs_nil, by simp [Term.refs]⟩
  | tuple r v =>
    simp only [StateT.run_bind, Outcome.bind_eq_ok_iff, Prod.exists, run_judge, want,
      Outcome.okOr_eq_ok_iff, Outcome.refuseIf_eq_ok_iff, not_not] at h
    obtain ⟨srt, s₁, ⟨hv, rfl⟩, -, s₂, ⟨rfl, rfl⟩, h⟩ := h
    cases h
    exact ⟨.tuple hv, h₀, reachesRefs_nil, by simp [Term.refs]⟩
  | inCoverage slot e v =>
    simp only [StateT.run_bind, Outcome.bind_eq_ok_iff, Prod.exists, run_judge, want,
      Outcome.okOr_eq_ok_iff, Outcome.refuseIf_eq_ok_iff, not_not] at h
    obtain ⟨ce, s₁, hce, srt, s₂, ⟨hv, rfl⟩, -, s₃, ⟨rfl, rfl⟩, h⟩ := h
    cases h
    obtain ⟨hce, hsort⟩ := run_sub hce
    have he := ihTerm _ e _ _ _ _ hans hce
    exact ⟨.inCoverage (hsort ▸ he.judged) hv, h₀.trans he.deepest, he.reach.weaken (by omega) le_rfl,
      he.refFree⟩
  | unary op e =>
    simp only [StateT.run_bind, Outcome.bind_eq_ok_iff, Prod.exists, run_judge] at h
    obtain ⟨op', s₁, ⟨hop, rfl⟩, ce, s₂, hce, ⟨⟩, s₃, ⟨hwants, rfl⟩, h⟩ := h
    cases h
    have he := ihTerm _ e _ _ _ _ hans hce
    exact ⟨.unary hop he.judged hwants, h₀.trans he.deepest, he.reach.weaken (by omega) le_rfl,
      he.refFree⟩
  | binary op x y =>
    simp only [StateT.run_bind, Outcome.bind_eq_ok_iff, Prod.exists, run_judge] at h
    obtain ⟨op', s₁, ⟨hop, rfl⟩, cx, s₂, hcx, cy, s₃, hcy, h⟩ := h
    cases h
    obtain ⟨hcx, hsx⟩ := run_sub hcx
    obtain ⟨hcy, hsy⟩ := run_sub hcy
    have hx := ihTerm _ _ _ _ _ _ (hans.subset (List.subset_append_left _ _)) hcx
    have hy := ihTerm _ _ _ _ _ _ (hans.subset (List.subset_append_right _ _)) hcy
    refine ⟨.binary hop (hsx ▸ hx.judged) (hsy ▸ hy.judged), (h₀.trans hx.deepest).trans hy.deepest,
      (hx.reach.weaken (by omega) hy.deepest).append (hy.reach.weaken (by omega) le_rfl), ?_⟩
    rw [Bool.and_eq_true, hx.refFree, hy.refFree, Term.refs, List.append_eq_nil_iff]
  | connective op x y =>
    simp only [StateT.run_bind, Outcome.bind_eq_ok_iff, Prod.exists] at h
    obtain ⟨cx, s₂, hcx, cy, s₃, hcy, h⟩ := h
    cases h
    obtain ⟨hcx, hsx⟩ := run_sub hcx
    obtain ⟨hcy, hsy⟩ := run_sub hcy
    have hx := ihTerm _ _ _ _ _ _ (hans.subset (List.subset_append_left _ _)) hcx
    have hy := ihTerm _ _ _ _ _ _ (hans.subset (List.subset_append_right _ _)) hcy
    refine ⟨.connective (hsx ▸ hx.judged) (hsy ▸ hy.judged), (h₀.trans hx.deepest).trans hy.deepest,
      (hx.reach.weaken (by omega) hy.deepest).append (hy.reach.weaken (by omega) le_rfl), ?_⟩
    rw [Bool.and_eq_true, hx.refFree, hy.refFree, Term.refs, List.append_eq_nil_iff]
  | quantified q var d body =>
    by_cases hreg : d = .reg
    · subst hreg
      simp only [StateT.run_bind, Outcome.bind_eq_ok_iff, Prod.exists, run_judge] at h
      obtain ⟨cs, s₁, hcs, hjoin, rfl⟩ := h
      obtain ⟨hinsts, -, hdeep, hall⟩ := instances_sound (fun t s c s' => ihTerm ctx t _ s c s')
        (hans.subset (List.subset_append_right _ _)) _ _ _ _ hcs
      obtain ⟨hterm, hsort, hreach, hfree⟩ := joinInstances_sound hjoin hall
      refine ⟨?_, h₀.trans hdeep, hreach.weaken (by omega) le_rfl, hfree⟩
      rw [hterm, hsort]
      exact .overTypes hinsts
    · have h : (do
          let cd ← checkDom ch levels ctx d (depth + 1)
          let cb ← sub (fun t => checkTerm ch levels (ctx.update var cd.elem) t (depth + 1)) body .bool
          return ⟨.quantified q var cd.dom cb.term, .bool, cd.refFree && cb.refFree⟩ :
            CheckM CheckedTerm).run s₀ = .ok (c, s') := by
        cases d with
        | reg => exact absurd rfl hreg
        | read | linkDom | filter | setTerm => exact h
      simp only [StateT.run_bind, Outcome.bind_eq_ok_iff, Prod.exists] at h
      obtain ⟨cd, s₁, hcd, cb, s₂, hcb, h⟩ := h
      cases h
      obtain ⟨hcb, hsort⟩ := run_sub hcb
      have hd := ihDom _ _ _ _ _ _ (hans.subset (List.subset_append_left _ _)) hcd
      have hb := ihTerm _ _ _ _ _ _ (hans.subset (List.subset_append_right _ _)) hcb
      refine ⟨.quantified hd.judged (hsort ▸ hb.judged), (h₀.trans hd.deepest).trans hb.deepest,
        (hd.reach.weaken (by omega) hb.deepest).append (hb.reach.weaken (by omega) le_rfl), ?_⟩
      rw [Bool.and_eq_true, hd.refFree, hb.refFree, Term.refs, List.append_eq_nil_iff]
  | letIn var bound body =>
    simp only [StateT.run_bind, Outcome.bind_eq_ok_iff, Prod.exists] at h
    obtain ⟨cbound, s₁, hcbound, cb, s₂, hcb, h⟩ := h
    cases h
    have hbound := ihTerm _ _ _ _ _ _ (hans.subset (List.subset_append_left _ _)) hcbound
    have hb := ihTerm _ _ _ _ _ _ (hans.subset (List.subset_append_right _ _)) hcb
    refine ⟨.letIn hbound.judged hb.judged, (h₀.trans hbound.deepest).trans hb.deepest,
      (hbound.reach.weaken (by omega) hb.deepest).append (hb.reach.weaken (by omega) le_rfl), ?_⟩
    rw [Bool.and_eq_true, hbound.refFree, hb.refFree, Term.refs, List.append_eq_nil_iff]
  | ifSome opt var thenTerm elseTerm =>
    simp only [StateT.run_bind, Outcome.bind_eq_ok_iff, Prod.exists, run_judge, want,
      Outcome.refuseIf_eq_ok_iff, not_not] at h
    obtain ⟨co, s₁, hco, srt, s₂, ⟨hn, rfl⟩, ct, s₃, hct, ce, s₄, hce, -, s₅, ⟨hsort, rfl⟩, h⟩ := h
    cases h
    have hopt := ihTerm _ _ _ _ _ _ (hans.subset (List.subset_append_left _ _)) hco
    have hrest := hans.subset (List.subset_append_right opt.refs (thenTerm.refs ++ elseTerm.refs))
    have hthen := ihTerm _ _ _ _ _ _ (hrest.subset (List.subset_append_left _ _)) hct
    have helse := ihTerm _ _ _ _ _ _ (hrest.subset (List.subset_append_right _ _)) hce
    have hdeep := hthen.deepest.trans helse.deepest
    refine ⟨.ifSome hopt.judged hn hthen.judged (hsort ▸ helse.judged),
      (h₀.trans hopt.deepest).trans hdeep, (hopt.reach.weaken (by omega) hdeep).append
        ((hthen.reach.weaken (by omega) helse.deepest).append (helse.reach.weaken (by omega) le_rfl)), ?_⟩
    rw [Bool.and_eq_true, Bool.and_eq_true, hopt.refFree, hthen.refFree, helse.refFree, Term.refs,
      List.append_eq_nil_iff, List.append_eq_nil_iff, and_assoc]
  | aggregate op d =>
    by_cases hreg : op = .count ∧ d = .reg
    · obtain ⟨rfl, rfl⟩ := hreg
      cases h
      exact ⟨.countTypes, h₀, reachesRefs_nil, by simp [Term.refs]⟩
    · have h : (do
          let cd ← checkDom ch levels ctx d (depth + 1)
          judge (op.wants cd.elem)
          return ⟨.aggregate op cd.dom, op.result, cd.refFree⟩ : CheckM CheckedTerm).run s₀ =
            .ok (c, s') := by
        cases d with
        | reg =>
          cases op with
          | count => exact absurd ⟨rfl, rfl⟩ hreg
          | maxT1 | minT1 | reflect => exact h
        | read | linkDom | filter | setTerm => cases op <;> exact h
      simp only [StateT.run_bind, Outcome.bind_eq_ok_iff, Prod.exists, run_judge] at h
      obtain ⟨cd, s₁, hcd, ⟨⟩, s₂, ⟨hwants, rfl⟩, h⟩ := h
      cases h
      have hd := ihDom _ d _ _ _ _ hans hcd
      exact ⟨.aggregate hd.judged hwants, h₀.trans hd.deepest, hd.reach.weaken (by omega) le_rfl,
        hd.refFree⟩
  | bigUnion d var body =>
    simp only [StateT.run_bind, Outcome.bind_eq_ok_iff, Prod.exists] at h
    obtain ⟨cd, s₁, hcd, cb, s₂, hcb, h⟩ := h
    cases h
    obtain ⟨hcb, hsort⟩ := run_sub hcb
    have hd := ihDom _ _ _ _ _ _ (hans.subset (List.subset_append_left _ _)) hcd
    have hb := ihTerm _ _ _ _ _ _ (hans.subset (List.subset_append_right _ _)) hcb
    refine ⟨.bigUnion hd.judged (hsort ▸ hb.judged), (h₀.trans hd.deepest).trans hb.deepest,
      (hd.reach.weaken (by omega) hb.deepest).append (hb.reach.weaken (by omega) le_rfl), ?_⟩
    rw [Bool.and_eq_true, hd.refFree, hb.refFree, Term.refs, List.append_eq_nil_iff]
  | ref addr args =>
    simp only [StateT.run_bind, Outcome.bind_eq_ok_iff, Prod.exists, run_judge, run_reachTo] at h
    obtain ⟨referent, s₁, ⟨href, rfl⟩, -, s₂, ⟨-, rfl⟩, args', s₃, hargs, h⟩ := h
    cases h
    have hres : ch.resolve addr (referentDepth depth) = .ok referent := by
      unfold resolveRef at href
      split at href
      · next hres =>
        cases href
        exact hres
      · cases href
      · cases href
    obtain ⟨hdef, hq⟩ := hans addr List.mem_cons_self _ _ hres
    obtain ⟨hjudged, -, hdeep, hreach⟩ := referenceArgs_sound
      (fun level t s c s' => ihTerm ctx t level s c s') _ _ _ _ _ _
      (hans.subset (List.subset_cons_self _ _)) hargs
    have hcharged : referenceReach depth args.length referent.reach ≤ s'.deepest :=
      (le_max_right _ _).trans hdeep
    refine ⟨.ref hdef hjudged, (h₀.trans (le_max_left _ _)).trans hdeep, ?_, by simp [Term.refs]⟩
    intro a ha
    rcases List.mem_cons.1 ha with rfl | ha
    · refine ⟨referent, hdef, hq, ?_⟩
      rw [referenceReach] at hcharged
      omega
    · exact hreach a ha

/-- A domain the checker accepts at a number of levels, by its node. -/
theorem checkDom_node {levels depth : ℕ}
    (ihTerm : ∀ ctx t d s c s', AnswersFrom ch defs Q t.refs →
      (checkTerm ch levels ctx t d).run s = .ok (c, s') → TermAccepted ch.catalog defs Q ctx t d s c s')
    (ihDom : ∀ ctx d n s c s', AnswersFrom ch defs Q d.refs →
      (checkDom ch levels ctx d n).run s = .ok (c, s') → DomAccepted ch.catalog defs Q ctx d n s c s')
    {ctx : Ctx} {d : Dom} {s : CheckState} {c : CheckedDom} {s' : CheckState}
    (hans : AnswersFrom ch defs Q d.refs)
    (h : (checkDom ch (levels + 1) ctx d depth).run s = .ok (c, s')) :
    DomAccepted ch.catalog defs Q ctx d depth s c s' := by
  unfold checkDom at h
  rw [StateT.run_bind, Outcome.bind_eq_ok_iff] at h
  obtain ⟨⟨⟨⟩, s₀⟩, henter, h⟩ := h
  have h₀ := enter_deepest henter
  cases d with
  | read r tr =>
    simp only [StateT.run_bind, Outcome.bind_eq_ok_iff, Prod.exists, run_judge] at h
    obtain ⟨k, s₁, ⟨hk, rfl⟩, h⟩ := h
    cases h
    exact ⟨.read hk, h₀, reachesRefs_nil, by simp [Dom.refs]⟩
  | linkDom =>
    cases h
    exact ⟨.linkDom, h₀, reachesRefs_nil, by simp [Dom.refs]⟩
  | reg => simp at h
  | filter d var pred =>
    simp only [StateT.run_bind, Outcome.bind_eq_ok_iff, Prod.exists] at h
    obtain ⟨cd, s₁, hcd, cp, s₂, hcp, h⟩ := h
    cases h
    obtain ⟨hcp, hsort⟩ := run_sub hcp
    have hd := ihDom _ _ _ _ _ _ (hans.subset (List.subset_append_left _ _)) hcd
    have hp := ihTerm _ _ _ _ _ _ (hans.subset (List.subset_append_right _ _)) hcp
    refine ⟨.filter hd.judged (hsort ▸ hp.judged), (h₀.trans hd.deepest).trans hp.deepest,
      (hd.reach.weaken (by omega) hp.deepest).append (hp.reach.weaken (by omega) le_rfl), ?_⟩
    rw [Bool.and_eq_true, hd.refFree, hp.refFree, Dom.refs, List.append_eq_nil_iff]
  | setTerm t =>
    simp only [StateT.run_bind, Outcome.bind_eq_ok_iff, Prod.exists] at h
    obtain ⟨ct, s₁, hct, h⟩ := h
    cases h
    obtain ⟨hct, hsort⟩ := run_sub hct
    have ht := ihTerm _ t _ _ _ _ hans hct
    exact ⟨.setTerm (hsort ▸ ht.judged), h₀.trans ht.deepest, ht.reach.weaken (by omega) le_rfl,
      ht.refFree⟩

theorem check_sound (levels : ℕ) :
    (∀ ctx t d s c s', AnswersFrom ch defs Q t.refs →
      (checkTerm ch levels ctx t d).run s = .ok (c, s') → TermAccepted ch.catalog defs Q ctx t d s c s') ∧
    ∀ ctx d n s c s', AnswersFrom ch defs Q d.refs →
      (checkDom ch levels ctx d n).run s = .ok (c, s') → DomAccepted ch.catalog defs Q ctx d n s c s' := by
  induction levels with
  | zero =>
    refine ⟨fun ctx t d s c s' _ h => ?_, fun ctx d n s c s' _ h => ?_⟩
    · rw [checkTerm, run_judge] at h
      exact nomatch h.1
    · rw [checkDom, run_judge] at h
      exact nomatch h.1
  | succ levels ih =>
    exact ⟨fun _ _ _ _ _ _ hans h => checkTerm_node ih.1 ih.2 hans h,
      fun _ _ _ _ _ _ hans h => checkDom_node ih.1 ih.2 hans h⟩

end

/-- A definition the checker accepted, each of its references answered a checked
definition. References so lead to ever earlier definitions. -/
inductive Checked (cat : TypeCatalog) (defs : DefSource) : TypedTerm → Prop
  | intro {ch : Checker} {signed : SignedTerm} {depth : ℕ} {tt : TypedTerm} (hcat : ch.catalog = cat)
      (hdefs : ∀ a ∈ signed.body.refs, ∀ level r, ch.resolve a level = .ok r → defs a = some r)
      (hreferent : ∀ a ∈ signed.body.refs, ∀ level r, ch.resolve a level = .ok r → Checked cat defs r)
      (h : checkSigned ch signed depth = .ok tt) : Checked cat defs tt

theorem nodup_of_duplicated {seen : List VarId} {params : List (VarId × ValueSort)}
    (h : duplicated seen params = none) :
    (params.map Prod.fst).Nodup ∧ ∀ v ∈ params.map Prod.fst, v ∉ seen := by
  induction params generalizing seen with
  | nil => simp
  | cons p params ih =>
    obtain ⟨v, s⟩ := p
    rw [duplicated] at h
    split at h
    · cases h
    · next hv =>
      obtain ⟨hnodup, hfresh⟩ := ih h
      refine ⟨List.nodup_cons.2 ⟨fun hmem => hfresh v hmem List.mem_cons_self, hnodup⟩, ?_⟩
      intro u hu
      rcases List.mem_cons.1 hu with rfl | hu
      · exact hv
      · exact fun hseen => hfresh u hu (List.mem_cons_of_mem _ hseen)

/-- What a checked definition is. -/
structure CheckedDef (cat : TypeCatalog) (defs : DefSource) (tt : TypedTerm) : Prop where
  params : (tt.params.map Prod.fst).Nodup
  judged : TermJudged cat defs (Ctx.ofList tt.params) tt.signed.body tt.result tt.evaluable
  referent : ∀ a ∈ tt.evaluable.refs, ∃ r, defs a = some r ∧ Checked cat defs r ∧ r.reach + 2 ≤ tt.reach
  refFree : tt.refFree = true ↔ tt.evaluable.refs = []

theorem Checked.def {cat : TypeCatalog} {defs : DefSource} {tt : TypedTerm} (h : Checked cat defs tt) :
    CheckedDef cat defs tt := by
  obtain ⟨rfl, hdefs, hreferent, h⟩ := h
  next ch signed depth =>
  simp only [checkSigned, Outcome.bind_eq_ok_iff, Prod.exists, run_chargeNodes,
    Outcome.refuseSome_eq_ok_iff, Outcome.pure_eq, Outcome.ok.injEq] at h
  obtain ⟨-, s, -, -, hdup, c, s', hcheck, rfl⟩ := h
  have hacc := (check_sound (Q := Checked ch.catalog defs) (maxDepth + 1)).1 _ _ _ _ _ _
    (fun a ha level r hr => ⟨hdefs a ha level r hr, hreferent a ha level r hr⟩) hcheck
  refine ⟨(nodup_of_duplicated hdup).1, hacc.judged, fun a ha => ?_, hacc.refFree⟩
  obtain ⟨r, hr, hq, hreach⟩ := hacc.reach a ha
  refine ⟨r, hr, hq, ?_⟩
  rw [referentDepth, derivationCost] at hreach
  show r.reach + 2 ≤ s'.deepest - depth
  omega

end Coordination
