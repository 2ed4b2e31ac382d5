import Skep.Coordination.Denotation
import Skep.Coordination.Engine
import Skep.Coordination.FlatSorts
import Skep.Coordination.Reads

/-!
# What the checker accepts evaluates

At a sound world whose links denote addresses, an accepted definition returns a value of its sort
for every binding of its parameters at theirs, the value that its submission denotes, and the
analyses of its flat expansion return.
-/

namespace Coordination

/-- Each variable of the context stands for a value of its sort. -/
def Env.Fits (env : Env) (ctx : Ctx) : Prop := ∀ v s, ctx v = some s → ∃ x, env v = some x ∧ x.HasSort s

theorem Env.Fits.bind {env : Env} {ctx : Ctx} (h : env.Fits ctx) {v : VarId} {x : Value} {s : ValueSort}
    (hx : x.HasSort s) : (env.bind v x).Fits (ctx.update v s) := by
  intro u t hu
  by_cases huv : u = v
  · rw [huv, Ctx.update, if_pos rfl] at hu
    cases hu
    exact ⟨x, by rw [huv, Env.bind_self], hx⟩
  · simp only [Ctx.update, if_neg huv] at hu
    rw [Env.bind_of_ne _ _ huv]
    exact h u t hu

theorem Env.Fits.ofList {l : List (VarId × Value)} {params : List (VarId × ValueSort)}
    (h : List.Forall₂ (fun b p => b.1 = p.1 ∧ b.2.HasSort p.2) l params) :
    (Env.ofList l).Fits (Ctx.ofList params) := by
  have hfold : ∀ {l : List (VarId × Value)} {params : List (VarId × ValueSort)},
      List.Forall₂ (fun b p => b.1 = p.1 ∧ b.2.HasSort p.2) l params → ∀ {env : Env} {ctx : Ctx}, env.Fits ctx →
        (env.bindAll l).Fits (ctx.extend params) := by
    intro l params h
    induction h with
    | nil => exact fun hfits => hfits
    | @cons b p l params hbp _ ih =>
      intro env ctx hfits
      obtain ⟨v, x⟩ := b
      obtain ⟨u, s⟩ := p
      obtain ⟨rfl, hsort⟩ := hbp
      exact ih (hfits.bind hsort)
  refine hfold h fun v s hv => ?_
  cases hv

-- What has a sort evaluates to a value of it

section

variable {w : CoordinationWorld} {cat : TypeCatalog} {view : View} {defs : Option DefSource}
  {call : TypedTerm → Env → Outcome Empty Value}

/-- What a reference calls returns a value of its referent's sort. -/
def CallReturns (defs : Option DefSource) (call : TypedTerm → Env → Outcome Empty Value) (refs : List Address) : Prop :=
  ∀ a ∈ refs, ∀ ds r, defs = some ds → ds a = some r → ∀ inner : Env, inner.Fits (Ctx.ofList r.params) →
    (call r inner).Returns fun x => x.HasSort r.result

theorem CallReturns.subset {refs refs' : List Address} (h : CallReturns defs call refs) (hsub : refs' ⊆ refs) :
    CallReturns defs call refs' := fun a ha => h a (hsub ha)

/-- A quantifier over elements at which its body returns. -/
theorem Quantifier.eval_returns {α : Type} (q : Quantifier) {elems : List α} {body : α → Outcome Empty Bool}
    (h : ∀ e ∈ elems, (body e).Returns fun _ => True) : (q.eval elems body).Returns fun _ => True := by
  cases q with
  | all => exact .allM h
  | any => exact .anyM h

theorem Connective.eval_returns (op : Connective) (b : Bool) {y : Outcome Empty Bool} (h : y.Returns fun _ => True) :
    (op.eval b y).Returns fun _ => True := by
  cases op with
  | and =>
    cases b with
    | true => exact h
    | false => exact .pure trivial
  | or =>
    cases b with
    | true => exact .pure trivial
    | false => exact h
  | implies =>
    cases b with
    | true => exact h
    | false => exact .pure trivial
  | iff => exact h.bind fun _ _ => .pure trivial

theorem tupleVar_returns {env : Env} {ctx : Ctx} (henv : env.Fits ctx) {v : VarId} (hv : ctx v = some .tup) :
    (tupleVar env v).Returns Tuple.DenotesAddresses := by
  obtain ⟨x, hx, hsort, hdenotes⟩ := henv v _ hv
  cases x <;> first | exact .of_eq (by rw [tupleVar, hx]; rfl) hdenotes | cases hsort

theorem TupleRead.eval_returns (r : TupleRead) {t : Tuple} (ht : t.DenotesAddresses) :
    (r.eval t).Returns fun x => x.HasSort r.result := by
  cases r with
  | addr => exact .pure (.addr _)
  | addrs slot =>
    cases slot with
    | f => exact (Outcome.Returns.mapM fun x hx => lift_returns (ht x (List.mem_append_left _ hx))).bind fun l _ =>
        .pure (.addrSet _)
    | g => exact (Outcome.Returns.mapM fun x hx => lift_returns (ht x (List.mem_append_right _ hx))).bind fun l _ =>
        .pure (.addrSet _)

theorem Aggregate.eval_returns (op : Aggregate) {s : ValueSort} (hwants : op.wants s = .ok ()) {elems : List Arg}
    (h : ∀ e ∈ elems, e.toValue.HasSort s) : (op.eval elems).Returns fun x => x.HasSort op.result := by
  cases op with
  | count => exact .pure (.nat _)
  | maxT1 | minT1 =>
    obtain rfl := not_ne_iff.1 (Outcome.refuseIf_eq_ok_iff.1 hwants)
    exact (Outcome.Returns.mapM fun e he => addrElem_returns (h e he)).bind fun l _ => .pure (.optAddr _)
  | reflect =>
    obtain rfl := not_ne_iff.1 (Outcome.refuseIf_eq_ok_iff.1 hwants)
    exact (Outcome.Returns.mapM fun e he => addrElem_returns (h e he)).bind fun l _ => .pure (.addrSet _)

theorem hasSort_addrs {l : List Address} : ∀ e ∈ l.map Arg.addr, e.toValue.HasSort .addr := by
  intro e he
  obtain ⟨a, -, rfl⟩ := List.mem_map.1 he
  exact .addr a

theorem DomRead.enum_returns (hd : w.links.DenotesAddresses) (r : DomRead) {k : TypeKey}
    (hk : cat.guarded (.concrete k) .cataloged = .ok k) :
    (r.enum (w.ctx cat view defs) k).Returns fun elems => ∀ e ∈ elems, e.toValue.HasSort r.elem := by
  obtain ⟨e, he, -⟩ := get_of_guarded hk
  have hc := TypeCatalog.coverageClass_of_get he
  cases r with
  | members => exact (membersAt_returns hd ⟨e, he⟩).bind fun s _ => .pure hasSort_addrs
  | active | audit =>
    refine (GuestLinks.observe_returns hd hc {}).bind fun ts hts => .pure fun e he => ?_
    obtain ⟨t, ht, rfl⟩ := List.mem_map.1 he
    exact ⟨rfl, hts t ht⟩

theorem linkDom_returns (hd : w.links.DenotesAddresses) : ((w.ctx cat view defs).linkDom).Returns fun _ => True := by
  refine Outcome.Returns.bind (.mapM (R := fun _ => True) fun k hk => ?_) fun ts _ => .pure trivial
  obtain ⟨e, he⟩ := TypeCatalog.exists_get_of_mem_classes hk
  exact (GuestLinks.observe_returns hd (TypeCatalog.coverageClass_of_get he) {}).mono fun _ _ => trivial

theorem hasSort_lit (l : Lit) : l.value.HasSort l.sort := by
  cases l <;> exact ⟨rfl, trivial⟩

mutual

theorem TermSorted.returns (hs : w.Sound) (hd : w.links.DenotesAddresses) {ctx : Ctx} {t : Term} {s : ValueSort}
    (h : TermSorted cat defs ctx t s) (hcall : CallReturns defs call t.refs) {env : Env} (henv : env.Fits ctx) :
    (evalTerm (w.ctx cat view defs) call env t).Returns fun x => x.HasSort s := by
  cases h with
  | var hv =>
    obtain ⟨x, hx, hsort⟩ := henv _ _ hv
    exact .of_eq (Outcome.expectSome_eq_ok_iff.2 hx) hsort
  | lit => exact .pure (hasSort_lit _)
  | members hk =>
    obtain ⟨e, he, -⟩ := get_of_guarded hk
    exact (membersAt_returns hd ⟨e, he⟩).bind fun s _ => .pure (.addrSet s)
  | tuple hv => exact (tupleVar_returns henv hv).bind fun t ht => TupleRead.eval_returns _ ht
  | inCoverage he hv =>
    exact (he.returns hs hd hcall henv).bind fun x hx => (asAddr_returns hx).bind fun a _ =>
      (tupleVar_returns henv hv).bind fun t _ => .pure (.bool _)
  | unary hop he hwants => exact (he.returns hs hd hcall henv).bind fun x hx => UnaryOp.eval_returns hs hd hop hwants hx
  | binary hop hx hy =>
    exact (hx.returns hs hd (hcall.subset (List.subset_append_left _ _)) henv).bind fun x hsx =>
      (hy.returns hs hd (hcall.subset (List.subset_append_right _ _)) henv).bind fun y hsy =>
        BinaryOp.eval_returns hd hop hsx hsy
  | connective hx hy =>
    exact (hx.returns hs hd (hcall.subset (List.subset_append_left _ _)) henv).bind fun x hsx =>
      (asBool_returns hsx).bind fun b _ => (Connective.eval_returns _ b
        ((hy.returns hs hd (hcall.subset (List.subset_append_right _ _)) henv).bind fun y hsy => asBool_returns hsy)).bind
          fun c _ => .pure (.bool c)
  | quantified hdom hb =>
    exact (hdom.returns hs hd (hcall.subset (List.subset_append_left _ _)) henv).bind fun elems helems =>
      (Quantifier.eval_returns _ fun e he =>
        (hb.returns hs hd (hcall.subset (List.subset_append_right _ _)) (henv.bind (helems e he))).bind fun y hsy =>
          asBool_returns hsy).bind fun c _ => .pure (.bool c)
  | letIn hbound hb =>
    exact (hbound.returns hs hd (hcall.subset (List.subset_append_left _ _)) henv).bind fun x hx =>
      hb.returns hs hd (hcall.subset (List.subset_append_right _ _)) (henv.bind hx)
  | ifSome hopt hn hthen helse =>
    have hrest := hcall.subset (List.subset_append_right _ _)
    have hthen' := fun x hx => hthen.returns hs hd (hrest.subset (List.subset_append_left _ _)) (henv.bind (x := x) hx)
    have helse' := helse.returns hs hd (hrest.subset (List.subset_append_right _ _)) henv
    refine (hopt.returns hs hd (hcall.subset (List.subset_append_left _ _)) henv).bind fun x hx => ?_
    obtain ⟨hsort, -⟩ := hx
    subst hsort
    cases x with
    | optAddr o =>
      cases hn
      cases o with
      | none => exact helse'
      | some a => exact hthen' _ (.addr a)
    | optNat o =>
      cases hn
      cases o with
      | none => exact helse'
      | some n => exact hthen' _ (.nat n)
    | bool | addr | addrSet | addrSeq | map | nat | tuple => cases hn
  | aggregate hdom hwants =>
    exact (hdom.returns hs hd hcall henv).bind fun elems helems => Aggregate.eval_returns _ hwants helems
  | bigUnion hdom hb =>
    exact (hdom.returns hs hd (hcall.subset (List.subset_append_left _ _)) henv).bind fun elems helems =>
      (Outcome.Returns.mapM fun e he =>
        (hb.returns hs hd (hcall.subset (List.subset_append_right _ _)) (henv.bind (helems e he))).bind fun y hsy =>
          asSet_returns hsy).bind fun sets _ => .pure (.addrSet _)
  | @ref _ addr args ds referent hds hr hargs =>
    have hargs' := hargs.returns hs hd (hcall.subset (List.subset_cons_self _ _)) henv referent.params rfl
    subst hds
    rw [evalTerm]
    refine Outcome.Returns.bind (.of_eq (P := fun r => r = referent) (Outcome.expectSome_eq_ok_iff.2 hr) rfl) ?_
    rintro r rfl
    exact hargs'.bind fun inner hinner => hcall addr List.mem_cons_self ds r rfl hr _ (.ofList hinner)

theorem DomSorted.returns (hs : w.Sound) (hd : w.links.DenotesAddresses) {ctx : Ctx} {d : Dom} {s : ValueSort}
    (h : DomSorted cat defs ctx d s) (hcall : CallReturns defs call d.refs) {env : Env} (henv : env.Fits ctx) :
    (enumDom (w.ctx cat view defs) call env d).Returns fun elems => ∀ e ∈ elems, e.toValue.HasSort s := by
  cases h with
  | read hk => exact DomRead.enum_returns hd _ hk
  | linkDom => exact (linkDom_returns hd).bind fun s _ => .pure hasSort_addrs
  | filter hdom hp =>
    exact (hdom.returns hs hd (hcall.subset (List.subset_append_left _ _)) henv).bind fun elems helems =>
      (Outcome.Returns.keepM fun e he =>
        (hp.returns hs hd (hcall.subset (List.subset_append_right _ _)) (henv.bind (helems e he))).bind fun y hsy =>
          asBool_returns hsy).mono fun kept hkept e he => helems e (hkept e he)
  | setTerm ht =>
    exact (ht.returns hs hd hcall henv).bind fun x hx => (asSet_returns hx).bind fun s _ => .pure hasSort_addrs

theorem ArgsSorted.returns (hs : w.Sound) (hd : w.links.DenotesAddresses) {ctx : Ctx} {ts : List Term}
    {sorts : List ValueSort} (h : ArgsSorted cat defs ctx sorts ts) (hcall : CallReturns defs call (argRefs ts))
    {env : Env} (henv : env.Fits ctx) (params : List (VarId × ValueSort)) (hparams : params.map Prod.snd = sorts) :
    (evalArgs (w.ctx cat view defs) call env (params.map Prod.fst) ts).Returns fun l =>
      List.Forall₂ (fun b p => b.1 = p.1 ∧ b.2.HasSort p.2) l params := by
  cases h with
  | nil =>
    obtain rfl := List.map_eq_nil_iff.1 hparams
    exact .pure List.Forall₂.nil
  | cons ht hts =>
    obtain ⟨p, params, rfl, rfl, hrest⟩ := List.map_eq_cons_iff.1 hparams
    exact (ht.returns hs hd (hcall.subset (List.subset_append_left _ _)) henv).bind fun x hx =>
      (hts.returns hs hd (hcall.subset (List.subset_append_right _ _)) henv params hrest).bind fun rest hrest =>
        .pure (List.Forall₂.cons ⟨rfl, hx⟩ hrest)

end

/-- **An accepted definition returns a value of its sort.** -/
theorem Checked.callAt_returns {ds : DefSource} {tt : TypedTerm} (hs : w.Sound) (hd : w.links.DenotesAddresses)
    (h : Checked cat ds tt) {depth : ℕ} (hdepth : tt.reach < depth) {env : Env}
    (henv : env.Fits (Ctx.ofList tt.params)) :
    (callAt (w.ctx cat view (some ds)) depth tt env).Returns fun x => x.HasSort tt.result := by
  induction depth generalizing tt env with
  | zero => cases hdepth
  | succ depth ih =>
    rw [callAt, evalAt_eq_callAt]
    refine h.def.judged.sorted.returns hs hd (fun a ha _ r hds hr inner hinner => ?_) henv
    cases hds
    obtain ⟨r', hr', hchecked, hreach⟩ := h.def.referent a ha
    obtain rfl : r' = r := Option.some.inj (hr'.symm.trans hr)
    exact ih hchecked (by omega) hinner

end

-- What stands in a submission's place has the value the submission denotes

/-- What a reference calls is what its referent denotes. -/
def CallDenotes (defs : DefSource) (call denoted : TypedTerm → Env → Outcome Empty Value) (refs : List Address) : Prop :=
  ∀ a ∈ refs, ∀ r, defs a = some r → ∀ inner : Env, inner.Fits (Ctx.ofList r.params) → denoted r inner = call r inner

theorem CallDenotes.subset {defs : DefSource} {call denoted : TypedTerm → Env → Outcome Empty Value}
    {refs refs' : List Address} (h : CallDenotes defs call denoted refs) (hsub : refs' ⊆ refs) :
    CallDenotes defs call denoted refs' := fun a ha => h a (hsub ha)

theorem UnaryOp.eq_of_guarded {cat : TypeCatalog} {op op' : UnaryOp} (h : op.guarded cat = .ok op') : op = op' := by
  cases op with
  | keyed r tr =>
    simp only [UnaryOp.guarded, Outcome.bind_eq_ok_iff, Outcome.pure_eq, Outcome.ok.injEq] at h
    obtain ⟨k, hk, rfl⟩ := h
    rw [Coordination.eq_of_guarded hk]
  | mapGet tr =>
    simp only [UnaryOp.guarded, Outcome.bind_eq_ok_iff, Outcome.pure_eq, Outcome.ok.injEq] at h
    obtain ⟨k, hk, rfl⟩ := h
    rw [Coordination.eq_of_guarded hk]
  | targetsKeyed =>
    simp only [UnaryOp.guarded, Outcome.bind_eq_ok_iff, Outcome.pure_eq, Outcome.ok.injEq] at h
    obtain ⟨_, -, rfl⟩ := h
    rfl
  | isDoc | isEmpty | elems | defined | not =>
    cases h
    rfl

theorem BinaryOp.eq_of_guarded {cat : TypeCatalog} {op op' : BinaryOp} (h : op.guarded cat = .ok op') : op = op' := by
  cases op with
  | isInChain tr =>
    simp only [BinaryOp.guarded, Outcome.bind_eq_ok_iff, Outcome.pure_eq, Outcome.ok.injEq] at h
    obtain ⟨k, hk, rfl⟩ := h
    rw [Coordination.eq_of_guarded hk]
  | addrEq | prefixOf | t1Lt | setMem | setEq | natEq | natLe | natAdd =>
    cases h
    rfl

/-- A scope that binds no class variable leaves the type positions as they are. -/
@[simp] theorem Scope.typeref_ofEnv (env : Env) (tr : TypeRef) : (Scope.ofEnv env).typeref tr = tr := by
  cases tr <;> rfl

theorem UnaryOp.retype_ofEnv (op : UnaryOp) (env : Env) : op.retype (Scope.ofEnv env).typeref = op := by
  cases op <;> simp [UnaryOp.retype]

theorem BinaryOp.retype_ofEnv (op : BinaryOp) (env : Env) : op.retype (Scope.ofEnv env).typeref = op := by
  cases op <;> simp [BinaryOp.retype]

@[simp] theorem Element.args_map (elems : List Arg) : Element.args (elems.map .arg) = .ok elems := by
  rw [Element.args, List.mapM_map]
  exact (Outcome.mapM_eq_ok (g := id) fun a _ => rfl).trans (congrArg _ (List.map_id _))

theorem Aggregate.denote_args (op : Aggregate) (elems : List Arg) : op.denote (elems.map .arg) = op.eval elems := by
  cases op with
  | count => exact congrArg (fun n => Outcome.ok (Value.nat n)) (List.length_map _)
  | maxT1 | minT1 | reflect => simp [Aggregate.denote]

theorem refs_joined (q : Quantifier) {insts : List Term} {t : Term} (ht : t ∈ insts) :
    t.refs ⊆ (joined q insts).refs := by
  have hfold : ∀ (ts : List Term) (acc : Term), acc.refs ⊆ (ts.foldl (Term.connective q.join) acc).refs ∧
      ∀ t ∈ ts, t.refs ⊆ (ts.foldl (Term.connective q.join) acc).refs := by
    intro ts
    induction ts with
    | nil => exact fun acc => ⟨List.Subset.refl _, List.forall_mem_nil _⟩
    | cons t ts ih =>
      intro acc
      obtain ⟨hacc, hts⟩ := ih (.connective q.join acc t)
      exact ⟨List.Subset.trans (List.subset_append_left _ _) hacc,
        List.forall_mem_cons.2 ⟨List.Subset.trans (List.subset_append_right _ _) hacc, hts⟩⟩
  cases insts with
  | nil => cases ht
  | cons t₀ ts =>
    obtain ⟨hacc, hts⟩ := hfold ts t₀
    rcases List.mem_cons.1 ht with rfl | ht
    · exact hacc
    · exact hts t ht

section

variable {cx : EvalCtx} {call : TypedTerm → Env → Outcome Empty Value} {env : Env}

/-- The join of truth values quantifies over its instances. -/
theorem evalTerm_joined (q : Quantifier) {t : Term} {ts : List Term}
    (h : ∀ u ∈ t :: ts, ∃ b, evalTerm cx call env u = .ok (.bool b)) : evalTerm cx call env (joined q (t :: ts)) =
      q.eval (t :: ts) (fun t => evalTerm cx call env t >>= asBool) >>= fun b => Outcome.ok (.bool b) := by
  rw [joined]
  induction ts generalizing t with
  | nil =>
    obtain ⟨b, hb⟩ := h t List.mem_cons_self
    cases q <;> cases b <;> simp [Quantifier.eval, hb, asBool]
  | cons t' ts ih =>
    simp only [List.forall_mem_cons] at h
    obtain ⟨⟨b, hb⟩, ⟨b', hb'⟩, hts⟩ := h
    obtain ⟨c, hc⟩ : ∃ c, evalTerm cx call env (.connective q.join t t') = .ok (.bool c) := by
      cases q <;> cases b <;> simp [Quantifier.join, evalTerm, Connective.eval, hb, hb', asBool]
    have hread : q.eval (t :: t' :: ts) (fun t => evalTerm cx call env t >>= asBool) =
        q.eval (.connective q.join t t' :: ts) (fun t => evalTerm cx call env t >>= asBool) := by
      cases q <;> cases b <;> cases b' <;>
        simp [Quantifier.eval, Quantifier.join, evalTerm, Connective.eval, hb, hb', asBool]
    rw [hread]
    refine ih ?_
    simp only [List.forall_mem_cons]
    exact ⟨⟨c, hc⟩, hts⟩

end

/-- What a reference calls returns, and it is what its referent denotes. -/
structure CallSound (defs : DefSource) (call denoted : TypedTerm → Env → Outcome Empty Value) (refs : List Address) :
    Prop where
  returns : CallReturns (some defs) call refs
  denotes : CallDenotes defs call denoted refs

theorem CallSound.subset {defs : DefSource} {call denoted : TypedTerm → Env → Outcome Empty Value}
    {refs refs' : List Address} (h : CallSound defs call denoted refs) (hsub : refs' ⊆ refs) :
    CallSound defs call denoted refs' := ⟨h.returns.subset hsub, h.denotes.subset hsub⟩

theorem Quantifier.eval_map {α β : Type} (q : Quantifier) (g : α → β) (elems : List α) (body : β → Outcome Empty Bool) :
    q.eval (elems.map g) body = q.eval elems fun e => body (g e) := by
  induction elems with
  | nil => cases q <;> rfl
  | cons e elems ih =>
    cases q with
    | all =>
      rw [Quantifier.eval, Quantifier.eval] at ih ⊢
      rw [List.map_cons, List.allM_cons, List.allM_cons, ih]
    | any =>
      rw [Quantifier.eval, Quantifier.eval] at ih ⊢
      rw [List.map_cons, List.anyM_cons, List.anyM_cons, ih]

theorem Quantifier.eval_forall₂ {α β : Type} (q : Quantifier) {f : α → Outcome Empty Bool} {g : β → Outcome Empty Bool}
    {l : List α} {l' : List β} (h : List.Forall₂ (fun a b => f a = g b) l l') : q.eval l f = q.eval l' g := by
  induction h with
  | nil => cases q <;> rfl
  | cons hab _ ih =>
    cases q with
    | all =>
      rw [Quantifier.eval, Quantifier.eval] at ih ⊢
      rw [List.allM_cons, List.allM_cons, hab, ih]
    | any =>
      rw [Quantifier.eval, Quantifier.eval] at ih ⊢
      rw [List.anyM_cons, List.anyM_cons, hab, ih]

section

variable {cx : EvalCtx} {call denoted : TypedTerm → Env → Outcome Empty Value} {env : Env} {d d' : Dom} {s : ValueSort}

/-- A domain that holds no types denotes what is enumerated in its place. -/
def DomDenotes (cx : EvalCtx) (call denoted : TypedTerm → Env → Outcome Empty Value) (env : Env) (d d' : Dom) : Prop :=
  denoteDom cx denoted (Scope.ofEnv env) d = enumDom cx call env d' >>= fun elems => .ok (elems.map .arg)

/-- A body over the elements of a domain denotes what is evaluated in its place. -/
def BodyDenotes (cx : EvalCtx) (call denoted : TypedTerm → Env → Outcome Empty Value) (env : Env) (var : VarId)
    (s : ValueSort) (body body' : Term) : Prop :=
  ∀ x : Value, x.HasSort s →
    denote cx denoted (Scope.ofEnv (env.bind var x)) body = evalTerm cx call (env.bind var x) body'

/-- The elements of an enumerated domain have a sort. -/
def ElemsHaveSort (cx : EvalCtx) (call : TypedTerm → Env → Outcome Empty Value) (env : Env) (d : Dom) (s : ValueSort) :
    Prop := (enumDom cx call env d).Returns fun elems => ∀ e ∈ elems, e.toValue.HasSort s

theorem DomDenotes.quantified {q : Quantifier} {var : VarId} {body body' : Term} (hdom : DomDenotes cx call denoted env d d')
    (helems : ElemsHaveSort cx call env d' s) (hbody : BodyDenotes cx call denoted env var s body body') :
    denote cx denoted (Scope.ofEnv env) (.quantified q var d body) =
      evalTerm cx call env (.quantified q var d' body') := by
  rw [denote, evalTerm, hdom, bind_assoc]
  refine Outcome.bind_congr_ok fun elems hok => ?_
  rw [Outcome.ok_bind, Quantifier.eval_map]
  refine congrArg (· >>= fun b => Outcome.ok (Value.bool b)) (q.eval_congr fun e he => ?_)
  exact congrArg (· >>= asBool) (hbody e.toValue (helems.of_ok hok e he))

theorem DomDenotes.bigUnion {var : VarId} {body body' : Term} (hdom : DomDenotes cx call denoted env d d')
    (helems : ElemsHaveSort cx call env d' s) (hbody : BodyDenotes cx call denoted env var s body body') :
    denote cx denoted (Scope.ofEnv env) (.bigUnion d var body) = evalTerm cx call env (.bigUnion d' var body') := by
  rw [denote, evalTerm, hdom, bind_assoc]
  refine Outcome.bind_congr_ok fun elems hok => ?_
  rw [Outcome.ok_bind, Element.args_map, Outcome.ok_bind]
  refine congrArg (· >>= fun sets => Outcome.ok (Value.addrSet (OrdSet.unions sets))) (Outcome.mapM_congr fun e he => ?_)
  exact congrArg (· >>= asSet) (hbody e.toValue (helems.of_ok hok e he))

theorem DomDenotes.aggregate (hdom : DomDenotes cx call denoted env d d') (op : Aggregate) :
    denote cx denoted (Scope.ofEnv env) (.aggregate op d) = evalTerm cx call env (.aggregate op d') := by
  rw [denote, evalTerm, hdom, bind_assoc]
  exact Outcome.bind_congr_ok fun elems _ => op.denote_args elems

theorem DomDenotes.filter {var : VarId} {pred pred' : Term} (hdom : DomDenotes cx call denoted env d d')
    (helems : ElemsHaveSort cx call env d' s) (hpred : BodyDenotes cx call denoted env var s pred pred') :
    DomDenotes cx call denoted env (.filter d var pred) (.filter d' var pred') := by
  rw [DomDenotes, denoteDom, enumDom, hdom, bind_assoc, bind_assoc]
  refine Outcome.bind_congr_ok fun elems hok => ?_
  rw [Outcome.ok_bind, Element.args_map, Outcome.ok_bind]
  refine congrArg (· >>= fun kept => Outcome.ok (kept.map Element.arg)) (Outcome.keepM_congr fun e he => ?_)
  exact congrArg (· >>= asBool) (hpred e.toValue (helems.of_ok hok e he))

theorem domDenotes_linkDom : DomDenotes cx call denoted env .linkDom .linkDom := by
  rw [DomDenotes, denoteDom, enumDom, bind_assoc]
  exact Outcome.bind_congr_ok fun s _ => congrArg Outcome.ok List.map_map.symm

theorem domDenotes_setTerm {t t' : Term} (h : denote cx denoted (Scope.ofEnv env) t = evalTerm cx call env t') :
    DomDenotes cx call denoted env (.setTerm t) (.setTerm t') := by
  rw [DomDenotes, denoteDom, enumDom, h, bind_assoc]
  refine Outcome.bind_congr_ok fun x _ => ?_
  rw [bind_assoc]
  exact Outcome.bind_congr_ok fun s _ => congrArg Outcome.ok List.map_map.symm

theorem denotes_ifSome {opt opt' thenTerm then' elseTerm else' : Term} {var : VarId} {n : ValueSort}
    (hopt : denote cx denoted (Scope.ofEnv env) opt = evalTerm cx call env opt')
    (hsort : (evalTerm cx call env opt').Returns fun x => x.HasSort s) (hn : narrowed s = .ok n)
    (hthen : BodyDenotes cx call denoted env var n thenTerm then')
    (helse : denote cx denoted (Scope.ofEnv env) elseTerm = evalTerm cx call env else') :
    denote cx denoted (Scope.ofEnv env) (.ifSome opt var thenTerm elseTerm) =
      evalTerm cx call env (.ifSome opt' var then' else') := by
  rw [denote, evalTerm, hopt]
  refine Outcome.bind_congr_ok fun x hx => ?_
  obtain ⟨hsort, -⟩ := hsort.of_ok hx
  subst hsort
  cases x with
  | optAddr o =>
    cases hn
    cases o with
    | none => exact helse
    | some a => exact hthen _ (.addr a)
  | optNat o =>
    cases hn
    cases o with
    | none => exact helse
    | some n => exact hthen _ (.nat n)
  | bool | addr | addrSet | addrSeq | map | nat | tuple => cases hn

/-- A quantifier over the types denotes the join of its instances. -/
theorem denotes_overTypes {q : Quantifier} {cvar : VarId} {body : Term} {insts : List Term}
    (hread : List.Forall₂ (fun key inst => denote cx denoted ((Scope.ofEnv env).bind cvar (.type key)) body =
      evalTerm cx call env inst) cx.catalog.classes insts)
    (hsort : ∀ t ∈ insts, (evalTerm cx call env t).Returns fun x => x.HasSort .bool) :
    denote cx denoted (Scope.ofEnv env) (.quantified q cvar .reg body) = evalTerm cx call env (joined q insts) := by
  rw [denote, denoteDom, Outcome.pure_eq, Outcome.ok_bind, Quantifier.eval_map]
  cases insts with
  | nil => cases hread.length_eq
  | cons t ts =>
    rw [evalTerm_joined q fun u hu => ?_]
    · refine congrArg (· >>= fun b => Outcome.ok (Value.bool b)) (q.eval_forall₂ ?_)
      exact hread.imp fun key inst h => congrArg (· >>= asBool) h
    · obtain ⟨x, hx, hsort, -⟩ := hsort u hu
      cases x <;> first | exact ⟨_, hx⟩ | cases hsort

theorem denotes_ref {ds : DefSource} (hds : cx.defs = some ds) {addr : Address} {args args' : List Term}
    {referent : TypedTerm} (hr : ds addr = some referent)
    (hargs : denoteArgs cx denoted (Scope.ofEnv env) (referent.params.map Prod.fst) args =
      evalArgs cx call env (referent.params.map Prod.fst) args')
    (hcall : ∀ inner, evalArgs cx call env (referent.params.map Prod.fst) args' = .ok inner →
      denoted referent (Env.ofList inner) = call referent (Env.ofList inner)) :
    denote cx denoted (Scope.ofEnv env) (.ref addr args) = evalTerm cx call env (.ref addr args') := by
  have hreferent : (Outcome.expectSome (ds addr) : Outcome Empty TypedTerm) = .ok referent :=
    Outcome.expectSome_eq_ok_iff.2 hr
  simp only [denote, evalTerm, hds, hreferent, Outcome.ok_bind, hargs]
  exact Outcome.bind_congr_ok hcall

end

section

variable {w : CoordinationWorld} {cat : TypeCatalog} {view : View} {ds : DefSource}
  {call denoted : TypedTerm → Env → Outcome Empty Value}

mutual

/-- **What stands in a submission's place has the value the submission denotes.** -/
theorem TermJudged.denotes (hs : w.Sound) (hd : w.links.DenotesAddresses) {ctx : Ctx} {t t' : Term} {s : ValueSort} :
    TermJudged cat ds ctx t s t' → CallSound ds call denoted t'.refs → ∀ {env : Env}, env.Fits ctx →
      denote (w.ctx cat view (some ds)) denoted (Scope.ofEnv env) t = evalTerm (w.ctx cat view (some ds)) call env t'
  | .var _, _, _, _ => rfl
  | .lit, _, _, _ => rfl
  | .tuple _, _, _, _ => rfl
  | .members hk, _, _, _ => by
    obtain rfl := eq_of_guarded hk
    rfl
  | .inCoverage he _, hcall, _, henv => by
    rw [denote, evalTerm, he.denotes hs hd hcall henv]
    rfl
  | .unary hop he _, hcall, _, henv => by
    rw [UnaryOp.eq_of_guarded hop, denote, evalTerm, he.denotes hs hd hcall henv, UnaryOp.retype_ofEnv]
  | .binary hop hx hy, hcall, _, henv => by
    rw [BinaryOp.eq_of_guarded hop, denote, evalTerm, hx.denotes hs hd (hcall.subset (List.subset_append_left _ _)) henv,
      hy.denotes hs hd (hcall.subset (List.subset_append_right _ _)) henv, BinaryOp.retype_ofEnv]
  | .connective hx hy, hcall, _, henv => by
    rw [denote, evalTerm, hx.denotes hs hd (hcall.subset (List.subset_append_left _ _)) henv,
      hy.denotes hs hd (hcall.subset (List.subset_append_right _ _)) henv]
  | .quantified hdom hb, hcall, _, henv => by
    have hleft := hcall.subset (List.subset_append_left _ _)
    exact (hdom.denotes hs hd hleft henv).quantified (hdom.sorted.returns hs hd hleft.returns henv) fun x hx =>
      hb.denotes hs hd (hcall.subset (List.subset_append_right _ _)) (henv.bind hx)
  | .overTypes hinsts, hcall, _, henv => by
    have hinstCall := fun t ht => hcall.subset (refs_joined _ (t := t) ht)
    exact denotes_overTypes (hinsts.denotes hs hd hinstCall henv) fun t ht =>
      (hinsts.sorted t ht).returns hs hd (hinstCall t ht).returns henv
  | .letIn hbound hb, hcall, _, henv => by
    have hleft := hcall.subset (List.subset_append_left _ _)
    rw [denote, evalTerm, hbound.denotes hs hd hleft henv]
    exact Outcome.bind_congr_ok fun x hx => hb.denotes hs hd (hcall.subset (List.subset_append_right _ _))
      (henv.bind ((hbound.sorted.returns hs hd hleft.returns henv).of_ok hx))
  | .ifSome hopt hn hthen helse, hcall, _, henv => by
    have hleft := hcall.subset (List.subset_append_left _ _)
    have hright := hcall.subset (List.subset_append_right _ _)
    exact denotes_ifSome (hopt.denotes hs hd hleft henv) (hopt.sorted.returns hs hd hleft.returns henv) hn
      (fun x hx => hthen.denotes hs hd (hright.subset (List.subset_append_left _ _)) (henv.bind hx))
      (helse.denotes hs hd (hright.subset (List.subset_append_right _ _)) henv)
  | .countTypes, _, _, _ => by
    rw [denote, evalTerm, denoteDom]
    exact congrArg (fun n => Outcome.ok (Value.nat n)) (List.length_map _)
  | .aggregate hdom _, hcall, _, henv => (hdom.denotes hs hd hcall henv).aggregate _
  | .bigUnion hdom hb, hcall, _, henv => by
    have hleft := hcall.subset (List.subset_append_left _ _)
    exact (hdom.denotes hs hd hleft henv).bigUnion (hdom.sorted.returns hs hd hleft.returns henv) fun x hx =>
      hb.denotes hs hd (hcall.subset (List.subset_append_right _ _)) (henv.bind hx)
  | .ref hr hargs, hcall, _, henv => by
    have hright := hcall.subset (List.subset_cons_self _ _)
    exact denotes_ref rfl hr (hargs.denotes hs hd hright henv _) fun inner hinner =>
      hcall.denotes _ List.mem_cons_self _ hr _
        (.ofList ((hargs.sorted.returns hs hd hright.returns henv _ rfl).of_ok hinner))

theorem DomJudged.denotes (hs : w.Sound) (hd : w.links.DenotesAddresses) {ctx : Ctx} {d d' : Dom} {s : ValueSort} :
    DomJudged cat ds ctx d s d' → CallSound ds call denoted d'.refs → ∀ {env : Env}, env.Fits ctx →
      DomDenotes (w.ctx cat view (some ds)) call denoted env d d'
  | .read hk, _, _, _ => by
    obtain rfl := eq_of_guarded hk
    rfl
  | .linkDom, _, _, _ => domDenotes_linkDom
  | .filter hdom hp, hcall, _, henv => by
    have hleft := hcall.subset (List.subset_append_left _ _)
    exact (hdom.denotes hs hd hleft henv).filter (hdom.sorted.returns hs hd hleft.returns henv) fun x hx =>
      hp.denotes hs hd (hcall.subset (List.subset_append_right _ _)) (henv.bind hx)
  | .setTerm ht, hcall, _, henv => domDenotes_setTerm (ht.denotes hs hd hcall henv)

theorem ArgsJudged.denotes (hs : w.Sound) (hd : w.links.DenotesAddresses) {ctx : Ctx} {sorts : List ValueSort}
    {ts ts' : List Term} : ArgsJudged cat ds ctx sorts ts ts' → CallSound ds call denoted (argRefs ts') →
      ∀ {env : Env}, env.Fits ctx → ∀ params : List VarId,
        denoteArgs (w.ctx cat view (some ds)) denoted (Scope.ofEnv env) params ts =
          evalArgs (w.ctx cat view (some ds)) call env params ts'
  | .nil, _, _, _, [] => rfl
  | .nil, _, _, _, _ :: _ => rfl
  | .cons _ _, _, _, _, [] => rfl
  | .cons ht hts, hcall, _, henv, _ :: params => by
    rw [denoteArgs, evalArgs, ht.denotes hs hd (hcall.subset (List.subset_append_left _ _)) henv,
      hts.denotes hs hd (hcall.subset (List.subset_append_right _ _)) henv params]

theorem InstancesJudged.denotes (hs : w.Sound) (hd : w.links.DenotesAddresses) {ctx : Ctx} {cvar : VarId} {body : Term}
    {keys : List TypeKey} {insts : List Term} : InstancesJudged cat ds ctx cvar body keys insts →
      (∀ t ∈ insts, CallSound ds call denoted t.refs) → ∀ {env : Env}, env.Fits ctx →
        List.Forall₂ (fun key inst => denote (w.ctx cat view (some ds)) denoted
          ((Scope.ofEnv env).bind cvar (.type key)) body = evalTerm (w.ctx cat view (some ds)) call env inst) keys insts
  | .nil, _, _, _ => .nil
  | .cons hinst hrest, hcall, _, henv => by
    obtain ⟨hfirst, hcall⟩ := List.forall_mem_cons.1 hcall
    refine .cons ?_ (hrest.denotes hs hd hcall henv)
    rw [← denote_substClass]
    exact hinst.denotes hs hd hfirst henv

end

end

/-- What the definition at a reference denotes, its own references followed `depth` deep. -/
def denotedAt (cx : EvalCtx) (depth : ℕ) (referent : TypedTerm) (inner : Env) : Outcome Empty Value :=
  match depth with
  | 0 => .fault
  | depth + 1 => denoteAt cx depth inner referent.signed.body

theorem denoteAt_eq_denotedAt (cx : EvalCtx) (depth : ℕ) (env : Env) (t : Term) :
    denoteAt cx depth env t = denote cx (denotedAt cx depth) (Scope.ofEnv env) t := by
  cases depth <;> rfl

section

variable {w : CoordinationWorld} {cat : TypeCatalog} {view : View} {ds : DefSource} {tt : TypedTerm}

/-- **An accepted definition has the value its submission denotes.** -/
theorem Checked.callAt_denotes (hs : w.Sound) (hd : w.links.DenotesAddresses) (h : Checked cat ds tt) {depth : ℕ}
    (hdepth : tt.reach < depth) {env : Env} (henv : env.Fits (Ctx.ofList tt.params)) :
    denotedAt (w.ctx cat view (some ds)) depth tt env = callAt (w.ctx cat view (some ds)) depth tt env := by
  induction depth generalizing tt env with
  | zero => cases hdepth
  | succ depth ih =>
    have hreferent : ∀ a ∈ tt.evaluable.refs, ∀ r, ds a = some r → Checked cat ds r ∧ r.reach < depth := by
      intro a ha r hr
      obtain ⟨r', hr', hchecked, hreach⟩ := h.def.referent a ha
      obtain rfl : r' = r := Option.some.inj (hr'.symm.trans hr)
      exact ⟨hchecked, by omega⟩
    rw [denotedAt, callAt, denoteAt_eq_denotedAt, evalAt_eq_callAt]
    refine h.def.judged.denotes hs hd ⟨fun a ha _ r hds hr inner hinner => ?_, fun a ha r hr inner hinner => ?_⟩ henv
    · cases hds
      exact (hreferent a ha r hr).1.callAt_returns hs hd (hreferent a ha r hr).2 hinner
    · exact ih (hreferent a ha r hr).1 (hreferent a ha r hr).2 hinner

end

-- The analysis of what holds no reference returns

section

variable {cat : TypeCatalog}

/-- The analysis of a term returns at every view, and so does that of its views. -/
structure TermAnalyzed (cat : TypeCatalog) (t : Term) : Prop where
  analysis : ∀ view widen, (analyzeTerm ⟨cat, view, widen⟩ t).Returns fun _ => True
  independent : (viewIndependent t).Returns fun _ => True

/-- The analysis of a domain returns at every view, and so does that of its views. -/
structure DomAnalyzed (cat : TypeCatalog) (d : Dom) : Prop where
  analysis : ∀ view widen, (analyzeDom ⟨cat, view, widen⟩ d).Returns fun _ => True
  independent : (viewIndependentDom d).Returns fun _ => True

theorem sliceFp_returns {k : TypeKey} (hk : ∃ e, cat.get k = some e) (view : View) (widen : Bool) (slice : Slice) :
    (Analyzer.sliceFp ⟨cat, view, widen⟩ k slice).Returns fun _ => True := by
  obtain ⟨e, he⟩ := hk
  refine Outcome.Returns.bind (.of_eq (P := fun _ => True) (TypeCatalog.classOf_eq_ok_iff.2 ⟨e, he, rfl⟩) trivial)
    fun c _ => ?_
  cases slice with
  | audit => exact .pure trivial
  | active => exact .pure trivial

theorem keyed_analyzed {k : TypeKey} (hk : ∃ e, cat.get k = some e) (view : View) (widen : Bool) (r : KeyedRead)
    (ae : Analysis) : (Analyzer.keyed ⟨cat, view, widen⟩ r k ae).Returns fun _ => True := by
  cases r <;> exact (sliceFp_returns hk view widen _).bind fun _ _ => .pure trivial

theorem UnaryOp.analyzed {op op' : UnaryOp} (hop : op.guarded cat = .ok op') (view : View) (widen : Bool)
    (ae : Analysis) : (Analyzer.unary ⟨cat, view, widen⟩ op ae).Returns fun _ => True := by
  cases op with
  | keyed r tr =>
    simp only [UnaryOp.guarded, Outcome.bind_eq_ok_iff, Outcome.pure_eq, Outcome.ok.injEq] at hop
    obtain ⟨k, hk, -⟩ := hop
    obtain ⟨e, he, -⟩ := get_of_guarded hk
    rw [Coordination.eq_of_guarded hk]
    exact (keyed_analyzed ⟨e, he⟩ view widen r ae).bind fun _ _ => .pure trivial
  | targetsKeyed | isDoc | isEmpty | elems | mapGet | defined | not => exact .pure trivial

theorem BinaryOp.analyzed {op op' : BinaryOp} (hop : op.guarded cat = .ok op') (view : View) (widen : Bool)
    (ax ay : Analysis) : (Analyzer.binary ⟨cat, view, widen⟩ op ax ay).Returns fun _ => True := by
  cases op with
  | isInChain tr =>
    simp only [BinaryOp.guarded, Outcome.bind_eq_ok_iff, Outcome.pure_eq, Outcome.ok.injEq] at hop
    obtain ⟨k, hk, -⟩ := hop
    obtain ⟨e, he, -⟩ := get_of_guarded hk
    rw [Coordination.eq_of_guarded hk]
    exact (sliceFp_returns ⟨e, he⟩ view widen _).bind fun _ _ => .pure trivial
  | addrEq | prefixOf | t1Lt | setMem | setEq | natEq | natAdd | natLe => exact .pure trivial

/-- A side of a comparison is analyzed as its term is. -/
theorem analyzeSide_returns {az : Analyzer} {t : Term} (h : (analyzeTerm az t).Returns fun _ => True) (other : Term) :
    (analyzeSide az t other).Returns fun _ => True := by
  rw [analyzeSide.eq_def]
  split
  · obtain ⟨a, ha, -⟩ := h
    rw [analyzeTerm] at ha
    obtain ⟨ad, had, -⟩ := Outcome.bind_eq_ok_iff.1 ha
    exact Outcome.Returns.bind (.of_eq (P := fun _ => True) had trivial) fun _ _ => .pure trivial
  · exact h.bind fun _ _ => .pure trivial

theorem natLe_analyzed {az : Analyzer} {x y : Term} (hx : (analyzeTerm az x).Returns fun _ => True)
    (hy : (analyzeTerm az y).Returns fun _ => True) : (analyzeTerm az (.binary .natLe x y)).Returns fun _ => True := by
  rw [analyzeTerm_natLe_sides]
  exact (analyzeSide_returns hx y).bind fun _ _ => (analyzeSide_returns hy x).bind fun _ _ => .pure trivial

/-- The second reading is asked where the first one answers yes. -/
theorem returns_both {x y : Outcome Empty Bool} (hx : x.Returns fun _ => True) (hy : y.Returns fun _ => True) :
    (do if ← x then y else return false).Returns fun _ => True := by
  refine hx.bind fun b _ => ?_
  cases b with
  | true => exact hy
  | false => exact .pure trivial

mutual

/-- **The analysis of what holds no reference returns.** -/
theorem TermSorted.analyzed {ctx : Ctx} {t : Term} {s : ValueSort} : TermSorted cat none ctx t s → TermAnalyzed cat t
  | .var _ => ⟨fun _ _ => .pure trivial, .pure trivial⟩
  | .lit => ⟨fun _ _ => .pure trivial, .pure trivial⟩
  | .members hk => by
    obtain ⟨e, he, -⟩ := get_of_guarded hk
    exact ⟨fun view widen => (sliceFp_returns ⟨e, he⟩ view widen _).bind fun _ _ => .pure trivial, .pure trivial⟩
  | .tuple _ => ⟨fun _ _ => .pure trivial, .pure trivial⟩
  | .inCoverage he _ =>
    ⟨fun view widen => (he.analyzed.analysis view widen).bind fun _ _ => .pure trivial, he.analyzed.independent⟩
  | .unary hop he _ => by
    refine ⟨fun view widen => (he.analyzed.analysis view widen).bind fun ae _ => UnaryOp.analyzed hop view widen ae, ?_⟩
    rw [viewIndependent]
    split
    · exact .pure trivial
    · exact he.analyzed.independent
  | @TermSorted.binary _ _ _ op _ _ hop hx hy => by
    refine ⟨fun view widen => ?_, returns_both hx.analyzed.independent hy.analyzed.independent⟩
    have hleft := hx.analyzed.analysis view widen
    have hright := hy.analyzed.analysis view widen
    by_cases hle : op = .natLe
    · rw [hle]
      exact natLe_analyzed hleft hright
    · rw [analyzeTerm_binary hle]
      exact hleft.bind fun ax _ => hright.bind fun ay _ => BinaryOp.analyzed hop view widen ax ay
  | .connective hx hy =>
    ⟨fun view widen => (hx.analyzed.analysis view widen).bind fun _ _ =>
      (hy.analyzed.analysis view widen).bind fun _ _ => .pure trivial,
      returns_both hx.analyzed.independent hy.analyzed.independent⟩
  | .quantified hd hb =>
    ⟨fun view widen => (hd.analyzed.analysis view widen).bind fun _ _ =>
      (hb.analyzed.analysis view widen).bind fun _ _ => .pure trivial,
      returns_both hd.analyzed.independent hb.analyzed.independent⟩
  | .letIn hbound hb =>
    ⟨fun view widen => (hbound.analyzed.analysis view widen).bind fun _ _ =>
      (hb.analyzed.analysis view widen).bind fun _ _ => .pure trivial,
      returns_both hbound.analyzed.independent hb.analyzed.independent⟩
  | .ifSome hopt _ hthen helse =>
    ⟨fun view widen => (hopt.analyzed.analysis view widen).bind fun _ _ =>
      (hthen.analyzed.analysis view widen).bind fun _ _ =>
        (helse.analyzed.analysis view widen).bind fun _ _ => .pure trivial,
      returns_both hopt.analyzed.independent (returns_both hthen.analyzed.independent helse.analyzed.independent)⟩
  | .aggregate hd _ =>
    ⟨fun view widen => (hd.analyzed.analysis view widen).bind fun _ _ => .pure trivial, hd.analyzed.independent⟩
  | .bigUnion hd hb =>
    ⟨fun view widen => (hd.analyzed.analysis view widen).bind fun _ _ =>
      (hb.analyzed.analysis view widen).bind fun _ _ => .pure trivial,
      returns_both hd.analyzed.independent hb.analyzed.independent⟩

theorem DomSorted.analyzed {ctx : Ctx} {d : Dom} {s : ValueSort} : DomSorted cat none ctx d s → DomAnalyzed cat d
  | .read (r := r) hk => by
    obtain ⟨e, he, -⟩ := get_of_guarded hk
    refine ⟨fun view widen => ?_, .pure trivial⟩
    cases r <;> exact (sliceFp_returns ⟨e, he⟩ view widen _).bind fun _ _ => .pure trivial
  | .linkDom => ⟨fun _ _ => .pure trivial, .pure trivial⟩
  | .filter hd hp =>
    ⟨fun view widen => (hd.analyzed.analysis view widen).bind fun _ _ =>
      (hp.analyzed.analysis view widen).bind fun _ _ => .pure trivial,
      returns_both hd.analyzed.independent hp.analyzed.independent⟩
  | .setTerm ht =>
    ⟨fun view widen => (ht.analyzed.analysis view widen).bind fun _ _ => .pure trivial, ht.analyzed.independent⟩

end

theorem TermSorted.negatedMembership_returns {ctx : Ctx} {t : Term} {s : ValueSort} (h : TermSorted cat none ctx t s)
    (param : VarId) : (negatedMembership t param).Returns fun _ => True := by
  rw [negatedMembership.eq_def]
  split
  · split
    · cases h with
      | unary _ he _ =>
        cases he with
        | unary hop _ _ =>
          rw [UnaryOp.guarded] at hop
          obtain ⟨k, hk, -⟩ := Outcome.bind_eq_ok_iff.1 hop
          rw [eq_of_guarded hk]
          exact .pure trivial
    · exact .pure trivial
  · cases h with
    | unary _ he _ => cases he with | ref hds _ _ => cases hds
  · exact .pure trivial

end

-- An accepted definition evaluates

/-- Arguments that bind are values of the parameters' sorts. -/
theorem Coordinator.bindArgs_fits {params : List (VarId × ValueSort)} {args : List Value} {env : Env}
    (h : Coordinator.bindArgs params args = some env) (hargs : ∀ x ∈ args, x.DenotesAddresses) :
    env.Fits (Ctx.ofList params) := by
  rw [Coordinator.bindArgs] at h
  split at h
  · cases h
  · next hlen =>
    split at h
    · cases h
    · next hsorts =>
      cases h
      refine .ofList ?_
      rw [not_ne_iff] at hlen
      induction params generalizing args with
      | nil => exact .nil
      | cons p params ih =>
        cases args with
        | nil => cases hlen
        | cons x args =>
          rw [List.zip_cons_cons, List.any_cons, Bool.or_eq_true, not_or, bne_iff_ne, not_ne_iff] at hsorts
          obtain ⟨hx, hargs⟩ := List.forall_mem_cons.1 hargs
          exact .cons ⟨rfl, hsorts.1, hx⟩ (ih hargs (Nat.succ.inj hlen) hsorts.2)

/-- **An accepted definition evaluates to what its submission denotes.** What stands in the
body's place names cataloged types and holds no domain of types. At a sound world whose links
denote addresses it returns, at every view and for every binding of the parameters, the value of
the checked sort that the body denotes with the registered types read as such. Its expansion
does not fault, and what is computed of the expansion returns. -/
theorem Checked.evaluates {cat : TypeCatalog} {ds : DefSource} {tt : TypedTerm} (h : Checked cat ds tt) :
    tt.evaluable.Cataloged cat ∧
    (∀ (w : CoordinationWorld) (view : View) (args : List Value) (env : Env) (depth : ℕ), w.Sound →
      w.links.DenotesAddresses → (∀ x ∈ args, x.DenotesAddresses) → Coordinator.bindArgs tt.params args = some env →
        tt.reach ≤ depth → ∃ x, evalAt (w.ctx cat view (some ds)) depth env tt.evaluable = .ok x ∧
          x.sort = tt.result ∧ denoteAt (w.ctx cat view (some ds)) depth env tt.signed.body = .ok x) ∧
    expand ds tt.evaluable ≠ .fault ∧
    ∀ flat, expand ds tt.evaluable = .ok flat → (∀ view, ∃ dynamics, classifyTerm cat view flat = .ok dynamics) ∧
      (∃ certifiable, stPlus cat flat = .ok certifiable) ∧
      ∀ param, ∃ key, negatedMembership flat param = .ok key := by
  refine ⟨h.def.judged.cataloged, fun w view args env depth hs hd hargs hbind hdepth => ?_, h.expand_yields.1,
    fun flat hflat => ?_⟩
  · have henv := Coordinator.bindArgs_fits hbind hargs
    have hlt := Nat.lt_succ_of_le hdepth
    obtain ⟨x, hx, hsort, -⟩ := @Checked.callAt_returns w cat view ds tt hs hd h depth.succ hlt env henv
    exact ⟨x, hx, hsort, (h.callAt_denotes hs hd hlt henv).trans hx⟩
  · have hsorted := h.expand_sorted hflat
    have hanalyzed := hsorted.analyzed
    refine ⟨fun view => ?_, ?_, fun param => (hsorted.negatedMembership_returns param).exists_eq⟩
    · exact ((hanalyzed.analysis view false).bind fun a _ => hanalyzed.independent.bind fun b _ =>
        Outcome.Returns.pure (P := fun _ => True) trivial).exists_eq
    · exact ((hanalyzed.analysis .audit true).bind fun a _ =>
        Outcome.Returns.pure (P := fun _ => True) trivial).exists_eq

private def everyClass : TypeCatalog := ⟨TypeRegistry.build⟩

private def unreferenced : DefSource := fun _ => none

private theorem anyClass_params : ∀ p ∈ [((⟨0⟩ : VarId), ValueSort.addr)], p.1.IsSubmitted := by
  simp [VarId.IsSubmitted, expansionNameBase]

private def anyClassBody : Term :=
  .quantified .any ⟨1⟩ .reg (.unary (.keyed .isK (.classVar ⟨1⟩)) (.var ⟨0⟩))

private theorem anyClass_names : anyClassBody.Names VarId.IsSubmitted := by
  simp [anyClassBody, Term.Names, Dom.Names, VarId.IsSubmitted, expansionNameBase]

/-- Whether an address belongs to any class. -/
private def anyClass : SignedTerm := ⟨[(⟨0⟩, .addr)], anyClassBody, anyClass_params, anyClass_names⟩

/-- The head document belongs to no class at genesis, and that is what is evaluated. -/
theorem evaluates_anyClass : ∃ tt, checkSigned ⟨everyClass, fun _ _ => .error .undefined⟩ anyClass 0 = .ok tt ∧
    ∃ x, evalAt ((⟨LinkWorld.genesis, fun _ => true⟩ : CoordinationWorld).ctx everyClass .default (some unreferenced))
        tt.reach (Env.ofList [(⟨0⟩, .addr headDocument)]) tt.evaluable = .ok x ∧ x.sort = .bool ∧
      denoteAt ((⟨LinkWorld.genesis, fun _ => true⟩ : CoordinationWorld).ctx everyClass .default (some unreferenced))
        tt.reach (Env.ofList [(⟨0⟩, .addr headDocument)]) anyClass.body = .ok x := by
  have hok : (checkSigned ⟨everyClass, fun _ _ => .error .undefined⟩ anyClass 0 >>= fun tt =>
      (Outcome.require (tt.result = .bool) : Outcome TypeError Unit)).isOk = true := by decide +kernel
  obtain ⟨u, hok⟩ := Outcome.isOk_iff.1 hok
  obtain ⟨tt, htt, hbool⟩ := Outcome.bind_eq_ok_iff.1 hok
  have hsigned : tt.signed = anyClass := by
    simp only [checkSigned, Outcome.bind_eq_ok_iff, Prod.exists, Outcome.pure_eq, Outcome.ok.injEq] at htt
    obtain ⟨-, -, -, -, -, -, -, -, rfl⟩ := htt
    rfl
  have hchecked : Checked everyClass unreferenced tt := by
    refine @Checked.intro _ _ ⟨everyClass, fun _ _ => .error .undefined⟩ anyClass 0 _ rfl (fun _ ha => ?_)
      (fun _ ha => ?_) htt
    · cases ha
    · cases ha
  have hbind : Coordinator.bindArgs tt.params [.addr headDocument] = some (Env.ofList [(⟨0⟩, .addr headDocument)]) := by
    rw [TypedTerm.params, hsigned]
    rfl
  have hargs : ∀ x ∈ [Value.addr headDocument], x.DenotesAddresses := List.forall_mem_singleton.2 trivial
  have hempty : LinkWorld.genesis.links.DenotesAddresses := fun a l ha => by cases ha
  obtain ⟨x, hx, hsort, hdenotes⟩ := hchecked.evaluates.2.1 ⟨LinkWorld.genesis, fun _ => true⟩ .default _ _ tt.reach
    LinkWorld.sound_genesis hempty hargs hbind le_rfl
  exact ⟨tt, htt, x, hx, hsort.trans (Outcome.require_eq_ok_iff.1 hbool), hsigned ▸ hdenotes⟩

end Coordination
