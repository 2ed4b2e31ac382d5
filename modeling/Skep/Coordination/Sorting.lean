import Skep.Coordination.Cataloged

/-!
# The sorts of what is evaluated

The term that stands in a submission's place quantifies over no types and holds only keys that
its positions admit, so its sort is read off it without the checker.
-/

namespace Coordination

section

variable (cat : TypeCatalog) (defs : Option DefSource)

mutual

/-- In a context, a term has a sort. Its type positions hold what they admit. -/
inductive TermSorted : Ctx → Term → ValueSort → Prop
  | var {ctx : Ctx} {v : VarId} {s : ValueSort} (hv : ctx v = some s) : TermSorted ctx (.var v) s
  | lit {ctx : Ctx} {l : Lit} : TermSorted ctx (.lit l) l.sort
  | members {ctx : Ctx} {k : TypeKey} (hk : cat.guarded (.concrete k) .cataloged = .ok k) :
      TermSorted ctx (.members (.concrete k)) .addrSet
  | tuple {ctx : Ctx} {r : TupleRead} {v : VarId} (hv : ctx v = some .tup) : TermSorted ctx (.tuple r v) r.result
  | inCoverage {ctx : Ctx} {slot : Slot} {e : Term} {v : VarId} (he : TermSorted ctx e .addr)
      (hv : ctx v = some .tup) : TermSorted ctx (.inCoverage slot e v) .bool
  | unary {ctx : Ctx} {op : UnaryOp} {e : Term} {s : ValueSort} (hop : op.guarded cat = .ok op)
      (he : TermSorted ctx e s) (hs : op.wants s = .ok ()) : TermSorted ctx (.unary op e) op.result
  | binary {ctx : Ctx} {op : BinaryOp} {x y : Term} (hop : op.guarded cat = .ok op)
      (hx : TermSorted ctx x op.operands.1) (hy : TermSorted ctx y op.operands.2) :
      TermSorted ctx (.binary op x y) op.result
  | connective {ctx : Ctx} {op : Connective} {x y : Term} (hx : TermSorted ctx x .bool)
      (hy : TermSorted ctx y .bool) : TermSorted ctx (.connective op x y) .bool
  | quantified {ctx : Ctx} {q : Quantifier} {var : VarId} {d : Dom} {s : ValueSort} {body : Term}
      (hd : DomSorted ctx d s) (hb : TermSorted (ctx.update var s) body .bool) :
      TermSorted ctx (.quantified q var d body) .bool
  | letIn {ctx : Ctx} {var : VarId} {bound body : Term} {s r : ValueSort} (hbound : TermSorted ctx bound s)
      (hb : TermSorted (ctx.update var s) body r) : TermSorted ctx (.letIn var bound body) r
  | ifSome {ctx : Ctx} {opt thenTerm elseTerm : Term} {var : VarId} {s n r : ValueSort}
      (hopt : TermSorted ctx opt s) (hn : narrowed s = .ok n)
      (hthen : TermSorted (ctx.update var n) thenTerm r) (helse : TermSorted ctx elseTerm r) :
      TermSorted ctx (.ifSome opt var thenTerm elseTerm) r
  | aggregate {ctx : Ctx} {op : Aggregate} {d : Dom} {s : ValueSort} (hd : DomSorted ctx d s)
      (hs : op.wants s = .ok ()) : TermSorted ctx (.aggregate op d) op.result
  | bigUnion {ctx : Ctx} {d : Dom} {var : VarId} {s : ValueSort} {body : Term} (hd : DomSorted ctx d s)
      (hb : TermSorted (ctx.update var s) body .addrSet) : TermSorted ctx (.bigUnion d var body) .addrSet
  | ref {ctx : Ctx} {addr : Address} {args : List Term} {ds : DefSource} {referent : TypedTerm}
      (hds : defs = some ds) (hr : ds addr = some referent)
      (hargs : ArgsSorted ctx (referent.params.map Prod.snd) args) :
      TermSorted ctx (.ref addr args) referent.result

/-- In a context, a domain has elements of a sort. -/
inductive DomSorted : Ctx → Dom → ValueSort → Prop
  | read {ctx : Ctx} {r : DomRead} {k : TypeKey} (hk : cat.guarded (.concrete k) .cataloged = .ok k) :
      DomSorted ctx (.read r (.concrete k)) r.elem
  | linkDom {ctx : Ctx} : DomSorted ctx .linkDom .addr
  | filter {ctx : Ctx} {d : Dom} {var : VarId} {s : ValueSort} {pred : Term} (hd : DomSorted ctx d s)
      (hp : TermSorted (ctx.update var s) pred .bool) : DomSorted ctx (.filter d var pred) s
  | setTerm {ctx : Ctx} {t : Term} (ht : TermSorted ctx t .addrSet) : DomSorted ctx (.setTerm t) .addr

/-- The arguments of a reference at the sorts of its parameters. -/
inductive ArgsSorted : Ctx → List ValueSort → List Term → Prop
  | nil {ctx : Ctx} : ArgsSorted ctx [] []
  | cons {ctx : Ctx} {s : ValueSort} {sorts : List ValueSort} {t : Term} {ts : List Term}
      (ht : TermSorted ctx t s) (hts : ArgsSorted ctx sorts ts) : ArgsSorted ctx (s :: sorts) (t :: ts)

end

end

variable {cat : TypeCatalog} {defs : DefSource}

/-- A guard passes the key that stands at the position. -/
theorem eq_of_guarded {tr : TypeRef} {guard : Guard} {k : TypeKey} (h : cat.guarded tr guard = .ok k) :
    tr = .concrete k := by
  cases tr with
  | classVar v => cases h
  | concrete k' =>
    simp only [TypeCatalog.guarded, Outcome.bind_eq_ok_iff, Outcome.okOr_eq_ok_iff] at h
    obtain ⟨entry, -, h⟩ := h
    cases guard with
    | cataloged =>
      cases h
      rfl
    | needs b =>
      simp only [Outcome.bind_eq_ok_iff, Outcome.pure_eq, Outcome.ok.injEq] at h
      obtain ⟨-, -, rfl⟩ := h
      rfl
    | walk =>
      simp only [Outcome.bind_eq_ok_iff, Outcome.pure_eq, Outcome.ok.injEq] at h
      obtain ⟨-, -, -, -, rfl⟩ := h
      rfl

theorem guarded_again {tr : TypeRef} {guard : Guard} {k : TypeKey} (h : cat.guarded tr guard = .ok k) :
    cat.guarded (.concrete k) guard = .ok k := by
  rwa [← eq_of_guarded h]

theorem UnaryOp.guarded_again {op op' : UnaryOp} (h : op.guarded cat = .ok op') : op'.guarded cat = .ok op' := by
  cases op with
  | keyed r tr =>
    simp only [UnaryOp.guarded, Outcome.bind_eq_ok_iff, Outcome.pure_eq, Outcome.ok.injEq] at h
    obtain ⟨k, hk, rfl⟩ := h
    rw [UnaryOp.guarded, Coordination.guarded_again hk]
    rfl
  | mapGet tr =>
    simp only [UnaryOp.guarded, Outcome.bind_eq_ok_iff, Outcome.pure_eq, Outcome.ok.injEq] at h
    obtain ⟨k, hk, rfl⟩ := h
    rw [UnaryOp.guarded, Coordination.guarded_again hk]
    rfl
  | targetsKeyed =>
    simp only [UnaryOp.guarded, Outcome.bind_eq_ok_iff, Outcome.pure_eq, Outcome.ok.injEq] at h
    obtain ⟨_, hclass, rfl⟩ := h
    rw [UnaryOp.guarded, hclass]
    rfl
  | isDoc | isEmpty | elems | defined | not =>
    cases h
    rfl

theorem BinaryOp.guarded_again {op op' : BinaryOp} (h : op.guarded cat = .ok op') : op'.guarded cat = .ok op' := by
  cases op with
  | isInChain tr =>
    simp only [BinaryOp.guarded, Outcome.bind_eq_ok_iff, Outcome.pure_eq, Outcome.ok.injEq] at h
    obtain ⟨k, hk, rfl⟩ := h
    rw [BinaryOp.guarded, Coordination.guarded_again hk]
    rfl
  | addrEq | prefixOf | t1Lt | setMem | setEq | natEq | natLe | natAdd =>
    cases h
    rfl

theorem sorted_joined {ds : Option DefSource} {ctx : Ctx} (q : Quantifier) {insts : List Term}
    (h : ∀ t ∈ insts, TermSorted cat ds ctx t .bool) : TermSorted cat ds ctx (joined q insts) .bool := by
  have hfold : ∀ (ts : List Term) (t : Term), TermSorted cat ds ctx t .bool →
      (∀ t ∈ ts, TermSorted cat ds ctx t .bool) → TermSorted cat ds ctx (ts.foldl (Term.connective q.join) t) .bool := by
    intro ts
    induction ts with
    | nil => exact fun t ht _ => ht
    | cons t' ts ih =>
      intro t ht hts
      exact ih _ (.connective ht (hts t' List.mem_cons_self)) fun t ht => hts t (List.mem_cons_of_mem _ ht)
  cases insts with
  | nil => exact .lit (l := .bool true)
  | cons t ts => exact hfold ts t (h t List.mem_cons_self) fun t ht => h t (List.mem_cons_of_mem _ ht)

mutual

/-- **What is evaluated in a term's place has the term's sort.** -/
theorem TermJudged.sorted {ctx : Ctx} {t t' : Term} {s : ValueSort} :
    TermJudged cat defs ctx t s t' → TermSorted cat (some defs) ctx t' s
  | .var hv => .var hv
  | .lit => .lit
  | .members hk => .members (guarded_again hk)
  | .tuple hv => .tuple hv
  | .inCoverage he hv => .inCoverage he.sorted hv
  | .unary hop he hs => .unary (UnaryOp.guarded_again hop) he.sorted hs
  | .binary hop hx hy => .binary (BinaryOp.guarded_again hop) hx.sorted hy.sorted
  | .connective hx hy => .connective hx.sorted hy.sorted
  | .quantified hd hb => .quantified hd.sorted hb.sorted
  | .overTypes hinsts => sorted_joined _ hinsts.sorted
  | .letIn hbound hb => .letIn hbound.sorted hb.sorted
  | .ifSome hopt hn hthen helse => .ifSome hopt.sorted hn hthen.sorted helse.sorted
  | .countTypes => .lit
  | .aggregate hd hs => .aggregate hd.sorted hs
  | .bigUnion hd hb => .bigUnion hd.sorted hb.sorted
  | .ref hr hargs => .ref rfl hr hargs.sorted

theorem DomJudged.sorted {ctx : Ctx} {d d' : Dom} {s : ValueSort} :
    DomJudged cat defs ctx d s d' → DomSorted cat (some defs) ctx d' s
  | .read hk => .read (guarded_again hk)
  | .linkDom => .linkDom
  | .filter hd hp => .filter hd.sorted hp.sorted
  | .setTerm ht => .setTerm ht.sorted

theorem ArgsJudged.sorted {ctx : Ctx} {sorts : List ValueSort} {ts ts' : List Term} :
    ArgsJudged cat defs ctx sorts ts ts' → ArgsSorted cat (some defs) ctx sorts ts'
  | .nil => .nil
  | .cons ht hts => .cons ht.sorted hts.sorted

theorem InstancesJudged.sorted {ctx : Ctx} {cvar : VarId} {body : Term} {keys : List TypeKey} {insts : List Term} :
    InstancesJudged cat defs ctx cvar body keys insts → ∀ t ∈ insts, TermSorted cat (some defs) ctx t .bool
  | .nil => List.forall_mem_nil _
  | .cons hinst hrest => List.forall_mem_cons.2 ⟨hinst.sorted, hrest.sorted⟩

end

section

variable {ds : Option DefSource}

mutual

/-- What holds no reference has its sort over no definitions. -/
theorem TermSorted.refFree {ctx : Ctx} {t : Term} {s : ValueSort} :
    TermSorted cat ds ctx t s → t.refs = [] → TermSorted cat none ctx t s
  | .var hv, _ => .var hv
  | .lit, _ => .lit
  | .members hk, _ => .members hk
  | .tuple hv, _ => .tuple hv
  | .inCoverage he hv, h => .inCoverage (he.refFree h) hv
  | .unary hop he hs, h => .unary hop (he.refFree h) hs
  | .binary hop hx hy, h =>
    .binary hop (hx.refFree (List.append_eq_nil_iff.1 h).1) (hy.refFree (List.append_eq_nil_iff.1 h).2)
  | .connective hx hy, h =>
    .connective (hx.refFree (List.append_eq_nil_iff.1 h).1) (hy.refFree (List.append_eq_nil_iff.1 h).2)
  | .quantified hd hb, h =>
    .quantified (hd.refFree (List.append_eq_nil_iff.1 h).1) (hb.refFree (List.append_eq_nil_iff.1 h).2)
  | .letIn hbound hb, h =>
    .letIn (hbound.refFree (List.append_eq_nil_iff.1 h).1) (hb.refFree (List.append_eq_nil_iff.1 h).2)
  | .ifSome hopt hn hthen helse, h => by
    obtain ⟨hopt', hrest⟩ := List.append_eq_nil_iff.1 h
    obtain ⟨hthen', helse'⟩ := List.append_eq_nil_iff.1 hrest
    exact .ifSome (hopt.refFree hopt') hn (hthen.refFree hthen') (helse.refFree helse')
  | .aggregate hd hs, h => .aggregate (hd.refFree h) hs
  | .bigUnion hd hb, h =>
    .bigUnion (hd.refFree (List.append_eq_nil_iff.1 h).1) (hb.refFree (List.append_eq_nil_iff.1 h).2)
  | .ref _ _ _, h => absurd h (List.cons_ne_nil _ _)

theorem DomSorted.refFree {ctx : Ctx} {d : Dom} {s : ValueSort} :
    DomSorted cat ds ctx d s → d.refs = [] → DomSorted cat none ctx d s
  | .read hk, _ => .read hk
  | .linkDom, _ => .linkDom
  | .filter hd hp, h =>
    .filter (hd.refFree (List.append_eq_nil_iff.1 h).1) (hp.refFree (List.append_eq_nil_iff.1 h).2)
  | .setTerm ht, h => .setTerm (ht.refFree h)

end

end

end Coordination
