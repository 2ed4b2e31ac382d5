import Skep.Coordination.Depth

/-!
# The expansion of references

A reference becomes its referent's body under a chain of bindings, one for each
argument, the body's binders and the parameters renamed to names of the
expansion's own. The levels the checker charged a reference for are those its
expansion takes.
-/

namespace Coordination

/-- The renaming of a flat body: its free uses by the map, a fresh name for each binder. -/
def Rename : Rewriter (VarId → Option VarId) where
  chargesDoms := true
  keeps _ := false
  typeref tr := tr
  varUse map v := (map v).getD v
  under map v := do
    let name ← fresh
    return (name, fun u => if u = v then some name else map u)
  meetsRefs := false
  reference _ _ := fun _ => .fault

/-- The map of the parameters to their names, a later one of a parameter over an earlier. -/
def paramNames (params names : List VarId) : VarId → Option VarId :=
  (params.zip names).foldl (fun map p u => if u = p.1 then some p.2 else map u) fun _ => none

/-- The body under the bindings of the arguments, the first one outermost. -/
def letChain (names : List VarId) (args : List Term) (body : Term) : Term :=
  (names.zip args).foldr (fun p out => .letIn p.1 p.2 out) body

/-- What the expansion puts in a reference's place, its arguments expanded. -/
def inlined (defs : DefSource) (expandBody : Term → WalkM Term) (addr : Address) (args : List Term) :
    WalkM Term := do
  let referent ← fun s => (Outcome.expectSome (defs addr)).bind fun r => .ok (r, s)
  let names ← referent.params.mapM fun _ => fresh
  let flatBody ← expandBody referent.evaluable
  let out ← Rename.term (paramNames (referent.params.map Prod.fst) names) flatBody
  return letChain names args out

/-- The rewrite that expands references, followed `levels` deep. -/
def Expander (defs : DefSource) (levels : ℕ) : Rewriter Unit where
  chargesDoms := true
  keeps _ := false
  typeref tr := tr
  varUse _ v := v
  under _ v := return (v, ())
  meetsRefs := true
  reference := match levels with
    | 0 => fun _ _ _ => .fault
    | levels + 1 => inlined defs ((Expander defs levels).term ())

/-- The flat expansion of a checked body. -/
def expand (defs : DefSource) (t : Term) : Outcome BudgetSpent Term := do
  let (out, _) ← ((Expander defs maxDepth).term () t).run {}
  return out

/-- The walk never faults, and what it answers has the property. -/
def Yields {α : Type} (P : α → Prop) (m : WalkM α) : Prop :=
  ∀ s, m.run s ≠ .fault ∧ ∀ a s', m.run s = .ok (a, s') → P a

namespace Yields

variable {α β : Type} {P P' : α → Prop} {R : β → Prop}

theorem pure {a : α} (h : P a) : Yields P (Pure.pure a : WalkM α) := by
  refine fun s => ⟨nofun, ?_⟩
  intro b s' hrun
  cases hrun
  exact h

theorem bind {m : WalkM α} {f : α → WalkM β} (hm : Yields P m) (hf : ∀ a, P a → Yields R (f a)) :
    Yields R (m >>= f) := by
  intro s
  constructor
  · intro hfault
    rw [StateT.run_bind] at hfault
    rcases Outcome.bind_eq_fault_iff.1 hfault with hfirst | ⟨⟨a, s₁⟩, hfirst, hrun⟩
    · exact (hm s).1 hfirst
    · exact (hf a ((hm s).2 a s₁ hfirst) s₁).1 hrun
  · intro b s' hrun
    rw [StateT.run_bind, Outcome.bind_eq_ok_iff] at hrun
    obtain ⟨⟨a, s₁⟩, hfirst, hrun⟩ := hrun
    exact (hf a ((hm s).2 a s₁ hfirst) s₁).2 b s' hrun

theorem charge (units : ℕ) : Yields (fun _ => True) (Coordination.charge units) := by
  refine fun s => ⟨?_, fun _ _ _ => trivial⟩
  show (if _ then _ else _) ≠ _
  split <;> nofun

theorem fresh : Yields (fun _ => True) Coordination.fresh := fun _ => ⟨nofun, fun _ _ _ => trivial⟩

theorem mapM {γ : Type} {f : γ → WalkM α} (l : List γ) (h : ∀ c, Yields (fun _ => True) (f c)) :
    Yields (fun _ => True) (l.mapM f) := by
  induction l with
  | nil => exact pure trivial
  | cons c l ih =>
    rw [List.mapM_cons]
    exact bind (h c) fun _ _ => bind ih fun _ _ => pure trivial

end Yields

private theorem append_nil {l l' : List Address} (h : l = []) (h' : l' = []) : l ++ l' = [] := by
  rw [h, h', List.append_nil]

/-- A tree without references whose charges stay within a level. -/
def Flat (reach : Address → ℕ) (depth bound : ℕ) (t : Term) : Prop :=
  t.refs = [] ∧ t.Within reach depth bound

/-- A rewrite of trees whose references all lie in a set: it keeps no node as it stands, and puts
a flat tree in a reference's place. -/
structure Flattens {σ : Type} (r : Rewriter σ) (reach : Address → ℕ) (known : Address → Prop) : Prop where
  keeps : ∀ t, r.keeps t = false
  under : ∀ scope v, Yields (fun _ => True) (r.under scope v)
  reference : ∀ addr, known addr → r.meetsRefs = true ∧ ∀ args depth bound, argRefs args = [] →
    argsWithin reach args (depth + 1) bound → referenceReach depth args.length (reach addr) ≤ bound →
      Yields (Flat reach depth bound) (r.reference addr args)

namespace Flattens

variable {σ : Type} {r : Rewriter σ} {reach : Address → ℕ} {known : Address → Prop}
  {bound : ℕ}

theorem node (hr : Flattens r reach known) {t : Term} {rewrite : WalkM Term} {P : Term → Prop} (h : Yields P rewrite) :
    Yields P (r.node t rewrite) := by
  rw [Rewriter.node, hr.keeps t]
  exact (Yields.charge _).bind fun _ _ => h

theorem domNode {rewrite : WalkM Dom} {P : Dom → Prop} (h : Yields P rewrite) :
    Yields P (r.domNode rewrite) := by
  rw [Rewriter.domNode]
  split
  · exact (Yields.charge _).bind fun _ _ => h
  · exact h

mutual

/-- A rewrite that flattens references yields flat trees, within what its input is charged. -/
theorem term (hr : Flattens r reach known) (t : Term) (scope : σ) (depth : ℕ)
    (h : t.Within reach depth bound) (hknown : ∀ a ∈ t.refs, known a) : Yields (Flat reach depth bound) (r.term scope t) := by
  cases t with
  | var v =>
    rw [Rewriter.term]
    exact hr.node (.pure ⟨rfl, h⟩)
  | lit l =>
    rw [Rewriter.term]
    exact hr.node (.pure ⟨rfl, h⟩)
  | members tr =>
    rw [Rewriter.term]
    exact hr.node (.pure ⟨rfl, h⟩)
  | tuple read v =>
    rw [Rewriter.term]
    exact hr.node (.pure ⟨rfl, h⟩)
  | inCoverage slot e v =>
    rw [Rewriter.term]
    exact hr.node ((hr.term e scope (depth + 1) h hknown).bind fun e' he => .pure he)
  | unary op e =>
    rw [Rewriter.term]
    exact hr.node ((hr.term e scope (depth + 1) h hknown).bind fun e' he => .pure he)
  | binary op x y =>
    have hx := fun a ha => hknown a (List.mem_append_left y.refs ha)
    have hy := fun a ha => hknown a (List.mem_append_right x.refs ha)
    rw [Rewriter.term]
    exact hr.node ((hr.term x scope (depth + 1) h.1 hx).bind fun x' hx' =>
      (hr.term y scope (depth + 1) h.2 hy).bind fun y' hy' =>
        .pure ⟨append_nil hx'.1 hy'.1, hx'.2, hy'.2⟩)
  | connective op x y =>
    have hx := fun a ha => hknown a (List.mem_append_left y.refs ha)
    have hy := fun a ha => hknown a (List.mem_append_right x.refs ha)
    rw [Rewriter.term]
    exact hr.node ((hr.term x scope (depth + 1) h.1 hx).bind fun x' hx' =>
      (hr.term y scope (depth + 1) h.2 hy).bind fun y' hy' =>
        .pure ⟨append_nil hx'.1 hy'.1, hx'.2, hy'.2⟩)
  | quantified q var d body =>
    have hd := fun a ha => hknown a (List.mem_append_left body.refs ha)
    have hb := fun a ha => hknown a (List.mem_append_right d.refs ha)
    rw [Rewriter.term]
    exact hr.node ((hr.dom d scope (depth + 1) h.1 hd).bind fun d' hd' =>
      (hr.under scope var).bind fun inner _ => (hr.term body inner.2 (depth + 1) h.2 hb).bind fun b' hb' =>
        .pure ⟨append_nil hd'.1 hb'.1, hd'.2, hb'.2⟩)
  | letIn var x body =>
    have hx := fun a ha => hknown a (List.mem_append_left body.refs ha)
    have hb := fun a ha => hknown a (List.mem_append_right x.refs ha)
    rw [Rewriter.term]
    exact hr.node ((hr.term x scope (depth + 1) h.1 hx).bind fun x' hx' =>
      (hr.under scope var).bind fun inner _ => (hr.term body inner.2 (depth + 1) h.2 hb).bind fun b' hb' =>
        .pure ⟨append_nil hx'.1 hb'.1, hx'.2, hb'.2⟩)
  | ifSome opt var thenTerm elseTerm =>
    have ho := fun a ha => hknown a (List.mem_append_left (thenTerm.refs ++ elseTerm.refs) ha)
    have ht := fun a ha => hknown a (List.mem_append_right opt.refs (List.mem_append_left elseTerm.refs ha))
    have he := fun a ha => hknown a (List.mem_append_right opt.refs (List.mem_append_right thenTerm.refs ha))
    rw [Rewriter.term]
    exact hr.node ((hr.term opt scope (depth + 1) h.1 ho).bind fun o' ho' =>
      (hr.under scope var).bind fun inner _ =>
        (hr.term thenTerm inner.2 (depth + 1) h.2.1 ht).bind fun t' ht' =>
          (hr.term elseTerm scope (depth + 1) h.2.2 he).bind fun e' he' =>
            .pure ⟨append_nil ho'.1 (append_nil ht'.1 he'.1), ho'.2, ht'.2, he'.2⟩)
  | aggregate op d =>
    rw [Rewriter.term]
    exact hr.node ((hr.dom d scope (depth + 1) h hknown).bind fun d' hd' => .pure hd')
  | bigUnion d var body =>
    have hd := fun a ha => hknown a (List.mem_append_left body.refs ha)
    have hb := fun a ha => hknown a (List.mem_append_right d.refs ha)
    rw [Rewriter.term]
    exact hr.node ((hr.dom d scope (depth + 1) h.1 hd).bind fun d' hd' =>
      (hr.under scope var).bind fun inner _ => (hr.term body inner.2 (depth + 1) h.2 hb).bind fun b' hb' =>
        .pure ⟨append_nil hd'.1 hb'.1, hd'.2, hb'.2⟩)
  | ref addr args =>
    obtain ⟨hmeets, href⟩ := hr.reference addr (hknown addr List.mem_cons_self)
    rw [Rewriter.term, hmeets, if_pos rfl]
    refine hr.node ((hr.terms args scope (depth + 1) h.2 fun a ha => hknown a (List.mem_cons_of_mem _ ha)).bind
      fun args' hargs' => ?_)
    exact href args' depth bound hargs'.1 hargs'.2.1 (hargs'.2.2 ▸ h.1)

theorem terms (hr : Flattens r reach known) (ts : List Term) (scope : σ) (depth : ℕ)
    (h : argsWithin reach ts depth bound) (hknown : ∀ a ∈ argRefs ts, known a) :
    Yields (fun ts' => argRefs ts' = [] ∧ argsWithin reach ts' depth bound ∧ ts'.length = ts.length)
      (r.terms scope ts) := by
  cases ts with
  | nil =>
    rw [Rewriter.terms]
    exact .pure ⟨rfl, trivial, rfl⟩
  | cons t ts =>
    have ht := fun a ha => hknown a (List.mem_append_left (argRefs ts) ha)
    have hts := fun a ha => hknown a (List.mem_append_right t.refs ha)
    rw [Rewriter.terms]
    exact (hr.term t scope depth h.1 ht).bind fun t' ht' =>
      (hr.terms ts scope (depth + 1) h.2 hts).bind fun ts' hts' =>
        .pure ⟨append_nil ht'.1 hts'.1, ⟨ht'.2, hts'.2.1⟩, congrArg Nat.succ hts'.2.2⟩

theorem dom (hr : Flattens r reach known) (d : Dom) (scope : σ) (depth : ℕ)
    (h : d.Within reach depth bound) (hknown : ∀ a ∈ d.refs, known a) :
    Yields (fun d' => d'.refs = [] ∧ d'.Within reach depth bound) (r.dom scope d) := by
  cases d with
  | read read tr =>
    rw [Rewriter.dom]
    exact domNode (.pure ⟨rfl, h⟩)
  | linkDom =>
    rw [Rewriter.dom]
    exact domNode (.pure ⟨rfl, h⟩)
  | reg =>
    rw [Rewriter.dom]
    exact domNode (.pure ⟨rfl, h⟩)
  | filter d var pred =>
    have hd := fun a ha => hknown a (List.mem_append_left pred.refs ha)
    have hp := fun a ha => hknown a (List.mem_append_right d.refs ha)
    rw [Rewriter.dom]
    exact domNode ((hr.dom d scope (depth + 1) h.1 hd).bind fun d' hd' =>
      (hr.under scope var).bind fun inner _ => (hr.term pred inner.2 (depth + 1) h.2 hp).bind fun p' hp' =>
        .pure ⟨append_nil hd'.1 hp'.1, hd'.2, hp'.2⟩)
  | setTerm t =>
    rw [Rewriter.dom]
    exact domNode ((hr.term t scope (depth + 1) h hknown).bind fun t' ht' => .pure ht')

end

end Flattens

section

variable {reach : Address → ℕ} {depth bound : ℕ}

/-- The bindings of a reference's arguments stand where the arguments were charged. -/
theorem letChain_flat {body : Term} (names : List VarId) (args : List Term) (hrefs : argRefs args = [])
    (hargs : argsWithin reach args (depth + 1) bound) (hbody : Flat reach (depth + args.length) bound body) :
    Flat reach depth bound (letChain names args body) := by
  have hstop : Flat reach depth bound body := ⟨hbody.1, hbody.2.weaken (Nat.le_add_right _ _) le_rfl⟩
  induction names generalizing args depth with
  | nil => exact hstop
  | cons v names ih =>
    cases args with
    | nil => exact hstop
    | cons arg args =>
      obtain ⟨harg, hrest⟩ := List.append_eq_nil_iff.1 hrefs
      have hlen : depth + (arg :: args).length = depth + 1 + args.length := by
        rw [List.length_cons]
        omega
      rw [hlen] at hbody
      have htail := ih args hrest hargs.2 hbody ⟨hbody.1, hbody.2.weaken (Nat.le_add_right _ _) le_rfl⟩
      exact ⟨append_nil harg htail.1, hargs.1, htail.2⟩

theorem rename_flattens : Flattens Rename reach fun _ => False where
  keeps _ := rfl
  under _ _ := Yields.fresh.bind fun _ _ => .pure trivial
  reference _ h := h.elim

end

section

variable {cat : TypeCatalog} {defs : DefSource} {tt : TypedTerm}

/-- The addresses of the checked definitions that reach less deep than a level. -/
def KnownBelow (cat : TypeCatalog) (defs : DefSource) (level : ℕ) (a : Address) : Prop :=
  ∃ r, defs a = some r ∧ Checked cat defs r ∧ r.reach < level

theorem Checked.knownBelow (h : Checked cat defs tt) {level : ℕ} (hlevel : tt.reach ≤ level) :
    ∀ a ∈ tt.evaluable.refs, KnownBelow cat defs level a := by
  intro a ha
  obtain ⟨r, hr, hchecked, hreach⟩ := h.def.referent a ha
  exact ⟨r, hr, hchecked, by omega⟩

/-- The expander puts flat trees in the place of references to checked definitions. -/
theorem expander_flattens (cat : TypeCatalog) (defs : DefSource) (levels : ℕ) :
    Flattens (Expander defs levels) (reachOf defs) (KnownBelow cat defs levels) := by
  induction levels with
  | zero =>
    refine ⟨fun _ => by rw [Expander], fun _ _ => by rw [Expander]; exact .pure trivial, ?_⟩
    rintro addr ⟨r, -, -, hreach⟩
    cases hreach
  | succ levels ih =>
    refine ⟨fun _ => by rw [Expander], fun _ _ => by rw [Expander]; exact .pure trivial, ?_⟩
    rintro addr ⟨referent, hdef, hchecked, hreach⟩
    refine ⟨by rw [Expander], fun args depth bound hrefs hargs hcharge => ?_⟩
    rw [Expander]
    show Yields _ (inlined defs ((Expander defs levels).term ()) addr args)
    have hresolve : Yields (fun r => r = referent) fun s : WalkState =>
        (Outcome.expectSome (defs addr) : Outcome BudgetSpent TypedTerm).bind fun r => .ok (r, s) := by
      rw [hdef]
      refine fun s => ⟨nofun, ?_⟩
      intro r s' hrun
      cases hrun
      rfl
    rw [inlined]
    refine hresolve.bind ?_
    intro r hr
    rw [hr]
    refine (Yields.mapM _ fun _ => Yields.fresh).bind fun names _ => ?_
    have hbody := ih.term _ () 0 hchecked.within.1 (hchecked.knownBelow (Nat.lt_succ_iff.1 hreach))
    refine hbody.bind fun flatBody hflat => ?_
    have hrenamed := rename_flattens.term flatBody
      (paramNames (referent.params.map Prod.fst) names) 0 hflat.2 (by simp [hflat.1])
    refine hrenamed.bind fun out hout => .pure ?_
    refine letChain_flat names args hrefs hargs ⟨hout.1, ?_⟩
    have hshift := (Term.within_shift out 0 (depth + args.length)).2 hout.2
    refine hshift.weaken (by omega) ?_
    rw [reachOf, hdef, referenceReach, referentDepth, Option.map_some, Option.getD_some] at hcharge
    omega

/-- **The expansion of a checked definition never runs past its levels, holds no reference and
nests no deeper than the definition reaches.** -/
theorem Checked.expand_yields (h : Checked cat defs tt) : expand defs tt.evaluable ≠ .fault ∧
    ∀ flat, expand defs tt.evaluable = .ok flat → flat.refs = [] ∧ flat.nesting ≤ tt.reach := by
  have hyields := (expander_flattens cat defs maxDepth).term tt.evaluable () 0 h.within.1
    (h.knownBelow h.within.2) {}
  constructor
  · intro hfault
    rcases Outcome.bind_eq_fault_iff.1 hfault with hrun | ⟨p, -, hrun⟩
    · exact hyields.1 hrun
    · cases hrun
  · intro flat hflat
    obtain ⟨⟨out, s'⟩, hrun, hout⟩ := Outcome.bind_eq_ok_iff.1 hflat
    cases hout
    obtain ⟨hrefs, hwithin⟩ := hyields.2 flat s' hrun
    have hle := hwithin.nesting_le
    rw [Nat.zero_add] at hle
    exact ⟨hrefs, hle⟩

end

end Coordination
