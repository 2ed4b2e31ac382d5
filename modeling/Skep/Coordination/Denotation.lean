import Skep.Coordination.Eval
import Skep.Coordination.Walk

/-!
# What a submission denotes

The meaning of a submitted term as it is written: a class variable stands for a
registered type, and the domain of the registered types has them as its
elements. The checker's answer is measured against it.
-/

namespace Coordination

/-- An element of a domain: an argument, or a registered type. -/
inductive Element where
  | arg (e : Arg)
  | type (k : TypeKey)

/-- What the variables and the class variables of a term stand for. -/
structure Scope where
  env : Env
  types : VarId → Option TypeKey

namespace Scope

/-- Bind a variable to an argument, or a class variable to a type. -/
def bind (sc : Scope) (v : VarId) : Element → Scope
  | .arg e => { sc with env := sc.env.bind v e.toValue }
  | .type k => { sc with types := fun u => if u = v then some k else sc.types u }

def bindValue (sc : Scope) (v : VarId) (x : Value) : Scope := { sc with env := sc.env.bind v x }

/-- A type position with its class variable's type. -/
def typeref (sc : Scope) : TypeRef → TypeRef
  | .concrete k => .concrete k
  | .classVar v =>
      match sc.types v with
      | some k => .concrete k
      | none => .classVar v

/-- The scope of a definition's body. -/
def ofEnv (env : Env) : Scope := ⟨env, fun _ => none⟩

end Scope

/-- The elements of a domain that holds no types. -/
def Element.args (elems : List Element) : Outcome Empty (List Arg) :=
  elems.mapM fun
    | .arg e => return e
    | .type _ => .fault

def Aggregate.denote (op : Aggregate) (elems : List Element) : Outcome Empty Value :=
  match op with
  | .count => return .nat elems.length
  | op => do op.eval (← Element.args elems)

section

variable (cx : EvalCtx) (call : TypedTerm → Env → Outcome Empty Value)

mutual

/-- The meaning of a term, `call` giving that of the definition a reference resolves to. -/
def denote (sc : Scope) : Term → Outcome Empty Value
  | .var v => Outcome.expectSome (sc.env v)
  | .lit l => return l.value
  | .members tr => do return .addrSet (← cx.membersAt (← (sc.typeref tr).key))
  | .tuple r v => do r.eval (← tupleVar sc.env v)
  | .inCoverage slot e v => do
      let x ← asAddr (← denote sc e)
      return .bool (slot.covers (← tupleVar sc.env v) x)
  | .unary op e => do (op.retype sc.typeref).eval cx (← denote sc e)
  | .binary op x y => do (op.retype sc.typeref).eval cx (← denote sc x) (← denote sc y)
  | .connective op x y => do
      let b ← asBool (← denote sc x)
      return .bool (← op.eval b (do asBool (← denote sc y)))
  | .quantified q var dom body => do
      let elems ← denoteDom sc dom
      return .bool (← q.eval elems fun e => do asBool (← denote (sc.bind var e) body))
  | .letIn var bound body => do
      let b ← denote sc bound
      denote (sc.bindValue var b) body
  | .ifSome opt var thenTerm elseTerm => do
      match ← denote sc opt with
      | .optAddr (some a) => denote (sc.bindValue var (.addr a)) thenTerm
      | .optNat (some n) => denote (sc.bindValue var (.nat n)) thenTerm
      | .optAddr none | .optNat none => denote sc elseTerm
      | _ => .fault
  | .aggregate op dom => do op.denote (← denoteDom sc dom)
  | .bigUnion dom var body => do
      let elems ← Element.args (← denoteDom sc dom)
      let sets ← elems.mapM fun e => do asSet (← denote (sc.bind var (.arg e)) body)
      return .addrSet (OrdSet.unions sets)
  | .ref addr args =>
      match cx.defs with
      | none => .fault
      | some defs => do
          let referent ← Outcome.expectSome (defs addr)
          let inner ← denoteArgs sc (referent.params.map Prod.fst) args
          call referent (Env.ofList inner)

def denoteArgs (sc : Scope) : List VarId → List Term → Outcome Empty (List (VarId × Value))
  | p :: params, arg :: args => do
      let x ← denote sc arg
      let rest ← denoteArgs sc params args
      return (p, x) :: rest
  | _, _ => return []

/-- The elements of a domain. -/
def denoteDom (sc : Scope) : Dom → Outcome Empty (List Element)
  | .read r tr => do return (← r.enum cx (← (sc.typeref tr).key)).map .arg
  | .linkDom => do return (← cx.linkDom).elems.map fun a => .arg (.addr a)
  | .reg => return cx.catalog.classes.map .type
  | .filter dom var pred => do
      let elems ← Element.args (← denoteDom sc dom)
      let kept ← Outcome.keepM (fun e => do asBool (← denote (sc.bind var (.arg e)) pred)) elems
      return kept.map .arg
  | .setTerm t => do return (← asSet (← denote sc t)).elems.map fun a => .arg (.addr a)

end

end

/-- The meaning of a term, references followed `depth` deep to what is written there. -/
def denoteAt (cx : EvalCtx) : ℕ → Env → Term → Outcome Empty Value
  | 0, env, t => denote cx (fun _ _ => .fault) (Scope.ofEnv env) t
  | depth + 1, env, t =>
      denote cx (fun referent inner => denoteAt cx depth inner referent.signed.body) (Scope.ofEnv env) t

namespace Scope

variable {sc : Scope} {cvar v : VarId} {key : TypeKey}

/-- A substituted key is what the class variable stands for. -/
theorem typeref_subst (tr : TypeRef) :
    sc.typeref (tr.subst cvar key) = (sc.bind cvar (.type key)).typeref tr := by
  cases tr with
  | concrete k => rfl
  | classVar u =>
    by_cases hu : u = cvar
    · simp [TypeRef.subst, Scope.typeref, Scope.bind, hu]
    · simp [TypeRef.subst, Scope.typeref, Scope.bind, hu]

/-- The binding of a class variable that is bound again is lost. -/
theorem bind_type_again (k : TypeKey) :
    (sc.bind cvar (.type key)).bind cvar (.type k) = sc.bind cvar (.type k) := by
  simp only [Scope.bind, Scope.mk.injEq, true_and]
  funext u
  by_cases hu : u = cvar
  · simp [hu]
  · simp [hu]

theorem bind_type_comm (h : v ≠ cvar) (e : Element) :
    (sc.bind cvar (.type key)).bind v e = (sc.bind v e).bind cvar (.type key) := by
  cases e with
  | arg e => rfl
  | type k =>
    simp only [Scope.bind, Scope.mk.injEq, true_and]
    funext u
    by_cases hu : u = cvar
    · simp [hu, Ne.symm h]
    · simp [hu]

end Scope

theorem UnaryOp.retype_retype (f g : TypeRef → TypeRef) (op : UnaryOp) :
    (op.retype f).retype g = op.retype fun tr => g (f tr) := by
  cases op <;> rfl

theorem BinaryOp.retype_retype (f g : TypeRef → TypeRef) (op : BinaryOp) :
    (op.retype f).retype g = op.retype fun tr => g (f tr) := by
  cases op <;> rfl

section

variable {cx : EvalCtx} {call : TypedTerm → Env → Outcome Empty Value} {cvar : VarId} {key : TypeKey}

/-- Every domain but the registered types has arguments for elements. -/
theorem exists_args_of_denoteDom {sc : Scope} {d : Dom} {elems : List Element} (hd : d ≠ .reg)
    (h : denoteDom cx call sc d = .ok elems) : ∀ e ∈ elems, ∃ a, e = .arg a := by
  cases d with
  | reg => exact absurd rfl hd
  | read | linkDom | filter | setTerm =>
    simp only [denoteDom, Outcome.bind_eq_ok_iff, Outcome.pure_eq, Outcome.ok.injEq] at h
    grind

theorem Quantifier.eval_congr {α : Type} (q : Quantifier) {elems : List α} {f g : α → Outcome Empty Bool}
    (h : ∀ e ∈ elems, f e = g e) : q.eval elems f = q.eval elems g := by
  cases q with
  | all => exact Outcome.allM_congr h
  | any => exact Outcome.anyM_congr h

/-- The binder of a quantifier that is not kept commutes with the class variable's binding. -/
theorem bind_comm_of_not_rebinds {sc : Scope} {q : Quantifier} {var : VarId} {d : Dom} {body : Term}
    (h : rebinds cvar (.quantified q var d body) ≠ true) {elems : List Element}
    (hd : denoteDom cx call (sc.bind cvar (.type key)) d = .ok elems) {e : Element} (he : e ∈ elems) :
    (sc.bind cvar (.type key)).bind var e = (sc.bind var e).bind cvar (.type key) := by
  by_cases hvar : var = cvar
  · have hreg : d ≠ .reg := fun hreg => h (by subst hreg; simp [rebinds, hvar])
    obtain ⟨a, rfl⟩ := exists_args_of_denoteDom hreg hd e he
    rfl
  · exact Scope.bind_type_comm hvar e

mutual

/-- A substituted key is the class variable's meaning. -/
theorem denote_substClass (t : Term) (sc : Scope) :
    denote cx call sc (t.substClass cvar key) = denote cx call (sc.bind cvar (.type key)) t := by
  cases t with
  | var | lit | tuple => rfl
  | members tr => rw [Term.substClass, denote, denote, Scope.typeref_subst]
  | inCoverage slot e v =>
    rw [Term.substClass, denote, denote, denote_substClass e]
    rfl
  | unary op e =>
    rw [Term.substClass, denote, denote, denote_substClass e, UnaryOp.retype_retype]
    simp only [Scope.typeref_subst]
  | binary op x y =>
    rw [Term.substClass, denote, denote, denote_substClass x, denote_substClass y,
      BinaryOp.retype_retype]
    simp only [Scope.typeref_subst]
  | connective op x y => rw [Term.substClass, denote, denote, denote_substClass x, denote_substClass y]
  | quantified q var d body =>
    rw [Term.substClass]
    split
    · next hk =>
      cases d with
      | reg =>
        obtain rfl : var = cvar := by simpa [rebinds] using hk
        rw [denote, denote]
        refine congrArg (· >>= fun b => return Value.bool b) (q.eval_congr fun e he => ?_)
        obtain ⟨k, -, rfl⟩ := List.mem_map.1 he
        rw [Scope.bind_type_again]
      | read | linkDom | filter | setTerm => simp [rebinds] at hk
    · next hk =>
      rw [denote, denote, denoteDom_substClass d]
      refine Outcome.bind_congr_ok fun elems hd => ?_
      refine congrArg (· >>= fun b => return Value.bool b) (q.eval_congr fun e he => ?_)
      rw [denote_substClass body, bind_comm_of_not_rebinds hk hd he]
  | letIn var bound body =>
    rw [Term.substClass, denote, denote, denote_substClass bound]
    refine Outcome.bind_congr_ok fun b _ => ?_
    rw [denote_substClass body]
    rfl
  | ifSome opt var thenTerm elseTerm =>
    rw [Term.substClass, denote, denote, denote_substClass opt]
    refine Outcome.bind_congr_ok fun o _ => ?_
    have hthen := fun x => denote_substClass thenTerm (sc.bindValue var x)
    have helse := denote_substClass elseTerm sc
    split
    · exact hthen _
    · exact hthen _
    · exact helse
    · exact helse
    · rfl
  | aggregate op d => rw [Term.substClass, denote, denote, denoteDom_substClass d]
  | bigUnion d var body =>
    rw [Term.substClass, denote, denote, denoteDom_substClass d]
    have hbody := fun e => denote_substClass body (sc.bind var (.arg e))
    simp only [hbody]
    rfl
  | ref addr args =>
    rw [Term.substClass, denote, denote]
    simp only [denoteArgs_substClass args]

theorem denoteArgs_substClass (ts : List Term) (sc : Scope) (params : List VarId) :
    denoteArgs cx call sc params (argsSubstClass cvar key ts) =
      denoteArgs cx call (sc.bind cvar (.type key)) params ts := by
  cases ts with
  | nil => cases params <;> rfl
  | cons t ts =>
    cases params with
    | nil => rfl
    | cons p params =>
      rw [argsSubstClass, denoteArgs, denoteArgs, denote_substClass t, denoteArgs_substClass ts]

theorem denoteDom_substClass (d : Dom) (sc : Scope) :
    denoteDom cx call sc (d.substClass cvar key) = denoteDom cx call (sc.bind cvar (.type key)) d := by
  cases d with
  | read r tr => rw [Dom.substClass, denoteDom, denoteDom, Scope.typeref_subst]
  | linkDom | reg => rfl
  | filter d var pred =>
    rw [Dom.substClass, denoteDom, denoteDom, denoteDom_substClass d]
    have hpred := fun e => denote_substClass pred (sc.bind var (.arg e))
    simp only [hpred]
    rfl
  | setTerm t => rw [Dom.substClass, denoteDom, denoteDom, denote_substClass t]

end

end

end Coordination
