import Skep.Coordination.Check
import Skep.Coordination.Footprint

/-!
# The rule engine's peek

A rule names a domain, a trigger and a view. An argument of the domain at which the
trigger holds is enabled; the registry is quiescent where no rule has one.
-/

namespace Coordination

/-- What a fire deposits. -/
inductive FireAction where
  | marker (home : Address) (ty : TypeKey)
  | nullify (home : Address)

def FireAction.home : FireAction → Address
  | .marker home _ | .nullify home => home

/-- A checked term of one parameter with a truth value, as a rule captures it. -/
structure TriggerTerm where
  term : TypedTerm
  param : VarId × ValueSort
  single : term.params = [param]
  boolean : term.result = .bool

/-- A registered rule, its domain as the checker answered it. -/
structure CheckedRule where
  id : ℕ
  domain : CheckedDom
  trigger : TriggerTerm
  view : View
  action : FireAction
  /-- The key of the occurrence its last turn picked. -/
  lastPick : Option Address

structure Occurrence where
  rule : ℕ
  arg : Arg
  deriving DecidableEq

/-- The handle: its catalog, the definitions its memo answers, and its rules in the order
they were registered. -/
structure Coordinator where
  catalog : TypeCatalog
  defs : DefSource
  rules : List CheckedRule
  nextRuleId : ℕ
  cursor : ℕ

namespace Coordinator

variable (co : Coordinator) (w : CoordinationWorld)

/-- One verdict's read context. -/
def evalCtx (view : View) (defs : Option DefSource) : EvalCtx := w.ctx co.catalog view defs

/-- The arguments bound to the parameters, one for one, each at its sort. -/
def bindArgs (params : List (VarId × ValueSort)) (args : List Value) : Option Env :=
  if args.length ≠ params.length then none
  else if (args.zip params).any fun b => b.1.sort != b.2.2 then none
  else some (Env.ofList ((params.map Prod.fst).zip args))

/-- A term without references at a world. -/
def eval (t : TypedTerm) (args : List Value) (view : View) : Outcome Empty Value := do
  Outcome.require (t.refFree = true)
  let env ← Outcome.expectSome (bindArgs t.params args)
  evalAt (co.evalCtx w view none) 0 env t.evaluable

/-- The verdict of a term with a truth value. -/
def decide (t : TypedTerm) (args : List Value) (view : View) : Outcome Empty Bool := do
  Outcome.require (t.result = .bool)
  asBool (← co.eval w t args view)

/-- The domain of a rule. It holds no reference, so nothing answers one. -/
def enumRuleDom (rule : CheckedRule) : Outcome Empty (List Arg) :=
  enumAt (co.evalCtx w rule.view none) 0 Env.empty rule.domain.dom

/-- The trigger at an argument. The nesting bound of a checked definition bounds how deep
its references run. -/
def triggerTrue (rule : CheckedRule) (arg : Arg) : Outcome Empty Bool := do
  let env := Env.empty.bind rule.trigger.param.1 arg.toValue
  asBool (← evalAt (co.evalCtx w rule.view (some co.defs)) maxDepth env rule.trigger.term.evaluable)

/-- The first argument of a rule that is kept and at which its trigger holds. -/
def firstEnabled (rule : CheckedRule) (keep : Arg → Outcome Empty Bool) :
    Outcome Empty (Option Arg) := do
  let elems ← co.enumRuleDom w rule
  elems.findM? fun arg => do
    if ← keep arg then co.triggerTrue w rule arg else return false

/-- A rule's pick on its turn: its first enabled argument past its last pick, else its
first one up to it. -/
def nextPick (rule : CheckedRule) : Outcome Empty (Option Arg) := do
  let past (arg : Arg) : Bool := rule.lastPick.all fun last => last < arg.keyAddr
  match ← co.firstEnabled w rule fun arg => return past arg with
  | some arg => return some arg
  | none => co.firstEnabled w rule fun arg => return !past arg

/-- The first enabled occurrence, the rules in the order they were registered. -/
def nextEnabled : Outcome Empty (Option Occurrence) :=
  co.rules.findSomeM? fun rule => do
    let arg ← co.firstEnabled w rule fun _ => return true
    return arg.map fun arg => ⟨rule.id, arg⟩

/-- No rule has an enabled occurrence. -/
def quiescent : Outcome Empty Bool := do
  return (← co.nextEnabled w).isNone

end Coordinator

end Coordination
