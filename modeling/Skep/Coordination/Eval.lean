import Skep.Coordination.Catalog
import Skep.Coordination.Guest

/-!
# Evaluation

A term's value at a world, a view and an environment. The evaluator trusts the
checker: where a value has another sort than its position asks for, where a
variable is unbound or a class variable is left, it faults.
-/

namespace Coordination

/-- What a term is read in. -/
structure EvalCtx where
  catalog : TypeCatalog
  links : GuestLinks
  m3 : M3State
  view : View
  defs : Option DefSource

def asBool : Value → Outcome Empty Bool
  | .bool b => return b
  | _ => .fault

def asAddr : Value → Outcome Empty Address
  | .addr a => return a
  | _ => .fault

def asSet : Value → Outcome Empty (OrdSet Address)
  | .addrSet s => return s
  | _ => .fault

def asNat : Value → Outcome Empty ℕ
  | .nat n => return n
  | _ => .fault

def addrElem : Arg → Outcome Empty Address
  | .addr a => return a
  | .tuple _ => .fault

def tupleVar (env : Env) (v : VarId) : Outcome Empty Tuple :=
  match env v with
  | some (.tuple t) => return t
  | _ => .fault

namespace EvalCtx

variable (cx : EvalCtx)

def filteredBy (j : Endset) (x : Address) : Outcome Empty Bool :=
  cx.links.isK cx.catalog.registry j x.tumbler .active

/-- Whether a filtering class other than the type's own filters the address. -/
def filteredOther (k : TypeKey) (x : Address) : Outcome Empty Bool := do
  let kClass ← cx.catalog.classOf k
  cx.catalog.readFilterClasses.anyM fun j =>
    if j.1 ≠ kClass then cx.filteredBy j.2 x else return false

def uvKeeps (k : TypeKey) (e : Address) : Outcome Empty Bool :=
  if cx.view ≠ .default then return true
  else do
    let filtered ← cx.filteredOther k e
    return !filtered

/-- An answer without the addresses the default view leaves out. -/
def uvRewrite (k : TypeKey) (answer : OrdSet Address) : Outcome Empty (OrdSet Address) := do
  let kept ← Outcome.keepM (cx.uvKeeps k) answer.elems
  return OrdSet.ofList kept

def membersAt (k : TypeKey) : Outcome Empty (OrdSet Address) := do
  let members ← cx.links.members cx.catalog.registry k (Slice.of cx.view)
  cx.uvRewrite k members

def targetsOfAt (k : TypeKey) (x : Address) : Outcome Empty (OrdSet Address) := do
  let answer ← match cx.view with
    | .audit => cx.links.targetsOfDenoting cx.catalog.registry k x
    | .active | .default => cx.links.targetsOf cx.catalog.registry k x .active
  cx.uvRewrite k answer

def isKAt (k : TypeKey) (x : Address) : Outcome Empty Bool :=
  cx.links.isK cx.catalog.registry k x.tumbler (Slice.of cx.view)

/-- The one target of each reverse-lookup class that has one. -/
def targetsKeyed (source : Address) : Outcome Empty (List (CoverageClass × Address)) :=
  cx.catalog.reverseLookupClasses.foldlM (fun out j => do
    match ← cx.links.targetOf cx.catalog.registry j.2 source with
    | some target => return (j.1, target) :: out
    | none => return out) []

end EvalCtx

def Lit.value : Lit → Value
  | .bool b => .bool b
  | .nat n => .nat n
  | .addr a => .addr a
  | .botAddr => .optAddr none
  | .botNat => .optNat none

/-- The largest horizon the link store's ages are compared with. -/
def maxHorizon : ℕ := 2 ^ 64 - 1

/-- An atom that reads a type at an operand. -/
def KeyedRead.eval (cx : EvalCtx) (r : KeyedRead) (k : TypeKey) (operand : Value) :
    Outcome Empty Value :=
  let reg := cx.catalog.registry
  match r with
  | .isK => do return .bool (← cx.isKAt k (← asAddr operand))
  | .targetsOf => do return .addrSet (← cx.targetsOfAt k (← asAddr operand))
  | .isFiltered => do return .bool (← cx.filteredBy k (← asAddr operand))
  | .succs => do return .addrSet (← cx.uvRewrite k (← cx.links.succs reg k (← asAddr operand)))
  | .chain => do
      let chain ← cx.links.chain reg k (← asAddr operand)
      return .addrSeq (← Outcome.keepM (cx.uvKeeps k) chain)
  | .tip => do
      match ← cx.links.tip reg k (← asAddr operand) with
      | .sink a => return .optAddr (some a)
      | .indeterminate => return .optAddr none
  | .sourcesTo => do
      return .addrSet (← cx.uvRewrite k (← cx.links.sourcesTo reg k (← asAddr operand)))
  | .targetOf => do return .optAddr (← cx.links.targetOf reg k (← asAddr operand))
  | .age => do
      let x ← asAddr operand
      if ← cx.links.isActiveTuple reg k x then return .optNat (← cx.links.age x)
      else return .optNat none
  | .stale => do
      let h ← asNat operand
      -- the checker admits the atom only at a class that has an age
      let stale ← (cx.links.stale reg k (min h maxHorizon)).expect
      return .addrSet (← cx.uvRewrite k stale)

def UnaryOp.eval (cx : EvalCtx) (op : UnaryOp) (operand : Value) : Outcome Empty Value :=
  match op with
  | .keyed r tr => do r.eval cx (← tr.key) operand
  | .targetsKeyed => do return .map (← cx.targetsKeyed (← asAddr operand))
  | .isDoc => do return .bool (cx.m3.isRegisteredDocument (← asAddr operand))
  | .isEmpty => do return .bool (← asSet operand).isEmpty
  | .elems =>
      match operand with
      | .addrSeq seq => return .addrSet (OrdSet.ofList seq)
      | _ => .fault
  | .mapGet tr => do
      let c ← cx.catalog.classOf (← tr.key)
      match operand with
      | .map m => return .optAddr (m.lookup c)
      | _ => .fault
  | .defined =>
      match operand with
      | .optAddr o => return .bool o.isSome
      | .optNat o => return .bool o.isSome
      | _ => .fault
  | .not => do return .bool (!(← asBool operand))

def BinaryOp.eval (cx : EvalCtx) (op : BinaryOp) (x y : Value) : Outcome Empty Value :=
  match op with
  | .isInChain tr => do
      let k ← tr.key
      return .bool (← cx.links.isInChain cx.catalog.registry k (← asAddr x) (← asAddr y))
  | .addrEq => do return .bool ((← asAddr x) == (← asAddr y))
  | .prefixOf => do return .bool (isPrefix (← asAddr x).tumbler (← asAddr y).tumbler)
  | .t1Lt => do return .bool (decide ((← asAddr x).tumbler < (← asAddr y).tumbler))
  | .setMem => do return .bool (decide ((← asAddr x) ∈ (← asSet y)))
  | .setEq => do return .bool ((← asSet x) == (← asSet y))
  | .natEq => do return .bool ((← asNat x) == (← asNat y))
  | .natLe => do return .bool (decide ((← asNat x) ≤ (← asNat y)))
  | .natAdd => do return .nat ((← asNat x) + (← asNat y))

/-- The truth of a connective, its second operand read where the first leaves it open. -/
def Connective.eval (op : Connective) (x : Bool) (y : Outcome Empty Bool) : Outcome Empty Bool :=
  match op with
  | .and => if x then y else return false
  | .or => if x then return true else y
  | .implies => if x then y else return true
  | .iff => do return x == (← y)

/-- A quantifier over an enumerated domain, up to the first element that decides it. -/
def Quantifier.eval {α : Type} (q : Quantifier) (elems : List α) (body : α → Outcome Empty Bool) :
    Outcome Empty Bool :=
  match q with
  | .all => elems.allM body
  | .any => elems.anyM body

def Aggregate.eval (op : Aggregate) (elems : List Arg) : Outcome Empty Value :=
  match op with
  | .count => return .nat elems.length
  | .maxT1 => do return .optAddr (← elems.mapM addrElem).max?
  | .minT1 => do return .optAddr (← elems.mapM addrElem).min?
  | .reflect => do return .addrSet (OrdSet.ofList (← elems.mapM addrElem))

def TupleRead.eval (r : TupleRead) (t : Tuple) : Outcome Empty Value :=
  match r with
  | .addr => return .addr t.addr
  | .addrs .f => do return .addrSet (OrdSet.ofList (← t.fromSlot.addrs.mapM lift))
  | .addrs .g => do return .addrSet (OrdSet.ofList (← t.toSlot.addrs.mapM lift))

def Slot.covers (slot : Slot) (t : Tuple) (x : Address) : Bool :=
  match slot with
  | .f => t.fromSlot.covers x.tumbler
  | .g => t.toSlot.covers x.tumbler

def DomRead.enum (cx : EvalCtx) (r : DomRead) (k : TypeKey) : Outcome Empty (List Arg) :=
  match r with
  | .members => do return (← cx.membersAt k).elems.map .addr
  | .active => do return (← cx.links.observe cx.catalog.registry k {} .active).map .tuple
  | .audit => do return (← cx.links.observe cx.catalog.registry k {} .audit).map .tuple

/-- The addresses of the links of every cataloged type, retracted ones too. -/
def EvalCtx.linkDom (cx : EvalCtx) : Outcome Empty (OrdSet Address) := do
  let tuples ← cx.catalog.classes.mapM fun k => cx.links.observe cx.catalog.registry k {} .audit
  return OrdSet.ofList (tuples.flatten.map Tuple.addr)

section

variable (cx : EvalCtx) (call : TypedTerm → Env → Outcome Empty Value)

mutual

/-- The value of a term, `call` evaluating the definition a reference resolves to. -/
def evalTerm (env : Env) : Term → Outcome Empty Value
  | .var v => Outcome.expectSome (env v)
  | .lit l => return l.value
  | .members tr => do return .addrSet (← cx.membersAt (← tr.key))
  | .tuple r v => do r.eval (← tupleVar env v)
  | .inCoverage slot e v => do
      let x ← asAddr (← evalTerm env e)
      return .bool (slot.covers (← tupleVar env v) x)
  | .unary op e => do op.eval cx (← evalTerm env e)
  | .binary op x y => do op.eval cx (← evalTerm env x) (← evalTerm env y)
  | .connective op x y => do
      let b ← asBool (← evalTerm env x)
      return .bool (← op.eval b (do asBool (← evalTerm env y)))
  | .quantified q var dom body => do
      let elems ← enumDom env dom
      return .bool (← q.eval elems fun e => do asBool (← evalTerm (env.bind var e.toValue) body))
  | .letIn var bound body => do
      let b ← evalTerm env bound
      evalTerm (env.bind var b) body
  | .ifSome opt var thenTerm elseTerm => do
      match ← evalTerm env opt with
      | .optAddr (some a) => evalTerm (env.bind var (.addr a)) thenTerm
      | .optNat (some n) => evalTerm (env.bind var (.nat n)) thenTerm
      | .optAddr none | .optNat none => evalTerm env elseTerm
      | _ => .fault
  | .aggregate op dom => do op.eval (← enumDom env dom)
  | .bigUnion dom var body => do
      let elems ← enumDom env dom
      let sets ← elems.mapM fun e => do asSet (← evalTerm (env.bind var e.toValue) body)
      return .addrSet (OrdSet.unions sets)
  | .ref addr args =>
      match cx.defs with
      | none => .fault
      | some defs => do
          let referent ← Outcome.expectSome (defs addr)
          let inner ← evalArgs env (referent.params.map Prod.fst) args
          call referent (Env.ofList inner)

/-- The arguments of a reference under the parameters they fill. -/
def evalArgs (env : Env) : List VarId → List Term → Outcome Empty (List (VarId × Value))
  | p :: params, arg :: args => do
      let x ← evalTerm env arg
      let rest ← evalArgs env params args
      return (p, x) :: rest
  | _, _ => return []

/-- The elements of a domain, in its order. -/
def enumDom (env : Env) : Dom → Outcome Empty (List Arg)
  | .read r tr => do r.enum cx (← tr.key)
  | .linkDom => do return (← cx.linkDom).elems.map .addr
  | .reg => .fault
  | .filter dom var pred => do
      let elems ← enumDom env dom
      Outcome.keepM (fun e => do asBool (← evalTerm (env.bind var e.toValue) pred)) elems
  | .setTerm t => do return (← asSet (← evalTerm env t)).elems.map .addr

end

end

/-- The value of a term, references followed `depth` deep. -/
def evalAt (cx : EvalCtx) : ℕ → Env → Term → Outcome Empty Value
  | 0, env, t => evalTerm cx (fun _ _ => .fault) env t
  | depth + 1, env, t => evalTerm cx (fun referent inner => evalAt cx depth inner referent.evaluable) env t

/-- The elements of a domain, references followed `depth` deep. -/
def enumAt (cx : EvalCtx) (depth : ℕ) (env : Env) (d : Dom) : Outcome Empty (List Arg) :=
  match depth with
  | 0 => enumDom cx (fun _ _ => .fault) env d
  | depth + 1 => enumDom cx (fun referent inner => evalAt cx depth inner referent.evaluable) env d

end Coordination
