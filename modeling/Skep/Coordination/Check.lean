import Skep.Coordination.Catalog
import Skep.Coordination.Walk

/-!
# The checker

The checker reads a submitted term at nesting levels that grow with every node
and stay within `maxDepth`, its nodes within one budget. A quantifier over the
registered types becomes the join of its instances, one for each type, and what
it answers is the term that is evaluated in the submission's place.
-/

namespace Coordination

/-- The bound on the nesting of a tree, counted through references. -/
def maxDepth : ℕ := 128

/-- The levels a reference costs beyond its own node. -/
def derivationCost : ℕ := 2

/-- The level at which a reference's walk reaches its referent's root. -/
def referentDepth (depth : ℕ) : ℕ := depth + derivationCost

/-- The level at which an argument of a reference is checked: its own binding's in
the flat expansion. -/
def argumentDepth (depth i : ℕ) : ℕ := depth + 1 + i

/-- The deepest level a walk through a reference reaches. -/
def referenceReach (depth arity referentReach : ℕ) : ℕ := referentDepth depth + arity + referentReach

/-- Why a term is refused. -/
inductive TypeError where
  | unboundVariable (v : VarId)
  | unboundClassVar (v : VarId)
  | duplicateParameter (v : VarId)
  | sortMismatch (expected found : ValueSort)
  | argArityMismatch (referent : Address) (expected found : ℕ)
  | misplacedReg
  | behaviorMissing (ty : TypeKey) (needs : Behavior)
  | unservedWalkClass (k : TypeKey)
  | uncatalogedTypeKey (k : TypeKey)
  | noReverseLookupClass
  | undefinedReference (addr : Address)
  | tooDeep
  | tooLarge
  | regInstanceIllTyped (e : TypeError)
  deriving DecidableEq

/-- Why a referent is not answered. -/
inductive Unresolved where
  | undefined
  | tooDeep
  deriving DecidableEq, Repr

/-- What a type position has to satisfy beyond being cataloged. -/
inductive Guard where
  | cataloged
  | needs (b : Behavior)
  | walk
  deriving DecidableEq, Repr

/-- The cataloged key of a type position that meets its guard. -/
def TypeCatalog.guarded (cat : TypeCatalog) (tr : TypeRef) (guard : Guard) : Outcome TypeError TypeKey := do
  match tr with
  | .classVar v => .err (.unboundClassVar v)
  | .concrete k => do
      let entry ← Outcome.okOr (cat.get k) (.uncatalogedTypeKey k)
      match guard with
      | .cataloged => return k
      | .needs b => do
          Outcome.refuseIf (entry.declares b = false) (.behaviorMissing k b)
          return k
      | .walk => do
          Outcome.refuseIf (entry.declares .walk = false) (.behaviorMissing k .walk)
          -- the walk is served at one class only
          Outcome.refuseIf (k ≠ cat.supersedesKey) (.unservedWalkClass k)
          return k

def Lit.sort : Lit → ValueSort
  | .bool _ => .bool
  | .nat _ => .nat
  | .addr _ => .addr
  | .botAddr => .optAddr
  | .botNat => .optNat

def KeyedRead.guard : KeyedRead → Guard
  | .isK | .targetsOf => .cataloged
  | .isFiltered => .needs .readFilter
  | .succs | .chain | .tip => .walk
  | .sourcesTo | .targetOf => .needs .reverseLookup
  | .age | .stale => .needs .age

def KeyedRead.operand : KeyedRead → ValueSort
  | .stale => .nat
  | _ => .addr

def KeyedRead.result : KeyedRead → ValueSort
  | .isK | .isFiltered => .bool
  | .targetsOf | .succs | .sourcesTo | .stale => .addrSet
  | .chain => .addrSeq
  | .tip | .targetOf => .optAddr
  | .age => .optNat

def TupleRead.result : TupleRead → ValueSort
  | .addr => .addr
  | .addrs _ => .addrSet

def want (expected found : ValueSort) : Outcome TypeError Unit :=
  Outcome.refuseIf (expected ≠ found) (.sortMismatch expected found)

namespace UnaryOp

/-- The operation with its type position guarded. -/
def guarded (cat : TypeCatalog) : UnaryOp → Outcome TypeError UnaryOp
  | .keyed r tr => do return .keyed r (.concrete (← cat.guarded tr r.guard))
  | .mapGet tr => do return .mapGet (.concrete (← cat.guarded tr .cataloged))
  | .targetsKeyed => do
      Outcome.refuseIf (cat.hasReverseLookupClass = false) .noReverseLookupClass
      return .targetsKeyed
  | op => return op

/-- Whether the operation takes an operand of the sort. -/
def wants (op : UnaryOp) (found : ValueSort) : Outcome TypeError Unit :=
  match op with
  | .keyed r _ => want r.operand found
  | .targetsKeyed | .isDoc => want .addr found
  | .isEmpty => want .addrSet found
  | .elems => want .addrSeq found
  | .mapGet _ => want .map found
  | .defined => Outcome.refuseIf (found ≠ .optAddr ∧ found ≠ .optNat) (.sortMismatch .optAddr found)
  | .not => want .bool found

def result : UnaryOp → ValueSort
  | .keyed r _ => r.result
  | .targetsKeyed => .map
  | .isDoc | .isEmpty | .defined | .not => .bool
  | .elems => .addrSet
  | .mapGet _ => .optAddr

end UnaryOp

namespace BinaryOp

def guarded (cat : TypeCatalog) : BinaryOp → Outcome TypeError BinaryOp
  | .isInChain tr => do return .isInChain (.concrete (← cat.guarded tr .walk))
  | op => return op

/-- The sorts of the two operands. -/
def operands : BinaryOp → ValueSort × ValueSort
  | .isInChain _ | .addrEq | .prefixOf | .t1Lt => (.addr, .addr)
  | .setMem => (.addr, .addrSet)
  | .setEq => (.addrSet, .addrSet)
  | .natEq | .natLe | .natAdd => (.nat, .nat)

def result : BinaryOp → ValueSort
  | .natAdd => .nat
  | _ => .bool

end BinaryOp

/-- What narrowing an optional value leaves. -/
def narrowed : ValueSort → Outcome TypeError ValueSort
  | .optAddr => return .addr
  | .optNat => return .nat
  | found => .err (.sortMismatch .optAddr found)

namespace Aggregate

def wants (op : Aggregate) (elem : ValueSort) : Outcome TypeError Unit :=
  match op with
  | .count => return ()
  | .maxT1 | .minT1 | .reflect => want .addr elem

def result : Aggregate → ValueSort
  | .count => .nat
  | .maxT1 | .minT1 => .optAddr
  | .reflect => .addrSet

end Aggregate

def DomRead.elem : DomRead → ValueSort
  | .members => .addr
  | .active | .audit => .tup

/-- The connective that joins the instances of a quantifier over the types. -/
def Quantifier.join : Quantifier → Connective
  | .all => .and
  | .any => .or

/-- The sorts of the variables in scope. -/
abbrev Ctx := VarId → Option ValueSort

namespace Ctx

def empty : Ctx := fun _ => none

def update (ctx : Ctx) (v : VarId) (s : ValueSort) : Ctx := fun u => if u = v then some s else ctx u

def ofList (params : List (VarId × ValueSort)) : Ctx :=
  params.foldl (fun ctx p => ctx.update p.1 p.2) empty

end Ctx

/-- A checked term: what is evaluated, its sort, and whether it holds no reference. -/
structure CheckedTerm where
  term : Term
  sort : ValueSort
  refFree : Bool

/-- A checked domain, with the sort of its elements. -/
structure CheckedDom where
  dom : Dom
  elem : ValueSort
  refFree : Bool

/-- A pass's spend, and the deepest level it has recorded. -/
structure CheckState where
  nodes : ℕ := 0
  deepest : ℕ := 0

abbrev CheckM := StateT CheckState (Outcome TypeError)

/-- What answers the referent at an address, derived at a level. -/
abbrev Resolver := Address → ℕ → Except Unresolved TypedTerm

/-- What a pass consults. -/
structure Checker where
  catalog : TypeCatalog
  resolve : Resolver

/-- A refusal, or the value, of a judgment that keeps no record. -/
def judge {α : Type} (x : Outcome TypeError α) : CheckM α := fun s => x >>= fun a => .ok (a, s)

/-- Record that a walk over the term reaches the level. -/
def reachTo (level : ℕ) : CheckM Unit := fun s =>
  if maxDepth < level then .err .tooDeep else .ok ((), { s with deepest := max s.deepest level })

def chargeNodes (units : ℕ) : CheckM Unit := fun s =>
  if maxTermNodes < s.nodes + units then .err .tooLarge else .ok ((), { s with nodes := s.nodes + units })

/-- Take a node through the two doors at every node. -/
def enter (units depth : ℕ) : CheckM Unit := do
  reachTo depth
  chargeNodes units

/-- The body with a key for the class variable, the substitution charged to the pass. -/
def instantiate (cvar : VarId) (key : TypeKey) (body : Term) : CheckM Term := fun s =>
  ((substClassVar cvar key body).run { nodes := s.nodes }).mapErr (fun _ => TypeError.tooLarge) >>=
    fun p => .ok (p.1, { s with nodes := p.2.nodes })

/-- An instance's refusal as its quantifier's: the budgets are the whole term's. -/
def TypeError.ofInstance : TypeError → TypeError
  | .tooDeep => .tooDeep
  | .tooLarge => .tooLarge
  | e => .regInstanceIllTyped e

def resolveRef (ch : Checker) (addr : Address) (level : ℕ) : Outcome TypeError TypedTerm :=
  match ch.resolve addr level with
  | .ok referent => .ok referent
  | .error .undefined => .err (.undefinedReference addr)
  | .error .tooDeep => .err .tooDeep

/-- Join the instances of a quantifier over the types, the first at the left. -/
def joinInstances (q : Quantifier) : List CheckedTerm → Outcome TypeError CheckedTerm
  | [] => .fault
  | c :: cs => .ok (cs.foldl (fun prev c =>
      ⟨.connective q.join prev.term c.term, .bool, prev.refFree && c.refFree⟩) c)

section

variable (ch : Checker)

/-- A child at a required sort. -/
def sub (check : Term → CheckM CheckedTerm) (t : Term) (expected : ValueSort) : CheckM CheckedTerm := do
  let c ← check t
  judge (want expected c.sort)
  return c

/-- The arguments of a reference against the parameters they fill, the first of `args`
being the reference's `i`-th. -/
def referenceArgs (addr : Address) (arity found depth : ℕ) (check : ℕ → Term → CheckM CheckedTerm) :
    ℕ → List ValueSort → List Term → CheckM (List Term)
  | _, [], [] => return []
  | i, s :: params, arg :: args => do
      let c ← check (argumentDepth depth i) arg
      judge (want s c.sort)
      return c.term :: (← referenceArgs addr arity found depth check (i + 1) params args)
  | i, [], arg :: _ => do
      -- an extra argument is checked on its own account first
      let _ ← check (argumentDepth depth i) arg
      judge (.err (.argArityMismatch addr arity found))
  | _, _ :: _, [] => judge (.err (.argArityMismatch addr arity found))

/-- The instances of a quantifier's body, one for each registered type. -/
def instances (check : Term → CheckM CheckedTerm) (cvar : VarId) (body : Term) :
    List TypeKey → CheckM (List CheckedTerm)
  | [] => return []
  | key :: keys => do
      let inst ← instantiate cvar key body
      let c ← fun s => (((sub check inst .bool).run s).mapErr TypeError.ofInstance)
      return c :: (← instances check cvar body keys)

mutual

/-- The judgment of a term at a level. Each call stands at least a level deeper than its
caller, so a pass that has made `levels` calls in a row is past `maxDepth`. -/
def checkTerm : ℕ → Ctx → Term → ℕ → CheckM CheckedTerm
  | 0, _, _, _ => judge (.err .tooDeep)
  | levels + 1, ctx, t, depth => do
      enter (weight t) depth
      match t with
      | .var v => do
          let s ← judge (Outcome.okOr (ctx v) (.unboundVariable v))
          return ⟨.var v, s, true⟩
      | .lit l => return ⟨.lit l, l.sort, true⟩
      | .members tr => do
          let k ← judge (ch.catalog.guarded tr .cataloged)
          return ⟨.members (.concrete k), .addrSet, true⟩
      | .tuple r v => do
          let s ← judge (Outcome.okOr (ctx v) (.unboundVariable v))
          judge (want .tup s)
          return ⟨.tuple r v, r.result, true⟩
      | .inCoverage slot e v => do
          let c ← sub (fun t => checkTerm levels ctx t (depth + 1)) e .addr
          let s ← judge (Outcome.okOr (ctx v) (.unboundVariable v))
          judge (want .tup s)
          return ⟨.inCoverage slot c.term v, .bool, c.refFree⟩
      | .unary op e => do
          let op ← judge (op.guarded ch.catalog)
          let c ← checkTerm levels ctx e (depth + 1)
          judge (op.wants c.sort)
          return ⟨.unary op c.term, op.result, c.refFree⟩
      | .binary op x y => do
          let op ← judge (op.guarded ch.catalog)
          let cx ← sub (fun t => checkTerm levels ctx t (depth + 1)) x op.operands.1
          let cy ← sub (fun t => checkTerm levels ctx t (depth + 1)) y op.operands.2
          return ⟨.binary op cx.term cy.term, op.result, cx.refFree && cy.refFree⟩
      | .connective op x y => do
          let cx ← sub (fun t => checkTerm levels ctx t (depth + 1)) x .bool
          let cy ← sub (fun t => checkTerm levels ctx t (depth + 1)) y .bool
          return ⟨.connective op cx.term cy.term, .bool, cx.refFree && cy.refFree⟩
      | .quantified q cvar .reg body => do
          -- an instance stands as deep as the deepest one of the join
          let at' := depth + (ch.catalog.classes.length - 1)
          let cs ← instances (fun t => checkTerm levels ctx t at') cvar body ch.catalog.classes
          judge (joinInstances q cs)
      | .quantified q var dom body => do
          let cd ← checkDom levels ctx dom (depth + 1)
          let cb ← sub (fun t => checkTerm levels (ctx.update var cd.elem) t (depth + 1)) body .bool
          return ⟨.quantified q var cd.dom cb.term, .bool, cd.refFree && cb.refFree⟩
      | .letIn var bound body => do
          let cbound ← checkTerm levels ctx bound (depth + 1)
          let cbody ← checkTerm levels (ctx.update var cbound.sort) body (depth + 1)
          return ⟨.letIn var cbound.term cbody.term, cbody.sort, cbound.refFree && cbody.refFree⟩
      | .ifSome opt var thenTerm elseTerm => do
          let co ← checkTerm levels ctx opt (depth + 1)
          let s ← judge (narrowed co.sort)
          let ct ← checkTerm levels (ctx.update var s) thenTerm (depth + 1)
          let ce ← checkTerm levels ctx elseTerm (depth + 1)
          judge (want ct.sort ce.sort)
          return ⟨.ifSome co.term var ct.term ce.term, ct.sort,
            co.refFree && ct.refFree && ce.refFree⟩
      | .aggregate .count .reg => return ⟨.lit (.nat ch.catalog.classes.length), .nat, true⟩
      | .aggregate op dom => do
          let cd ← checkDom levels ctx dom (depth + 1)
          judge (op.wants cd.elem)
          return ⟨.aggregate op cd.dom, op.result, cd.refFree⟩
      | .bigUnion dom var body => do
          let cd ← checkDom levels ctx dom (depth + 1)
          let cb ← sub (fun t => checkTerm levels (ctx.update var cd.elem) t (depth + 1)) body .addrSet
          return ⟨.bigUnion cd.dom var cb.term, .addrSet, cd.refFree && cb.refFree⟩
      | .ref addr args => do
          let referent ← judge (resolveRef ch addr (referentDepth depth))
          reachTo (referenceReach depth args.length referent.reach)
          let args ← referenceArgs addr referent.params.length args.length depth
            (fun level t => checkTerm levels ctx t level) 0 (referent.params.map Prod.snd) args
          return ⟨.ref addr args, referent.result, false⟩

/-- The judgment of a domain at a level. -/
def checkDom : ℕ → Ctx → Dom → ℕ → CheckM CheckedDom
  | 0, _, _, _ => judge (.err .tooDeep)
  | levels + 1, ctx, d, depth => do
      enter 1 depth
      match d with
      | .read r tr => do
          let k ← judge (ch.catalog.guarded tr .cataloged)
          return ⟨.read r (.concrete k), r.elem, true⟩
      | .linkDom => return ⟨.linkDom, .addr, true⟩
      | .reg => judge (.err .misplacedReg)
      | .filter dom var pred => do
          let base ← checkDom levels ctx dom (depth + 1)
          let c ← sub (fun t => checkTerm levels (ctx.update var base.elem) t (depth + 1)) pred .bool
          return ⟨.filter base.dom var c.term, base.elem, base.refFree && c.refFree⟩
      | .setTerm t => do
          let c ← sub (fun t => checkTerm levels ctx t (depth + 1)) t .addrSet
          return ⟨.setTerm c.term, .addr, c.refFree⟩

end

/-- The first parameter whose name an earlier one has. -/
def duplicated : List VarId → List (VarId × ValueSort) → Option VarId
  | _, [] => none
  | seen, (v, _) :: params => if v ∈ seen then some v else duplicated (v :: seen) params

/-- The judgment of a definition, its body's root at the level. -/
def checkSigned (signed : SignedTerm) (depth : ℕ) : Outcome TypeError TypedTerm := do
  let ((), s) ← (chargeNodes signed.params.length).run {}
  Outcome.refuseSome (duplicated [] signed.params) .duplicateParameter
  let (checked, s) ← (checkTerm ch (maxDepth + 1) (Ctx.ofList signed.params) signed.body depth).run s
  return ⟨signed, checked.sort, checked.term, checked.refFree, s.deepest - depth⟩

/-- The judgment of a domain that binds only its own variables. -/
def checkClosedDom (d : Dom) : Outcome TypeError CheckedDom := do
  let (checked, _) ← (checkDom ch (maxDepth + 1) Ctx.empty d 0).run {}
  return checked

end

end Coordination
