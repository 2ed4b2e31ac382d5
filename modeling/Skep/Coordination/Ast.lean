import Skep.Links.State

/-!
# The predicate language

Terms and domains of the predicate language, and the values they denote. The
constructors that differ only in the operation they apply to their evaluated
operands are one constructor with the operation as its argument: the source's
atoms and primitives are `unary`, `binary`, `members`, `tuple` and
`inCoverage`, and its `Count`, `MaxT1`, `MinT1` and `Reflect` are `aggregate`.
-/

namespace Coordination

/-- Names from here on are the expansion's own. -/
def expansionNameBase : ℕ := 2 ^ 31

/-- A variable's name. -/
structure VarId where
  index : ℕ
  deriving DecidableEq, Repr

/-- A name of a submitted term. -/
def VarId.new (v : ℕ) : Option VarId := if expansionNameBase ≤ v then none else some ⟨v⟩

/-- The expansion's `n`-th name. The names it takes are bounded by the node budget,
far below where the source's counter would run out. -/
def VarId.expansion (n : ℕ) : VarId := ⟨expansionNameBase + n⟩

/-- A registered type, by the endset that names it. -/
abbrev TypeKey := Endset

inductive TypeRef where
  | concrete (k : TypeKey)
  | classVar (v : VarId)
  deriving DecidableEq

inductive Lit where
  | bool (b : Bool)
  | nat (n : ℕ)
  | addr (a : Address)
  | botAddr
  | botNat
  deriving DecidableEq

/-- The atoms that read a type at one operand. -/
inductive KeyedRead where
  | isK
  | targetsOf
  | isFiltered
  | succs
  | chain
  | tip
  | sourcesTo
  | targetOf
  | age
  | stale
  deriving DecidableEq, Repr

/-- The operations on one operand: atoms, primitives and `Not`. -/
inductive UnaryOp where
  | keyed (r : KeyedRead) (tr : TypeRef)
  | targetsKeyed
  | isDoc
  | isEmpty
  | elems
  | mapGet (tr : TypeRef)
  | defined
  | not
  deriving DecidableEq

/-- The operations on two operands. -/
inductive BinaryOp where
  | isInChain (tr : TypeRef)
  | addrEq
  | prefixOf
  | t1Lt
  | setMem
  | setEq
  | natEq
  | natLe
  | natAdd
  deriving DecidableEq

inductive Connective where
  | and
  | or
  | implies
  | iff
  deriving DecidableEq, Repr

inductive Quantifier where
  | all
  | any
  deriving DecidableEq, Repr

/-- The slot of a tuple. -/
inductive Slot where
  | f
  | g
  deriving DecidableEq, Repr

/-- The atoms that read a tuple variable alone. -/
inductive TupleRead where
  | addr
  | addrs (slot : Slot)
  deriving DecidableEq, Repr

inductive Aggregate where
  | count
  | maxT1
  | minT1
  | reflect
  deriving DecidableEq, Repr

/-- The domains that read a type: its members, or its active or audit tuples. -/
inductive DomRead where
  | members
  | active
  | audit
  deriving DecidableEq, Repr

mutual

inductive Term where
  | var (v : VarId)
  | lit (l : Lit)
  | members (tr : TypeRef)
  | tuple (r : TupleRead) (v : VarId)
  | inCoverage (slot : Slot) (e : Term) (v : VarId)
  | unary (op : UnaryOp) (e : Term)
  | binary (op : BinaryOp) (x y : Term)
  | connective (op : Connective) (x y : Term)
  | quantified (q : Quantifier) (var : VarId) (dom : Dom) (body : Term)
  | letIn (var : VarId) (bound body : Term)
  | ifSome (opt : Term) (var : VarId) (thenTerm elseTerm : Term)
  | aggregate (op : Aggregate) (dom : Dom)
  | bigUnion (dom : Dom) (var : VarId) (body : Term)
  | ref (addr : Address) (args : List Term)

inductive Dom where
  | read (r : DomRead) (tr : TypeRef)
  | linkDom
  | reg
  | filter (dom : Dom) (var : VarId) (pred : Term)
  | setTerm (t : Term)

end

/-- The sort of a value. -/
inductive ValueSort where
  | bool
  | addr
  | addrSet
  | optAddr
  | addrSeq
  | map
  | nat
  | optNat
  | tup
  deriving DecidableEq, Repr

inductive Value where
  | bool (b : Bool)
  | addr (a : Address)
  | addrSet (s : OrdSet Address)
  | optAddr (o : Option Address)
  | addrSeq (l : List Address)
  | map (m : List (CoverageClass × Address))
  | nat (n : ℕ)
  | optNat (o : Option ℕ)
  | tuple (t : Tuple)
  deriving DecidableEq

def Value.sort : Value → ValueSort
  | .bool _ => .bool
  | .addr _ => .addr
  | .addrSet _ => .addrSet
  | .optAddr _ => .optAddr
  | .addrSeq _ => .addrSeq
  | .map _ => .map
  | .nat _ => .nat
  | .optNat _ => .optNat
  | .tuple _ => .tup

/-- An element of a domain. -/
inductive Arg where
  | addr (a : Address)
  | tuple (t : Tuple)
  deriving DecidableEq

namespace Arg

/-- The address a fire at the element names. -/
def keyAddr : Arg → Address
  | .addr a => a
  | .tuple t => t.addr

def sameElement : Arg → Arg → Bool
  | .addr a, .addr b => a == b
  | .tuple t, .tuple u => t.addr == u.addr
  | _, _ => false

def toValue : Arg → Value
  | .addr a => .addr a
  | .tuple t => .tuple t

def sort : Arg → ValueSort
  | .addr _ => .addr
  | .tuple _ => .tup

@[simp] theorem sort_toValue (e : Arg) : e.toValue.sort = e.sort := by cases e <;> rfl

end Arg

/-- The stored slice a view reads. -/
inductive Slice where
  | active
  | audit
  deriving DecidableEq, Repr

def Slice.of : View → Slice
  | .audit => .audit
  | .active | .default => .active

def Slice.view : Slice → View
  | .active => .active
  | .audit => .audit

/-- What the free variables of a term stand for. -/
abbrev Env := VarId → Option Value

namespace Env

def empty : Env := fun _ => none

def bind (env : Env) (v : VarId) (x : Value) : Env := fun u => if u = v then some x else env u

/-- The bindings in order, a later one of a name over an earlier. -/
def ofList (l : List (VarId × Value)) : Env := l.foldl (fun env b => env.bind b.1 b.2) empty

@[simp] theorem bind_self (env : Env) (v : VarId) (x : Value) : env.bind v x v = some x :=
  if_pos rfl

theorem bind_of_ne (env : Env) {v u : VarId} (x : Value) (h : u ≠ v) : env.bind v x u = env u :=
  if_neg h

end Env

/-- A name that a submission can hold. -/
def VarId.IsSubmitted (v : VarId) : Prop := v.index < expansionNameBase

mutual

/-- Whether every variable that a term binds or uses has the property. -/
def Term.Names (p : VarId → Prop) : Term → Prop
  | .lit _ | .members _ => True
  | .var v | .tuple _ v => p v
  | .inCoverage _ e v => e.Names p ∧ p v
  | .unary _ e => e.Names p
  | .binary _ x y | .connective _ x y => x.Names p ∧ y.Names p
  | .quantified _ var d body | .bigUnion d var body => p var ∧ d.Names p ∧ body.Names p
  | .letIn var bound body => p var ∧ bound.Names p ∧ body.Names p
  | .ifSome opt var thenTerm elseTerm => p var ∧ opt.Names p ∧ thenTerm.Names p ∧ elseTerm.Names p
  | .aggregate _ d => d.Names p
  | .ref _ args => argNames p args

def argNames (p : VarId → Prop) : List Term → Prop
  | [] => True
  | t :: ts => t.Names p ∧ argNames p ts

def Dom.Names (p : VarId → Prop) : Dom → Prop
  | .read _ _ | .linkDom | .reg => True
  | .filter d var pred => p var ∧ d.Names p ∧ pred.Names p
  | .setTerm t => t.Names p

end

/-- A submitted definition. Its names come from `VarId.new`, so none is reserved. -/
structure SignedTerm where
  params : List (VarId × ValueSort)
  body : Term
  submitted : (∀ p ∈ params, p.1.IsSubmitted) ∧ body.Names VarId.IsSubmitted

/-- A checked definition: the submission, its result sort, and the term that is
evaluated in the body's place. `reach` is how deep its derivation runs. -/
structure TypedTerm where
  signed : SignedTerm
  result : ValueSort
  evaluable : Term
  refFree : Bool
  reach : ℕ

def TypedTerm.params (t : TypedTerm) : List (VarId × ValueSort) := t.signed.params

/-- The definitions that references resolve to. -/
abbrev DefSource := Address → Option TypedTerm

end Coordination
