import Skep.Coordination.Check
import Skep.Library.Metered
import Skep.Links.CoverageIdentity

/-!
# The bytes of a definition

A submitted definition is stored as the bytes of its parameters and its body, behind their length.
Each family of formers numbers its own from 1. The reader refuses what is nested too deep and what
would cost more than the node budget, and pays for every count before it reads what is counted.
-/

namespace Coordination

def KeyedRead.tag : KeyedRead → UInt8
  | .isK => 1
  | .targetsOf => 3
  | .isFiltered => 4
  | .succs => 5
  | .chain => 6
  | .tip => 7
  | .sourcesTo => 9
  | .targetOf => 10
  | .age => 12
  | .stale => 13

def TupleRead.tag : TupleRead → UInt8
  | .addr => 15
  | .addrs .f => 16
  | .addrs .g => 17

/-- The tag of the atom that asks for coverage by a slot. -/
def Slot.coverageTag : Slot → UInt8
  | .f => 18
  | .g => 19

def Connective.tag : Connective → UInt8
  | .and => 5
  | .or => 6
  | .implies => 8
  | .iff => 9

def Quantifier.tag : Quantifier → UInt8
  | .all => 10
  | .any => 11

def Aggregate.tag : Aggregate → UInt8
  | .count => 14
  | .maxT1 => 15
  | .minT1 => 16
  | .reflect => 18

def DomRead.tag : DomRead → UInt8
  | .members => 1
  | .active => 2
  | .audit => 3

/-- A tuple has no tag: a stored definition's parameters are of the other sorts. -/
def sortTag : ValueSort → Outcome Empty UInt8
  | .bool => .ok 1
  | .addr => .ok 2
  | .addrSet => .ok 3
  | .optAddr => .ok 4
  | .addrSeq => .ok 5
  | .map => .ok 6
  | .nat => .ok 7
  | .optNat => .ok 8
  | .tup => .fault

def wVarid (v : VarId) : List UInt8 := varintBytes v.index

def wNat (n : ℕ) : List UInt8 := varintBytes (natBytes n).length ++ natBytes n

def wTumbler (t : Tumbler) : List UInt8 := Metered.countedBytes wNat t.comps

def wAddr (a : Address) : List UInt8 := wTumbler a.tumbler

def wSpan (s : Span) : List UInt8 := wTumbler s.start ++ wTumbler s.width

def wEndset (e : Endset) : List UInt8 := Metered.countedBytes wSpan e.spans

def wTyperef : TypeRef → List UInt8
  | .concrete k => 1 :: wEndset k
  | .classVar v => 2 :: wVarid v

def wLit : Lit → List UInt8
  | .bool true => [1]
  | .bool false => [2]
  | .nat n => 3 :: wNat n
  | .addr a => 4 :: wAddr a
  | .botAddr => [5]
  | .botNat => [6]

/-- What stands before the operand. -/
def UnaryOp.head : UnaryOp → List UInt8
  | .keyed r tr => 3 :: r.tag :: wTyperef tr
  | .targetsKeyed => [3, 11]
  | .isDoc => [3, 14]
  | .isEmpty => [4, 6]
  | .elems => [4, 7]
  | .mapGet _ => [4, 11]
  | .defined => [4, 12]
  | .not => [7]

/-- What stands after the operand. -/
def UnaryOp.foot : UnaryOp → List UInt8
  | .mapGet tr => wTyperef tr
  | .keyed .. | .targetsKeyed | .isDoc | .isEmpty | .elems | .defined | .not => []

def BinaryOp.head : BinaryOp → List UInt8
  | .isInChain tr => 3 :: 8 :: wTyperef tr
  | .addrEq => [4, 1]
  | .prefixOf => [4, 2]
  | .t1Lt => [4, 3]
  | .setMem => [4, 4]
  | .setEq => [4, 5]
  | .natEq => [4, 8]
  | .natLe => [4, 9]
  | .natAdd => [4, 10]

mutual

@[simp] def wTerm : Term → List UInt8
  | .var v => 1 :: wVarid v
  | .lit l => 2 :: wLit l
  | .members tr => 3 :: 2 :: wTyperef tr
  | .tuple r v => 3 :: r.tag :: wVarid v
  | .inCoverage slot e v => 3 :: slot.coverageTag :: (wTerm e ++ wVarid v)
  | .unary op e => op.head ++ (wTerm e ++ op.foot)
  | .binary op x y => op.head ++ (wTerm x ++ wTerm y)
  | .connective op x y => op.tag :: (wTerm x ++ wTerm y)
  | .quantified q var d body => q.tag :: (wVarid var ++ (wDom d ++ wTerm body))
  | .letIn var bound body => 12 :: (wVarid var ++ (wTerm bound ++ wTerm body))
  | .ifSome opt var thenTerm elseTerm => 13 :: (wTerm opt ++ (wVarid var ++ (wTerm thenTerm ++ wTerm elseTerm)))
  | .aggregate op d => op.tag :: wDom d
  | .bigUnion d var body => 17 :: (wDom d ++ (wVarid var ++ wTerm body))
  | .ref addr args => 19 :: (wAddr addr ++ (varintBytes args.length ++ wArgs args))

@[simp] def wArgs : List Term → List UInt8
  | [] => []
  | t :: ts => wTerm t ++ wArgs ts

@[simp] def wDom : Dom → List UInt8
  | .read r tr => r.tag :: wTyperef tr
  | .linkDom => [4]
  | .reg => [5]
  | .filter d var pred => 6 :: (wDom d ++ (wVarid var ++ wTerm pred))
  | .setTerm t => 7 :: wTerm t

end

/-- The bytes of a definition. A parameter that has no tag is a bug of the caller's. -/
def encode (s : SignedTerm) : Outcome Empty (List UInt8) := do
  let params ← s.params.mapM fun p => do
    let tag ← sortTag p.2
    return wVarid p.1 ++ [tag]
  let payload := varintBytes s.params.length ++ (params.flatten ++ wTerm s.body)
  return varintBytes payload.length ++ payload

namespace DefReader

open Metered

variable {limit : ℕ}

/-- A name that a submission can hold. -/
def varid : Metered limit VarId := do
  let x ← varint
  ofOption (VarId.new x)

def sort : Metered limit ValueSort :=
  tagged [(1, pure .bool), (2, pure .addr), (3, pure .addrSet), (4, pure .optAddr), (5, pure .addrSeq),
    (6, pure .map), (7, pure .nat), (8, pure .optNat)]

/-- Big-endian bytes without a leading zero, but for zero's own. -/
def isCanonical : List UInt8 → Bool
  | [] => false
  | [_] => true
  | b :: _ :: _ => b != 0

/-- A natural behind its length, its limbs paid for first. -/
def nat : Metered limit ℕ := do
  let len ← varint
  pay ((len + 7) / 8)
  let bytes ← take len
  ensure (isCanonical bytes)
  return leNat bytes.reverse

/-- A tumbler has a component. -/
def tumbler : Metered limit Tumbler := do
  let comps ← counted nat
  ofOption (Tumbler.new comps)

def addr : Metered limit Address := do
  let t ← tumbler
  ofOption (validate t).toOption

def span : Metered limit Span := do
  let start ← tumbler
  let width ← tumbler
  ofOption (Span.new start width).toOption

def endset : Metered limit Endset := do
  let spans ← counted span
  return ⟨spans⟩

def typeref : Metered limit TypeRef :=
  tagged [
    (1, do
      let k ← endset
      return .concrete k),
    (2, do
      let v ← varid
      return .classVar v)]

def lit : Metered limit Lit :=
  tagged [
    (1, pure (.bool true)),
    (2, pure (.bool false)),
    (3, do
      let n ← nat
      return .nat n),
    (4, do
      let a ← addr
      return .addr a),
    (5, pure .botAddr),
    (6, pure .botNat)]

section

variable (term : Metered limit Term) (dom : Metered limit Dom)

def keyed (r : KeyedRead) : Metered limit Term := do
  let tr ← typeref
  let e ← term
  return .unary (.keyed r tr) e

def unary (op : UnaryOp) : Metered limit Term := do
  let e ← term
  return .unary op e

def binary (op : BinaryOp) : Metered limit Term := do
  let x ← term
  let y ← term
  return .binary op x y

def tuple (r : TupleRead) : Metered limit Term := do
  let v ← varid
  return .tuple r v

def inCoverage (slot : Slot) : Metered limit Term := do
  let e ← term
  let v ← varid
  return .inCoverage slot e v

def connective (op : Connective) : Metered limit Term := do
  let x ← term
  let y ← term
  return .connective op x y

def quantified (q : Quantifier) : Metered limit Term := do
  let var ← varid
  let d ← dom
  let body ← term
  return .quantified q var d body

def aggregate (op : Aggregate) : Metered limit Term := do
  let d ← dom
  return .aggregate op d

def read (r : DomRead) : Metered limit Dom := do
  let tr ← typeref
  return .read r tr

def atom : Metered limit Term :=
  tagged [
    (1, keyed term .isK),
    (2, do
      let tr ← typeref
      return .members tr),
    (3, keyed term .targetsOf),
    (4, keyed term .isFiltered),
    (5, keyed term .succs),
    (6, keyed term .chain),
    (7, keyed term .tip),
    (8, do
      let tr ← typeref
      let x ← term
      let y ← term
      return .binary (.isInChain tr) x y),
    (9, keyed term .sourcesTo),
    (10, keyed term .targetOf),
    (11, unary term .targetsKeyed),
    (12, keyed term .age),
    (13, keyed term .stale),
    (14, unary term .isDoc),
    (15, tuple .addr),
    (16, tuple (.addrs .f)),
    (17, tuple (.addrs .g)),
    (18, inCoverage term .f),
    (19, inCoverage term .g)]

def prim : Metered limit Term :=
  tagged [
    (1, binary term .addrEq),
    (2, binary term .prefixOf),
    (3, binary term .t1Lt),
    (4, binary term .setMem),
    (5, binary term .setEq),
    (6, unary term .isEmpty),
    (7, unary term .elems),
    (8, binary term .natEq),
    (9, binary term .natLe),
    (10, binary term .natAdd),
    (11, do
      let e ← term
      let tr ← typeref
      return .unary (.mapGet tr) e),
    (12, unary term .defined)]

/-- A term, its own formers read by `term` and `dom` a level below. -/
def termForms : Metered limit Term :=
  tagged [
    (1, do
      let v ← varid
      return .var v),
    (2, do
      let l ← lit
      return .lit l),
    (3, atom term),
    (4, prim term),
    (5, connective term .and),
    (6, connective term .or),
    (7, unary term .not),
    (8, connective term .implies),
    (9, connective term .iff),
    (10, quantified term dom .all),
    (11, quantified term dom .any),
    (12, do
      let var ← varid
      let bound ← term
      let body ← term
      return .letIn var bound body),
    (13, do
      let opt ← term
      let var ← varid
      let thenTerm ← term
      let elseTerm ← term
      return .ifSome opt var thenTerm elseTerm),
    (14, aggregate dom .count),
    (15, aggregate dom .maxT1),
    (16, aggregate dom .minT1),
    (17, do
      let d ← dom
      let var ← varid
      let body ← term
      return .bigUnion d var body),
    (18, aggregate dom .reflect),
    (19, do
      let a ← addr
      let args ← counted term
      return .ref a args)]

def domForms : Metered limit Dom :=
  tagged [
    (1, read .members),
    (2, read .active),
    (3, read .audit),
    (4, pure .linkDom),
    (5, pure .reg),
    (6, do
      let d ← dom
      let var ← varid
      let pred ← term
      return .filter d var pred),
    (7, do
      let t ← term
      return .setTerm t)]

end

/-- A former of either kind with `levels` levels left, its own unit paid for first. -/
def formers : (levels : ℕ) → Metered limit Term × Metered limit Dom
  | 0 => (fail, fail)
  | levels + 1 =>
      let (term, dom) := formers levels
      (do
        pay 1
        termForms term dom,
       do
        pay 1
        domForms term dom)

/-- The whole of the input: the length, the parameters, the body, and nothing after it. -/
def signed (levels : ℕ) : Metered limit (List (VarId × ValueSort) × Term) := do
  let len ← varint
  let here ← left
  ensure (here == len)
  let params ← countedUpTo len do
    let v ← varid
    let s ← sort
    return (v, s)
  let body ← (formers levels).1
  let after ← left
  ensure (after == 0)
  return (params, body)

end DefReader

/-- The definition that a byte string stores. The budget is the limit of what is built, and no
former stands below the deepest level. -/
def decodeParts (bytes : List UInt8) : Option (List (VarId × ValueSort) × Term) :=
  (DefReader.signed (maxDepth + 1) (.start maxTermNodes bytes)).map Prod.fst

end Coordination
