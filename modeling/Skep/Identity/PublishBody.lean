import Skep.Identity.Entry

/-!
# The `publish` body

The body of a shot is the count of the positions it places, its pieces as segments and
its base. It is built piece by piece under a budget, which the finished body never
passes. A publication's deposits follow it, a group each.
-/

namespace Identity

/-- The greatest `usize` and the greatest `u64`. -/
def wordMax : ℕ := 2 ^ 64 - 1

def saturatingAdd (a b : ℕ) : ℕ := min (a + b) wordMax

/-- The bytes an element takes behind its length. -/
def delimitedLen (len : ℕ) : ℕ := saturatingAdd len 4

def segmentWindow : UInt8 := 0x01

def segmentValueStretch : UInt8 := 0x02

/-- A width of at least one. -/
abbrev NonZeroU64 := {w : UInt64 // w ≠ 0}

/-- A piece of a shot: a position by its value, or a run by its address. -/
inductive ShotSegmentPiece where
  | value (bs : List UInt8)
  | window (start : Address) (width : NonZeroU64)
  deriving DecidableEq

/-- The member a shot was copied from, and how much of it. -/
structure ShotBase where
  member : Address
  extent : UInt64
  deriving DecidableEq

inductive PublishRefusal where
  | pastBudget
  | unspellable
  deriving DecidableEq

section PublishBody

variable {ε : Type}

/-- The group a base is spelled as, empty where there is none. -/
def baseGroupOf : Option ShotBase → Outcome ε (List UInt8)
  | none => .ok []
  | some base => do
      let out ← pushAddressList [] [base.member]
      return out ++ beBytes 8 base.extent.toNat

def pushBase (out : List UInt8) (base : Option ShotBase) : Outcome ε (List UInt8) := do
  let group ← baseGroupOf base
  pushDelimited out group

/-- A body under way: its bytes, the stretch of values that is open, the positions placed,
the base group to come, and the budget. -/
structure PublishBody where
  bytes : List UInt8
  stretch : Option ValueSequence
  placed : ℕ
  baseGroup : List UInt8
  budget : ℕ
  deriving DecidableEq

namespace PublishBody

/-- The body of no segments. -/
def within (budget : ℕ) (base : Option ShotBase) : Outcome PublishRefusal PublishBody := do
  let baseGroup ← pushBase [] base
  Outcome.refuseIf (budget < (beBytes 8 0).length + baseGroup.length) .pastBudget
  return ⟨beBytes 8 0, none, 0, baseGroup, budget⟩

def finishedLen (body : PublishBody) : ℕ := body.bytes.length + body.baseGroup.length

/-- The stretch the next value joins, opened where there is none. -/
def openStretch (body : PublishBody) : ValueSequence × List UInt8 :=
  match body.stretch with
  | some stretch => (stretch, body.bytes)
  | none => ValueSequence.hold (body.bytes ++ [segmentValueStretch])

/-- Close the stretch that is open. -/
def closeStretch (body : PublishBody) : Outcome ε (List UInt8) :=
  match body.stretch with
  | some stretch => stretch.close body.bytes
  | none => .ok body.bytes

/-- A value as the next position. -/
def push (body : PublishBody) (value : List UInt8) : Outcome PublishRefusal PublishBody := do
  Outcome.refuseIf (wordMax < body.placed + 1) .unspellable
  let opening := if body.stretch.isSome then 0 else 1 + 8
  let cost := saturatingAdd opening (delimitedLen value.length)
  Outcome.refuseIf (body.budget < saturatingAdd body.finishedLen cost) .pastBudget
  let (stretch, bytes) ← body.openStretch.1.push body.openStretch.2 value
  return ⟨bytes, some stretch, body.placed + 1, body.baseGroup, body.budget⟩

/-- A run as the next positions. -/
def window (body : PublishBody) (start : Address) (width : NonZeroU64) :
    Outcome PublishRefusal PublishBody := do
  Outcome.refuseIf (wordMax < body.placed + width.1.toNat) .unspellable
  let cost := saturatingAdd (saturatingAdd 1 (delimitedLen (addressBytes start).length)) 8
  Outcome.refuseIf (body.budget < saturatingAdd body.finishedLen cost) .pastBudget
  let bytes ← body.closeStretch
  let bytes ← pushWindow (bytes ++ [segmentWindow]) (addressBytes start) width.1.toNat
  return ⟨bytes, none, body.placed + width.1.toNat, body.baseGroup, body.budget⟩

/-- The finished body: its count written, its base behind it. -/
def finish (body : PublishBody) : Outcome ε EntryBody := do
  let bytes ← body.closeStretch
  let bytes ← overwrite 0 (beBytes 8 body.placed) bytes
  return ⟨.publish, bytes ++ body.baseGroup⟩

/-- A piece by its kind. -/
def take (body : PublishBody) : ShotSegmentPiece → Outcome PublishRefusal PublishBody
  | .value bs => body.push bs
  | .window start width => body.window start width

end PublishBody

/-- A body built of the pieces in order, under a budget. -/
def budgetedBody (budget : ℕ) (pieces : List ShotSegmentPiece) (base : Option ShotBase) :
    Outcome PublishRefusal EntryBody := do
  let empty ← PublishBody.within budget base
  let body ← pieces.foldlM PublishBody.take empty
  body.finish

/-- A body built of the pieces in order. A refusal is a fault. -/
def entryBodyPublish (pieces : List ShotSegmentPiece) (base : Option ShotBase) : Outcome ε EntryBody :=
  (budgetedBody wordMax pieces base).expect

end PublishBody

/-- The home of a deposit: one the commit mints, by its tag, or one that stands. -/
inductive DepositHome where
  | member
  | edition
  | address (a : Address)
  deriving DecidableEq

inductive DepositKind where
  | editionClaim
  | copy
  | retraction
  | readWith
  | supersede
  deriving DecidableEq

def DepositKind.byte : DepositKind → UInt8
  | editionClaim => 0x01
  | copy => 0x02
  | retraction => 0x03
  | readWith => 0x04
  | supersede => 0x05

/-- An element of a stored slot: a span, or an address the commit mints, by its tag. -/
inductive SlotElement where
  | span (s : Span)
  | member
  | edition
  deriving DecidableEq

/-- A span of the member's positions. -/
structure MemberPositions where
  ordinal : UInt64
  width : UInt64
  deriving DecidableEq

inductive DepositSlot where
  | stored (elements : List SlotElement)
  | memberPositions (spans : List MemberPositions)
  deriving DecidableEq

structure DepositRow where
  home : DepositHome
  kind : DepositKind
  ty : DepositSlot
  fromSlot : DepositSlot
  toSlot : DepositSlot
  deriving DecidableEq

def memberPositionsForm : UInt8 := 0x04

def memberTag : List UInt8 := utf8 "member"

def editionTag : List UInt8 := utf8 "edition"

section Deposits

variable {ε : Type}

/-- An element as two: a span's start and width, or a tag and nothing. -/
def pushSlotElement (out : List UInt8) : SlotElement → Outcome ε (List UInt8)
  | .span s => pushSpan out s
  | .member => do
      let out ← pushDelimited out memberTag
      pushDelimited out []
  | .edition => do
      let out ← pushDelimited out editionTag
      pushDelimited out []

def pushDepositSlot (out : List UInt8) : DepositSlot → Outcome ε (List UInt8)
  | .stored elements =>
      elements.foldlM pushSlotElement (out ++ slotFormStored :: beBytes 8 elements.length)
  | .memberPositions spans =>
      .ok (out ++ memberPositionsForm :: beBytes 8 spans.length ++
        spans.flatMap fun span => beBytes 8 span.ordinal.toNat ++ beBytes 8 span.width.toNat)

def DepositHome.bytes : DepositHome → List UInt8
  | member => memberTag
  | edition => editionTag
  | address a => addressBytes a

def pushDeposit (out : List UInt8) (deposit : DepositRow) : Outcome ε (List UInt8) := do
  let out ← pushDelimited out deposit.home.bytes
  let out ← pushDepositSlot (out ++ [deposit.kind.byte]) deposit.ty
  let out ← pushDepositSlot out deposit.fromSlot
  let out ← pushDepositSlot out deposit.toSlot
  pushOptionalAddress out none

/-- A shot's body with its deposits behind it. A body of another grammar is a fault. -/
def entryBodyPublication (shot : EntryBody) (deposits : List DepositRow) : Outcome ε EntryBody := do
  Outcome.require (shot.grammar = .publish)
  let bytes ← deposits.foldlM pushDeposit shot.bytes
  return ⟨shot.grammar, bytes⟩

end Deposits

end Identity
