import Skep.Address.Address
import Skep.Address.Span
import Skep.Identity.Key

/-!
# The entry frame

What a signature over an entry or over a record is made over: a frame of the key's
algorithm token, the board term, the account, the document term, the token of the
body's grammar and the body. A body is built by the builder of its grammar, row by row
onto its bytes. A length or an element that its field cannot count is a fault.
-/

namespace Identity

/-- Numbers in decimal, a dot between them. -/
def dotted : List ℕ → List Char
  | [] => []
  | [n] => Nat.toDigits 10 n
  | n :: m :: rest => Nat.toDigits 10 n ++ '.' :: dotted (m :: rest)

/-- A tumbler's spelling. -/
def spelled (t : Tumbler) : List UInt8 := utf8 (String.ofList (dotted t.comps))

def addressBytes (a : Address) : List UInt8 := spelled a.tumbler

section Rows

variable {ε : Type}

/-- Append an element behind its four-byte length. -/
def pushDelimited (out bs : List UInt8) : Outcome ε (List UInt8) := do
  Outcome.require (bs.length < 2 ^ 32)
  return out ++ delimited bs

/-- Write bytes over those that stand at an offset. -/
def overwrite (start : ℕ) (bs out : List UInt8) : Outcome ε (List UInt8) := do
  Outcome.require (start + bs.length ≤ out.length)
  return out.take start ++ bs ++ out.drop (start + bs.length)

/-- A value sequence under way: where its count is held, and the count. -/
structure ValueSequence where
  start : ℕ
  count : ℕ
  deriving DecidableEq

namespace ValueSequence

/-- Hold eight bytes for the count. -/
def hold (out : List UInt8) : ValueSequence × List UInt8 := (⟨out.length, 0⟩, out ++ beBytes 8 0)

def push (row : ValueSequence) (out value : List UInt8) : Outcome ε (ValueSequence × List UInt8) := do
  let out ← pushDelimited out value
  return (⟨row.start, row.count + 1⟩, out)

def close (row : ValueSequence) (out : List UInt8) : Outcome ε (List UInt8) :=
  overwrite row.start (beBytes 8 row.count) out

end ValueSequence

def pushValueSequence (out : List UInt8) (values : List (List UInt8)) : Outcome ε (List UInt8) := do
  let (row, out) ← values.foldlM (fun p value => p.1.push p.2 value) (ValueSequence.hold out)
  row.close out

def slotFormStored : UInt8 := 0x03

def addressListForm : UInt8 := 0x01

/-- A span by its start and its width. -/
def pushSpan (out : List UInt8) (span : Span) : Outcome ε (List UInt8) := do
  let out ← pushDelimited out (spelled span.start)
  pushDelimited out (spelled span.width)

/-- A link slot as it is stored, its count written back. -/
def pushSlot (out : List UInt8) (slot : List Span) : Outcome ε (List UInt8) := do
  let held := out ++ [slotFormStored]
  let rows ← slot.foldlM pushSpan (held ++ beBytes 8 0)
  overwrite held.length (beBytes 8 slot.length) rows

def pushAddressList (out : List UInt8) (addrs : List Address) : Outcome ε (List UInt8) :=
  addrs.foldlM (fun out a => pushDelimited out (addressBytes a))
    (out ++ addressListForm :: beBytes 8 addrs.length)

/-- A group that is empty where no address is named. -/
def pushOptionalAddress (out : List UInt8) (named : Option Address) : Outcome ε (List UInt8) := do
  let group ← (named.map fun a => pushAddressList [] [a]).getD (.ok [])
  pushDelimited out group

/-- A run by its first address and its width. -/
def pushWindow (out start : List UInt8) (width : ℕ) : Outcome ε (List UInt8) := do
  let out ← pushDelimited out start
  return out ++ beBytes 8 width

end Rows

inductive ContentFreeOp where
  | createNewDocument
  | fork
  | version
  deriving DecidableEq

inductive Grammar where
  | contentFree (op : ContentFreeOp)
  | insert
  | makeLink
  | emit
  | nullify
  | assertSup
  | editLink
  | publish
  | record
  deriving DecidableEq

namespace Grammar

def token : Grammar → String
  | contentFree .createNewDocument => "create_new_document"
  | contentFree .fork => "fork"
  | contentFree .version => "version"
  | insert => "insert"
  | makeLink => "make_link"
  | emit => "emit"
  | nullify => "nullify"
  | assertSup => "assert_sup"
  | editLink => "edit_link"
  | publish => "publish"
  | record => "record"

def namesTwoHomes : Grammar → Bool
  | editLink => true
  | _ => false

end Grammar

/-- A body, with the grammar that built it. -/
structure EntryBody where
  grammar : Grammar
  bytes : List UInt8
  deriving DecidableEq

def EntryBody.op (body : EntryBody) : String := body.grammar.token

/-- A link's three slots. -/
structure LinkSlots where
  fromSlot : List Span
  toSlot : List Span
  ty : List Span
  deriving DecidableEq

/-- A record's rows. -/
structure RecordRows where
  ty : Address
  toSlot : List Address
  replaces : Option Address
  lineageForkPoint : Option Address
  siglessCanonicalRecord : List UInt8
  deriving DecidableEq

section Builders

variable {ε : Type}

def entryBodyEmpty (op : ContentFreeOp) : EntryBody := ⟨.contentFree op, []⟩

def entryBodyInsert (declaredType : Option Address) (values : List (List UInt8)) : Outcome ε EntryBody := do
  let out ← pushDelimited [] ((declaredType.map addressBytes).getD [])
  let out ← pushValueSequence out values
  return ⟨.insert, out⟩

/-- The body of every link write: the type slot first, the `replaces` row last. -/
def linkWriteBody (grammar : Grammar) (slots : LinkSlots) (replaces : Option Address) :
    Outcome ε EntryBody := do
  let out ← pushSlot [] slots.ty
  let out ← pushSlot out slots.fromSlot
  let out ← pushSlot out slots.toSlot
  let out ← pushOptionalAddress out replaces
  return ⟨grammar, out⟩

def entryBodyMakeLink (slots : LinkSlots) : Outcome ε EntryBody := linkWriteBody .makeLink slots none

def entryBodyMakeLinkReplacing (slots : LinkSlots) (replaces : Address) : Outcome ε EntryBody :=
  linkWriteBody .makeLink slots (some replaces)

def entryBodyEmit (slots : LinkSlots) : Outcome ε EntryBody := linkWriteBody .emit slots none

def entryBodyNullify (slots : LinkSlots) : Outcome ε EntryBody := linkWriteBody .nullify slots none

def entryBodyAssertSup (slots : LinkSlots) : Outcome ε EntryBody := linkWriteBody .assertSup slots none

def entryBodyEditLink (successor : LinkSlots) (original : Span) : Outcome ε EntryBody := do
  let body ← linkWriteBody .editLink successor none
  let bytes ← pushSlot body.bytes [original]
  return ⟨body.grammar, bytes⟩

def entryBodyRecord (rows : RecordRows) : Outcome ε EntryBody := do
  let out ← pushAddressList [] [rows.ty]
  let out ← pushAddressList out rows.toSlot
  let out ← pushOptionalAddress out rows.replaces
  let out ← pushOptionalAddress out rows.lineageForkPoint
  let out ← pushDelimited out rows.siglessCanonicalRecord
  return ⟨.record, out⟩

end Builders

/-- What an entry writes into: one address, or the two homes of a link's edit. -/
inductive DocTerm where
  | one (a : Address)
  | pair (dS dA : Address)
  deriving DecidableEq

def DocTerm.namesTwoHomes : DocTerm → Bool
  | one _ => false
  | pair _ _ => true

def docBytes : DocTerm → Outcome Empty (List UInt8)
  | .one a => .ok (addressBytes a)
  | .pair dS dA => pushAddressList [] [dS, dA]

/-- A position of the log and the chain value there. -/
structure BoardTerm where
  logPosition : UInt64
  chain : Bytes32
  deriving DecidableEq

def boardBytes (board : BoardTerm) : List UInt8 := beBytes 8 board.logPosition.toNat ++ board.chain.1

/-- The bytes a signature covers. A document term that is not of the grammar's shape is a
fault. -/
def entryFrame (alg : String) (board : BoardTerm) (account : Address) (doc : DocTerm) (body : EntryBody) :
    Outcome Empty (List UInt8) := do
  Outcome.require (doc.namesTwoHomes = body.grammar.namesTwoHomes)
  let docTerm ← docBytes doc
  framed .entry [utf8 alg, boardBytes board, addressBytes account, docTerm, utf8 body.op, body.bytes]

/-- What a record's signature covers, but for the algorithm. -/
structure RecordFrame where
  board : BoardTerm
  homeAccount : Address
  home : Address
  rows : RecordRows
  deriving DecidableEq

def RecordFrame.toBytes (frame : RecordFrame) (alg : String) : Outcome Empty (List UInt8) := do
  let body ← entryBodyRecord frame.rows
  entryFrame alg frame.board frame.homeAccount (.one frame.home) body

end Identity
