import Skep.Identity.Entry
import Skep.Identity.Payload

/-!
# The bodies of the registry's records

A binding's and an endpoint's body: a flat JSON object in one canonical spelling, its
type, its own member, the record it replaces and a signature where it carries them. What
is read is spelled again and compared. The JSON reader and the reader of a decimal
natural are parameters.
-/

namespace Registry

def maxRegistryRecordBytes : ℕ := 16 * 1024

/-- The two kinds whose bodies are read. -/
inductive BodyKind where
  | binding
  | endpoint
  deriving DecidableEq

/-- The `type` member's text. -/
def BodyKind.typeValue : BodyKind → String
  | binding => "binding"
  | endpoint => "endpoint"

/-- A binding's body. -/
structure Binding where
  pre : Address
  replaces : Option Address
  deriving DecidableEq

/-- An endpoint's origins in the org's order, one at least. -/
structure Origins where
  list : List String
  ne_nil : list ≠ []
  deriving DecidableEq

def Origins.new (origins : List String) : Option Origins :=
  if h : origins = [] then none else some ⟨origins, h⟩

/-- An endpoint's body. -/
structure Endpoint where
  origins : Origins
  replaces : Option Address
  deriving DecidableEq

/-- A body of one of the two kinds, its signature aside. -/
inductive Body where
  | binding (b : Binding)
  | endpoint (e : Endpoint)
  deriving DecidableEq

namespace Body

def kind : Body → BodyKind
  | binding _ => .binding
  | endpoint _ => .endpoint

def replaces : Body → Option Address
  | binding b => b.replaces
  | endpoint e => e.replaces

end Body

/-- A body and its signature's text as it stands. -/
structure Record where
  body : Body
  sig : Option String
  deriving DecidableEq

/-- A member beside `type`. -/
inductive Member where
  | pre
  | origins
  | replaces
  | sig
  deriving DecidableEq

def Member.name : Member → String
  | pre => "prefix"
  | origins => "origins"
  | replaces => "replaces"
  | sig => "sig"

/-- Why bytes are no record of the kind named, in the order of the reader's stages. -/
inductive ParseRefusal where
  | pastCap
  | notUtf8
  | notJson
  | notAnObject
  | number
  | wrongType
  | unknownMember
  | missingMember (m : Member)
  | notAString (m : Member)
  | notAnAddress (m : Member)
  | originsNotStrings
  | emptyOrigins
  | notCanonical
  deriving DecidableEq

/-- An address in dotted decimal. -/
def render (a : Address) : String := String.ofList (Identity.dotted a.tumbler.comps)

def escapeJsonString (s : String) : List Char := Identity.escapeJsonString s

/-- A member's opening. -/
def pushMemberOpening (m : Member) : List Char := ",\"".toList ++ m.name.toList ++ "\":".toList

/-- The canonical form of a body, with its signature where one is given. -/
def encode (body : Body) (sig : Option String) : String :=
  String.ofList ("\x7b\"type\":\"".toList ++ body.kind.typeValue.toList ++ ['"'] ++
    (match body with
      | .binding b => pushMemberOpening .pre ++ escapeJsonString (render b.pre)
      | .endpoint e => pushMemberOpening .origins ++ ['['] ++
          Json.joined (e.origins.list.map escapeJsonString) ++ [']']) ++
    (match body.replaces with
      | some replaces => pushMemberOpening .replaces ++ escapeJsonString (render replaces)
      | none => []) ++
    (match sig with
      | some sig => pushMemberOpening .sig ++ escapeJsonString sig
      | none => []) ++ ['}'])

mutual

/-- Whether any value in the tree is a number. -/
def holdsANumber : Json → Bool
  | .number _ => true
  | .array items => anyHoldsANumber items
  | .object members => anyMemberHoldsANumber members
  | .null => false
  | .bool _ => false
  | .string _ => false

def anyHoldsANumber : List Json → Bool
  | [] => false
  | v :: items => holdsANumber v || anyHoldsANumber items

def anyMemberHoldsANumber : List (String × Json) → Bool
  | [] => false
  | (_, v) :: members => holdsANumber v || anyMemberHoldsANumber members

end

section Reader

variable (fromStr : String → Option Json) (natOf : String → Option ℕ)

/-- The address a text spells, where the text is that address's rendering. -/
def addressOf (s : String) : Option Address := do
  let comps ← (s.toList.splitOn '.').mapM fun c => natOf (String.ofList c)
  if h : comps = [] then none
  else
    match validate ⟨comps, h⟩ with
    | .ok address => if render address = s then some address else none
    | _ => none

/-- An address member, none where the body carries no such member. -/
def addressMember (object : List (String × Json)) (m : Member) :
    Outcome ParseRefusal (Option Address) :=
  match Json.getMember object m.name with
  | none => .ok none
  | some (.string s) => some <$> Outcome.okOr (addressOf natOf s) (.notAnAddress m)
  | some _ => .err (.notAString m)

/-- The signature of a record, where it has one. -/
def sigMember : Option Json → Outcome ParseRefusal (Option String)
  | none => .ok none
  | some (.string s) => .ok (some s)
  | some _ => .err (.notAString .sig)

/-- One origin. -/
def originOf (v : Json) : Outcome ParseRefusal String := Outcome.okOr v.asStr .originsNotStrings

/-- The row's own member and the body it makes. -/
def parseBody (object : List (String × Json)) (replaces : Option Address) :
    BodyKind → Outcome ParseRefusal Body
  | .binding => do
      let pre ← addressMember natOf object .pre
      let pre ← Outcome.okOr pre (.missingMember .pre)
      return .binding ⟨pre, replaces⟩
  | .endpoint => do
      let origins ← Outcome.okOr (Json.getMember object Member.origins.name) (.missingMember .origins)
      let origins ← Outcome.okOr origins.asArray .originsNotStrings
      let origins ← origins.mapM originOf
      let origins ← Outcome.okOr (Origins.new origins) .emptyOrigins
      return .endpoint ⟨origins, replaces⟩

/-- The member a row requires. -/
def BodyKind.own : BodyKind → Member
  | binding => .pre
  | endpoint => .origins

/-- Whether the member's name is one a body of the kind carries. -/
def BodyKind.knows (kind : BodyKind) (name : String) : Bool :=
  name == "type" || [kind.own, .replaces, .sig].any fun m => m.name == name

/-- The record the bytes spell under the kind the caller names. -/
def parse (kind : BodyKind) (bytes : List UInt8) : Outcome ParseRefusal Record := do
  Outcome.refuseIf (maxRegistryRecordBytes < bytes.length) .pastCap
  let text ← Outcome.okOr (String.fromUTF8? ⟨bytes.toArray⟩) .notUtf8
  let value ← Outcome.okOr (fromStr text) .notJson
  let object ← Outcome.okOr value.asObject .notAnObject
  Outcome.refuseIf (anyMemberHoldsANumber object = true) .number
  Outcome.refuseIf ((Json.getMember object "type").bind Json.asStr ≠ some kind.typeValue) .wrongType
  Outcome.refuseIf ((object.all fun m => kind.knows m.1) = false) .unknownMember
  let replaces ← addressMember natOf object .replaces
  let sig ← sigMember (Json.getMember object Member.sig.name)
  let body ← parseBody natOf object replaces kind
  Outcome.refuseIf (encode body sig ≠ text) .notCanonical
  return ⟨body, sig⟩

end Reader

end Registry
