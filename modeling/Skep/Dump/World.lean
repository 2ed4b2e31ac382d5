import Skep.Arrangement.State
import Skep.Content.Store
import Skep.Dump.Tree
import Skep.Links.Members
import Skep.Namespace.State

/-!
# What a dump shows

The unfiltered dump walks a whole world: its four slices as they serialize, the private
documents, the operative grants, and the hints that reads derive from the links.
-/

namespace M3State

/-- The account prefix of an address, and the principal seated there. -/
def accountSeat {ε : Type} (s : M3State) (a : Address) : Outcome ε (Option (Address × PrincipalId)) :=
  match a.accountField with
  | none => return none
  | some user => do
      let comps := a.comps.take (a.nodeField.length + 1 + user.length)
      if h : comps = [] then Outcome.fault
      else do
        let account ← (validate ⟨comps, h⟩).expect
        return (s.principals.get account).map fun id => (account, id)

def ownerAccountOf {ε : Type} (s : M3State) (doc : Address) : Outcome ε Address := do
  let (owner, _) ← Outcome.expectSome (← s.accountSeat doc)
  Outcome.require (owner.level = .account)
  return owner

/-- A private document and the account it was minted under. -/
def draftEntry {ε : Type} (s : M3State) (doc : Address) : Outcome ε (Option (Address × Address)) :=
  if s.isRegisteredDocument doc = false ∨ s.published doc = true then return none
  else do
    let owner ← s.ownerAccountOf doc
    return some (doc, owner)

/-- The private documents by their owners' accounts. -/
def seedDrafts {ε : Type} (s : M3State) : Outcome ε (OrdMap Address Address) :=
  s.publication.entries.foldlM (fun drafts e => do
    match ← s.draftEntry e.1 with
    | none => return drafts
    | some (doc, owner) => return drafts.insert doc owner) OrdMap.empty

/-- The documents that are not published. -/
def privateDocuments (s : M3State) : List Address :=
  (s.publication.entries.filter fun e => !e.2).map Prod.fst

end M3State

namespace Dump

/-- An operative grant. -/
structure GrantRecord where
  home : Address
  issuer : Address
  contentPrefix : Address
  grantee : Option Address
  replaces : Option Address
  deriving DecidableEq

/-- What a dump walks. The private documents are an index that the namespace rebuilds. -/
structure World where
  m3 : M3State
  content : OrdMap Address Stored
  m5 : M5State
  links : LinkState
  grants : OrdMap Address GrantRecord
  drafts : OrdMap Address Address
  derived : (m3.seedDrafts : Outcome Empty (OrdMap Address Address)) = .ok drafts

def shippedLabel : ShippedType → String
  | .retired => "shipped.retired"
  | .supersedes => "shipped.supersedes"
  | .retraction => "shipped.retraction"
  | .predDef => "shipped.pred_def"
  | .predStable => "shipped.pred_stable"

def sliceViews : List (String × View) := [("audit", .audit), ("active", .active)]

/-- A family of the members that a predicate class denotes under a view. -/
structure Projection where
  family : String
  ty : ShippedType
  view : View

def predicateProjections : List Projection :=
  [⟨"predicates.defs.audit", .predDef, .audit⟩, ⟨"predicates.defs.active", .predDef, .active⟩,
    ⟨"predicates.stable.audit", .predStable, .audit⟩, ⟨"predicates.stable.active", .predStable, .active⟩]

/-- What a dump writes. -/
structure Shown where
  m3 : M3State
  content : List (Address × Stored)
  arrangements : List (Address × DocArrangement)
  provenance : List (Address × List Span)
  birthExtents : OrdMap Address ℕ
  shotTerms : OrdMap Address ShotTerms
  forkSources : List (Address × Address)
  arrangedAt : List (Address × ℕ)
  draftBases : List (Address × DraftBase)
  links : List (Address × Link)
  publication : List Address
  grants : OrdMap Address GrantRecord
  audit : List Address
  active : List Address
  nullified : List Address
  classes : ShippedType → View → List Address
  edges : List (Address × List Address)
  members : ShippedType → View → List Address
  drafts : List (Address × Address)

variable (reg : TypeRegistry)

/-- The edges of supersession that some operative claim asserts, out of each link. -/
def shownEdges (links : LinkState) : Outcome Empty (List (Address × List Address)) := do
  let edges ← (links.viewSlice reg .audit).mapM fun a => do
    let succs ← links.succs reg (reg.reservedType .supersedes) a
    return (a, succs)
  return edges.filter fun e => !e.2.isEmpty

/-- The members of each row of the table, as read. -/
def membersOf (read : List (Projection × List Address)) (ty : ShippedType) (view : View) : List Address :=
  ((read.find? fun e => e.1.ty == ty && e.1.view == view).map Prod.snd).getD []

/-- The entries of a world. -/
def World.shown (w : World) : Outcome Empty Shown := do
  let audit := w.links.viewSlice reg .audit
  let edges ← shownEdges reg w.links
  let read ← predicateProjections.mapM fun p => do
    let members ← w.links.members reg (reg.reservedType p.ty) p.view
    return (p, members)
  return {
    m3 := w.m3
    content := w.content.entries
    arrangements := w.m5.arrangements.entries
    provenance := w.m5.provenance.relation.entries
    birthExtents := w.m5.birthExtents
    shotTerms := w.m5.shotTerms
    forkSources := w.m5.forkSources.entries
    arrangedAt := w.m5.arrangedAt.entries
    draftBases := w.m5.draftBases.entries
    links := w.links.links.entries
    publication := w.m3.privateDocuments
    grants := w.grants
    audit
    active := w.links.viewSlice reg .active
    nullified := audit.filter fun a => w.links.nullified reg a.tumbler
    -- the class of a reserved type is the shipped class itself
    classes := fun ty view => (w.links.typedLinks reg (reg.shippedClass ty) view).map Prod.fst
    edges
    members := membersOf read
    drafts := w.drafts.entries }

def mapTree {κ ν : Type} (keyTree : κ → SerdeTree) (valueTree : ν → SerdeTree) (entries : List (κ × ν)) :
    SerdeTree :=
  .map (entries.map fun e => (keyTree e.1, valueTree e.2))

/-- A map by addresses. -/
def addressMap {ν : Type} (valueTree : ν → SerdeTree) (entries : List (Address × ν)) : SerdeTree :=
  mapTree addressTree valueTree entries

def optTree {α : Type} (tree : α → SerdeTree) : Option α → SerdeTree
  | some v => .opt (tree v)
  | none => .null

def bytesTree (bytes : List UInt8) : SerdeTree := .seq (bytes.map fun b => .u64 b.toNat)

def spanTree (s : Span) : SerdeTree := .seq [tumblerTree s.start, tumblerTree s.width]

def spansTree (spans : List Span) : SerdeTree := .seq (spans.map spanTree)

def storedTree : Stored → SerdeTree
  | .value v => .named "Value" (bytesTree v.bytes)
  | .stretch bytes _ => .named "Stretch" (bytesTree bytes)

def runTree (run : Run) : SerdeTree :=
  .map [(key "i_start", addressTree run.iStart), (key "width", natTree run.width)]

def arrangementTree (a : DocArrangement) : SerdeTree :=
  .map [(key "content", .seq (a.content.runs.map runTree)), (key "link", .seq (a.link.runs.map runTree))]

def shotTermsTree (terms : ShotTerms) : SerdeTree :=
  .map [(key "placed", natTree terms.placed), (key "base_extent", optTree natTree terms.baseExtent)]

def markerTree (m : Marker) : SerdeTree :=
  .map [(key "sides", .seq (m.sides.map addressTree)), (key "head", addressTree m.head),
    (key "head_copied", natTree m.headCopied), (key "at", .u64 m.pos)]

def draftBaseTree (b : DraftBase) : SerdeTree :=
  .map [(key "base", addressTree b.base), (key "extent", natTree b.extent), (key "source", addressTree b.source),
    (key "merge", optTree markerTree b.merge)]

def linkTree (l : Link) : SerdeTree :=
  .map [(key "slots", .seq ([l.fromSlot, l.toSlot, l.typeSlot].map fun e => spansTree e.spans))]

def nsKeyTree (k : NsKey) : SerdeTree := .map [(key "parent", tumblerTree k.parent), (key "g", .u64 k.g.incK)]

def namespaceTree (s : M3State) : SerdeTree :=
  .map [(key "frontiers", mapTree nsKeyTree natTree s.frontiers.entries),
    (key "nodes", .seq (s.nodes.entries.map fun e => addressTree e.1)),
    (key "principals", addressMap (fun id => .u64 id.id) s.principals.entries),
    (key "publication", addressMap .bool s.publication.entries),
    (key "minted_at", addressMap .u64 s.mintedAt.entries)]

def addrSeq (addrs : List Address) : SerdeTree := .seq (addrs.map dotted)

def grantTree (g : GrantRecord) : SerdeTree :=
  let optional : Option Address → SerdeTree
    | some a => dotted a
    | none => .null
  .map [(key "content_prefix", dotted g.contentPrefix), (key "grantee", optional g.grantee),
    (key "home", dotted g.home), (key "issuer", dotted g.issuer), (key "replaces", optional g.replaces)]

namespace Shown

variable (s : Shown)

def authoritativeTree : SerdeTree :=
  .map [(key "namespace", namespaceTree s.m3),
    (key "content", .map [(key "map", addressMap storedTree s.content)]),
    (key "arrangement", .map [(key "arrangements", addressMap arrangementTree s.arrangements),
      (key "provenance", addressMap spansTree s.provenance),
      (key "birth_extents", addressMap natTree s.birthExtents.entries),
      (key "shot_terms", addressMap shotTermsTree s.shotTerms.entries),
      (key "fork_sources", addressMap addressTree s.forkSources),
      (key "arranged_at", addressMap .u64 s.arrangedAt),
      (key "draft_bases", addressMap draftBaseTree s.draftBases)]),
    (key "links", .map [(key "links", addressMap linkTree s.links)])]

def classTree (ty : ShippedType) : SerdeTree :=
  .map ((key "key", .seq ((reg.reservedType ty).addrs.map fun t => .str (String.ofList (Identity.dotted t.comps)))) ::
    sliceViews.map fun v => (key v.1, addrSeq (s.classes ty v.2)))

def hintsTree : SerdeTree :=
  .map ([(key "links.audit", addrSeq s.audit), (key "links.active", addrSeq s.active),
    (key "links.nullified", addrSeq s.nullified),
    (key "types", .map (ShippedType.all.map fun ty => (key (shippedLabel ty), s.classTree reg ty))),
    (key "supersession", mapTree dotted addrSeq s.edges)] ++
    (predicateProjections.map fun p => (key p.family, addrSeq (s.members p.ty p.view))) ++
    [(key "publication.drafts", mapTree dotted dotted s.drafts)])

def tree : SerdeTree :=
  .map [(key "authoritative", s.authoritativeTree), (key "publication", addrSeq s.publication),
    (key "grants", mapTree dotted grantTree s.grants.entries), (key "hints", s.hintsTree reg)]

end Shown

/-- The unfiltered dump. -/
def dumpTree (w : World) : Outcome Empty SerdeTree := do
  let shown ← w.shown reg
  return shown.tree reg

end Dump
