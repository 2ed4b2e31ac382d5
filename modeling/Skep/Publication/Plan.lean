import Skep.Links.HomeReads
import Skep.Links.Supersession
import Skep.Links.Writes
import Skep.Publication.MemberEnd

/-!
# The deposit plan of a publication

Beside its shot a publication carries links accepted as public copies, retractions, sets it
is read with and daughters it supersedes. The plan validates them in order over one world,
the first fault refusing the whole, and answers the deposits by home.
-/

namespace Publication

/-- Where a publication lands: on a document, or on an edition minted under an account. -/
inductive PublishTarget where
  | document (doc : Address)
  | mint (account : Address)
  deriving DecidableEq

/-- An address, or a tag for one that the commit mints. -/
inductive NamedAddress where
  | member
  | edition
  | address (a : Address)
  deriving DecidableEq

/-- The member first, then the edition, then every address in order. -/
def NamedAddress.rank : NamedAddress → WithBot (WithBot Address)
  | member => ⊥
  | edition => ((⊥ : WithBot Address) : WithBot (WithBot Address))
  | address a => ((a : WithBot Address) : WithBot (WithBot Address))

theorem NamedAddress.rank_injective : Function.Injective rank := by
  intro x y h
  cases x <;> cases y <;> simp_all [rank, eq_comm]

instance : LinearOrder NamedAddress := LinearOrder.lift' NamedAddress.rank NamedAddress.rank_injective

/-- An end of an entry, in one of three forms. -/
inductive EndArg where
  | addrs (named : List NamedAddress)
  | spans (spans : List Span)
  | member (spans : List MemberSpan)
  deriving DecidableEq

/-- An accepted link, as its public copy and the original it stands for. -/
structure LinkEntry where
  home : NamedAddress
  fromEnd : EndArg
  toEnd : EndArg
  ty : EndArg
  old : Option Address
  deriving DecidableEq

structure PublishDeposits where
  claim : Bool
  links : List LinkEntry
  retract : List Address
  readWith : List Address
  supersede : List Address

/-- Why an original is refused. -/
inductive OldCause where
  | absent
  | publicHome
  | retracted
  | notOwner
  | wholeWork
  | superseded
  deriving DecidableEq, Repr

inductive RetractCause where
  | absent
  | notOwner
  | notPublished
  deriving DecidableEq, Repr

inductive ReadWithCause where
  | notRegistered
  | notDocument
  | notOwner
  | notPublished
  deriving DecidableEq, Repr

inductive SupersedeCause where
  | headMoved (head : Address)
  | notMember
  | base
  | duplicate
  deriving DecidableEq

inductive PlanFault where
  | notOwner (home : Address)
  | linkHome (index : ℕ)
  | duplicateOriginal (index : ℕ)
  | readWithInLinks (index : ℕ)
  | old (index : ℕ) (cause : OldCause)
  | notContentSpan (index slot : ℕ)
  | slotTooLarge (index : ℕ)
  | emptyType (index : ℕ)
  | retractionClass (index : ℕ)
  | supersessionClass (index : ℕ)
  | replacesClass (index : ℕ)
  | correspondenceClass (index : ℕ)
  | memberSpan (index : ℕ)
  | claimWithoutDraft
  | retract (index : ℕ) (cause : RetractCause)
  | readWith (index : ℕ) (cause : ReadWithCause)
  | supersede (index : ℕ) (cause : SupersedeCause)
  deriving DecidableEq

/-- An end as the plan holds it, before the member is minted. -/
inductive PlannedEnd where
  | stored (e : Endset)
  | named (named : List NamedAddress)
  | member (spans : List MemberSpan)
  deriving DecidableEq

/-- The claim that an original is superseded by its copy, homed with the original. -/
structure PlannedClaim where
  old : Address
  home : Address
  deriving DecidableEq

inductive PlannedDeposit where
  | editionClaim (origin : Address)
  | copy (index : ℕ) (ty : Endset) (fromEnd toEnd : PlannedEnd) (claim : Option PlannedClaim)
  | retraction (index : ℕ) (target : Address)
  | readWith (index : ℕ) (set : Address)
  | supersede (index : ℕ) (old : Address)
  deriving DecidableEq

/-- The deposits by home, the member's first, then the edition's. -/
abbrev PlannedHomes := OrdMap NamedAddress (List PlannedDeposit)

structure DepositPlan where
  homes : List (NamedAddress × List PlannedDeposit)

/-- What the plan reads: the links and the names. -/
structure PlanWorld where
  links : LinkStore
  m3 : M3State

def readWithType : Address := ⟨⟨[1, 1, 0, 1, 0, 1, 0, 3, 71], by simp⟩, .element, by decide⟩

def namesReadWith (ty : Endset) : Bool := ty.addrs.any fun t => isPrefix readWithType.tumbler t

/-- Whether an endset names the type alone, or beside its subtypes. -/
def isClassOf (ty : Endset) (a : Address) : Bool :=
  ty.isAddressDenoting && decide (coverageClass ty = coverageClass (enc [a]))

/-- Whether a span is the extent of a run of content. -/
def isContentIspan (s : Span) : Bool :=
  match validate s.start with
  | .ok start =>
      start.subspace == some contentSubspace &&
        match Run.new start (ordinal s.width) with
        | .ok run => run.iextent == s
        | _ => false
  | _ => false

/-- The spans of an I-span end as stored. -/
def storedSpans (spans : List Span) (index slot : ℕ) : Outcome PlanFault Endset := do
  Outcome.refuseIf (spans.all isContentIspan = false) (.notContentSpan index slot)
  Outcome.refuseIf (maxSlotSpans < spans.length) (.slotTooLarge index)
  return ⟨spans⟩

def NamedAddress.address? : NamedAddress → Option Address
  | address a => some a
  | member | edition => none

/-- An end as the plan holds it. A member-position end is held to its canonical spelling. -/
def plannedEnd (arg : EndArg) (image : List Run) (index slot : ℕ) : Outcome PlanFault PlannedEnd :=
  match arg with
  | .addrs named => do
      Outcome.refuseIf (maxSlotSpans < named.length) (.slotTooLarge index)
      if named.all fun n => n.address?.isSome then return .stored (enc (named.filterMap NamedAddress.address?))
      else return .named named
  | .spans spans => do
      let e ← storedSpans spans index slot
      return .stored e
  | .member spans => do
      Outcome.refuseIf (maxSlotSpans < spans.length) (.slotTooLarge index)
      let stated ← (memberEnd image spans : Outcome PlanFault (Option MemberEnd))
      let stated ← Outcome.okOr stated (.memberSpan index)
      Outcome.refuseIf (stated.canonical ≠ spans) (.memberSpan index)
      return .member spans

/-- The addresses of a type, none where a tag stands among them. -/
def typeAddrs : List NamedAddress → Option (List Address)
  | [] => some []
  | n :: named => do
      let a ← n.address?
      let addrs ← typeAddrs named
      return a :: addrs

/-- A type slot in one of the two forms that name a type. -/
def typeSlot (index : ℕ) : EndArg → Outcome PlanFault Endset
  | .addrs named => do
      let addrs ← Outcome.okOr (typeAddrs named) (.memberSpan index)
      Outcome.refuseIf (maxSlotSpans < addrs.length) (.slotTooLarge index)
      return enc addrs
  | .spans spans => storedSpans spans index TYPE
  | .member _ => .err (.memberSpan index)

section

variable (reg : TypeRegistry)

/-- A type slot as stored, under the fences of the classes that other doors write. -/
def plannedType (ty : EndArg) (index : ℕ) : Outcome PlanFault Endset := do
  let e ← typeSlot index ty
  Outcome.refuseIf (e.isEmpty = true) (.emptyType index)
  let c ← (coverageClass e).expect
  Outcome.refuseIf (c = reg.shippedClass .retraction) (.retractionClass index)
  Outcome.refuseIf (c = reg.shippedClass .supersedes) (.supersessionClass index)
  Outcome.refuseIf (isClassOf e replacesType = true) (.replacesClass index)
  Outcome.refuseIf (isClassOf e correspondenceType = true) (.correspondenceClass index)
  return e

/-- Whether a span is of a draft that the shot names. -/
def isOfDraft (shot : Shot) (s : Span) : Bool :=
  match validate s.start with
  | .ok a => ((documentOf a).map trunkOf).any shot.isDraftNative
  | _ => false

/-- The published content spans of an end. A draft's words are minted again, so nothing that
stands covers them. -/
def endSpans {ε : Type} (image : List Run) (shot : Shot) : PlannedEnd → Outcome ε (List Span)
  | .stored e => return e.spans.filter fun s => !isUnitDepth s && !isOfDraft shot s
  | .named _ => return []
  | .member spans => do
      match ← memberEnd image spans with
      | some stated => return stated.stored.spans.filter fun s => !isOfDraft shot s
      | none => return []

/-- The published content spans of an entry's two ends. -/
def publishedSpans {ε : Type} (fromEnd toEnd : PlannedEnd) (image : List Run) (shot : Shot) :
    Outcome ε (List Span) := do
  let spans ← endSpans image shot fromEnd
  let spans' ← endSpans image shot toEnd
  return spans ++ spans'

/-- Whether a span starts at a content position. -/
def isContentSpan (s : Span) : Bool :=
  match validate s.start with
  | .ok a => a.subspace == some contentSubspace
  | _ => false

def shareAPosition (a b : Span) : Bool :=
  a.start.len == b.start.len && decide (a.start < b.reach) && decide (b.start < a.reach)

/-- Whether a link reaches the words through an end on a whole work, and through no content. -/
def reachesByWholeWorkEndAlone (link : Link) (image : List Run) : Bool :=
  let ends := link.fromSlot.spans ++ link.toSlot.spans
  let runs := image.map Run.iextent
  if (ends.filter isContentSpan).any fun e => runs.any fun r => shareAPosition e r then false
  else (ends.filter fun e => !isContentSpan e && isUnitDepth e).any fun e =>
    runs.any fun r => isPrefix e.start r.start

/-- Whether each span lies within some span of the link's ends. -/
def coversAll (link : Link) (spans : List Span) : Bool :=
  spans.all fun s => (link.fromSlot.spans ++ link.toSlot.spans).any fun e =>
    e.start.len == s.start.len && decide (e.start ≤ s.start) && decide (s.reach ≤ e.reach)

/-- The tuples of a class in a home whose slot a query hits. -/
def stabTypedIn (st : LinkStore) (c : CoverageClass) (home : Address) (slot : ℕ) (query : List Span)
    (view : View) : List Tuple :=
  (st.stabIn reg home slot query view).elems.filterMap fun a =>
    (st.state.readlink a).bind fun l =>
      if coverageClass l.typeSlot = .ok c then some ⟨a, l.fromSlot, l.toSlot⟩ else none

/-- The address that an end denotes. -/
def denotedAddress (e : Endset) : Option Address :=
  e.singleDenoted.bind fun t => (validate t).toOption

/-- The homes under the caller's account that hold links, the caller's own. -/
def ownHomes {ε : Type} (w : PlanWorld) : Caller → Outcome ε (List Address)
  | .system => return []
  | .principal p =>
      match w.m3.principalPrefix p with
      | none => return []
      | some account => do
          let homes ← w.links.homesUnder (enc [account])
          return homes.elems.filter fun home => (Caller.principal p).isOwner w.m3 home

/-- Whether a document is published and the caller's. -/
def isOwnPublished (m3 : M3State) (caller : Caller) (home : Address) : Bool :=
  m3.isRegisteredDocument home && m3.published home && caller.isOwner m3 home

/-- Whether a claim's successor stands in public and covers the spans. -/
def successorCovers (w : PlanWorld) (caller : Caller) (spans : List Span) (claim : Tuple) : Bool :=
  (denotedAddress claim.toSlot).any fun new => (documentOf new).any fun home =>
    isOwnPublished w.m3 caller home && (w.links.state.readlink new).any fun successor => coversAll successor spans

/-- Whether an active claim of the caller's has a link superseded by one that covers the spans. -/
def supersededByOwnClaim (w : PlanWorld) (caller : Caller) (homes : List Address) (y : Address)
    (spans : List Span) : Bool :=
  if spans = [] then false
  else homes.any fun home =>
    (stabTypedIn reg w.links (reg.shippedClass .supersedes) home FROM [Span.subtreeOf y.tumbler] .active).any
      fun claim => claim.fromSlot.singleDenoted == some y.tumbler && successorCovers w caller spans claim

/-- What a link is a successor of, by the caller's own claims. -/
def originalsOf (w : PlanWorld) (homes : List Address) (y : Address) : List Address :=
  homes.flatMap fun home =>
    ((stabTypedIn reg w.links (reg.shippedClass .supersedes) home TO [Span.subtreeOf y.tumbler] .active).filter
      fun claim => claim.toSlot.singleDenoted == some y.tumbler).filterMap fun claim =>
        denotedAddress claim.fromSlot

/-- The original that an entry stands for: its home, where nothing refuses it. -/
def checkOld (w : PlanWorld) (caller : Caller) (old : Address) (image : List Run) (spans : List Span) :
    Outcome OldCause Address := do
  let link ← Outcome.okOr (w.links.state.readlink old) .absent
  let home ← Outcome.okOr (documentOf old) .absent
  Outcome.refuseIf (caller.isOwner w.m3 old = false) .notOwner
  Outcome.refuseIf (w.m3.published home = true) .publicHome
  Outcome.refuseIf (w.links.state.isActive reg old = false) .retracted
  Outcome.refuseIf (reachesByWholeWorkEndAlone link image = true) .wholeWork
  let homes ← ownHomes w caller
  Outcome.refuseIf (supersededByOwnClaim reg w caller homes old spans = true) .superseded
  Outcome.refuseIf ((originalsOf reg w homes old).any fun original =>
    supersededByOwnClaim reg w caller homes original spans) .superseded
  return home

def addDeposit (homes : PlannedHomes) (home : NamedAddress) (d : PlannedDeposit) : PlannedHomes :=
  homes.insert home ((homes.get home).getD [] ++ [d])

/-- An accepted link is homed in the member, or in a published document of the caller's. -/
def checkLinkHome (m3 : M3State) (caller : Caller) (index : ℕ) : NamedAddress → Outcome PlanFault Unit
  | .member => return ()
  | .edition => .err (.linkHome index)
  | .address home => do
      Outcome.refuseIf (m3.isRegisteredDocument home = false) (.linkHome index)
      Outcome.refuseIf (caller.isOwner m3 home = false) (.notOwner home)
      Outcome.refuseIf (trunkOf home ≠ home ∨ m3.published home = false) (.linkHome index)

/-- An entry's slots as the plan holds them. -/
def plannedSlots (w : PlanWorld) (caller : Caller) (image : List Run) (index : ℕ) (entry : LinkEntry) :
    Outcome PlanFault (Endset × PlannedEnd × PlannedEnd) := do
  checkLinkHome w.m3 caller index entry.home
  let ty ← plannedType reg entry.ty index
  let fromEnd ← plannedEnd entry.fromEnd image index FROM
  let toEnd ← plannedEnd entry.toEnd image index TO
  Outcome.refuseIf (namesReadWith ty = true) (.readWithInLinks index)
  return (ty, fromEnd, toEnd)

/-- The claim beside an entry's copy, where the entry names an original. -/
def planClaim (w : PlanWorld) (caller : Caller) (shot : Shot) (seen : List Address) (index : ℕ)
    (fromEnd toEnd : PlannedEnd) : Option Address → Outcome PlanFault (Option PlannedClaim)
  | none => return none
  | some old => do
      Outcome.refuseIf (old ∈ seen) (.duplicateOriginal index)
      let spans ← publishedSpans fromEnd toEnd (requestImage shot) shot
      let home ← (checkOld reg w caller old (requestImage shot) spans).mapErr (.old index)
      return some ⟨old, home⟩

/-- The plan of the links so far, and the originals they name. -/
structure LinksPlanned where
  homes : PlannedHomes
  originals : List Address

def planLink (w : PlanWorld) (caller : Caller) (shot : Shot) (acc : LinksPlanned) (index : ℕ)
    (entry : LinkEntry) : Outcome PlanFault LinksPlanned := do
  let (ty, fromEnd, toEnd) ← plannedSlots reg w caller (requestImage shot) index entry
  let claim ← planClaim reg w caller shot acc.originals index fromEnd toEnd entry.old
  return ⟨addDeposit acc.homes entry.home (.copy index ty fromEnd toEnd claim),
    acc.originals ++ entry.old.toList⟩

def planLinks (w : PlanWorld) (caller : Caller) (shot : Shot) :
    List LinkEntry → ℕ → LinksPlanned → Outcome PlanFault LinksPlanned
  | [], _, acc => return acc
  | entry :: links, index, acc => do
      let acc ← planLink reg w caller shot acc index entry
      planLinks w caller shot links (index + 1) acc

/-- The home of a link to retract, none where it is retracted already. -/
def checkRetract (w : PlanWorld) (caller : Caller) (target : Address) :
    Outcome RetractCause (Option Address) := do
  let _ ← Outcome.okOr (w.links.state.readlink target) .absent
  Outcome.refuseIf (caller.isOwner w.m3 target = false) .notOwner
  let home ← Outcome.okOr (documentOf target) .absent
  Outcome.refuseIf (isOwnPublished w.m3 caller home = false) .notPublished
  return if w.links.state.isActive reg target then some home else none

def planRetracts (w : PlanWorld) (caller : Caller) :
    List Address → ℕ → PlannedHomes → Outcome PlanFault PlannedHomes
  | [], _, homes => return homes
  | target :: retract, index, homes => do
      match ← (checkRetract reg w caller target).mapErr (.retract index) with
      | none => planRetracts w caller retract (index + 1) homes
      | some home =>
          planRetracts w caller retract (index + 1) (addDeposit homes (.address home) (.retraction index target))

def checkReadWith (m3 : M3State) (caller : Caller) (set : Address) : Outcome ReadWithCause Unit := do
  Outcome.refuseIf (m3.isRegisteredDocument set = false) .notRegistered
  Outcome.refuseIf (trunkOf set ≠ set) .notDocument
  Outcome.refuseIf (caller.isOwner m3 set = false) .notOwner
  Outcome.refuseIf (m3.published set = false) .notPublished

/-- Whether an active read-with between the two documents is homed in a document. -/
def readWithIn {ε : Type} (w : PlanWorld) (home edition set : Address) : Outcome ε Bool := do
  let hits ← w.links.matchLinksIn reg home (FROM, [Span.subtreeOf edition.tumbler])
    [(TO, enc [set]), (TYPE, ⟨[Span.subtreeOf readWithType.tumbler]⟩)] .active
  return hits.elems.any fun hit => (w.links.state.readlink hit).any fun link =>
    link.fromSlot == enc [edition] && link.toSlot == enc [set] && namesReadWith link.typeSlot

/-- Whether the caller reads the edition with the set already, in a published home. An edition
that the commit mints is read with nothing yet. -/
def readWithStands {ε : Type} (w : PlanWorld) (caller : Caller) (set : Address) : Option Address → Outcome ε Bool
  | none => return false
  | some edition => do
      let homes ← ownHomes w caller
      (homes.filter fun home => w.m3.published home).anyM fun home => readWithIn reg w home edition set

def planReadWith (w : PlanWorld) (caller : Caller) (edition : Option Address) :
    List Address → ℕ → PlannedHomes → Outcome PlanFault PlannedHomes
  | [], _, homes => return homes
  | set :: readWith, index, homes => do
      (checkReadWith w.m3 caller set).mapErr (.readWith index)
      if ← readWithStands reg w caller set edition then planReadWith w caller edition readWith (index + 1) homes
      else planReadWith w caller edition readWith (index + 1) (addDeposit homes (.address set) (.readWith index set))

/-- The head of a trunk where a shot off the base would not land after it. -/
def movedHead (m3 : M3State) (trunk : Address) (base : Option Address) : Option Address :=
  (trunkHead m3 trunk).filter fun head => base != some head

def isChainMember (m3 : M3State) (trunk a : Address) : Bool :=
  a.level == .document && a != trunk && trunkOf a == trunk && m3.isRegisteredDocument a

/-- Whether an active claim of the homes names the daughter. -/
def claimedByOwn (st : LinkStore) (homes : List Address) (daughter : Address) : Bool :=
  homes.any fun home =>
    (stabTypedIn reg st (reg.shippedClass .supersedes) home FROM [Span.subtreeOf daughter.tumbler] .active).any
      fun claim => claim.fromSlot.singleDenoted == some daughter.tumbler

def planSupersede (w : PlanWorld) (edition base : Option Address) (own : List Address) :
    List Address → ℕ → List Address → PlannedHomes → Outcome PlanFault PlannedHomes
  | [], _, _, homes => return homes
  | daughter :: supersede, index, seen, homes => do
      let trunk ← Outcome.okOr edition (.supersede index .notMember)
      Outcome.refuseIf (isChainMember w.m3 trunk daughter = false) (.supersede index .notMember)
      Outcome.refuseIf (base = some daughter) (.supersede index .base)
      Outcome.refuseIf (daughter ∈ seen) (.supersede index .duplicate)
      if claimedByOwn reg w.links own daughter then
        planSupersede w edition base own supersede (index + 1) (seen ++ [daughter]) homes
      else
        planSupersede w edition base own supersede (index + 1) (seen ++ [daughter])
          (addDeposit homes (.address trunk) (.supersede index daughter))

/-- The edition's own claim leads the deposits of its home. -/
def planEditionClaim (target : PublishTarget) (shot : Shot) (claim : Bool) : Outcome PlanFault PlannedHomes :=
  if claim then do
    let origin ← Outcome.okOr (shot.draft.map trunkOf) .claimWithoutDraft
    match target with
    | .document doc => return addDeposit OrdMap.empty (.address (trunkOf doc)) (.editionClaim origin)
    | .mint _ => return addDeposit OrdMap.empty .edition (.editionClaim origin)
  else return OrdMap.empty

def PublishTarget.edition : PublishTarget → Option Address
  | document doc => some (trunkOf doc)
  | mint _ => none

/-- What follows the links: the retractions, the read-withs and the daughters superseded. -/
def planRest (w : PlanWorld) (caller : Caller) (target : PublishTarget) (shot : Shot)
    (deposits : PublishDeposits) (homes : PlannedHomes) : Outcome PlanFault DepositPlan := do
  let homes ← planRetracts reg w caller deposits.retract 0 homes
  let homes ← planReadWith reg w caller target.edition deposits.readWith 0 homes
  let base := shot.base.map Base.member
  if deposits.supersede = [] then return ⟨homes.entries⟩
  else do
    Outcome.refuseSome (target.edition.bind fun trunk => movedHead w.m3 trunk base) fun head =>
      .supersede 0 (.headMoved head)
    let own ← ownHomes w caller
    let homes ← planSupersede reg w target.edition base own deposits.supersede 0 [] homes
    return ⟨homes.entries⟩

/-- The deposits that a publication stages, by home. -/
def planDeposits (w : PlanWorld) (caller : Caller) (target : PublishTarget) (shot : Shot)
    (deposits : PublishDeposits) : Outcome PlanFault DepositPlan := do
  let homes ← planEditionClaim target shot deposits.claim
  let links ← planLinks reg w caller shot deposits.links 0 ⟨homes, []⟩
  planRest reg w caller target shot deposits links.homes

end

end Publication
