import Skep.Address.Increment
import Skep.Address.Span
import Skep.Identity.Payload
import Skep.Library.OrdMap
import Skep.Library.Runs

/-!
# The key table

The fold over link deposits that keeps, for each account, its enrolled keys and its
retired ones, and the board's claimant. A deposit that names no credential is passed
over; a credential deposit is honored, with an effect, or inert, with a reason. The
world is read through a context.
-/

namespace Identity

section KeySet

structure Enrolled where
  key : PublicKey
  anchor : Bool
  deriving DecidableEq

/-- The keys of an account: those enrolled, and for those retired their anchor flag. -/
structure KeySet where
  enrolled : OrdMap Fingerprint Enrolled
  retired : OrdMap Fingerprint Bool
  deriving DecidableEq

namespace KeySet

def empty : KeySet := ⟨OrdMap.empty, OrdMap.empty⟩

def isEmpty (set : KeySet) : Bool := set.enrolled.entries.isEmpty

def contains (set : KeySet) (fp : Fingerprint) : Bool := set.enrolled.contains fp

/-- Whether a key is new to the set. -/
def admits (set : KeySet) (fp : Fingerprint) : Bool :=
  !set.enrolled.contains fp && !set.retired.contains fp

def enrolledLen (set : KeySet) : ℕ := set.enrolled.entries.length

/-- Enroll a key, unchecked. -/
def insertEnrolled (sha256 : List UInt8 → Bytes32) (set : KeySet) (e : Enrolled) : KeySet :=
  ⟨set.enrolled.insert (Fingerprint.of sha256 e.key) e, set.retired⟩

/-- Retire a key where it is enrolled. -/
def moveToRetired (set : KeySet) (fp : Fingerprint) : KeySet :=
  match set.enrolled.get fp with
  | some e => ⟨set.enrolled.erase fp, set.retired.insert fp e.anchor⟩
  | none => set

end KeySet

end KeySet

/-- An owner: the prefix its principal is registered at. -/
structure Owner where
  principal : Address
  isBootstrap : Bool
  deriving DecidableEq

/-- The values of the world at a deposit. -/
structure Values where
  valueAt : Tumbler → Option (List UInt8)

/-- What the fold reads of the world at a deposit. -/
structure FoldCtx extends Values where
  ownerOf : Address → Option Owner
  isAccount : Address → Bool
  isPublished : Address → Bool

inductive CredentialKind where
  | enroll
  | retire
  | claim
  deriving DecidableEq

/-- The three types of credential, pairwise distinct. -/
structure TypeAddrs where
  enroll : Address
  retire : Address
  claim : Address
  distinct : enroll ≠ retire ∧ enroll ≠ claim ∧ retire ≠ claim

/-- The only span of a slot. -/
def soleSpan : List Span → Option Span
  | [span] => some span
  | _ => none

/-- The kind a type slot names. -/
def TypeAddrs.kindOf (types : TypeAddrs) (ty : List Span) : Option CredentialKind := do
  let span ← soleSpan ty
  if classifySpans span (Span.subtreeOf types.enroll.tumbler) = .equal then some .enroll
  else if classifySpans span (Span.subtreeOf types.retire.tumbler) = .equal then some .retire
  else if classifySpans span (Span.subtreeOf types.claim.tumbler) = .equal then some .claim
  else none

/-- A link deposit as the fold sees it: the link's home and its three slots. -/
structure LinkDeposit where
  home : Address
  fromSlot : List Span
  toSlot : List Span
  ty : List Span
  deriving DecidableEq

/-- The one address a slot names. -/
def singleAddress (slot : List Span) : Option Address := do
  let span ← soleSpan slot
  match validate span.start with
  | .ok addr =>
      if classifySpans span (Span.subtreeOf addr.tumbler) = .equal then some addr else none
  | _ => none

section RecordBytes

variable (ctx : Values)

/-- Append the value at a position, under the byte cap. -/
def appendValue (pos : Tumbler) (out : List UInt8) : Except PayloadError (List UInt8) :=
  match ctx.valueAt pos with
  | none => .error .missingValue
  | some value => if maxRecordBytes < out.length + value.length then .error .tooLarge else .ok (out ++ value)

/-- Walk a span from `pos` to its reach, with the positions that are left of the budget. -/
def walkSpan (span : Span) : ℕ → Tumbler → List UInt8 → Except PayloadError (List UInt8 × ℕ)
  | 0, pos, out =>
      if span.contains pos then do
        let _ ← appendValue ctx pos out
        .error .tooLarge
      else .ok (out, 0)
  | left + 1, pos, out =>
      if span.contains pos then do
        let out ← appendValue ctx pos out
        walkSpan span left (pos.shift 1) out
      else .ok (out, left + 1)

/-- Whether a span starts at an element position of the document. -/
def startsAtPosition (home : Address) (span : Span) : Bool :=
  match validate span.start with
  | .ok start =>
      decide (start.level = .element) && start.elementField.any (fun field => field.length == 2) &&
        decide (documentOf start = some home)
  | _ => false

/-- The bytes the spans cover, each span in turn. -/
def readSpans (home : Address) : List Span → List UInt8 × ℕ → Except PayloadError (List UInt8)
  | [], (out, _) => .ok out
  | span :: rest, (out, left) =>
      if startsAtPosition home span then do
        let next ← walkSpan ctx span left span.start out
        readSpans home rest next
      else .error .foreignContent

def recordBytes (home : Address) (slot : List Span) : Except PayloadError (List UInt8) :=
  readSpans ctx home slot ([], maxRecordBytes)

end RecordBytes

/-- The change an honored deposit makes. -/
inductive Effect where
  | genesis (account : Address) (keys : List Enrolled)
  | enroll (account : Address) (added : List Enrolled)
  | retire (account : Address) (removed : List Fingerprint)
  | claim (account : Address)
  deriving DecidableEq

/-- Why a credential deposit changes nothing. -/
inductive Inert where
  | unpublished
  | malformedShape
  | malformedPayload (e : PayloadError)
  | notDocOne
  | noHolder
  | notGenesisRegistry
  | notHolderRetirement
  | wouldEmpty
  | nothingChanged
  | alreadyClaimed
  | claimantKeyless
  | claimantNotTopLevel
  deriving DecidableEq

inductive Verdict where
  | notCredential
  | inert (reason : Inert)
  | honored (effect : Effect)
  deriving DecidableEq

def documentAccount (ctx : FoldCtx) (doc : Address) : Option Address :=
  (ctx.ownerOf doc).map Owner.principal

/-- Who delegated an account: the owner of its parent. -/
inductive Delegator where
  | bootstrap
  | account (a : Address)
  deriving DecidableEq

def delegator (ownerOf : Address → Option Owner) (a : Address) : Option Delegator := do
  let p ← parent a
  let owner ← ownerOf p
  return if owner.isBootstrap then .bootstrap else .account owner.principal

/-- The first document of an account. -/
def doc1Of (a : Address) : Address :=
  match checkedInc a 2 with
  | .ok doc => doc
  | _ => a

def homedInDocOne (dep : LinkDeposit) (homeAccount : Address) : Bool :=
  decide (dep.home = doc1Of homeAccount)

/-- The subject a record names and the record's bytes. -/
def subjectAndRecord (ctx : FoldCtx) (dep : LinkDeposit) : Except Inert (Address × List UInt8) :=
  if dep.fromSlot = [] then .error .malformedShape
  else
    match (singleAddress dep.toSlot).filter fun subject => ctx.isAccount subject with
    | none => .error .malformedShape
    | some subject =>
      match recordBytes ctx.toValues dep.home dep.fromSlot with
      | .ok bytes => .ok (subject, bytes)
      | .error e => .error (.malformedPayload e)

def enrolledOf (enrollment : Enrollment) : Enrolled := ⟨enrollment.key, enrollment.anchor⟩

/-- The key sets of the keyed accounts, and the board's claimant. -/
structure IdentityState where
  sets : OrdMap Address KeySet
  claimant : Option Address
  deriving DecidableEq

namespace IdentityState

def genesis : IdentityState := ⟨OrdMap.empty, none⟩

variable (sha256 : List UInt8 → Bytes32) (fromStr : String → Option Json)

def keySet (st : IdentityState) (account : Address) : KeySet :=
  (st.sets.get account).getD KeySet.empty

/-- Whether an address is the first sub-account of one the bootstrap principal
delegated. -/
def isFirstChildOfBootstrap (ownerOf : Address → Option Owner) (subject : Address) : Bool :=
  (parent subject).any fun b =>
    decide (checkedInc b 1 = .ok subject) && decide (delegator ownerOf b = some .bootstrap)

/-- The account in whose first document a subject's first keys are enrolled. -/
def genesisRegistry (st : IdentityState) (ownerOf : Address → Option Owner) (subject : Address) :
    Option Address :=
  match delegator ownerOf subject with
  | none => none
  | some (.account d) => if isFirstChildOfBootstrap ownerOf subject then none else some d
  | some .bootstrap => some (st.claimant.getD subject)

/-- The key set of the nearest keyed account above. -/
def openingSetAbove (st : IdentityState) (a : Address) : Option KeySet :=
  ((ancestors a).takeWhile fun above => above.level = .account).findSome? fun above =>
    (st.sets.get above).filter fun set => !set.isEmpty

/-- Whether a delegated account is handed a key of the accounts above it. -/
def handoffLatchFires (st : IdentityState) (ownerOf : Address → Option Owner) (subject : Address)
    (enrollments : List Enrollment) : Bool :=
  match delegator ownerOf subject with
  | some (.account _) =>
      match st.openingSetAbove subject with
      | none => false
      | some opening => enrollments.any fun e => opening.contains (Fingerprint.of sha256 e.key)
  | _ => false

def claimPath (st : IdentityState) (ctx : FoldCtx) (dep : LinkDeposit) (homeAccount : Address) : Verdict :=
  if singleAddress dep.fromSlot ≠ some homeAccount ∨ dep.toSlot ≠ [] then .inert .malformedShape
  else if !homedInDocOne dep homeAccount then .inert .notDocOne
  else if delegator ctx.ownerOf homeAccount ≠ some .bootstrap then .inert .claimantNotTopLevel
  else if st.claimant.isSome then .inert .alreadyClaimed
  else if (st.keySet homeAccount).isEmpty then .inert .claimantKeyless
  else .honored (.claim homeAccount)

/-- The checks both kinds of record pass before their own. -/
def payloadPath {T : Type} (ctx : FoldCtx) (dep : LinkDeposit) (homeAccount : Address)
    (parse : List UInt8 → Except PayloadError (List T)) (arms : Address → List T → Verdict) : Verdict :=
  match subjectAndRecord ctx dep with
  | .error inert => .inert inert
  | .ok (subject, bytes) =>
    match parse bytes with
    | .error e => .inert (.malformedPayload e)
    | .ok entries => if !homedInDocOne dep homeAccount then .inert .notDocOne else arms subject entries

def enrollArms (st : IdentityState) (ctx : FoldCtx) (subject homeAccount : Address)
    (enrollments : List Enrollment) : Verdict :=
  let set := st.keySet subject
  if homeAccount = subject ∧ set.isEmpty = false then
    let added := (enrollments.filter fun e => set.admits (Fingerprint.of sha256 e.key)).map enrolledOf
    if added = [] then .inert .nothingChanged else .honored (.enroll subject added)
  else if set.isEmpty then
    let registry := st.genesisRegistry ctx.ownerOf subject
    if registry = some homeAccount then
      if st.handoffLatchFires sha256 ctx.ownerOf subject enrollments then .inert .notGenesisRegistry
      else .honored (.genesis subject (enrollments.map enrolledOf))
    else if registry = none then .inert .notGenesisRegistry
    else if homeAccount = subject then .inert .noHolder
    else .inert .notGenesisRegistry
  else .inert .notGenesisRegistry

def retireArms (st : IdentityState) (subject homeAccount : Address) (fps : List Fingerprint) : Verdict :=
  let set := st.keySet subject
  if homeAccount = subject ∧ set.isEmpty = false then
    let removed := fps.filter fun fp => set.contains fp
    if removed = [] then .inert .nothingChanged
    else if removed.length = set.enrolledLen then .inert .wouldEmpty
    else .honored (.retire subject removed)
  else if homeAccount = subject then .inert .noHolder
  else .inert .notHolderRetirement

/-- The verdict on a deposit. -/
def classify (st : IdentityState) (types : TypeAddrs) (ctx : FoldCtx) (dep : LinkDeposit) : Verdict :=
  match types.kindOf dep.ty with
  | none => .notCredential
  | some kind =>
    match documentAccount ctx dep.home with
    | none => .inert .malformedShape
    | some homeAccount =>
      if !ctx.isPublished dep.home then .inert .unpublished
      else
        match kind with
        | .claim => st.claimPath ctx dep homeAccount
        | .enroll =>
            payloadPath ctx dep homeAccount (readEnroll sha256 fromStr) fun subject enrollments =>
              st.enrollArms sha256 ctx subject homeAccount enrollments
        | .retire =>
            payloadPath ctx dep homeAccount (readRetire fromStr) fun subject fps =>
              st.retireArms subject homeAccount fps

/-- Change one account's set. -/
def postToSet (st : IdentityState) (account : Address) (post : KeySet → KeySet) : IdentityState :=
  ⟨st.sets.insert account (post (st.keySet account)), st.claimant⟩

/-- The state an honored deposit's effect leaves. -/
def apply (st : IdentityState) : Effect → IdentityState
  | .genesis account keys => st.postToSet account fun set => keys.foldl (KeySet.insertEnrolled sha256) set
  | .enroll account added => st.postToSet account fun set => added.foldl (KeySet.insertEnrolled sha256) set
  | .retire account removed => st.postToSet account fun set => removed.foldl KeySet.moveToRetired set
  | .claim account => ⟨st.sets, some account⟩

/-- One deposit folded. -/
def step (st : IdentityState) (types : TypeAddrs) (ctx : FoldCtx) (dep : LinkDeposit) :
    IdentityState × Verdict :=
  let verdict := st.classify sha256 fromStr types ctx dep
  match verdict with
  | .honored effect => (st.apply sha256 effect, verdict)
  | _ => (st, verdict)

/-- A deposit with the world as it stood. -/
structure FoldEvent where
  ctx : FoldCtx
  dep : LinkDeposit

/-- The state after an event. -/
def foldStep (types : TypeAddrs) (st : IdentityState) (ev : FoldEvent) : IdentityState :=
  (step sha256 fromStr st types ev.ctx ev.dep).1

/-- The state a list of deposits is folded to. -/
def run (types : TypeAddrs) (events : List FoldEvent) : IdentityState :=
  Runs.after (foldStep sha256 fromStr types) genesis events

end IdentityState

end Identity
