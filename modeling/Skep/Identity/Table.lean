import Skep.Identity.Entry
import Skep.Identity.Fold

/-!
# The filtered key table

The table a verifying reader keeps beside the fold: of the credential records it fetched,
those whose own signature verifies under the keys that open the record's home account, at
the grade the act needs. One record is taken on the host's word, the claimant's first
enrollment at or below the claim. An account a record of which could not be fetched is
undeterminable from there on.
-/

namespace Identity

inductive RecordKind where
  | enroll
  | retire
  deriving DecidableEq

/-- A credential record as the filter reads it. -/
structure CredentialRecord where
  kind : RecordKind
  link : Address
  home : Address
  homeAccount : Address
  subject : Address
  ty : Address
  sigless : List UInt8
  sig : Option String
  enrolled : List Enrollment
  retired : List Fingerprint
  position : Option ℕ
  deriving DecidableEq

/-- What a record's parser grants of its entries: there are some, and none repeats. -/
def CredentialRecord.AsParsed (sha256 : List UInt8 → Bytes32) (r : CredentialRecord) : Prop :=
  match r.kind with
  | .enroll => r.enrolled ≠ [] ∧ (r.enrolled.map fun e => Fingerprint.of sha256 e.key).Nodup
  | .retire => r.retired ≠ [] ∧ r.retired.Nodup

/-- Where an admission's lifecycle stands. -/
inductive Until where
  | enrolled
  | retiredAt (r : ℕ)
  | retiredPositionFree
  deriving DecidableEq

/-- A key of an account's table, from the record that admitted it to the one that
retired it. -/
structure Admission where
  fingerprint : Fingerprint
  key : PublicKey
  anchor : Bool
  label : Option String
  since : Option ℕ
  ends : Until
  deriving DecidableEq

/-- Whether an admission is enrolled as of a position: the effects of a record at it are
not in. -/
def Admission.standsAsOf (position : ℕ) (a : Admission) : Bool :=
  decide (∀ s ∈ a.since, s < position) &&
    match a.ends with
    | .enrolled => true
    | .retiredAt r => decide (position ≤ r)
    | .retiredPositionFree => false

/-- Why the filter refuses a record: for what the fold refuses, then for the trial. -/
inductive RefusedCause where
  | notDocOne
  | notGenesisRegistry
  | noHolder
  | notHolderRetirement
  | nothingChanged
  | wouldEmpty
  | noSig
  | noBoardTerm
  | noBlob
  | unsigned
  | undeterminable
  deriving DecidableEq

/-- A record the filter refused. -/
structure Refused where
  link : Address
  subject : Address
  position : Option ℕ
  cause : RefusedCause
  deriving DecidableEq

/-- What became of a record. -/
inductive Admittance where
  | admitted (signer : Option Fingerprint)
  | refused (cause : RefusedCause)
  deriving DecidableEq

/-- What an admitted record posts, and the key whose signature admitted it. -/
inductive Decision where
  | enroll (new : List Enrollment) (signer : Option Fingerprint)
  | retire (removed : List Fingerprint) (signer : Fingerprint)
  deriving DecidableEq

def Decision.signer : Decision → Option Fingerprint
  | enroll _ signer => signer
  | retire _ signer => some signer

/-- What a record would do, and whether it takes an anchor to sign it. -/
structure Act where
  new : List Enrollment
  removed : List Fingerprint
  anchorGrade : Bool
  deriving DecidableEq

/-- The signature check: a marker tag, a key, a message, a signature. -/
abbrev Verify := ℕ → PublicKey → List UInt8 → List UInt8 → Bool

/-- The filtered tables of all accounts, under the board's claim. -/
structure FilteredTable where
  claim : Option (ℕ × Address)
  tables : OrdMap Address (List Admission)
  refused : List Refused
  missing : OrdMap Address ℕ
  deriving DecidableEq

/-- The address of an account's first document. -/
def docOne (account : Address) : Option Address := (checkedInc account 2).toOption

/-- The address of an account's first sub-account. -/
def agentSpaceOf (account : Address) : Option Address := (checkedInc account 1).toOption

/-- The account-tier ancestors of an account, nearest first. -/
def accountsAbove (a : Address) : List Address :=
  (ancestors a).takeWhile fun above => above.level = .account

/-- The first candidate whose row verifies the signature. One of another row's width is
passed over. -/
def signerOf (r : CredentialRecord) (board : BoardTerm) (blob : List UInt8) (verify : Verify) :
    List Admission → Outcome Empty (Option Fingerprint)
  | [] => .ok none
  | candidate :: rest =>
      if candidate.key.sigAlgRow.sigLen ≠ blob.length then signerOf r board blob verify rest
      else do
        let frame ← RecordFrame.toBytes
          ⟨board, r.homeAccount, r.home, ⟨r.ty, [r.subject], none, none, r.sigless⟩⟩ candidate.key.alg
        if verify candidate.key.sigAlgRow.tag candidate.key frame blob then .ok (some candidate.fingerprint)
        else signerOf r board blob verify rest

namespace FilteredTable

/-- The empty table under a claim. -/
def new (claim : Option (ℕ × Address)) : FilteredTable := ⟨claim, OrdMap.empty, [], OrdMap.empty⟩

def admissions (t : FilteredTable) (account : Address) : List Admission :=
  (t.tables.get account).getD []

/-- The admissions enrolled as of a position. -/
def asOf (t : FilteredTable) (account : Address) (position : ℕ) : List Admission :=
  (t.admissions account).filter (Admission.standsAsOf position)

/-- The admissions not retired. -/
def current (t : FilteredTable) (account : Address) : List Admission :=
  (t.admissions account).filter fun a => a.ends = .enrolled

def keyed (t : FilteredTable) (account : Address) : Bool := !(t.current account).isEmpty

/-- The enrolled admissions, now or as of a position. -/
def setAt (t : FilteredTable) (account : Address) : Option ℕ → List Admission
  | some position => t.asOf account position
  | none => t.current account

/-- Whether an account is undeterminable: at all, or as of a position. -/
def isGap (t : FilteredTable) (account : Address) (base : Option ℕ) : Bool :=
  (t.missing.get account).any fun first => decide (∀ position ∈ base, first < position)

/-- The first set of the accounts that holds a key, or none where a gap comes first. -/
def walkOver (t : FilteredTable) (base : Option ℕ) : List Address → Option (List Admission)
  | [] => some []
  | account :: above =>
      if t.isGap account base then none
      else if t.setAt account base = [] then walkOver t base above
      else some (t.setAt account base)

/-- The set that opens an account, or none at a gap. -/
def walk (t : FilteredTable) (account : Address) (base : Option ℕ) : Option (List Admission) :=
  t.walkOver base (account :: accountsAbove account)

def enrolledOf (set : List Admission) : List Enrolled := set.map fun a => ⟨a.key, a.anchor⟩

/-- The keys that open an account as of a position. -/
def openingAt (t : FilteredTable) (account : Address) (position : ℕ) : Option (List Enrolled) :=
  (t.walk account (some position)).map enrolledOf

/-- The keys that open an account now. -/
def openingNow (t : FilteredTable) (account : Address) : Option (List Enrolled) :=
  (t.walk account none).map enrolledOf

/-- The first of the accounts that holds a key now; no answer where a gap comes first. -/
def keyedOver (t : FilteredTable) : List Address → Option (Option Address)
  | [] => some none
  | account :: above =>
      if t.missing.contains account then none
      else if t.keyed account then some (some account)
      else keyedOver t above

def keyedAbove (t : FilteredTable) (a : Address) : Option (Option Address) :=
  t.keyedOver (accountsAbove a)

/-- Whether a record is of the claimant, at or below the claim. One read without a
position counts as below it. -/
def hostTrusts (t : FilteredTable) (r : CredentialRecord) : Bool :=
  t.claim.any fun claim => decide (r.subject = claim.2) && decide (∀ p ∈ r.position, p ≤ claim.1)

/-- The account an account is delegated beneath. -/
def accountAbove (a : Address) : Option Address := (parent a).filter fun p => p.level = .account

/-- Whether an account is the first delegated beneath one with no account above it. -/
def isAgentSpaceOfTop (delegator subject : Address) : Bool :=
  (accountAbove delegator).isNone && decide (agentSpaceOf delegator = some subject)

/-- The account in whose first document a subject's first keys are enrolled. -/
def genesisRegistry (t : FilteredTable) (r : CredentialRecord) : Option Address :=
  match accountAbove r.subject with
  | some delegator => if isAgentSpaceOfTop delegator r.subject then none else some delegator
  | none =>
    match t.claim with
    | some (claimAt, claimant) => if ∀ p ∈ r.position, claimAt < p then some claimant else some r.subject
    | none => some r.subject

/-- Whether a subdivision is handed a key of the set above it; no answer at a gap. -/
def handoffLatchFires (sha256 : List UInt8 → Bytes32) (t : FilteredTable) (r : CredentialRecord) : Option Bool :=
  match accountAbove r.subject with
  | none => some false
  | some above => do
      let opening ← t.walk above none
      return r.enrolled.any fun e => opening.any fun a => a.fingerprint = Fingerprint.of sha256 e.key

/-- Whether it takes an anchor to sign an account's first enrollment: where it is a
handoff, and its giver holds one. No answer at a gap. -/
def genesisGrade (t : FilteredTable) (subject : Address) : Option Bool := do
  match ← t.keyedAbove subject with
  | none => return false
  | some giver =>
    if parent subject = agentSpaceOf giver then return false
    let holder ← t.keyedAbove giver
    if holder.any fun holder => parent giver = agentSpaceOf holder then return false
    return (t.current giver).any Admission.anchor

/-- The entries whose keys the subject's table has never held. -/
def newEntries (sha256 : List UInt8 → Bytes32) (t : FilteredTable) (r : CredentialRecord) : List Enrollment :=
  r.enrolled.filter fun e => !(t.admissions r.subject).any fun a => a.fingerprint = Fingerprint.of sha256 e.key

/-- The fingerprints enrolled in the subject's table. -/
def removedEntries (t : FilteredTable) (r : CredentialRecord) : List Fingerprint :=
  r.retired.filter fun fp => (t.current r.subject).any fun a => a.fingerprint = fp

/-- What a record would do to the tables, in the order the refusals are written. -/
def arms (sha256 : List UInt8 → Bytes32) (t : FilteredTable) (r : CredentialRecord) : Outcome RefusedCause Act :=
  match r.kind, decide (r.homeAccount = r.subject), t.keyed r.subject with
  | .enroll, true, true => do
      Outcome.refuseIf (t.newEntries sha256 r = []) .nothingChanged
      return ⟨t.newEntries sha256 r, [], (t.newEntries sha256 r).any Enrollment.anchor⟩
  | .enroll, ownSpace, false =>
      match t.genesisRegistry r with
      | none => .err .notGenesisRegistry
      | some registry =>
        if registry = r.homeAccount then do
          let fires ← Outcome.okOr (t.handoffLatchFires sha256 r) .undeterminable
          Outcome.refuseIf (fires = true) .notGenesisRegistry
          let grade ← Outcome.okOr (t.genesisGrade r.subject) .undeterminable
          return ⟨r.enrolled, [], grade⟩
        else if ownSpace then .err .noHolder
        else .err .notGenesisRegistry
  | .enroll, false, true => .err .notGenesisRegistry
  | .retire, true, true => do
      Outcome.refuseIf (t.removedEntries r = []) .nothingChanged
      Outcome.refuseIf ((t.removedEntries r).length = (t.current r.subject).length) .wouldEmpty
      return ⟨[], t.removedEntries r,
        (t.current r.subject).any fun a => a.anchor && decide (a.fingerprint ∈ t.removedEntries r)⟩
  | .retire, true, false => .err .noHolder
  | .retire, false, _ => .err .notHolderRetirement

/-- Whether a record is taken on the host's word. -/
def isHostTrusted (t : FilteredTable) (r : CredentialRecord) : Bool :=
  decide (r.kind = .enroll) && decide (r.homeAccount = r.subject) && !t.keyed r.subject && t.hostTrusts r

/-- The key whose signature admits a record at a grade. -/
def trial (t : FilteredTable) (r : CredentialRecord) (board : Option BoardTerm) (verify : Verify)
    (anchorGrade : Bool) : Outcome RefusedCause Fingerprint := do
  let sig ← Outcome.okOr r.sig .noSig
  let board ← Outcome.okOr board .noBoardTerm
  let blob ← Outcome.okOr (HybridBlob.parseHex sig) .noBlob
  let opening ← Outcome.okOr (t.walk r.homeAccount none) .undeterminable
  let signer ← (signerOf r board blob.bytes verify (opening.filter fun a => !anchorGrade || a.anchor)).expect
  Outcome.okOr signer .unsigned

/-- What a record posts, under the tables as they stand. -/
def judge (sha256 : List UInt8 → Bytes32) (t : FilteredTable) (r : CredentialRecord) (board : Option BoardTerm)
    (verify : Verify) : Outcome RefusedCause Decision :=
  if docOne r.homeAccount ≠ some r.home then .err .notDocOne
  else if t.isHostTrusted r then .ok (.enroll r.enrolled none)
  else do
    let act ← t.arms sha256 r
    let signer ← t.trial r board verify act.anchorGrade
    match r.kind with
    | .enroll => return .enroll act.new (some signer)
    | .retire => return .retire act.removed signer

/-- Mark an account undeterminable from a position on. -/
def markMissing (t : FilteredTable) (account : Address) (position : ℕ) : FilteredTable :=
  { t with missing := t.missing.insert account (min ((t.missing.get account).getD position) position) }

def admissionOf (sha256 : List UInt8 → Bytes32) (position : Option ℕ) (e : Enrollment) : Admission :=
  ⟨Fingerprint.of sha256 e.key, e.key, e.anchor, e.label, position, .enrolled⟩

/-- Retire the enrolled admissions named. -/
def retireIn (removed : List Fingerprint) (position : Option ℕ) (a : Admission) : Admission :=
  if a.ends = .enrolled ∧ a.fingerprint ∈ removed then
    { a with ends := (position.map Until.retiredAt).getD .retiredPositionFree }
  else a

/-- The table a decision leaves. -/
def post (sha256 : List UInt8 → Bytes32) (t : FilteredTable) (r : CredentialRecord) : Decision → FilteredTable
  | .enroll new _ =>
      { t with tables :=
          t.tables.insert r.subject (t.admissions r.subject ++ new.map (admissionOf sha256 r.position)) }
  | .retire removed _ =>
      match t.tables.get r.subject with
      | none => t
      | some table => { t with tables := t.tables.insert r.subject (table.map (retireIn removed r.position)) }

/-- The table a refusal leaves. -/
def refuse (t : FilteredTable) (r : CredentialRecord) (cause : RefusedCause) : FilteredTable :=
  let t := { t with refused := t.refused ++ [⟨r.link, r.subject, r.position, cause⟩] }
  if cause = .undeterminable then t.markMissing r.subject (r.position.getD 0) else t

/-- Admit a record where the rules admit it. -/
def admitRecord (sha256 : List UInt8 → Bytes32) (t : FilteredTable) (r : CredentialRecord) (board : Option BoardTerm)
    (verify : Verify) : Outcome Empty (FilteredTable × Admittance) :=
  match t.judge sha256 r board verify with
  | .ok decision => .ok (t.post sha256 r decision, .admitted decision.signer)
  | .err cause => .ok (t.refuse r cause, .refused cause)
  | .fault => .fault

end FilteredTable

/-- What a reader hands the table: a record it fetched, or word of one it could not. -/
inductive TableEvent where
  | record (r : CredentialRecord) (board : Option BoardTerm) (verify : Verify)
  | missing (account : Address) (position : ℕ)

namespace FilteredTable

/-- The table after an event. -/
def step (sha256 : List UInt8 → Bytes32) (t : FilteredTable) : TableEvent → Outcome Empty FilteredTable
  | .record r board verify => Prod.fst <$> t.admitRecord sha256 r board verify
  | .missing account position => .ok (t.markMissing account position)

/-- The table of a list of events. -/
def run (sha256 : List UInt8 → Bytes32) (claim : Option (ℕ × Address)) (events : List TableEvent) :
    Outcome Empty FilteredTable :=
  events.foldlM (step sha256) (new claim)

end FilteredTable

end Identity
