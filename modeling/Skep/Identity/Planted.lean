import Skep.Identity.Reading
import Skep.Identity.Seam
import Skep.Journal.Digests
import Skep.Library.PrefixCode

/-!
# Where the two part

A journal on which the table admits a record the board's fold refuses: a first enrollment
no key signed is honored by the fold and refused by the table, and then the one the
giver signed is refused by the fold, whose account is keyed, and admitted by the table,
whose account is not. The fold never holds the key the table holds. Another: a record
read without its position stands before the claim, and the table takes it as one after.

## Main results

- `not_table_filters_fold` — both journals
-/

namespace Identity

open FilteredTable IdentityState
open Journal.Sha256 (digest)

-- Reading an atom

theorem length_utf8_le (cs : List Char) : (utf8 (String.ofList cs)).length ≤ 4 * cs.length := by
  have hbytes : ∀ cs : List Char, utf8 (String.ofList cs) = cs.flatMap String.utf8EncodeChar := by
    intro cs
    rw [utf8, String.toByteArray_ofList, List.utf8Encode]
    simp
  induction cs with
  | nil => simp [hbytes]
  | cons c cs ih =>
    have hc := Char.utf8Size_le_four c
    rw [hbytes] at ih
    rw [hbytes, List.flatMap_cons, List.length_append, String.length_utf8EncodeChar, List.length_cons]
    omega

theorem length_hexChars (bs : List UInt8) : (hexChars bs).length = 2 * bs.length := by
  rw [hexChars, List.length_flatMap]
  simp
  omega

theorem utf8ByteSize_hexEncode (bs : List UInt8) : (hexEncode bs).utf8ByteSize = 2 * bs.length := by
  have hascii : ∀ c ∈ hexChars bs, c.toNat < 128 := by
    intro c hc
    obtain ⟨d, hd, rfl⟩ := mem_hexChars hc
    exact (hexDigit_plain d hd).2.1
  have hlen : (utf8 (hexEncode bs)).length = 2 * bs.length := by
    rw [hexEncode, utf8_ascii hascii, List.length_map, length_hexChars]
  simpa [utf8] using hlen

theorem length_encodeKeyEntry {e : Enrollment} (hlabel : e.label = none) : (encodeKeyEntry e).length ≤ 4096 := by
  have hopen : "\x7b\"alg\":\"".toList.length = 8 := by simp
  have hmiddle : "\",\"key\":\"".toList.length = 9 := by simp
  have hlast : "\",\"anchor\":".toList.length = 11 := by simp
  have hkey : e.key.toHex.toList.length ≤ 2 * 1984 := by
    have hrows : ∀ row ∈ sigAlgs, row.keyLen ≤ 1984 := by decide
    have hrow := hrows _ e.key.sigAlgRow_mem
    rw [PublicKey.toHex, hexEncode, String.toList_ofList, length_hexChars, PublicKey.length_raw]
    omega
  have halg : e.key.alg.toList.length ≤ 24 := by
    have hrows : ∀ row ∈ sigAlgs, row.token.toList.length ≤ 24 := by
      simp [sigAlgs, mldsa65Ed25519Row, fndsa512PreviewEd25519Row]
    exact hrows _ e.key.sigAlgRow_mem
  have hflag : (if e.anchor = true then "true".toList else "false".toList).length ≤ 5 := by
    split <;> simp
  unfold encodeKeyEntry
  simp only [hlabel]
  -- the texts are set aside, that no step computes them
  generalize "\x7b\"alg\":\"".toList = opening at hopen ⊢
  generalize "\",\"key\":\"".toList = middle at hmiddle ⊢
  generalize "\",\"anchor\":".toList = last at hlast ⊢
  generalize e.key.toHex.toList = key at hkey ⊢
  generalize e.key.alg.toList = alg at halg ⊢
  generalize (if e.anchor = true then "true".toList else "false".toList) = flag at hflag ⊢
  simp only [List.length_append, List.length_cons, List.length_nil]
  omega

theorem length_canonicalRecord (sha256 : List UInt8 → Bytes32) {e : Enrollment} (hlabel : e.label = none)
    {sig : Option String} (hsig : ∀ s ∈ sig, (escapeJsonString s).length ≤ 16384) :
    (utf8 (canonicalRecord (enrollSchema sha256) [e] sig)).length ≤ maxRecordBytes := by
  have hentry := length_encodeKeyEntry hlabel
  unfold canonicalRecord
  refine (length_utf8_le _).trans ?_
  cases sig with
  | none =>
    simp [enrollSchema, Json.joined, maxRecordBytes]
    omega
  | some s =>
    have hs := hsig s rfl
    simp [enrollSchema, Json.joined, maxRecordBytes]
    omega

theorem walkSpan_past (ctx : Values) {span : Span} {pos : Tumbler} (h : span.contains pos = false) (n : ℕ)
    (out : List UInt8) : walkSpan ctx span n pos out = .ok (out, n) := by
  cases n with
  | zero => simp [walkSpan, h]
  | succ n => simp [walkSpan, h]

theorem recordBytes_atom {ctx : Values} {home : Address} {pos : Tumbler} {bytes : List UInt8}
    (hstart : startsAtPosition home (Span.subtreeOf pos) = true) (hvalue : ctx.valueAt pos = some bytes)
    (hcap : bytes.length ≤ maxRecordBytes) : recordBytes ctx home [Span.subtreeOf pos] = .ok bytes := by
  have hin : (Span.subtreeOf pos).contains pos = true := by
    simp [Span.contains, Tumbler.lt_nextAtLength]
  have hpast : (Span.subtreeOf pos).contains (pos.shift 1) = false := by
    simp [Span.contains, Tumbler.nextAtLength]
  obtain ⟨n, hn⟩ : ∃ n, maxRecordBytes = n + 1 := ⟨131071, rfl⟩
  have happend : appendValue ctx pos [] = .ok bytes := by
    simp [appendValue, hvalue, not_lt.2 hcap]
  rw [recordBytes, readSpans, if_pos hstart, hn, Span.start_subtreeOf, walkSpan, if_pos hin, happend]
  simp only [Except.bind, bind, walkSpan_past ctx hpast, readSpans]

-- The deposits

/-- Another account with none above it. -/
def otherAccount : Address := ⟨⟨[1, 0, 2], by simp⟩, .account, by decide⟩

/-- More links of the claimant's first document. -/
def secondLink : Address := ⟨⟨[1, 0, 1, 0, 1, 0, 2, 2], by simp⟩, .element, by decide⟩

def thirdLink : Address := ⟨⟨[1, 0, 1, 0, 1, 0, 2, 3], by simp⟩, .element, by decide⟩

def fourthLink : Address := ⟨⟨[1, 0, 1, 0, 1, 0, 2, 4], by simp⟩, .element, by decide⟩

/-- Positions of the claimant's first document. -/
def atomAt (k : ℕ) : Tumbler := ⟨[1, 0, 1, 0, 1, 0, 1, k], by simp⟩

/-- The types of the credentials. -/
def plainTypes : TypeAddrs :=
  ⟨⟨atomAt 7, .element, by decide⟩, ⟨atomAt 8, .element, by decide⟩, ⟨atomAt 9, .element, by decide⟩, by decide⟩

def plainEntry (b : UInt8) (anchor : Bool) : Enrollment := ⟨plainKey b, anchor, none, isLabel_none⟩

/-- A signature's hex, as long as the keys' algorithm signs. -/
def plainSig : String := hexEncode (List.replicate 730 0)

/-- A record's bytes. -/
def recordOf (e : Enrollment) (sig : Option String) : List UInt8 :=
  utf8 (canonicalRecord (enrollSchema digest) [e] sig)

/-- The bootstrap principal seats the claimant and the other, and the claimant creates a
document. -/
def plainRequests : List NamespaceRequest :=
  [⟨.delegate bootstrapPrincipal claimantAccount.tumbler ⟨7⟩, 0, 0⟩,
    ⟨.delegate bootstrapPrincipal otherAccount.tumbler ⟨8⟩, 0, 0⟩,
    ⟨.createNewDocument ⟨7⟩ claimantAccount none, 0, 0⟩]

/-- The namespace the run ends with. -/
def plainBoard : M3State := (Namespace.run plainRequests).head.world

/-- A world of three atoms: an anchor's record, a second's and a third's, which is signed. -/
def plainValues : Values where
  valueAt pos :=
    if pos = atomAt 1 then some (recordOf (plainEntry 1 true) none)
    else if pos = atomAt 2 then some (recordOf (plainEntry 2 true) none)
    else if pos = atomAt 3 then some (recordOf (plainEntry 3 true) (some plainSig))
    else none

def plainCtx : FoldCtx := boardCtx plainValues plainBoard

/-- An enrollment of the atom `k`, at a position. -/
def enrollAt (k : ℕ) (link subject : Address) (position : ℕ) (known : Bool) : Deposited where
  ctx := plainCtx
  dep := ⟨claimantDocOne, [Span.subtreeOf (atomAt k)], [Span.subtreeOf subject.tumbler],
    [Span.subtreeOf plainTypes.enroll.tumbler]⟩
  link := link
  position := position
  positionKnown := known
  board := some ⟨0, Journal.chainGenesis⟩
  verify _ key _ _ := decide (key = plainKey 1)

/-- The claim. -/
def claimAtPosition (link : Address) (position : ℕ) : Deposited where
  ctx := plainCtx
  dep := ⟨claimantDocOne, [Span.subtreeOf claimantAccount.tumbler], [], [Span.subtreeOf plainTypes.claim.tumbler]⟩
  link := link
  position := position
  positionKnown := true
  board := none
  verify _ _ _ _ := false

theorem account_claimant : plainCtx.isAccount claimantAccount = true := by decide +kernel

theorem account_other : plainCtx.isAccount otherAccount = true := by decide +kernel

theorem documentAccount_plain : documentAccount plainCtx claimantDocOne = some claimantAccount := by decide +kernel

theorem wellFormed_plain {d : Deposited} (hctx : d.ctx = plainCtx) (hhome : d.dep.home = claimantDocOne) :
    d.WellFormed := by
  apply wellFormed_run plainRequests List.mem_cons_self hctx
  · rw [hhome]
    decide +kernel
  · rw [hhome]
    decide +kernel

/-- What a reader reads of an enrollment. -/
def readOf (e : Enrollment) (sig : Option String) (link subject : Address) (position : ℕ) (known : Bool) :
    CredentialRecord :=
  ⟨.enroll, link, claimantDocOne, claimantAccount, subject, plainTypes.enroll, recordOf e none, sig, [e], [],
    if known then some position else none⟩

theorem sigless_readOf (e : Enrollment) (sig : Option String) (link subject : Address) (position : ℕ) (known : Bool) :
    (readOf e sig link subject position known).sigless = recordOf e none := by
  rw [readOf]

theorem docOne_readOf (e : Enrollment) (sig : Option String) (link subject : Address) (position : ℕ) (known : Bool) :
    docOne (readOf e sig link subject position known).homeAccount =
      some (readOf e sig link subject position known).home := by
  have hdoc : docOne claimantAccount = some claimantDocOne := by decide
  rw [readOf]
  exact hdoc

/-- An atom of the claimant's first document that holds a record of one key. -/
structure HoldsRecord (k : ℕ) (e : Enrollment) (sig : Option String) : Prop where
  start : startsAtPosition claimantDocOne (Span.subtreeOf (atomAt k)) = true
  value : plainCtx.valueAt (atomAt k) = some (recordOf e sig)
  label : e.label = none
  sig : ∀ s ∈ sig, (escapeJsonString s).length ≤ 16384

theorem credentialOf_enrollAt {k : ℕ} {e : Enrollment} {sig : Option String} (h : HoldsRecord k e sig)
    (link : Address) {subject : Address} (hsubject : singleAddress [Span.subtreeOf subject.tumbler] = some subject)
    (haccount : plainCtx.isAccount subject = true) (position : ℕ) (known : Bool) :
    credentialOf digest Json.ofText plainTypes (enrollAt k link subject position known) =
      some (readOf e sig link subject position known) := by
  have hkind : plainTypes.kindOf [Span.subtreeOf plainTypes.enroll.tumbler] = some .enroll := by decide
  have hcap := length_canonicalRecord digest h.label h.sig
  have hbytes := recordBytes_atom h.start h.value hcap
  have hfilter : (some subject).filter (fun subject => plainCtx.isAccount subject) = some subject := by
    rw [Option.filter_some, if_pos haccount]
  have hrecord : subjectAndRecord plainCtx (enrollAt k link subject position known).dep =
      .ok (subject, recordOf e sig) := by
    simp [subjectAndRecord, enrollAt, hsubject, hfilter, hbytes]
  have hparse := parseRecordValue_canonical (enrollSchema_readable digest) (List.cons_ne_nil e [])
    (by simp) sig hcap
  rw [recordOf] at hrecord
  unfold credentialOf
  have hctx : (enrollAt k link subject position known).ctx = plainCtx := rfl
  have hty : (enrollAt k link subject position known).dep.ty = [Span.subtreeOf plainTypes.enroll.tumbler] := rfl
  have hhome : (enrollAt k link subject position known).dep.home = claimantDocOne := rfl
  rw [hctx, hty, hhome, hkind, documentAccount_plain, hrecord]
  simp only [Option.bind_eq_bind, Option.bind_some, Except.toOption, hparse, Outcome.toOption]
  rfl

theorem holds_first : HoldsRecord 1 (plainEntry 1 true) none :=
  ⟨by decide, by simp [plainCtx, boardCtx, plainValues], rfl, by simp⟩

theorem holds_second : HoldsRecord 2 (plainEntry 2 true) none :=
  ⟨by decide, by simp [plainCtx, boardCtx, plainValues, atomAt], rfl, by simp⟩

theorem length_escapeJsonString (s : String) : (escapeJsonString s).length ≤ 6 * s.toList.length + 2 := by
  have hchar : ∀ c, (escapeChar c).length ≤ 6 := by
    intro c
    rw [escapeChar]
    split_ifs <;> simp
  have hchars : ∀ cs : List Char, (cs.flatMap escapeChar).length ≤ 6 * cs.length := by
    intro cs
    induction cs with
    | nil => simp
    | cons c cs ih =>
      have hc := hchar c
      rw [List.flatMap_cons, List.length_append, List.length_cons]
      omega
  have hs := hchars s.toList
  simp only [escapeJsonString, List.length_cons, List.length_append, List.length_nil]
  omega

theorem holds_third : HoldsRecord 3 (plainEntry 3 true) (some plainSig) := by
  refine ⟨by decide, by simp [plainCtx, boardCtx, plainValues, atomAt], rfl, ?_⟩
  intro s hs
  have hlen : plainSig.toList.length = 1460 := by
    rw [plainSig, hexEncode, String.toList_ofList, length_hexChars, List.length_replicate]
  have hbound := length_escapeJsonString plainSig
  rw [Option.mem_some_iff.1 hs] at hbound hlen
  omega

theorem single_claimant : singleAddress [Span.subtreeOf claimantAccount.tumbler] = some claimantAccount := by decide

theorem single_other : singleAddress [Span.subtreeOf otherAccount.tumbler] = some otherAccount := by decide

-- The fold's verdicts

/-- The digest and the types of the journals. -/
abbrev plainClassify (st : IdentityState) (d : Deposited) : Verdict :=
  st.classify digest Json.ofText plainTypes d.ctx d.dep

theorem classify_enrollAt {k : ℕ} {e : Enrollment} {sig : Option String} (h : HoldsRecord k e sig)
    (link : Address) {subject : Address} (hsubject : singleAddress [Span.subtreeOf subject.tumbler] = some subject)
    (haccount : plainCtx.isAccount subject = true) (position : ℕ) (known : Bool) (st : IdentityState) :
    plainClassify st (enrollAt k link subject position known) =
      st.enrollArms digest plainCtx subject claimantAccount [e] := by
  obtain ⟨hread, -⟩ := readAs_of_credentialOf (credentialOf_enrollAt h link hsubject haccount position known)
  have hdoc : docOne claimantAccount = some claimantDocOne := by decide
  exact hread.classify_enroll (wellFormed_plain rfl rfl) hdoc rfl st

theorem delegator_top {a : Address} (haccount : plainCtx.isAccount a = true) (htop : accountAbove a = none) :
    delegator plainCtx.ownerOf a = some .bootstrap := by
  have hwf : (claimAtPosition claimantLink 0).WellFormed := wellFormed_plain rfl rfl
  have hdelegator : delegator plainCtx.ownerOf a = some (delegatorByAddress a) := hwf.delegators a haccount
  rw [hdelegator, delegatorByAddress, htop]

/-- A top account's first enrollment is homed in the claimant's first document once there
is a claimant, in its own before. -/
theorem enrollArms_top {st : IdentityState} {subject : Address} (haccount : plainCtx.isAccount subject = true)
    (htop : accountAbove subject = none) (hempty : (st.keySet subject).isEmpty = true) (e : Enrollment) :
    st.enrollArms digest plainCtx subject claimantAccount [e] =
      if st.claimant.getD subject = claimantAccount then .honored (.genesis subject [enrolledOf e])
      else if claimantAccount = subject then .inert .noHolder else .inert .notGenesisRegistry := by
  have hdelegator := delegator_top haccount htop
  have hregistry : st.genesisRegistry plainCtx.ownerOf subject = some (st.claimant.getD subject) := by
    simp only [IdentityState.genesisRegistry, hdelegator]
  have hlatch : st.handoffLatchFires digest plainCtx.ownerOf subject [e] = false := by
    simp only [IdentityState.handoffLatchFires, hdelegator]
  simp [enrollArms, hempty, hregistry, hlatch]

theorem classify_claim {st : IdentityState} (hnone : st.claimant = none)
    (hkeyed : (st.keySet claimantAccount).isEmpty = false) (link : Address) (position : ℕ) :
    plainClassify st (claimAtPosition link position) = .honored (.claim claimantAccount) := by
  have hkind : plainTypes.kindOf (claimAtPosition link position).dep.ty = some .claim := by
    have hty : (claimAtPosition link position).dep.ty = [Span.subtreeOf plainTypes.claim.tumbler] := rfl
    rw [hty]
    decide
  have haccount : documentAccount (claimAtPosition link position).ctx (claimAtPosition link position).dep.home =
      some claimantAccount := documentAccount_plain
  have hpublished : (claimAtPosition link position).ctx.isPublished (claimAtPosition link position).dep.home = true := by
    have h : plainCtx.isPublished claimantDocOne = true := by decide +kernel
    exact h
  have hfrom : singleAddress (claimAtPosition link position).dep.fromSlot = some claimantAccount := single_claimant
  have hto : (claimAtPosition link position).dep.toSlot = [] := rfl
  have hhome : homedInDocOne (claimAtPosition link position).dep claimantAccount = true := by
    have h : claimantDocOne = doc1Of claimantAccount := by decide
    exact decide_eq_true h
  have hdelegator : delegator (claimAtPosition link position).ctx.ownerOf claimantAccount = some .bootstrap :=
    delegator_top account_claimant (by decide)
  simp [plainClassify, IdentityState.classify, hkind, haccount, hpublished, claimPath, hfrom, hto, hhome, hdelegator,
    hnone, hkeyed]

-- The table's verdicts

theorem exists_frame (board : BoardTerm) {sigless : List UInt8} (hsigless : sigless.length ≤ maxRecordBytes)
    (key : PublicKey) : ∃ frame,
      RecordFrame.toBytes ⟨board, claimantAccount, claimantDocOne, ⟨plainTypes.enroll, [otherAccount], none, none, sigless⟩⟩
        key.alg = .ok frame := by
  have hother : (addressBytes otherAccount).length < 2 ^ 32 := by decide
  have hty : (addressBytes plainTypes.enroll).length < 2 ^ 32 := by decide
  have hfit : sigless.length < 2 ^ 32 := by
    rw [maxRecordBytes] at hsigless
    omega
  have halg : (utf8 key.alg).length < 2 ^ 32 := by
    have hrows : ∀ row ∈ sigAlgs, (utf8 row.token).length ≤ 24 := by decide
    have hrow := hrows _ key.sigAlgRow_mem
    rw [PublicKey.alg]
    omega
  have hop : (utf8 (EntryBody.op ⟨.record, []⟩)).length < 2 ^ 32 := by decide
  have haccount : (addressBytes claimantAccount).length < 2 ^ 32 := by decide
  have hdoc : (addressBytes claimantDocOne).length < 2 ^ 32 := by decide
  have hboard : (boardBytes board).length < 2 ^ 32 := by simp [boardBytes, length_beBytes, board.chain.2]
  have hpos : (0 : ℕ) < 2 ^ 32 := by decide
  simp only [RecordFrame.toBytes, entryBodyRecord, pushAddressList, pushDelimited, pushOptionalAddress, entryFrame, docBytes,
    framed, Outcome.bind_eq_ok_iff, Outcome.require_eq_ok_iff, List.foldlM_cons, List.foldlM_nil, Outcome.pure_eq, Outcome.ok.injEq,
    exists_eq_left', exists_const, true_and, hother, hty, hfit, hpos, Option.map_none, Option.getD_none, List.length_nil]
  refine ⟨_, rfl, ?_, rfl⟩
  simp only [List.forall_mem_cons, halg, hboard, haccount, hdoc, List.not_mem_nil, true_and, false_imp_iff, implies_true,
    and_true]
  refine ⟨hop, ?_⟩
  simp only [List.length_append, List.length_cons, List.length_nil, length_beBytes, delimited]
  rw [maxRecordBytes] at hsigless
  have htyLength : (addressBytes plainTypes.enroll).length < 2 ^ 10 := by decide
  have hotherLength : (addressBytes otherAccount).length < 2 ^ 10 := by decide
  omega

/-- The table holds the claimant's anchor, and nothing of the other account. -/
structure ClaimantAlone (t : FilteredTable) (claimAt : ℕ) (since : Option ℕ) : Prop where
  claim : t.claim = some (claimAt, claimantAccount)
  missing : t.missing = OrdMap.empty
  claimant : t.current claimantAccount = [admissionOf digest since (plainEntry 1 true)]
  other : t.admissions otherAccount = []

/-- A top account's first enrollment after the claim takes any key of the claimant. -/
theorem ClaimantAlone.arms_other {t : FilteredTable} {claimAt : ℕ} {since : Option ℕ} (h : ClaimantAlone t claimAt since)
    (e : Enrollment) (sig : Option String) (link : Address) {position : ℕ} {known : Bool}
    (hafter : known = true → claimAt < position) :
    t.arms digest (readOf e sig link otherAccount position known) = .ok ⟨[e], [], false⟩ := by
  have hne : claimantAccount ≠ otherAccount := by decide
  have habove : accountAbove otherAccount = none := by decide
  have haccounts : accountsAbove otherAccount = [] := accountsAbove_of_none habove
  have hsubject : (readOf e sig link otherAccount position known).subject = otherAccount := rfl
  have hhome : (readOf e sig link otherAccount position known).homeAccount = claimantAccount := rfl
  have hkind : (readOf e sig link otherAccount position known).kind = .enroll := rfl
  have hentries : (readOf e sig link otherAccount position known).enrolled = [e] := rfl
  have hkeyless : t.keyed otherAccount = false := by simp [keyed, current, h.other]
  have hregistry : t.genesisRegistry (readOf e sig link otherAccount position known) = some claimantAccount := by
    have hposition : ∀ p ∈ (readOf e sig link otherAccount position known).position, claimAt < p := by
      intro p hp
      simp only [readOf] at hp
      split_ifs at hp with hknown
      · obtain rfl := Option.mem_some_iff.1 hp
        exact hafter hknown
      · cases hp
    rw [FilteredTable.genesisRegistry, hsubject, habove, h.claim]
    exact if_pos hposition
  have hlatch : t.handoffLatchFires digest (readOf e sig link otherAccount position known) = some false := by
    rw [FilteredTable.handoffLatchFires, hsubject, habove]
  have hgrade : t.genesisGrade otherAccount = some false := by
    simp [genesisGrade, keyedAbove, haccounts, keyedOver]
  rw [arms, hregistry, hlatch, hsubject, hhome, hkind, hentries, hkeyless, hgrade, decide_eq_false hne]
  simp [Outcome.okOr, Outcome.refuseIf]

/-- The record the claimant's key signed. -/
abbrev signedRead (link : Address) (position : ℕ) (known : Bool) : CredentialRecord :=
  readOf (plainEntry 3 true) (some plainSig) link otherAccount position known

theorem ClaimantAlone.trial_signed {t : FilteredTable} {claimAt : ℕ} {since : Option ℕ} (h : ClaimantAlone t claimAt since)
    (link : Address) (position : ℕ) (known : Bool) (board : BoardTerm) :
    t.trial (signedRead link position known) (some board) (fun _ key _ _ => decide (key = plainKey 1)) false =
      .ok (Fingerprint.of digest (plainKey 1)) := by
  have hlen : plainSig.utf8ByteSize = 1460 := by
    rw [plainSig, utf8ByteSize_hexEncode, List.length_replicate]
  have hblob : HybridBlob.parseHex plainSig = some ⟨List.replicate 730 0⟩ := by
    have hrow : (sigAlgs.any fun row => row.sigLen * 2 == 1460) = true := by decide
    rw [HybridBlob.parseHex, hlen, if_pos hrow, plainSig, hexDecode_hexEncode]
    rfl
  have hwalk : t.walk claimantAccount none = some (t.current claimantAccount) := by
    have hheld : t.current claimantAccount ≠ [] := by simp [h.claimant]
    rw [walk, walkOver, if_neg (by simp [isGap, h.missing]), setAt, if_neg hheld]
  have hrecord : (recordOf (plainEntry 3 true) none).length ≤ maxRecordBytes :=
    length_canonicalRecord digest rfl (by simp)
  obtain ⟨frame, hframe⟩ := exists_frame board hrecord (plainKey 1)
  have hhome : (signedRead link position known).home = claimantDocOne := rfl
  have hty : (signedRead link position known).ty = plainTypes.enroll := rfl
  have hsubject : (signedRead link position known).subject = otherAccount := rfl
  have hsigless : (signedRead link position known).sigless = recordOf (plainEntry 3 true) none := sigless_readOf ..
  have haccount : (signedRead link position known).homeAccount = claimantAccount := rfl
  have hsigner : signerOf (signedRead link position known) board (List.replicate 730 0) (fun _ key _ _ => decide (key = plainKey 1))
      [admissionOf digest since (plainEntry 1 true)] =
        .ok (some (Fingerprint.of digest (plainKey 1))) := by
    have hwidth : ¬(plainKey 1).sigAlgRow.sigLen ≠ (List.replicate 730 (0 : UInt8)).length := by
      rw [List.length_replicate]
      decide
    have hkey : (admissionOf digest since (plainEntry 1 true)).key = plainKey 1 := rfl
    rw [signerOf, hkey, if_neg hwidth, haccount, hhome, hty, hsubject, hsigless, hframe, Outcome.ok_bind,
      if_pos (decide_eq_true (Eq.refl (plainKey 1)))]
    rfl
  have hsig : (signedRead link position known).sig = some plainSig := rfl
  have hcandidates : (t.current claimantAccount).filter (fun a => !false || a.anchor) =
      [admissionOf digest since (plainEntry 1 true)] := by simp [h.claimant]
  simp only [trial, hsig, haccount, Outcome.bind_eq_ok_iff, Outcome.okOr_eq_ok_iff, Option.some.injEq]
  refine ⟨plainSig, rfl, board, rfl, _, hblob, _, hwalk, _, ?_, rfl⟩
  rw [hcandidates, hsigner]
  rfl

theorem ClaimantAlone.judge_signed {t : FilteredTable} {claimAt : ℕ} {since : Option ℕ} (h : ClaimantAlone t claimAt since)
    (link : Address) {position : ℕ} {known : Bool} (hafter : known = true → claimAt < position) (board : BoardTerm) :
    t.judge digest (signedRead link position known) (some board) (fun _ key _ _ => decide (key = plainKey 1)) =
      .ok (.enroll [plainEntry 3 true] (some (Fingerprint.of digest (plainKey 1)))) := by
  have hne : claimantAccount ≠ otherAccount := by decide
  have htrust : t.isHostTrusted (signedRead link position known) = false := by simp [isHostTrusted, readOf, hne]
  rw [judge, if_neg (not_not.2 (docOne_readOf ..)), htrust, if_neg Bool.false_ne_true, h.arms_other _ _ link hafter]
  have hkind : (signedRead link position known).kind = .enroll := rfl
  simp only [Outcome.ok_bind, h.trial_signed, hkind]
  rfl

-- The journals

theorem isEmpty_genesis (st : IdentityState) (account : Address) (e : Enrolled) (a : Address) :
    ((st.apply digest (.genesis account [e])).keySet a).isEmpty =
      (decide (a ≠ account) && (st.keySet a).isEmpty) := by
  rw [IdentityState.apply, keySet_postToSet]
  by_cases ha : a = account
  · rw [if_pos ha, decide_eq_false (not_not.2 ha)]
    exact KeySet.isEmpty_insertEnrolled _ e
  · rw [if_neg ha, decide_eq_true ha, Bool.true_and]

theorem keySet_claim (st : IdentityState) (account a : Address) :
    (st.apply digest (.claim account)).keySet a = st.keySet a := rfl

/-- The fold with the claimant's anchor. -/
def anchoredFold : IdentityState :=
  genesis.apply digest (.genesis claimantAccount [enrolledOf (plainEntry 1 true)])

/-- The fold with the claim. -/
def claimedFold : IdentityState := anchoredFold.apply digest (.claim claimantAccount)

/-- The fold with the other account's first enrollment. -/
def plantedFold : IdentityState :=
  claimedFold.apply digest (.genesis otherAccount [enrolledOf (plainEntry 2 true)])

theorem classify_first (position : ℕ) (known : Bool) :
    plainClassify genesis (enrollAt 1 claimantLink claimantAccount position known) =
      .honored (.genesis claimantAccount [enrolledOf (plainEntry 1 true)]) := by
  rw [classify_enrollAt holds_first _ single_claimant account_claimant, enrollArms_top account_claimant (by decide) rfl]
  exact if_pos rfl

theorem classify_claim_first (link : Address) (position : ℕ) :
    plainClassify anchoredFold (claimAtPosition link position) = .honored (.claim claimantAccount) := by
  apply classify_claim rfl
  rw [anchoredFold, isEmpty_genesis]
  rfl

theorem classify_second (position : ℕ) (known : Bool) :
    plainClassify claimedFold (enrollAt 2 thirdLink otherAccount position known) =
      .honored (.genesis otherAccount [enrolledOf (plainEntry 2 true)]) := by
  have hempty : (claimedFold.keySet otherAccount).isEmpty = true := by
    rw [claimedFold, keySet_claim, anchoredFold, isEmpty_genesis]
    decide
  rw [classify_enrollAt holds_second _ single_other account_other, enrollArms_top account_other (by decide) hempty]
  exact if_pos rfl

/-- An account the fold has keyed is not keyed by another's enrollment. -/
theorem classify_third (link : Address) (position : ℕ) (known : Bool) :
    plainClassify plantedFold (enrollAt 3 link otherAccount position known) = .inert .notGenesisRegistry := by
  have hkeyed : (plantedFold.keySet otherAccount).isEmpty = false := by
    rw [plantedFold, isEmpty_genesis]
    simp
  have hne : claimantAccount ≠ otherAccount := by decide
  rw [classify_enrollAt holds_third _ single_other account_other]
  simp [enrollArms, hkeyed, hne]

/-- Before the claim the claimant's first document is no registry. -/
theorem classify_third_early (link : Address) (position : ℕ) (known : Bool) :
    plainClassify anchoredFold (enrollAt 3 link otherAccount position known) = .inert .notGenesisRegistry := by
  have hempty : (anchoredFold.keySet otherAccount).isEmpty = true := by
    rw [anchoredFold, isEmpty_genesis]
    decide
  have hne : claimantAccount ≠ otherAccount := by decide
  have hclaimant : anchoredFold.claimant.getD otherAccount ≠ claimantAccount := hne.symm
  rw [classify_enrollAt holds_third _ single_other account_other, enrollArms_top account_other (by decide) hempty, if_neg hclaimant, if_neg hne]

/-- A journal: the claimant's anchor, the claim, an enrollment of the other account no key
signed. -/
def unsignedFirst : List Deposited :=
  [enrollAt 1 claimantLink claimantAccount 1 true, claimAtPosition secondLink 2, enrollAt 2 thirdLink otherAccount 3 true]

/-- Then one the claimant's key signed. -/
def signedThen : Deposited := enrollAt 3 fourthLink otherAccount 4 true

theorem wellFormed_planted : ∀ d ∈ unsignedFirst ++ [signedThen], d.WellFormed := by
  intro d hd
  simp only [unsignedFirst, signedThen, List.cons_append, List.nil_append, List.mem_cons, List.not_mem_nil, or_false] at hd
  obtain rfl | rfl | rfl | rfl := hd
  all_goals exact wellFormed_plain rfl rfl

theorem claimOf_of_claim {st : IdentityState} {d : Deposited} {account : Address}
    (h : plainClassify st d = .honored (.claim account)) (later : List Deposited) :
    claimOf digest Json.ofText plainTypes st (d :: later) = some (d.position, account) := by
  rw [claimOf, step_snd]
  unfold plainClassify at h
  rw [h]

theorem claimOf_of_genesis {st : IdentityState} {d : Deposited} {account : Address} {keys : List Enrolled}
    (h : plainClassify st d = .honored (.genesis account keys)) (later : List Deposited) :
    claimOf digest Json.ofText plainTypes st (d :: later) =
      claimOf digest Json.ofText plainTypes (st.apply digest (.genesis account keys)) later := by
  rw [claimOf, step_snd, step_fst_of_honored h]
  unfold plainClassify at h
  rw [h]

theorem claimOf_of_inert {st : IdentityState} {d : Deposited} {reason : Inert} (h : plainClassify st d = .inert reason)
    (later : List Deposited) :
    claimOf digest Json.ofText plainTypes st (d :: later) =
      claimOf digest Json.ofText plainTypes st later := by
  have hfold : (st.step digest Json.ofText plainTypes d.ctx d.dep).1 = st := by
    apply step_fst_of_not_honored
    unfold plainClassify at h
    rw [h]
    rfl
  rw [claimOf, step_snd, hfold]
  unfold plainClassify at h
  rw [h]

/-- The journal read without positions: the claimant's anchor, an enrollment its key signed,
the claim. -/
def signedEarly : List Deposited :=
  [enrollAt 1 claimantLink claimantAccount 1 false, enrollAt 3 secondLink otherAccount 2 false,
    claimAtPosition thirdLink 3]

theorem wellFormed_early : ∀ d ∈ signedEarly, d.WellFormed := by
  intro d hd
  simp only [signedEarly, List.mem_cons, List.not_mem_nil, or_false] at hd
  obtain rfl | rfl | rfl := hd
  all_goals exact wellFormed_plain rfl rfl

theorem claimOf_early :
    claimOf digest Json.ofText plainTypes genesis signedEarly = some (3, claimantAccount) :=
  (claimOf_of_genesis (classify_first 1 false) _).trans
    ((claimOf_of_inert (classify_third_early secondLink 2 false) _).trans
      (claimOf_of_claim (classify_claim_first thirdLink 3) _))

theorem sorted_planted : (unsignedFirst ++ [signedThen]).Pairwise fun x y => x.position ≤ y.position := by
  have hpositions : ((unsignedFirst ++ [signedThen]).map Deposited.position).Pairwise (· ≤ ·) := by decide
  exact List.pairwise_map.1 hpositions

theorem sorted_early : signedEarly.Pairwise fun x y => x.position ≤ y.position := by
  have hpositions : (signedEarly.map Deposited.position).Pairwise (· ≤ ·) := by decide
  exact List.pairwise_map.1 hpositions

theorem positionKnown_planted : ∀ d ∈ unsignedFirst ++ [signedThen], d.positionKnown = true := by
  have hknown : ∀ b ∈ (unsignedFirst ++ [signedThen]).map Deposited.positionKnown, b = true := by decide
  intro d hd
  exact hknown _ (List.mem_map_of_mem hd)

theorem claimOf_planted :
    claimOf digest Json.ofText plainTypes genesis (unsignedFirst ++ [signedThen]) =
      some (2, claimantAccount) :=
  (claimOf_of_genesis (classify_first 1 true) _).trans (claimOf_of_claim (classify_claim_first secondLink 2) _)

-- The readings

theorem foldStep_honored {st : IdentityState} {d : Deposited} {effect : Effect}
    (hverdict : plainClassify st d = .honored effect) :
    st.step digest Json.ofText plainTypes d.ctx d.dep = (st.apply digest effect, .honored effect) := by
  apply Prod.ext
  · exact step_fst_of_honored hverdict
  · exact (step_snd _ _ _).trans hverdict

theorem plainStep_admitted (rd : Reading) {d : Deposited} {r : CredentialRecord} {effect : Effect} {t : FilteredTable}
    {signer : Option Fingerprint} (hread : credentialOf digest Json.ofText plainTypes d = some r)
    (hverdict : plainClassify rd.fold d = .honored effect)
    (hadmitted : rd.table.admitRecord digest r d.board d.verify = .ok (t, .admitted signer)) :
    Reading.step digest Json.ofText plainTypes rd d =
      .ok ⟨rd.fold.apply digest effect, t, rd.honored ++ [d.toFoldEvent], rd.kept ++ [d.toFoldEvent]⟩ := by
  simp only [Reading.step, foldStep_honored hverdict, hread, hadmitted, Outcome.ok_bind]
  rfl

theorem plainStep_refused (rd : Reading) {d : Deposited} {r : CredentialRecord} {effect : Effect} {t : FilteredTable}
    {cause : RefusedCause} (hread : credentialOf digest Json.ofText plainTypes d = some r)
    (hverdict : plainClassify rd.fold d = .honored effect)
    (hadmitted : rd.table.admitRecord digest r d.board d.verify = .ok (t, .refused cause)) :
    Reading.step digest Json.ofText plainTypes rd d =
      .ok ⟨rd.fold.apply digest effect, t, rd.honored ++ [d.toFoldEvent], rd.kept⟩ := by
  simp only [Reading.step, foldStep_honored hverdict, hread, hadmitted, Outcome.ok_bind]
  rfl

theorem plainStep_claim (rd : Reading) {d : Deposited} {account : Address}
    (hread : credentialOf digest Json.ofText plainTypes d = none)
    (hverdict : plainClassify rd.fold d = .honored (.claim account)) :
    Reading.step digest Json.ofText plainTypes rd d =
      .ok ⟨rd.fold.apply digest (.claim account), rd.table, rd.honored ++ [d.toFoldEvent],
        rd.kept ++ [d.toFoldEvent]⟩ := by
  simp only [Reading.step, foldStep_honored hverdict, hread]
  rfl

/-- The claimant's first enrollment is taken on the host's word. -/
theorem admit_first {claimAt position : ℕ} (known : Bool) (hat : position ≤ claimAt) (d : Deposited) :
    ∃ t since, (FilteredTable.new (some (claimAt, claimantAccount))).admitRecord digest
      (readOf (plainEntry 1 true) none claimantLink claimantAccount position known) d.board d.verify =
        .ok (t, .admitted none) ∧ ClaimantAlone t claimAt since := by
  have hne : otherAccount ≠ claimantAccount := by decide
  have htrust : (FilteredTable.new (some (claimAt, claimantAccount))).isHostTrusted
      (readOf (plainEntry 1 true) none claimantLink claimantAccount position known) = true := by
    have hposition : ∀ p ∈ (readOf (plainEntry 1 true) none claimantLink claimantAccount position known).position,
        p ≤ claimAt := by
      intro p hp
      simp only [readOf] at hp
      split_ifs at hp
      · obtain rfl := Option.mem_some_iff.1 hp
        exact hat
      · cases hp
    simp only [isHostTrusted, hostTrusts, FilteredTable.new, Option.any_some, decide_eq_true hposition]
    rfl
  have hjudge : (FilteredTable.new (some (claimAt, claimantAccount))).judge digest
      (readOf (plainEntry 1 true) none claimantLink claimantAccount position known) d.board d.verify =
        .ok (.enroll [plainEntry 1 true] none) := by
    rw [judge, if_neg (not_not.2 (docOne_readOf ..)), if_pos htrust]
    rfl
  refine ⟨FilteredTable.post digest (.new (some (claimAt, claimantAccount)))
    (readOf (plainEntry 1 true) none claimantLink claimantAccount position known) (.enroll [plainEntry 1 true] none),
    (readOf (plainEntry 1 true) none claimantLink claimantAccount position known).position, ?_, ?_⟩
  · rw [admitRecord, hjudge]
    rfl
  · constructor
    · rw [claim_post]
      rfl
    · rw [missing_post]
      rfl
    · have hadmissions : (FilteredTable.post digest (.new (some (claimAt, claimantAccount)))
          (readOf (plainEntry 1 true) none claimantLink claimantAccount position known)
          (.enroll [plainEntry 1 true] none)).admissions claimantAccount =
            [admissionOf digest
              (readOf (plainEntry 1 true) none claimantLink claimantAccount position known).position (plainEntry 1 true)] := by
        rw [admissions_post_enroll, admissions_new]
        exact if_pos rfl
      rw [current, hadmissions]
      rfl
    · have hsubject : otherAccount ≠
          (readOf (plainEntry 1 true) none claimantLink claimantAccount position known).subject := hne
      rw [admissions_post_enroll, if_neg hsubject, admissions_new]

theorem ClaimantAlone.admit_second {t : FilteredTable} {claimAt : ℕ} {since : Option ℕ} (h : ClaimantAlone t claimAt since)
    (link : Address) (position : ℕ) (known : Bool) (hafter : known = true → claimAt < position) (d : Deposited) :
    ∃ t', t.admitRecord digest (readOf (plainEntry 2 true) none link otherAccount position known) d.board d.verify =
      .ok (t', .refused .noSig) ∧ ClaimantAlone t' claimAt since := by
  have hne : claimantAccount ≠ otherAccount := by decide
  have htrust : t.isHostTrusted (readOf (plainEntry 2 true) none link otherAccount position known) = false := by
    simp [isHostTrusted, readOf, hne]
  have htrial : ∀ grade, t.trial (readOf (plainEntry 2 true) none link otherAccount position known) d.board d.verify grade =
      .err .noSig := by
    intro grade
    rw [trial]
    rfl
  have hjudge : t.judge digest (readOf (plainEntry 2 true) none link otherAccount position known) d.board
      d.verify = .err .noSig := by
    rw [judge, if_neg (not_not.2 (docOne_readOf ..)), htrust, if_neg Bool.false_ne_true, h.arms_other _ _ link hafter, Outcome.ok_bind,
      htrial, Outcome.err_bind]
  refine ⟨_, by rw [admitRecord, hjudge], ?_⟩
  exact ⟨(claim_refuse ..).trans h.claim, h.missing, h.claimant, h.other⟩

theorem credentialOf_claim (link : Address) (position : ℕ) :
    credentialOf digest Json.ofText plainTypes (claimAtPosition link position) = none := by
  have hkind : plainTypes.kindOf (claimAtPosition link position).dep.ty = some .claim := by
    have hty : (claimAtPosition link position).dep.ty = [Span.subtreeOf plainTypes.claim.tumbler] := rfl
    rw [hty]
    decide
  simp only [credentialOf, hkind, Option.bind_eq_bind, Option.bind_some, Option.bind_fun_none]

theorem after_first (claimAt position : ℕ) (known : Bool) (hat : position ≤ claimAt) : ∃ rd,
    Reading.after digest Json.ofText plainTypes (some (claimAt, claimantAccount))
        [enrollAt 1 claimantLink claimantAccount position known] = .ok rd ∧
      rd.fold = anchoredFold ∧ rd.honored = rd.kept ∧ ∃ since, ClaimantAlone rd.table claimAt since := by
  obtain ⟨t, since, hadmitted, halone⟩ := admit_first known hat (enrollAt 1 claimantLink claimantAccount position known)
  have hread := credentialOf_enrollAt holds_first claimantLink single_claimant account_claimant position known
  have hfold : (Reading.start (some (claimAt, claimantAccount))).fold = genesis := by rw [Reading.start]
  have htable : (Reading.start (some (claimAt, claimantAccount))).table = .new (some (claimAt, claimantAccount)) := by
    rw [Reading.start]
  have hstep := plainStep_admitted _ hread (hfold ▸ classify_first position known) (htable ▸ hadmitted)
  rw [hfold] at hstep
  rw [Reading.after, List.foldlM_cons, hstep, Outcome.ok_bind, List.foldlM_nil, Outcome.pure_eq]
  exact ⟨_, rfl, rfl, rfl, since, halone⟩

/-- The reading with the other account's first enrollment. -/
theorem after_unsignedFirst : ∃ rd,
    Reading.after digest Json.ofText plainTypes (some (2, claimantAccount)) unsignedFirst = .ok rd ∧
      rd.fold = plantedFold ∧ ∃ since, ClaimantAlone rd.table 2 since := by
  obtain ⟨rd, hafter, hfold, -, since, halone⟩ := after_first 2 1 true (by decide)
  obtain ⟨fold, table, honored, kept⟩ := rd
  simp only at hfold halone
  subst hfold
  have hclaim := plainStep_claim ⟨anchoredFold, table, honored, kept⟩ (credentialOf_claim secondLink 2)
    (classify_claim_first secondLink 2)
  obtain ⟨t, hadmitted, halone⟩ := halone.admit_second thirdLink 3 true (by decide)
    (enrollAt 2 thirdLink otherAccount 3 true)
  have hread := credentialOf_enrollAt holds_second thirdLink single_other account_other 3 true
  have hsecond := plainStep_refused
    ⟨claimedFold, table, honored ++ [(claimAtPosition secondLink 2).toFoldEvent],
      kept ++ [(claimAtPosition secondLink 2).toFoldEvent]⟩ hread (classify_second 3 true) hadmitted
  have hjournal : unsignedFirst = [enrollAt 1 claimantLink claimantAccount 1 true] ++
      [claimAtPosition secondLink 2, enrollAt 2 thirdLink otherAccount 3 true] := rfl
  rw [Reading.after] at hafter ⊢
  rw [hjournal, List.foldlM_append, hafter, Outcome.ok_bind, List.foldlM_cons, hclaim, Outcome.ok_bind, List.foldlM_cons]
  rw [show anchoredFold.apply digest (.claim claimantAccount) = claimedFold from rfl, hsecond, Outcome.ok_bind,
    List.foldlM_nil, Outcome.pure_eq]
  exact ⟨_, rfl, rfl, since, halone⟩

/-- The record the table admits where the fold refuses. -/
theorem ClaimantAlone.admit_signed {t : FilteredTable} {claimAt : ℕ} {since : Option ℕ} (h : ClaimantAlone t claimAt since)
    (link : Address) (position : ℕ) (known : Bool) (hafter : known = true → claimAt < position) : ∃ t' signer,
    t.admitRecord digest (signedRead link position known) (enrollAt 3 link otherAccount position known).board
      (enrollAt 3 link otherAccount position known).verify = .ok (t', .admitted signer) := by
  have hjudge := h.judge_signed link hafter ⟨0, ⟨List.replicate 32 0, rfl⟩⟩
  have hboard : (enrollAt 3 link otherAccount position known).board = some ⟨0, ⟨List.replicate 32 0, rfl⟩⟩ := rfl
  have hverify : (enrollAt 3 link otherAccount position known).verify = fun _ key _ _ => decide (key = plainKey 1) := rfl
  rw [admitRecord, hboard, hverify, hjudge]
  exact ⟨_, _, rfl⟩

/-- The board's fold may refuse what the table admits: where it honored a record the table
refused, and where a record from before the claim is read without its position. -/
theorem not_table_filters_fold :
    (¬∀ (before later : List Deposited) (d : Deposited) (rd : Reading),
      (∀ x ∈ before ++ d :: later, x.WellFormed ∧ x.positionKnown = true) →
      ((before ++ d :: later).Pairwise fun x y => x.position ≤ y.position) →
      Reading.after digest Json.ofText plainTypes
        (claimOf digest Json.ofText plainTypes .genesis (before ++ d :: later)) before = .ok rd →
      ∀ r t signer, credentialOf digest Json.ofText plainTypes d = some r →
        rd.table.admitRecord digest r d.board d.verify = .ok (t, .admitted signer) →
          ∃ effect, rd.fold.classify digest Json.ofText plainTypes d.ctx d.dep = .honored effect) ∧
    ¬∀ (before later : List Deposited) (d : Deposited) (rd : Reading),
      (∀ x ∈ before ++ d :: later, x.WellFormed) →
      ((before ++ d :: later).Pairwise fun x y => x.position ≤ y.position) →
      Reading.after digest Json.ofText plainTypes
        (claimOf digest Json.ofText plainTypes .genesis (before ++ d :: later)) before = .ok rd →
      rd.honored = rd.kept →
      ∀ r t signer, credentialOf digest Json.ofText plainTypes d = some r →
        rd.table.admitRecord digest r d.board d.verify = .ok (t, .admitted signer) →
          ∃ effect, rd.fold.classify digest Json.ofText plainTypes d.ctx d.dep = .honored effect := by
  constructor
  · intro h
    obtain ⟨rd, hafter, hfold, since, halone⟩ := after_unsignedFirst
    obtain ⟨t, signer, hadmitted⟩ := halone.admit_signed fourthLink 4 true (by decide)
    have hread := credentialOf_enrollAt holds_third fourthLink single_other account_other 4 true
    obtain ⟨effect, heffect⟩ := h unsignedFirst [] signedThen rd
      (fun x hx => ⟨wellFormed_planted x hx, positionKnown_planted x hx⟩) sorted_planted (claimOf_planted.symm ▸ hafter)
      _ t signer hread hadmitted
    rw [hfold] at heffect
    have hinert := classify_third fourthLink 4 true
    unfold plainClassify at hinert
    rw [signedThen, hinert] at heffect
    cases heffect
  · intro h
    obtain ⟨rd, hafter, hfold, hsame, since, halone⟩ := after_first 3 1 false (by decide)
    obtain ⟨t, signer, hadmitted⟩ := halone.admit_signed secondLink 2 false (by decide)
    have hread := credentialOf_enrollAt holds_third secondLink single_other account_other 2 false
    obtain ⟨effect, heffect⟩ := h [enrollAt 1 claimantLink claimantAccount 1 false] [claimAtPosition thirdLink 3]
      (enrollAt 3 secondLink otherAccount 2 false) rd wellFormed_early sorted_early (claimOf_early.symm ▸ hafter) hsame
      _ t signer hread hadmitted
    rw [hfold] at heffect
    have hinert := classify_third_early secondLink 2 false
    unfold plainClassify at hinert
    rw [hinert] at heffect
    cases heffect

/-- The journal on which the table is the fold of what it admits, and the board's is not. -/
theorem table_filters_planted : ∃ rd,
    Reading.after digest Json.ofText plainTypes
      (claimOf digest Json.ofText plainTypes .genesis (unsignedFirst ++ [signedThen])) unsignedFirst =
        .ok rd ∧
      Filters digest Json.ofText plainTypes unsignedFirst signedThen rd := by
  obtain ⟨rd, hafter, -⟩ := after_unsignedFirst
  rw [← claimOf_planted] at hafter
  exact ⟨rd, hafter, table_filters wellFormed_planted sorted_planted
    (fun x hx _ _ _ _ _ _ => .inl (positionKnown_planted x hx)) hafter⟩

end Identity
