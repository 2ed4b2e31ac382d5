import Skep.Identity.Filter

/-!
# The journal read twice

One journal of deposits, folded by the board and read by a verifying reader into a table
under the board's claim. The board's fold honors records no key signed, and a table that
refused those goes on from other sets, so the table may admitRecord what the board's fold
refuses. What it admits is honored by the fold of the admitted records and the claim
alone, and the sets of that fold are the table's.

## Main results

- `table_filters` — what the table admits the fold of the admitted honors
-/

namespace Identity

section Journal

variable (sha256 : List UInt8 → Bytes32) (fromStr : String → Option Json) (types : TypeAddrs)

/-- The board's claim: the first deposit the fold honors as one. -/
def claimOf (st : IdentityState) : List Deposited → Option (ℕ × Address)
  | [] => none
  | d :: later =>
    match (st.step sha256 fromStr types d.ctx d.dep).2 with
    | .honored (.claim account) => some (d.position, account)
    | _ => claimOf (st.step sha256 fromStr types d.ctx d.dep).1 later

open IdentityState in
/-- The board's fold, the reader's table, the events the fold honored, and the events
that the table admitted or that made the claim. -/
structure Reading where
  fold : IdentityState
  table : FilteredTable
  honored : List FoldEvent
  kept : List FoldEvent

def Reading.start (claim : Option (ℕ × Address)) : Reading := ⟨.genesis, .new claim, [], []⟩

/-- A deposit read by both. -/
def Reading.step (rd : Reading) (d : Deposited) : Outcome Empty Reading := do
  let (fold, verdict) := rd.fold.step sha256 fromStr types d.ctx d.dep
  let honored := if verdict.isHonored then rd.honored ++ [d.toFoldEvent] else rd.honored
  match credentialOf sha256 fromStr types d with
  | some r =>
      let (table, admittance) ← rd.table.admitRecord sha256 r d.board d.verify
      match admittance with
      | .admitted _ => return ⟨fold, table, honored, rd.kept ++ [d.toFoldEvent]⟩
      | .refused _ => return ⟨fold, table, honored, rd.kept⟩
  | none =>
    match verdict with
    | .honored (.claim _) => return ⟨fold, rd.table, honored, rd.kept ++ [d.toFoldEvent]⟩
    | _ => return ⟨fold, rd.table, honored, rd.kept⟩

/-- The journal read under a claim. -/
def Reading.after (claim : Option (ℕ × Address)) (journal : List Deposited) : Outcome Empty Reading :=
  journal.foldlM (Reading.step sha256 fromStr types) (Reading.start claim)

end Journal

section

open FilteredTable IdentityState

variable {sha256 : List UInt8 → Bytes32} {fromStr : String → Option Json} {types : TypeAddrs}
  {claim : Option (ℕ × Address)} {rd rd' : Reading} {d : Deposited}

theorem Reading.step_cases (h : Reading.step sha256 fromStr types rd d = .ok rd') :
    rd'.fold = (rd.fold.step sha256 fromStr types d.ctx d.dep).1 ∧
    rd'.honored = (if (rd.fold.classify sha256 fromStr types d.ctx d.dep).isHonored then
      rd.honored ++ [d.toFoldEvent] else rd.honored) ∧
    ((∃ r signer, credentialOf sha256 fromStr types d = some r ∧
        rd.table.admitRecord sha256 r d.board d.verify = .ok (rd'.table, .admitted signer) ∧
        rd'.kept = rd.kept ++ [d.toFoldEvent]) ∨
      (∃ r cause, credentialOf sha256 fromStr types d = some r ∧
        rd.table.admitRecord sha256 r d.board d.verify = .ok (rd'.table, .refused cause) ∧ rd'.kept = rd.kept) ∨
      (credentialOf sha256 fromStr types d = none ∧ rd'.table = rd.table ∧
        ∃ account, rd.fold.classify sha256 fromStr types d.ctx d.dep = .honored (.claim account) ∧
          rd'.kept = rd.kept ++ [d.toFoldEvent]) ∨
      (credentialOf sha256 fromStr types d = none ∧ rd'.table = rd.table ∧ rd'.kept = rd.kept ∧
        ∀ account, rd.fold.classify sha256 fromStr types d.ctx d.dep ≠ .honored (.claim account))) := by
  have hverdict : (rd.fold.step sha256 fromStr types d.ctx d.dep).2 =
      rd.fold.classify sha256 fromStr types d.ctx d.dep := step_snd _ _ _
  unfold Reading.step at h
  rw [← hverdict]
  cases hread : credentialOf sha256 fromStr types d with
  | some r =>
    simp only [hread, Outcome.bind_eq_ok_iff, Prod.exists] at h
    obtain ⟨table, admittance, hadmitted, h⟩ := h
    cases admittance with
    | admitted signer =>
      cases h
      exact ⟨rfl, rfl, .inl ⟨r, signer, rfl, hadmitted, rfl⟩⟩
    | refused cause =>
      cases h
      exact ⟨rfl, rfl, .inr (.inl ⟨r, cause, rfl, hadmitted, rfl⟩)⟩
  | none =>
    simp only [hread] at h
    split at h
    · next account hclaim =>
      cases h
      exact ⟨rfl, rfl, .inr (.inr (.inl ⟨rfl, rfl, account, hclaim, rfl⟩))⟩
    · next hnot =>
      cases h
      exact ⟨rfl, rfl, .inr (.inr (.inr ⟨rfl, rfl, rfl, hnot⟩))⟩

/-- A claim honored by one fold is honored by another that has no claimant and holds a
key of the account. -/
theorem claim_honored {st st' : IdentityState} {account : Address}
    (h : st.classify sha256 fromStr types d.ctx d.dep = .honored (.claim account)) (hnone : st'.claimant = none)
    (hkeyed : (st'.keySet account).isEmpty = false) :
    st'.classify sha256 fromStr types d.ctx d.dep = .honored (.claim account) := by
  obtain ⟨hkind, a, ha, haccount⟩ | ⟨r, -, -, ⟨-, harms⟩ | ⟨-, harms⟩⟩ := honored_cases h
  · cases ha
    simp only [IdentityState.classify, hkind, haccount, claimPath] at h ⊢
    split_ifs at h with hpublished hshape hhome hdelegator hclaimed hkeyless
    rw [if_neg hpublished, if_neg hshape, if_neg hhome, if_neg hdelegator, if_neg (by simp [hnone]),
      if_neg (by simp [hkeyed])]
  · exact absurd harms enrollArms_ne_claim
  · exact absurd harms retireArms_ne_claim

/-- An account that makes the claim has no account above it. -/
theorem claimant_top {st : IdentityState} {account : Address} (hwf : d.WellFormed)
    (h : st.classify sha256 fromStr types d.ctx d.dep = .honored (.claim account)) :
    account.level = .account ∧ FilteredTable.accountAbove account = none := by
  obtain ⟨-, a, ha, haccount⟩ | ⟨r, -, -, ⟨-, harms⟩ | ⟨-, harms⟩⟩ := honored_cases h
  · cases ha
    have hregistered := hwf.homeAccount account haccount
    obtain ⟨-, -, hdelegator, -⟩ := classify_permitted h
    rw [hwf.delegators account hregistered, delegatorByAddress] at hdelegator
    refine ⟨hwf.accounts account hregistered, ?_⟩
    cases habove : FilteredTable.accountAbove account with
    | none => rfl
    | some above =>
      rw [habove] at hdelegator
      cases hdelegator
  · exact absurd harms enrollArms_ne_claim
  · exact absurd harms retireArms_ne_claim

theorem claimOf_cons (sha256 : List UInt8 → Bytes32) (fromStr : String → Option Json) (types : TypeAddrs)
    (st : IdentityState) (d : Deposited) (later : List Deposited) :
    (∃ account, st.classify sha256 fromStr types d.ctx d.dep = .honored (.claim account) ∧
      claimOf sha256 fromStr types st (d :: later) = some (d.position, account)) ∨
    ((∀ account, st.classify sha256 fromStr types d.ctx d.dep ≠ .honored (.claim account)) ∧
      claimOf sha256 fromStr types st (d :: later) =
        claimOf sha256 fromStr types (st.step sha256 fromStr types d.ctx d.dep).1 later) := by
  have hverdict : (st.step sha256 fromStr types d.ctx d.dep).2 =
      st.classify sha256 fromStr types d.ctx d.dep := step_snd _ _ _
  rw [claimOf, ← hverdict]
  split
  · next account hclaim => exact .inl ⟨account, hclaim, rfl⟩
  · next hnot => exact .inr ⟨hnot, rfl⟩

/-- The claim is a top account's, at the position of one of the deposits. -/
theorem claimOf_eq_some {st : IdentityState} {later : List Deposited} (hwf : ∀ x ∈ later, x.WellFormed)
    {claimAt : ℕ} {c : Address} (h : claimOf sha256 fromStr types st later = some (claimAt, c)) :
    c.level = .account ∧ FilteredTable.accountAbove c = none ∧ ∃ x ∈ later, x.position = claimAt := by
  induction later generalizing st with
  | nil => cases h
  | cons d later ih =>
    obtain ⟨account, hclaim, heq⟩ | ⟨-, heq⟩ := claimOf_cons sha256 fromStr types st d later
    · rw [h, Option.some.injEq, Prod.mk.injEq] at heq
      obtain ⟨rfl, rfl⟩ := heq
      obtain ⟨hlevel, htop⟩ := claimant_top (hwf d List.mem_cons_self) hclaim
      exact ⟨hlevel, htop, d, List.mem_cons_self, rfl⟩
    · rw [heq] at h
      obtain ⟨hlevel, htop, x, hx, hposition⟩ := ih (fun x hx => hwf x (List.mem_cons_of_mem _ hx)) h
      exact ⟨hlevel, htop, x, List.mem_cons_of_mem _ hx, hposition⟩

section

variable (sha256 : List UInt8 → Bytes32) (fromStr : String → Option Json) (types : TypeAddrs)
  (claim : Option (ℕ × Address))

/-- The fold of the admitted records and the claim. -/
def Reading.keptFold (rd : Reading) : IdentityState := IdentityState.run sha256 fromStr types rd.kept

/-- Before the claim: it is still to come, and where the fold holds a key of the claimant
so does the table. -/
structure BeforeClaim (later : List Deposited) (rd : Reading) : Prop where
  fold : rd.fold.claimant = none
  kept : (rd.keptFold sha256 fromStr types).claimant = none
  toCome : claimOf sha256 fromStr types rd.fold later = claim
  claimantKeyed : ∀ claimAt c, claim = some (claimAt, c) → (rd.fold.keySet c).isEmpty = false →
    rd.table.keyed c = true

/-- After the claim: both folds have the claimant, and what is left stands at or above it. -/
structure AfterClaim (later : List Deposited) (rd : Reading) : Prop where
  claimed : ∃ claimAt c, claim = some (claimAt, c) ∧ rd.fold.claimant = some c ∧
    (rd.keptFold sha256 fromStr types).claimant = some c ∧ ∀ x ∈ later, claimAt ≤ x.position

/-- What holds with a part of the journal read and the rest to come. -/
structure ReadUpTo (later : List Deposited) (rd : Reading) : Prop where
  sides : SideBySide sha256 rd.table (rd.keptFold sha256 fromStr types)
  under : rd.table.claim = claim
  fold : rd.fold = IdentityState.run sha256 fromStr types rd.honored
  stage : BeforeClaim sha256 fromStr types claim later rd ∨ AfterClaim sha256 fromStr types claim later rd

/-- A record a top account's other than the claimant's, from before the claim, is read
with its position. -/
def PositionRead (d : Deposited) : Prop :=
  ∀ r claimAt c, credentialOf sha256 fromStr types d = some r → claim = some (claimAt, c) → d.position ≤ claimAt →
    d.positionKnown = true ∨ r.subject = c ∨ FilteredTable.accountAbove r.subject ≠ none

end

theorem ReadUpTo.claimPlace {later : List Deposited} (h : ReadUpTo sha256 fromStr types claim (d :: later) rd)
    (hwf : ∀ x ∈ d :: later, x.WellFormed) (hsorted : (d :: later).Pairwise fun x y => x.position ≤ y.position)
    (hknown : PositionRead sha256 fromStr types claim d) {r : CredentialRecord}
    (hread : credentialOf sha256 fromStr types d = some r) (htop : FilteredTable.accountAbove r.subject = none) :
    ClaimPlace rd.table.claim (rd.keptFold sha256 fromStr types).claimant r := by
  obtain ⟨hreadAs, -⟩ := readAs_of_credentialOf hread
  rw [h.under]
  obtain hbefore | hafter := h.stage
  · rw [hbefore.kept]
    intro claimAt c hclaim
    obtain ⟨-, -, x, hx, rfl⟩ := claimOf_eq_some hwf (hbefore.toCome.trans hclaim)
    have hle : d.position ≤ x.position := by
      obtain rfl | hx := List.mem_cons.1 hx
      · exact le_rfl
      · exact (List.pairwise_cons.1 hsorted).1 x hx
    obtain hknown | hsubject | habove := hknown r _ c hread hclaim hle
    · exact .inr ⟨d.position, by rw [hreadAs.position, if_pos hknown], hle⟩
    · exact .inl hsubject
    · exact absurd htop habove
  · obtain ⟨claimAt, c, hclaim, -, hkept, hlater⟩ := hafter.claimed
    rw [hkept]
    refine ⟨claimAt, hclaim, ?_⟩
    intro p hp
    rw [hreadAs.position] at hp
    split_ifs at hp
    · obtain rfl := Option.mem_some_iff.1 hp
      exact hlater d List.mem_cons_self
    · cases hp

section

variable {t t' : FilteredTable} {st : IdentityState} {r : CredentialRecord} {board : Option BoardTerm}
  {verify : Verify}

theorem admit_cases {admittance : Admittance} (h : t.admitRecord sha256 r board verify = .ok (t', admittance)) :
    (∃ decision, t.judge sha256 r board verify = .ok decision ∧ t' = t.post sha256 r decision ∧
      admittance = .admitted decision.signer) ∨
    ∃ cause, t.judge sha256 r board verify = .err cause ∧ t' = t.refuse r cause ∧ admittance = .refused cause := by
  rw [admitRecord] at h
  cases hjudge : t.judge sha256 r board verify with
  | ok decision =>
    rw [hjudge] at h
    cases h
    exact .inl ⟨decision, rfl, rfl, rfl⟩
  | err cause =>
    rw [hjudge] at h
    cases h
    exact .inr ⟨cause, rfl, rfl, rfl⟩
  | fault =>
    rw [hjudge] at h
    cases h

theorem step_of_admitRecord {admittance : Admittance} (h : t.admitRecord sha256 r board verify = .ok (t', admittance)) :
    t.step sha256 (.record r board verify) = .ok t' := by
  rw [FilteredTable.step, h]
  rfl

theorem sound_of_admitRecord (hsound : FilteredTable.Sound t) (hparsed : r.AsParsed sha256) {admittance : Admittance}
    (h : t.admitRecord sha256 r board verify = .ok (t', admittance)) : FilteredTable.Sound t' := by
  apply hsound.step _ (step_of_admitRecord h)
  rintro _ _ _ ⟨⟩
  exact hparsed

theorem missing_of_admitRecord (hgaps : t.missing = OrdMap.empty) {admittance : Admittance}
    (h : t.admitRecord sha256 r board verify = .ok (t', admittance)) : t'.missing = OrdMap.empty := by
  obtain ⟨decision, -, rfl, -⟩ | ⟨cause, hjudge, rfl, -⟩ := admit_cases h
  · rw [missing_post, hgaps]
  · have hcause : cause ≠ .undeterminable := by
      rintro rfl
      obtain ⟨account, first, hfirst⟩ := exists_missing_of_undeterminable hjudge
      simp [hgaps] at hfirst
    simp [refuse, hcause, hgaps]

theorem claim_of_admitRecord {admittance : Admittance} (h : t.admitRecord sha256 r board verify = .ok (t', admittance)) :
    t'.claim = t.claim := by
  obtain ⟨decision, -, rfl, -⟩ | ⟨cause, -, rfl, -⟩ := admit_cases h
  · exact claim_post t r decision
  · exact claim_refuse t r cause

theorem keyed_of_admitRecord (hsound : FilteredTable.Sound t) (hparsed : r.AsParsed sha256) {admittance : Admittance}
    (h : t.admitRecord sha256 r board verify = .ok (t', admittance)) {account : Address} (hkeyed : t.keyed account = true) :
    t'.keyed account = true := by
  obtain ⟨a, ha⟩ := List.exists_mem_of_ne_nil _ (keyed_iff.1 hkeyed)
  obtain ⟨a', ha', -⟩ := FilteredTable.Keeps.step (step_of_admitRecord h) account a (List.mem_of_mem_filter ha)
  exact keyed_iff.2 ((sound_of_admitRecord hsound hparsed h).keyed account (List.ne_nil_of_mem ha'))

theorem record_ne_claim (hread : credentialOf sha256 fromStr types d = some r) (st : IdentityState) (account : Address) :
    st.classify sha256 fromStr types d.ctx d.dep ≠ .honored (.claim account) := by
  intro h
  obtain ⟨⟨-, -, -, bytes, -, ⟨-, hkind, -⟩ | ⟨-, hkind, -⟩⟩, -⟩ := readAs_of_credentialOf hread
  all_goals
    obtain ⟨hclaim, -⟩ | ⟨r', -, -, ⟨-, harms⟩ | ⟨-, harms⟩⟩ := honored_cases h
    · rw [hkind] at hclaim
      cases hclaim
    · exact enrollArms_ne_claim harms
    · exact retireArms_ne_claim harms

theorem claimant_step_record (hread : credentialOf sha256 fromStr types d = some r) (st : IdentityState) :
    (st.step sha256 fromStr types d.ctx d.dep).1.claimant = st.claimant := by
  obtain ⟨hsame, -⟩ | ⟨effect, heffect, -, happly⟩ := IdentityState.step_cases sha256 fromStr st types d.ctx d.dep
  · rw [hsame]
  · rw [happly]
    apply claimant_apply
    rintro account rfl
    exact record_ne_claim hread st account heffect

/-- A record admitted beside a fold leaves them side by side. -/
theorem SideBySide.admitted (h : SideBySide sha256 t st) (hread : credentialOf sha256 fromStr types d = some r)
    (hwf : d.WellFormed) (hplace : FilteredTable.accountAbove r.subject = none → ClaimPlace t.claim st.claimant r)
    {signer : Option Fingerprint} (hadmitted : t.admitRecord sha256 r board verify = .ok (t', .admitted signer)) :
    (∃ effect, st.classify sha256 fromStr types d.ctx d.dep = .honored effect) ∧
      SideBySide sha256 t' (st.step sha256 fromStr types d.ctx d.dep).1 := by
  obtain ⟨hreadAs, hparsed⟩ := readAs_of_credentialOf hread
  obtain ⟨decision, hjudge, rfl, -⟩ | ⟨_, _, _, hrefused⟩ := admit_cases hadmitted
  · obtain ⟨effect, heffect, hmirrors⟩ := h.honored hreadAs hparsed hwf hplace hjudge
    refine ⟨⟨effect, heffect⟩, ?_, sound_of_admitRecord h.table hparsed hadmitted, (h.fold.step types d.ctx d.dep).1,
      missing_of_admitRecord h.noGaps hadmitted, ?_⟩
    · rw [step_fst_of_honored heffect]
      exact hmirrors
    · rw [claim_post]
      exact h.claimantTop
  · cases hrefused

theorem SideBySide.refused (h : SideBySide sha256 t st) (hparsed : r.AsParsed sha256) {cause : RefusedCause}
    (hadmitted : t.admitRecord sha256 r board verify = .ok (t', .refused cause)) : SideBySide sha256 t' st := by
  have hsound := sound_of_admitRecord h.table hparsed hadmitted
  have hmissing := missing_of_admitRecord h.noGaps hadmitted
  have hclaim := claim_of_admitRecord hadmitted
  obtain ⟨_, _, _, hadmitted⟩ | ⟨cause, -, rfl, -⟩ := admit_cases hadmitted
  · cases hadmitted
  · refine ⟨?_, hsound, h.fold, hmissing, ?_⟩
    · intro account
      rw [admissions_refuse]
      exact h.mirrors account
    · rw [hclaim]
      exact h.claimantTop

/-- The claimant's first enrollment, where the board's fold honors it, enters the table. -/
theorem claimant_enters (h : SideBySide sha256 t st) {claimAt : ℕ} {c : Address} (hclaim : t.claim = some (claimAt, c))
    (hread : credentialOf sha256 fromStr types d = some r) (hwf : d.WellFormed) (hle : d.position ≤ claimAt)
    {fold : IdentityState} (hnone : fold.claimant = none) {keys : List Enrolled}
    (hgenesis : fold.classify sha256 fromStr types d.ctx d.dep = .honored (.genesis c keys))
    {admittance : Admittance} (hadmitted : t.admitRecord sha256 r board verify = .ok (t', admittance)) :
    t'.keyed c = true := by
  obtain ⟨hreadAs, hparsed⟩ := readAs_of_credentialOf hread
  by_cases hkeyed : t.keyed c = true
  · exact keyed_of_admitRecord h.table hparsed hadmitted hkeyed
  · rw [Bool.not_eq_true] at hkeyed
    obtain ⟨-, account, heq, -⟩ | ⟨r', hread', hhome, ⟨hkind, harms⟩ | ⟨-, harms⟩⟩ := honored_cases hgenesis
    · cases heq
    · rw [hread, Option.some.injEq] at hread'
      subst hread'
      obtain ⟨rfl, hregistry⟩ := genesis_of_enrollArms harms
      have hlevel := hwf.accounts _ hreadAs.subject
      have hown : r.homeAccount = r.subject := by
        rw [IdentityState.genesisRegistry, hwf.delegators _ hreadAs.subject, delegatorByAddress,
          h.claimantTop claimAt _ hclaim, hnone] at hregistry
        exact (Option.some.inj hregistry).symm
      have hdoc : docOne r.homeAccount = some r.home := by
        rw [hown] at hhome ⊢
        rw [hreadAs.home, hhome, docOne, Outcome.toOption_eq_some_iff]
        unfold doc1Of at hhome ⊢
        split
        · next doc hdoc => exact hdoc
        · next hnot =>
          -- an account is not its own first document
          have hdocument := hwf.home
          rw [hhome] at hdocument
          split at hdocument
          · next doc hdoc => exact absurd hdoc (hnot doc)
          · rw [hlevel] at hdocument
            cases hdocument
      have hposition : ∀ p ∈ r.position, p ≤ claimAt := by
        intro p hp
        rw [hreadAs.position] at hp
        split_ifs at hp
        · obtain rfl := Option.mem_some_iff.1 hp
          exact hle
        · cases hp
      have htrust : t.isHostTrusted r = true := by
        simp only [isHostTrusted, hostTrusts, hclaim, hkind, hown, hkeyed, Option.any_some, decide_true,
          Bool.and_true, Bool.not_false, Bool.true_and, decide_eq_true_eq]
        exact hposition
      have hjudge : t.judge sha256 r board verify = .ok (.enroll r.enrolled none) := by
        rw [judge, if_neg (not_not.2 hdoc), if_pos htrust]
      have hsound := sound_of_admitRecord h.table hparsed hadmitted
      rw [admitRecord, hjudge] at hadmitted
      cases hadmitted
      rw [CredentialRecord.AsParsed, hkind] at hparsed
      apply keyed_iff.2 (hsound.keyed _ _)
      rw [admissions_post_enroll, if_pos rfl]
      simp [hparsed.1]
    · exact absurd harms retireArms_ne_genesis

end

section

variable {later : List Deposited}

theorem honored_step (h : rd.fold = IdentityState.run sha256 fromStr types rd.honored) :
    (rd.fold.step sha256 fromStr types d.ctx d.dep).1 = IdentityState.run sha256 fromStr types
      (if (rd.fold.classify sha256 fromStr types d.ctx d.dep).isHonored then rd.honored ++ [d.toFoldEvent]
        else rd.honored) := by
  split
  · rw [run_concat, ← h]
  · next hnot =>
    rw [← h]
    exact step_fst_of_not_honored (by simpa using hnot)

theorem BeforeClaim.record (h : BeforeClaim sha256 fromStr types claim (d :: later) rd)
    (hup : ReadUpTo sha256 fromStr types claim (d :: later) rd)
    (hwf : ∀ x ∈ d :: later, x.WellFormed) (hsorted : (d :: later).Pairwise fun x y => x.position ≤ y.position)
    {r : CredentialRecord} (hread : credentialOf sha256 fromStr types d = some r) {admittance : Admittance}
    (hadmitted : rd.table.admitRecord sha256 r d.board d.verify = .ok (rd'.table, admittance))
    (hfold : rd'.fold = (rd.fold.step sha256 fromStr types d.ctx d.dep).1)
    (hkept : (rd'.keptFold sha256 fromStr types).claimant = (rd.keptFold sha256 fromStr types).claimant) :
    BeforeClaim sha256 fromStr types claim later rd' := by
  have htoCome : claimOf sha256 fromStr types rd'.fold later = claim := by
    obtain ⟨account, hclaim, -⟩ | ⟨-, heq⟩ := claimOf_cons sha256 fromStr types rd.fold d later
    · exact absurd hclaim (record_ne_claim hread rd.fold account)
    · rw [hfold, ← heq, h.toCome]
  refine ⟨?_, hkept.trans h.kept, htoCome, ?_⟩
  · rw [hfold, claimant_step_record hread, h.fold]
  · intro claimAt c hclaim hafter
    obtain ⟨-, hparsed⟩ := readAs_of_credentialOf hread
    by_cases hbefore : (rd.fold.keySet c).isEmpty = true
    · obtain ⟨-, -, x, hx, rfl⟩ := claimOf_eq_some (fun x hx => hwf x (List.mem_cons_of_mem _ hx))
        (htoCome.trans hclaim)
      rw [hfold] at hafter
      obtain ⟨hsame, -⟩ | ⟨effect, heffect, hpermitted, happly⟩ :=
        IdentityState.step_cases sha256 fromStr rd.fold types d.ctx d.dep
      · rw [hsame, hbefore] at hafter
        cases hafter
      · rw [happly] at hafter
        obtain ⟨keys, rfl⟩ := genesis_of_keyed hbefore hpermitted hafter
        exact claimant_enters hup.sides (hup.under.trans hclaim) hread (hwf d List.mem_cons_self)
          ((List.pairwise_cons.1 hsorted).1 x hx) h.fold heffect hadmitted
    · rw [Bool.not_eq_true] at hbefore
      exact keyed_of_admitRecord hup.sides.table hparsed hadmitted (h.claimantKeyed claimAt c hclaim hbefore)

theorem AfterClaim.step (h : AfterClaim sha256 fromStr types claim (d :: later) rd)
    (hup : ReadUpTo sha256 fromStr types claim (d :: later) rd)
    (hfold : rd'.fold = (rd.fold.step sha256 fromStr types d.ctx d.dep).1)
    (hkept : rd'.kept = rd.kept ∨ rd'.kept = rd.kept ++ [d.toFoldEvent]) :
    AfterClaim sha256 fromStr types claim later rd' := by
  obtain ⟨claimAt, c, hclaim, hc, hckept, hlater⟩ := h.claimed
  have hkeeps : ∀ events, Keeps (IdentityState.run sha256 fromStr types events)
      ((IdentityState.run sha256 fromStr types events).step sha256 fromStr types d.ctx d.dep).1 := by
    intro events
    exact ((run_sound sha256 fromStr types events).step types d.ctx d.dep).2
  refine ⟨claimAt, c, hclaim, ?_, ?_, fun x hx => hlater x (List.mem_cons_of_mem _ hx)⟩
  · rw [hfold, hup.fold]
    rw [hup.fold] at hc
    exact (hkeeps rd.honored).claimant c hc
  · rw [Reading.keptFold] at hckept ⊢
    obtain hsame | hmore := hkept
    · rwa [hsame]
    · rw [hmore, run_concat]
      exact (hkeeps rd.kept).claimant c hckept

theorem ReadUpTo.step (h : ReadUpTo sha256 fromStr types claim (d :: later) rd)
    (hwf : ∀ x ∈ d :: later, x.WellFormed) (hsorted : (d :: later).Pairwise fun x y => x.position ≤ y.position)
    (hknown : PositionRead sha256 fromStr types claim d)
    (hstep : Reading.step sha256 fromStr types rd d = .ok rd') : ReadUpTo sha256 fromStr types claim later rd' := by
  have hd := hwf d List.mem_cons_self
  obtain ⟨hfold, hhonored, hcases⟩ := Reading.step_cases hstep
  have hrun : rd'.fold = IdentityState.run sha256 fromStr types rd'.honored := by
    rw [hfold, hhonored]
    exact honored_step h.fold
  obtain ⟨r, signer, hread, hadmitted, hkept⟩ | ⟨r, cause, hread, hadmitted, hkept⟩ |
    ⟨hread, htable, account, hclaim, hkept⟩ | ⟨hread, htable, hkept, hnot⟩ := hcases
  · have hkeptFold : rd'.keptFold sha256 fromStr types =
        ((rd.keptFold sha256 fromStr types).step sha256 fromStr types d.ctx d.dep).1 := by
      rw [Reading.keptFold, hkept, run_concat]
      rfl
    obtain ⟨-, hsides⟩ := h.sides.admitted hread hd (h.claimPlace hwf hsorted hknown hread) hadmitted
    refine ⟨?_, (claim_of_admitRecord hadmitted).trans h.under, hrun, ?_⟩
    · rw [hkeptFold]
      exact hsides
    · obtain hbefore | hafter := h.stage
      · left
        apply hbefore.record h hwf hsorted hread hadmitted hfold
        rw [hkeptFold]
        exact claimant_step_record hread _
      · exact .inr (hafter.step h hfold (.inr hkept))
  · have hkeptFold : rd'.keptFold sha256 fromStr types = rd.keptFold sha256 fromStr types := by
      rw [Reading.keptFold, hkept]
      rfl
    refine ⟨?_, (claim_of_admitRecord hadmitted).trans h.under, hrun, ?_⟩
    · rw [hkeptFold]
      exact h.sides.refused (readAs_of_credentialOf hread).2 hadmitted
    · obtain hbefore | hafter := h.stage
      · left
        apply hbefore.record h hwf hsorted hread hadmitted hfold
        rw [hkeptFold]
      · exact .inr (hafter.step h hfold (.inl hkept))
  · have hkeptFold : rd'.keptFold sha256 fromStr types =
        ((rd.keptFold sha256 fromStr types).step sha256 fromStr types d.ctx d.dep).1 := by
      rw [Reading.keptFold, hkept, run_concat]
      rfl
    obtain hbefore | hafter := h.stage
    · have htaken : claim = some (d.position, account) := by
        obtain ⟨account', hclaim', heq⟩ | ⟨hnot, -⟩ := claimOf_cons sha256 fromStr types rd.fold d later
        · rw [hclaim] at hclaim'
          cases hclaim'
          rw [← hbefore.toCome, heq]
        · exact absurd hclaim (hnot account)
      obtain ⟨-, hkeyed, -, -⟩ := classify_permitted hclaim
      have hkeptKeyed : ((rd.keptFold sha256 fromStr types).keySet account).isEmpty = false := by
        have htable := hbefore.claimantKeyed d.position account htaken hkeyed
        rw [← Bool.not_eq_true, ← keyed_eq_false_iff h.sides.mirrors, htable]
        simp
      have hhonoredKept := claim_honored hclaim hbefore.kept hkeptKeyed
      have happly := step_fst_of_honored hhonoredKept
      refine ⟨?_, htable ▸ h.under, hrun, .inr ⟨d.position, account, htaken, ?_, ?_, ?_⟩⟩
      · rw [hkeptFold, htable]
        refine ⟨?_, h.sides.table, (h.sides.fold.step types d.ctx d.dep).1, h.sides.noGaps, h.sides.claimantTop⟩
        rw [happly]
        exact h.sides.mirrors
      · rw [hfold, step_fst_of_honored hclaim]
        rfl
      · rw [hkeptFold, happly]
        rfl
      · exact (List.pairwise_cons.1 hsorted).1
    · obtain ⟨_, c, -, hc, -⟩ := hafter.claimed
      obtain ⟨hnone, -⟩ := classify_permitted hclaim
      rw [hc] at hnone
      cases hnone
  · have hsame : rd'.fold = rd.fold := by
      rw [hfold]
      obtain ⟨hsame, -⟩ | ⟨effect, heffect, -⟩ := IdentityState.step_cases sha256 fromStr rd.fold types d.ctx d.dep
      · exact hsame
      · obtain ⟨-, account, rfl, -⟩ | ⟨r, hread', -⟩ := honored_cases heffect
        · exact absurd heffect (hnot account)
        · rw [hread] at hread'
          cases hread'
    have hkeptFold : rd'.keptFold sha256 fromStr types = rd.keptFold sha256 fromStr types := by
      rw [Reading.keptFold, hkept]
      rfl
    refine ⟨?_, htable ▸ h.under, hrun, ?_⟩
    · rw [hkeptFold, htable]
      exact h.sides
    · obtain hbefore | hafter := h.stage
      · left
        refine ⟨hsame ▸ hbefore.fold, hkeptFold ▸ hbefore.kept, ?_, ?_⟩
        · obtain ⟨account, hclaim, -⟩ | ⟨-, heq⟩ := claimOf_cons sha256 fromStr types rd.fold d later
          · exact absurd hclaim (hnot account)
          · rw [hfold, ← heq, hbefore.toCome]
        · rw [hsame, htable]
          exact hbefore.claimantKeyed
      · exact .inr (hafter.step h hfold (.inl hkept))

theorem ReadUpTo.start {journal : List Deposited} (hwf : ∀ x ∈ journal, x.WellFormed) :
    ReadUpTo sha256 fromStr types (claimOf sha256 fromStr types .genesis journal) journal
      (Reading.start (claimOf sha256 fromStr types .genesis journal)) where
  sides := by
    refine ⟨fun _ => MirrorSet.empty, FilteredTable.Sound.new _, IdentityState.Sound.genesis, rfl, ?_⟩
    intro claimAt c hclaim
    obtain ⟨-, htop, -⟩ := claimOf_eq_some hwf hclaim
    exact htop
  under := rfl
  fold := rfl
  stage := by
    refine .inl ⟨rfl, rfl, rfl, ?_⟩
    intro claimAt c _ hkeyed
    cases hkeyed

theorem readUpTo_of_after {before later : List Deposited} (hwf : ∀ x ∈ before ++ later, x.WellFormed)
    (hsorted : (before ++ later).Pairwise fun x y => x.position ≤ y.position)
    (hknown : ∀ x ∈ before ++ later, PositionRead sha256 fromStr types claim x) {rd₀ : Reading}
    (h : ReadUpTo sha256 fromStr types claim (before ++ later) rd₀)
    (hafter : before.foldlM (Reading.step sha256 fromStr types) rd₀ = .ok rd) :
    ReadUpTo sha256 fromStr types claim later rd := by
  induction before generalizing rd₀ with
  | nil =>
    cases hafter
    exact h
  | cons d before ih =>
    rw [List.foldlM_cons, Outcome.bind_eq_ok_iff] at hafter
    obtain ⟨rd₁, hstep, hafter⟩ := hafter
    apply ih (fun x hx => hwf x (List.mem_cons_of_mem _ hx)) (List.pairwise_cons.1 hsorted).2
      (fun x hx => hknown x (List.mem_cons_of_mem _ hx)) _ hafter
    exact h.step hwf hsorted (hknown d List.mem_cons_self) hstep

theorem fold_after {journal : List Deposited} (h : Reading.after sha256 fromStr types claim journal = .ok rd) :
    rd.fold = IdentityState.run sha256 fromStr types (journal.map Deposited.toFoldEvent) := by
  induction journal using List.reverseRecOn generalizing rd with
  | nil =>
    cases h
    rfl
  | append_singleton before d ih =>
    rw [Reading.after, Outcome.foldlM_concat_eq_ok_iff] at h
    obtain ⟨rd₀, hbefore, hstep⟩ := h
    obtain ⟨hfold, -⟩ := Reading.step_cases hstep
    rw [hfold, ih hbefore, List.map_append, List.map_singleton, run_concat]

/-- What holds where a record of the journal comes to be read. -/
structure Filters (sha256 : List UInt8 → Bytes32) (fromStr : String → Option Json) (types : TypeAddrs)
    (before : List Deposited) (d : Deposited) (rd : Reading) : Prop where
  /-- The table's keys are those of the fold of the admitted records and the claim. -/
  mirrors : Mirrors rd.table (rd.keptFold sha256 fromStr types)
  /-- A record the table admits is one that fold honors, and they hold the same keys after. -/
  admitted : ∀ r t' signer, credentialOf sha256 fromStr types d = some r →
    rd.table.admitRecord sha256 r d.board d.verify = .ok (t', .admitted signer) →
      (∃ effect, (rd.keptFold sha256 fromStr types).classify sha256 fromStr types d.ctx d.dep = .honored effect) ∧
        Mirrors t' (IdentityState.run sha256 fromStr types (rd.kept ++ [d.toFoldEvent]))
  /-- Where the board's fold honored what the table admitted and no more, it honors the
  record. -/
  manufactures : rd.honored = rd.kept → ∀ r t' signer, credentialOf sha256 fromStr types d = some r →
    rd.table.admitRecord sha256 r d.board d.verify = .ok (t', .admitted signer) →
      ∃ effect, (IdentityState.run sha256 fromStr types (before.map Deposited.toFoldEvent)).classify sha256 fromStr types
        d.ctx d.dep = .honored effect

/-- The table is the fold of what it admits. -/
theorem table_filters {before later : List Deposited}
    (hwf : ∀ x ∈ before ++ d :: later, x.WellFormed)
    (hsorted : (before ++ d :: later).Pairwise fun x y => x.position ≤ y.position)
    (hknown : ∀ x ∈ before ++ d :: later,
      PositionRead sha256 fromStr types (claimOf sha256 fromStr types .genesis (before ++ d :: later)) x)
    (hafter : Reading.after sha256 fromStr types (claimOf sha256 fromStr types .genesis (before ++ d :: later)) before =
      .ok rd) : Filters sha256 fromStr types before d rd := by
  have hup := readUpTo_of_after hwf hsorted hknown (ReadUpTo.start hwf) hafter
  have hrest : ∀ x ∈ d :: later, x.WellFormed := fun x hx => hwf x (List.mem_append_right _ hx)
  have hd := hrest d List.mem_cons_self
  have hsides : ∀ r t' signer, credentialOf sha256 fromStr types d = some r →
      rd.table.admitRecord sha256 r d.board d.verify = .ok (t', .admitted signer) →
        (∃ effect, (rd.keptFold sha256 fromStr types).classify sha256 fromStr types d.ctx d.dep = .honored effect) ∧
          SideBySide sha256 t' ((rd.keptFold sha256 fromStr types).step sha256 fromStr types d.ctx d.dep).1 := by
    intro r t' signer hread hadmitted
    exact hup.sides.admitted hread hd (hup.claimPlace hrest (List.pairwise_append.1 hsorted).2.1
      (hknown d (by simp)) hread) hadmitted
  refine ⟨hup.sides.mirrors, ?_, ?_⟩
  · intro r t' signer hread hadmitted
    obtain ⟨hhonored, hafter⟩ := hsides r t' signer hread hadmitted
    refine ⟨hhonored, ?_⟩
    rw [run_concat]
    exact hafter.mirrors
  · intro hsame r t' signer hread hadmitted
    obtain ⟨hhonored, -⟩ := hsides r t' signer hread hadmitted
    rw [← fold_after hafter, hup.fold, hsame]
    exact hhonored

end

end

end Identity
