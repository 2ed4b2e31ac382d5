import Skep.Identity.Table
import Skep.Journal.Digests

/-!
# The filtered table as a chain of custody

Every admission but the claimant's own is signed by a key that stood, at the record's
base, in the set that opened the record's home account, and so on up to the claimant's
own. A fingerprint has one lifecycle in a table, and a table that holds a key keeps
holding one. A reading as of a position is fixed once the positions below it have been
read.

## Main results

- `table_chainOfCustody` — it holds of the table of every list of events
-/

namespace Identity

namespace FilteredTable

variable {sha256 : List UInt8 → Bytes32} {t t' : FilteredTable} {r : CredentialRecord}

-- What a step leaves

@[simp] theorem admissions_new (claim : Option (ℕ × Address)) (account : Address) :
    (new claim).admissions account = [] := rfl

@[simp] theorem admissions_markMissing (t : FilteredTable) (account a : Address) (position : ℕ) :
    (t.markMissing account position).admissions a = t.admissions a := rfl

@[simp] theorem claim_markMissing (t : FilteredTable) (account : Address) (position : ℕ) :
    (t.markMissing account position).claim = t.claim := rfl

@[simp] theorem admissions_refuse (t : FilteredTable) (r : CredentialRecord) (cause : RefusedCause) (a : Address) :
    (t.refuse r cause).admissions a = t.admissions a := by
  unfold refuse
  split
  · rfl
  · rfl

@[simp] theorem claim_refuse (t : FilteredTable) (r : CredentialRecord) (cause : RefusedCause) :
    (t.refuse r cause).claim = t.claim := by
  unfold refuse
  split
  · rfl
  · rfl

theorem admissions_post_enroll (t : FilteredTable) (r : CredentialRecord) (new : List Enrollment)
    (signer : Option Fingerprint) (a : Address) :
    (t.post sha256 r (.enroll new signer)).admissions a =
      if a = r.subject then t.admissions a ++ new.map (admissionOf sha256 r.position) else t.admissions a := by
  by_cases h : a = r.subject
  · subst h
    simp [post, admissions]
  · rw [if_neg h]
    simp [post, admissions, OrdMap.get_insert_of_ne _ _ h]

theorem admissions_post_retire (t : FilteredTable) (r : CredentialRecord) (removed : List Fingerprint)
    (signer : Fingerprint) (a : Address) :
    (t.post sha256 r (.retire removed signer)).admissions a =
      if a = r.subject then (t.admissions a).map (retireIn removed r.position) else t.admissions a := by
  cases htable : t.tables.get r.subject with
  | none =>
    simp only [post, htable]
    by_cases h : a = r.subject
    · subst h
      simp [admissions, htable]
    · rw [if_neg h]
  | some table =>
    by_cases h : a = r.subject
    · subst h
      simp [post, admissions, htable]
    · rw [if_neg h]
      simp [post, admissions, htable, OrdMap.get_insert_of_ne _ _ h]

@[simp] theorem claim_post (t : FilteredTable) (r : CredentialRecord) (d : Decision) :
    (t.post sha256 r d).claim = t.claim := by
  cases d with
  | enroll new signer => rfl
  | retire removed signer =>
    simp only [post]
    split
    · rfl
    · rfl

@[simp] theorem missing_post (t : FilteredTable) (r : CredentialRecord) (d : Decision) :
    (t.post sha256 r d).missing = t.missing := by
  cases d with
  | enroll new signer => rfl
  | retire removed signer =>
    simp only [post]
    split
    · rfl
    · rfl

/-- A step marks an account, refuses a record or posts what it decided. -/
theorem step_cases {ev : TableEvent} (h : t.step sha256 ev = .ok t') :
    (∃ account position, ev = .missing account position ∧ t' = t.markMissing account position) ∨
    (∃ r board verify cause, ev = .record r board verify ∧ t.judge sha256 r board verify = .err cause ∧
      t' = t.refuse r cause) ∨
    ∃ r board verify d, ev = .record r board verify ∧ t.judge sha256 r board verify = .ok d ∧
      t' = t.post sha256 r d := by
  cases ev with
  | missing account position =>
    cases h
    exact .inl ⟨account, position, rfl, rfl⟩
  | record r board verify =>
    rw [step, admitRecord] at h
    cases hjudge : t.judge sha256 r board verify with
    | ok d =>
      rw [hjudge] at h
      cases h
      exact .inr (.inr ⟨r, board, verify, d, rfl, hjudge, rfl⟩)
    | err cause =>
      rw [hjudge] at h
      cases h
      exact .inr (.inl ⟨r, board, verify, cause, rfl, hjudge, rfl⟩)
    | fault =>
      rw [hjudge] at h
      cases h

-- What a decision rests on

/-- The first of some accounts that holds a key now, none marked missing on the way. -/
def FirstKeyed (t : FilteredTable) (accounts : List Address) (found : Address) : Prop :=
  ∃ nearer above, accounts = nearer ++ found :: above ∧ t.current found ≠ [] ∧ t.missing.get found = none ∧
    ∀ a ∈ nearer, t.current a = [] ∧ t.missing.get a = none

theorem FirstKeyed.mem {accounts : List Address} {found : Address} (h : t.FirstKeyed accounts found) :
    found ∈ accounts := by
  obtain ⟨nearer, above, rfl, -⟩ := h
  simp

theorem firstKeyed_cons_iff {account found : Address} {above : List Address} :
    t.FirstKeyed (account :: above) found ↔ t.missing.get account = none ∧
      (account = found ∧ t.current account ≠ [] ∨ t.current account = [] ∧ t.FirstKeyed above found) := by
  constructor
  · rintro ⟨nearer, rest, heq, hkeyed, hmissing, hnearer⟩
    cases nearer with
    | nil =>
      cases heq
      exact ⟨hmissing, .inl ⟨rfl, hkeyed⟩⟩
    | cons a nearer =>
      cases heq
      obtain ⟨⟨hempty, hgap⟩, hnearer⟩ := List.forall_mem_cons.1 hnearer
      exact ⟨hgap, .inr ⟨hempty, nearer, rest, rfl, hkeyed, hmissing, hnearer⟩⟩
  · rintro ⟨hgap, ⟨rfl, hkeyed⟩ | ⟨hempty, nearer, rest, rfl, hkeyed, hmissing, hnearer⟩⟩
    · exact ⟨[], above, rfl, hkeyed, hgap, by simp⟩
    · exact ⟨account :: nearer, rest, rfl, hkeyed, hmissing, List.forall_mem_cons.2 ⟨⟨hempty, hgap⟩, hnearer⟩⟩

/-- The set found on a walk now is that of the first account that holds a key. -/
theorem exists_of_walkOver {accounts : List Address} {set : List Admission}
    (h : t.walkOver none accounts = some set) (hset : set ≠ []) :
    ∃ account, t.FirstKeyed accounts account ∧ set = t.current account := by
  induction accounts with
  | nil =>
    cases h
    exact absurd rfl hset
  | cons account above ih =>
    rw [walkOver] at h
    split_ifs at h with hgap hempty
    · have hgap : t.missing.get account = none := by simpa [isGap] using hgap
      obtain ⟨found, hfirst, hfound⟩ := ih h
      exact ⟨found, firstKeyed_cons_iff.2 ⟨hgap, .inr ⟨hempty, hfirst⟩⟩, hfound⟩
    · have hgap : t.missing.get account = none := by simpa [isGap] using hgap
      cases h
      exact ⟨account, firstKeyed_cons_iff.2 ⟨hgap, .inl ⟨rfl, hempty⟩⟩, rfl⟩

theorem keyedOver_eq_some_some_iff {accounts : List Address} {found : Address} :
    t.keyedOver accounts = some (some found) ↔ t.FirstKeyed accounts found := by
  induction accounts with
  | nil => simp [keyedOver, FirstKeyed]
  | cons account above ih =>
    rw [keyedOver, firstKeyed_cons_iff, ← ih]
    by_cases hgap : t.missing.contains account = true
    · obtain ⟨first, hfirst⟩ := OrdMap.contains_iff.1 hgap
      simp [hgap, hfirst]
    · have hnone : t.missing.get account = none := by
        simpa [OrdMap.contains_iff, Option.eq_none_iff_forall_ne_some] using hgap
      by_cases hkeyed : t.current account = []
      · simp [hgap, hnone, keyed, hkeyed]
      · simp [hgap, hnone, keyed, hkeyed]

/-- A giver that hands an account to another party: the account is no child of the giver's
agent space, and the giver no child of its own giver's. -/
structure Handoff (t : FilteredTable) (giver subject : Address) : Prop where
  gives : t.FirstKeyed (accountsAbove subject) giver
  notHire : parent subject ≠ agentSpaceOf giver
  notSpawn : ∀ holder, t.FirstKeyed (accountsAbove giver) holder → parent giver ≠ agentSpaceOf holder

/-- The acts it takes an anchor to sign: a keyed account enrolls a new anchor or retires one
of its own, and a giver that holds an anchor hands an account off. -/
inductive NeedsAnchor (sha256 : List UInt8 → Bytes32) (t : FilteredTable) (r : CredentialRecord) : Prop where
  | enrollsAnchor {e} : r.kind = .enroll → t.current r.subject ≠ [] → e ∈ r.enrolled → e.anchor = true →
      (∀ a ∈ t.admissions r.subject, a.fingerprint ≠ Fingerprint.of sha256 e.key) → NeedsAnchor sha256 t r
  | retiresAnchor {a} : r.kind = .retire → a ∈ t.current r.subject → a.anchor = true →
      a.fingerprint ∈ r.retired → NeedsAnchor sha256 t r
  | handsOff {giver a} : r.kind = .enroll → t.current r.subject = [] → Handoff t giver r.subject →
      a ∈ t.current giver → a.anchor = true → NeedsAnchor sha256 t r

/-- A key of the accounts that open a record's home signs the record, at its act's grade. -/
structure SignedBy (sha256 : List UInt8 → Bytes32) (t : FilteredTable) (r : CredentialRecord)
    (board : Option BoardTerm) (verify : Verify) (act : Act) (opener : Address) (signer : Admission) : Prop where
  acts : t.arms sha256 r = .ok act
  opens : t.walk r.homeAccount none = some (t.current opener)
  nearest : t.FirstKeyed (r.homeAccount :: accountsAbove r.homeAccount) opener
  stands : signer ∈ t.current opener
  graded : act.anchorGrade = true → signer.anchor = true
  atGrade : NeedsAnchor sha256 t r → signer.anchor = true
  verified : ∃ sig term blob frame, r.sig = some sig ∧ board = some term ∧ HybridBlob.parseHex sig = some blob ∧
    RecordFrame.toBytes ⟨term, r.homeAccount, r.home, ⟨r.ty, [r.subject], none, none, r.sigless⟩⟩
      signer.key.alg = .ok frame ∧
    signer.key.sigAlgRow.sigLen = blob.bytes.length ∧
    verify signer.key.sigAlgRow.tag signer.key frame blob.bytes = true

theorem signerOf_eq_some {board : BoardTerm} {blob : List UInt8} {verify : Verify} {candidates : List Admission}
    {fp : Fingerprint} (h : signerOf r board blob verify candidates = .ok (some fp)) :
    ∃ a ∈ candidates, a.fingerprint = fp ∧ a.key.sigAlgRow.sigLen = blob.length ∧
      ∃ frame, RecordFrame.toBytes ⟨board, r.homeAccount, r.home, ⟨r.ty, [r.subject], none, none, r.sigless⟩⟩
        a.key.alg = .ok frame ∧ verify a.key.sigAlgRow.tag a.key frame blob = true := by
  induction candidates with
  | nil => cases h
  | cons a rest ih =>
    rw [signerOf] at h
    by_cases hwidth : a.key.sigAlgRow.sigLen ≠ blob.length
    · rw [if_pos hwidth] at h
      obtain ⟨found, hmem, hfound⟩ := ih h
      exact ⟨found, List.mem_cons_of_mem _ hmem, hfound⟩
    · rw [if_neg hwidth, Outcome.bind_eq_ok_iff] at h
      obtain ⟨frame, hframe, h⟩ := h
      by_cases hverify : verify a.key.sigAlgRow.tag a.key frame blob = true
      · rw [if_pos hverify] at h
        cases h
        exact ⟨a, List.mem_cons_self, rfl, not_not.1 hwidth, frame, hframe, hverify⟩
      · rw [if_neg hverify] at h
        obtain ⟨found, hmem, hfound⟩ := ih h
        exact ⟨found, List.mem_cons_of_mem _ hmem, hfound⟩

/-- A decision rests on the host's word or on a signature. -/
theorem judge_cases {board : Option BoardTerm} {verify : Verify} {d : Decision}
    (h : t.judge sha256 r board verify = .ok d) : docOne r.homeAccount = some r.home ∧
      (t.isHostTrusted r = true ∧ d = .enroll r.enrolled none ∨
        t.isHostTrusted r = false ∧ ∃ act fp, t.arms sha256 r = .ok act ∧
          t.trial r board verify act.anchorGrade = .ok fp ∧
          d = match r.kind with
            | .enroll => .enroll act.new (some fp)
            | .retire => .retire act.removed fp) := by
  rw [judge] at h
  by_cases hdoc : docOne r.homeAccount ≠ some r.home
  · rw [if_pos hdoc] at h
    cases h
  · rw [if_neg hdoc] at h
    refine ⟨not_not.1 hdoc, ?_⟩
    by_cases htrust : t.isHostTrusted r = true
    · rw [if_pos htrust] at h
      cases h
      exact .inl ⟨htrust, rfl⟩
    · rw [if_neg htrust] at h
      simp only [Outcome.bind_eq_ok_iff] at h
      obtain ⟨act, hact, fp, hfp, h⟩ := h
      refine .inr ⟨by simpa using htrust, act, fp, hact, hfp, ?_⟩
      cases hkind : r.kind with
      | enroll =>
        rw [hkind] at h
        cases h
        rfl
      | retire =>
        rw [hkind] at h
        cases h
        rfl

/-- An act is a holder's enrollment, a first enrollment or a holder's retirement. -/
theorem arms_cases {act : Act} (h : t.arms sha256 r = .ok act) :
    (r.kind = .enroll ∧ r.homeAccount = r.subject ∧ t.keyed r.subject = true ∧ t.newEntries sha256 r ≠ [] ∧
      act = ⟨t.newEntries sha256 r, [], (t.newEntries sha256 r).any Enrollment.anchor⟩) ∨
    (r.kind = .enroll ∧ t.keyed r.subject = false ∧ t.genesisRegistry r = some r.homeAccount ∧
      t.handoffLatchFires sha256 r = some false ∧
      ∃ grade, t.genesisGrade r.subject = some grade ∧ act = ⟨r.enrolled, [], grade⟩) ∨
    (r.kind = .retire ∧ r.homeAccount = r.subject ∧ t.keyed r.subject = true ∧ t.removedEntries r ≠ [] ∧
      (t.removedEntries r).length ≠ (t.current r.subject).length ∧
      act = ⟨[], t.removedEntries r,
        (t.current r.subject).any fun a => a.anchor && decide (a.fingerprint ∈ t.removedEntries r)⟩) := by
  unfold arms at h
  split at h
  · next hkind hown hkeyed =>
    simp only [Outcome.bind_eq_ok_iff, Outcome.refuseIf_eq_ok_iff, Outcome.pure_eq, Outcome.ok.injEq,
      exists_const] at h
    obtain ⟨hnew, rfl⟩ := h
    exact .inl ⟨hkind, of_decide_eq_true hown, hkeyed, hnew, rfl⟩
  · next hkind hkeyed =>
    cases hregistry : t.genesisRegistry r with
    | none =>
      rw [hregistry] at h
      cases h
    | some registry =>
      simp only [hregistry] at h
      by_cases hhome : registry = r.homeAccount
      · simp only [if_pos hhome, Outcome.bind_eq_ok_iff, Outcome.okOr_eq_ok_iff, Outcome.refuseIf_eq_ok_iff,
          Outcome.pure_eq, Outcome.ok.injEq, exists_const] at h
        obtain ⟨fires, hfires, hnot, grade, hgrade, rfl⟩ := h
        rw [Bool.not_eq_true] at hnot
        subst hnot
        exact .inr (.inl ⟨hkind, hkeyed, congrArg some hhome, hfires, grade, hgrade, rfl⟩)
      · rw [if_neg hhome] at h
        split_ifs at h
  · cases h
  · next hkind hown hkeyed =>
    simp only [Outcome.bind_eq_ok_iff, Outcome.refuseIf_eq_ok_iff, Outcome.pure_eq, Outcome.ok.injEq,
      exists_const] at h
    obtain ⟨hremoved, hleft, rfl⟩ := h
    exact .inr (.inr ⟨hkind, of_decide_eq_true hown, hkeyed, hremoved, hleft, rfl⟩)
  · cases h
  · cases h

theorem handoff_of_grade {subject : Address} (h : t.genesisGrade subject = some true) :
    ∃ giver, Handoff t giver subject ∧ ∃ a ∈ t.current giver, a.anchor = true := by
  simp only [genesisGrade, Option.bind_eq_bind, Option.bind_eq_some_iff] at h
  obtain ⟨giver, hgiver, h⟩ := h
  cases giver with
  | none => cases h
  | some giver =>
    simp only at h
    split_ifs at h with hhire
    · simp at h
    · obtain ⟨holder, hholder, h⟩ := Option.bind_eq_some_iff.1 h
      split_ifs at h with hspawn
      · simp at h
      · have hanchor := List.any_eq_true.1 (Option.some.inj h)
        refine ⟨giver, ⟨keyedOver_eq_some_some_iff.1 hgiver, hhire, fun found hfound heq => hspawn ?_⟩, hanchor⟩
        have hfound := keyedOver_eq_some_some_iff.2 hfound
        rw [← keyedAbove, hholder, Option.some.injEq] at hfound
        simp [hfound, heq]

/-- The grade of a first enrollment is the handoff rule's. -/
theorem genesisGrade_iff {subject : Address} {grade : Bool} (h : t.genesisGrade subject = some grade) :
    grade = true ↔ ∃ giver, Handoff t giver subject ∧ ∃ a ∈ t.current giver, a.anchor = true := by
  constructor
  · rintro rfl
    exact handoff_of_grade h
  · rintro ⟨giver, hoff, hanchor⟩
    have hgiver : t.keyedAbove subject = some (some giver) := keyedOver_eq_some_some_iff.2 hoff.gives
    simp only [genesisGrade, hgiver, Option.bind_eq_bind, Option.bind_some, if_neg hoff.notHire,
      Option.bind_eq_some_iff] at h
    obtain ⟨holder, hholder, h⟩ := h
    have hspawn : ¬ (holder.any fun holder => parent giver = agentSpaceOf holder) = true := by
      intro hany
      obtain ⟨found, rfl, heq⟩ := (Option.any_eq_true _ _).1 hany
      exact hoff.notSpawn found (keyedOver_eq_some_some_iff.1 hholder) (of_decide_eq_true heq)
    rw [if_neg hspawn, Option.pure_def, Option.some.injEq] at h
    rw [← h]
    exact List.any_eq_true.2 hanchor

theorem keyed_iff {account : Address} : t.keyed account = true ↔ t.current account ≠ [] := by
  simp [keyed]

theorem anchorGrade_iff {act : Act} (h : t.arms sha256 r = .ok act) :
    act.anchorGrade = true ↔ NeedsAnchor sha256 t r := by
  obtain ⟨hkind, -, hkeyed, -, rfl⟩ | ⟨hkind, hkeyed, -, -, grade, hgrade, rfl⟩ | ⟨hkind, -, -, -, -, rfl⟩ :=
    arms_cases h
  · have hkeyed := keyed_iff.1 hkeyed
    simp only [newEntries, List.any_eq_true, List.mem_filter, Bool.not_eq_true', List.any_eq_false,
      decide_eq_true_eq]
    constructor
    · rintro ⟨e, ⟨he, hnew⟩, hanchor⟩
      exact .enrollsAnchor hkind hkeyed he hanchor hnew
    · rintro (⟨-, -, he, hanchor, hnew⟩ | ⟨hretire, -⟩ | ⟨-, hempty, -⟩)
      · exact ⟨_, ⟨he, hnew⟩, hanchor⟩
      · cases hkind.symm.trans hretire
      · exact absurd hempty hkeyed
  · have hempty : t.current r.subject = [] := by
      by_contra hne
      rw [keyed_iff.2 hne] at hkeyed
      cases hkeyed
    simp only [genesisGrade_iff hgrade]
    constructor
    · rintro ⟨giver, hoff, a, ha, hanchor⟩
      exact .handsOff hkind hempty hoff ha hanchor
    · rintro (⟨-, hne, -⟩ | ⟨hretire, -⟩ | ⟨-, -, hoff, ha, hanchor⟩)
      · exact absurd hempty hne
      · cases hkind.symm.trans hretire
      · exact ⟨_, hoff, _, ha, hanchor⟩
  · simp only [removedEntries, List.any_eq_true, List.mem_filter, Bool.and_eq_true, decide_eq_true_eq]
    constructor
    · rintro ⟨a, ha, hanchor, hmem, -⟩
      exact .retiresAnchor hkind ha hanchor hmem
    · rintro (⟨henroll, -⟩ | ⟨-, ha, hanchor, hmem⟩ | ⟨henroll, -⟩)
      · cases hkind.symm.trans henroll
      · exact ⟨_, ha, hanchor, hmem, _, ha, rfl⟩
      · cases hkind.symm.trans henroll

/-- A record passes the trial by a key that opens its home. -/
theorem exists_signedBy {board : Option BoardTerm} {verify : Verify} {act : Act} {fp : Fingerprint}
    (hact : t.arms sha256 r = .ok act) (h : t.trial r board verify act.anchorGrade = .ok fp) :
    ∃ opener signer, signer.fingerprint = fp ∧ SignedBy sha256 t r board verify act opener signer := by
  simp only [trial, Outcome.bind_eq_ok_iff, Outcome.okOr_eq_ok_iff, Outcome.expect_eq_ok_iff] at h
  obtain ⟨sig, hsig, term, hterm, blob, hblob, set, hset, found, hfound, rfl⟩ := h
  obtain ⟨signer, hmem, hfp, hwidth, frame, hframe, hverify⟩ := signerOf_eq_some hfound
  obtain ⟨hstands, hgrade⟩ := List.mem_filter.1 hmem
  obtain ⟨opener, hopener, rfl⟩ := exists_of_walkOver hset (List.ne_nil_of_mem hstands)
  have hgraded : act.anchorGrade = true → signer.anchor = true := by
    intro hanchor
    simpa [hanchor] using hgrade
  exact ⟨opener, signer, hfp, hact, hset, hopener, hstands, hgraded,
    fun hneeds => hgraded ((anchorGrade_iff hact).2 hneeds), sig, term, blob, frame, hsig, hterm, hblob, hframe,
    hwidth, hverify⟩

-- One lifecycle a fingerprint

/-- No fingerprint is in an account's table twice, and a table that was ever keyed is
keyed. -/
structure Sound (t : FilteredTable) : Prop where
  nodup : ∀ account, ((t.admissions account).map Admission.fingerprint).Nodup
  keyed : ∀ account, t.admissions account ≠ [] → t.current account ≠ []

theorem Sound.new (claim : Option (ℕ × Address)) : Sound (new claim) where
  nodup account := by simp
  keyed account h := absurd rfl h

theorem Sound.congr (h : Sound t) (hsame : ∀ account, t'.admissions account = t.admissions account) :
    Sound t' where
  nodup account := by
    rw [hsame]
    exact h.nodup account
  keyed account hne := by
    rw [current, hsame]
    rw [hsame] at hne
    exact h.keyed account hne

/-- What a decision posts keeps the tables sound where new keys are new and a retirement
leaves a key. -/
theorem Sound.enroll (h : Sound t) {new : List Enrollment} (signer : Option Fingerprint)
    (hnodup : (new.map fun e => Fingerprint.of sha256 e.key).Nodup) (hne : new ≠ [])
    (hnew : ∀ e ∈ new, ∀ a ∈ t.admissions r.subject, a.fingerprint ≠ Fingerprint.of sha256 e.key) :
    Sound (t.post sha256 r (.enroll new signer)) where
  nodup account := by
    rw [admissions_post_enroll]
    by_cases hacc : account = r.subject
    · subst hacc
      rw [if_pos rfl, List.map_append, List.map_map, List.nodup_append]
      refine ⟨h.nodup _, hnodup, ?_⟩
      intro fp hfp fp' hfp'
      obtain ⟨a, ha, rfl⟩ := List.mem_map.1 hfp
      obtain ⟨e, he, rfl⟩ := List.mem_map.1 hfp'
      exact hnew e he a ha
    · rw [if_neg hacc]
      exact h.nodup account
  keyed account hadm := by
    rw [current, admissions_post_enroll]
    rw [admissions_post_enroll] at hadm
    by_cases hacc : account = r.subject
    · rw [if_pos hacc, List.filter_append]
      obtain ⟨e, he⟩ := List.exists_mem_of_ne_nil new hne
      apply List.ne_nil_of_mem (a := admissionOf sha256 r.position e)
      refine List.mem_append_right _ (List.mem_filter.2 ⟨List.mem_map_of_mem he, ?_⟩)
      simp [admissionOf]
    · rw [if_neg hacc] at hadm ⊢
      exact h.keyed account hadm

theorem retireIn_of_not_mem {removed : List Fingerprint} {position : Option ℕ} {a : Admission}
    (h : a.fingerprint ∉ removed) : retireIn removed position a = a := by
  rw [retireIn, if_neg (by simp [h])]

@[simp] theorem fingerprint_retireIn (removed : List Fingerprint) (position : Option ℕ) (a : Admission) :
    (retireIn removed position a).fingerprint = a.fingerprint := by
  unfold retireIn
  split
  · rfl
  · rfl

theorem Sound.retire (h : Sound t) {removed : List Fingerprint} (signer : Fingerprint)
    (hleft : ∃ a ∈ t.current r.subject, a.fingerprint ∉ removed) :
    Sound (t.post sha256 r (.retire removed signer)) where
  nodup account := by
    rw [admissions_post_retire]
    by_cases hacc : account = r.subject
    · rw [if_pos hacc, List.map_map]
      have hsame : Admission.fingerprint ∘ retireIn removed r.position = Admission.fingerprint := by
        funext a
        exact fingerprint_retireIn removed r.position a
      rw [hsame]
      exact h.nodup account
    · rw [if_neg hacc]
      exact h.nodup account
  keyed account hadm := by
    rw [current, admissions_post_retire]
    rw [admissions_post_retire] at hadm
    by_cases hacc : account = r.subject
    · subst hacc
      obtain ⟨a, ha, hnot⟩ := hleft
      obtain ⟨hmem, hends⟩ := List.mem_filter.1 ha
      rw [if_pos rfl]
      apply List.ne_nil_of_mem (a := a)
      refine List.mem_filter.2 ⟨List.mem_map.2 ⟨a, hmem, retireIn_of_not_mem hnot⟩, hends⟩
    · rw [if_neg hacc] at hadm ⊢
      exact h.keyed account hadm

/-- A retirement that does not name as many keys as are enrolled leaves one. -/
theorem exists_left (h : Sound t) (hparsed : r.retired.Nodup)
    (hlen : (t.removedEntries r).length ≠ (t.current r.subject).length) :
    ∃ a ∈ t.current r.subject, a.fingerprint ∉ t.removedEntries r := by
  by_contra hall
  push Not at hall
  apply hlen
  have hnodup : ((t.current r.subject).map Admission.fingerprint).Nodup :=
    (h.nodup r.subject).sublist (List.filter_sublist.map _)
  have hsub : t.removedEntries r ⊆ (t.current r.subject).map Admission.fingerprint := by
    intro fp hfp
    obtain ⟨-, hheld⟩ := List.mem_filter.1 hfp
    obtain ⟨a, ha, heq⟩ := List.any_eq_true.1 hheld
    exact List.mem_map.2 ⟨a, ha, of_decide_eq_true heq⟩
  have hsup : (t.current r.subject).map Admission.fingerprint ⊆ t.removedEntries r := by
    intro fp hfp
    obtain ⟨a, ha, rfl⟩ := List.mem_map.1 hfp
    exact hall a ha
  have hle := ((hparsed.filter _).subperm hsub).length_le
  have hge := (hnodup.subperm hsup).length_le
  rw [List.length_map] at hle hge
  exact le_antisymm hle hge

theorem Sound.admissions_eq_nil (h : Sound t) {account : Address} (hkeyed : t.keyed account = false) :
    t.admissions account = [] := by
  by_contra hne
  have hcurrent := keyed_iff.2 (h.keyed account hne)
  rw [hkeyed] at hcurrent
  cases hcurrent

/-- What a judged record posts is of its entries, and new. -/
theorem Sound.judge (h : Sound t) {board : Option BoardTerm} {verify : Verify} {d : Decision}
    (hparsed : r.AsParsed sha256) (hjudge : t.judge sha256 r board verify = .ok d) :
    Sound (t.post sha256 r d) := by
  have hfirst : r.kind = .enroll → t.keyed r.subject = false → ∀ signer,
      Sound (t.post sha256 r (.enroll r.enrolled signer)) := by
    intro hkind hkeyed signer
    rw [CredentialRecord.AsParsed, hkind] at hparsed
    apply h.enroll signer hparsed.2 hparsed.1
    intro e _ a ha
    rw [h.admissions_eq_nil hkeyed] at ha
    cases ha
  obtain ⟨-, ⟨htrust, rfl⟩ | ⟨-, act, fp, hact, -, rfl⟩⟩ := judge_cases hjudge
  · simp only [isHostTrusted, Bool.and_eq_true, decide_eq_true_eq, Bool.not_eq_true'] at htrust
    exact hfirst htrust.1.1.1 htrust.1.2 none
  · obtain ⟨hkind, -, -, hne, rfl⟩ | ⟨hkind, hkeyed, -, -, grade, -, rfl⟩ | ⟨hkind, -, -, -, hlen, rfl⟩ :=
      arms_cases hact
    · rw [CredentialRecord.AsParsed, hkind] at hparsed
      rw [hkind]
      refine h.enroll (some fp) (hparsed.2.sublist (List.filter_sublist.map _)) hne ?_
      intro e he a ha heq
      have hnot := (List.mem_filter.1 he).2
      simp only [Bool.not_eq_true', List.any_eq_false, decide_eq_true_eq] at hnot
      exact hnot a ha heq
    · rw [hkind]
      exact hfirst hkind hkeyed (some fp)
    · rw [CredentialRecord.AsParsed, hkind] at hparsed
      rw [hkind]
      exact h.retire fp (exists_left h hparsed.2 hlen)

theorem Sound.step (h : Sound t) {ev : TableEvent}
    (hparsed : ∀ r board verify, ev = .record r board verify → r.AsParsed sha256)
    (hstep : t.step sha256 ev = .ok t') : Sound t' := by
  obtain ⟨account, position, -, rfl⟩ | ⟨r, board, verify, cause, -, -, rfl⟩ | ⟨r, board, verify, d, rfl, hjudge, rfl⟩ :=
    step_cases hstep
  · exact h.congr fun a => admissions_markMissing t account a position
  · exact h.congr fun a => admissions_refuse t r cause a
  · exact h.judge (hparsed r board verify rfl) hjudge

/-- Admissions stay: a retired one as it is, an enrolled one but for its end. -/
def Keeps (t t' : FilteredTable) : Prop :=
  ∀ account, ∀ a ∈ t.admissions account, ∃ a' ∈ t'.admissions account,
    a' = { a with ends := a'.ends } ∧ (a.ends ≠ .enrolled → a' = a)

theorem Keeps.refl (t : FilteredTable) : Keeps t t :=
  fun _ a ha => ⟨a, ha, rfl, fun _ => rfl⟩

theorem Keeps.trans {t'' : FilteredTable} (h : Keeps t t') (h' : Keeps t' t'') : Keeps t t'' := by
  intro account a ha
  obtain ⟨b, hb, hab, hkept⟩ := h account a ha
  obtain ⟨c, hc, hbc, hkept'⟩ := h' account b hb
  refine ⟨c, hc, ?_, ?_⟩
  · rw [hbc, hab]
  · intro hends
    have hba := hkept hends
    subst hba
    exact hkept' hends

theorem Keeps.step {ev : TableEvent} (hstep : t.step sha256 ev = .ok t') : Keeps t t' := by
  have hsame : (∀ account, t'.admissions account = t.admissions account) → Keeps t t' := by
    intro hadm account a ha
    exact ⟨a, by rwa [hadm], rfl, fun _ => rfl⟩
  obtain ⟨account, position, -, rfl⟩ | ⟨r, board, verify, cause, -, -, rfl⟩ | ⟨r, board, verify, d, -, -, rfl⟩ :=
    step_cases hstep
  · exact hsame fun a => admissions_markMissing t account a position
  · exact hsame fun a => admissions_refuse t r cause a
  · intro account a ha
    cases d with
    | enroll new signer =>
      rw [admissions_post_enroll]
      refine ⟨a, ?_, rfl, fun _ => rfl⟩
      split
      · exact List.mem_append_left _ ha
      · exact ha
    | retire removed signer =>
      rw [admissions_post_retire]
      by_cases hacc : account = r.subject
      · rw [if_pos hacc]
        refine ⟨retireIn removed r.position a, List.mem_map_of_mem ha, ?_, ?_⟩
        · unfold retireIn
          split
          · rfl
          · rfl
        · intro hends
          rw [retireIn, if_neg (fun h => hends h.1)]
      · rw [if_neg hacc]
        exact ⟨a, ha, rfl, fun _ => rfl⟩

-- Readings as of a position

/-- Walks over the same sets and the same gaps find the same set. -/
theorem walkOver_congr {base base' : Option ℕ}
    (hset : ∀ account, enrolledOf (t'.setAt account base') = enrolledOf (t.setAt account base))
    (hgap : ∀ account, t'.isGap account base' = t.isGap account base) (accounts : List Address) :
    (t'.walkOver base' accounts).map enrolledOf = (t.walkOver base accounts).map enrolledOf := by
  induction accounts with
  | nil => rfl
  | cons account above ih =>
    have hempty : t'.setAt account base' = [] ↔ t.setAt account base = [] := by
      have h := hset account
      simp only [enrolledOf] at h
      rw [← List.map_eq_nil_iff (f := fun a : Admission => (⟨a.key, a.anchor⟩ : Enrolled)), h, List.map_eq_nil_iff]
    rw [walkOver, walkOver, hgap account]
    by_cases hg : t.isGap account base = true
    · rw [if_pos hg, if_pos hg]
    · rw [if_neg hg, if_neg hg]
      by_cases he : t.setAt account base = []
      · rw [if_pos he, if_pos (hempty.2 he)]
        exact ih
      · rw [if_neg he, if_neg (fun h => he (hempty.1 h)), Option.map_some, Option.map_some, hset account]

/-- The tables read alike as of a position. -/
structure SameAt (p : ℕ) (t t' : FilteredTable) : Prop where
  sets : ∀ account, enrolledOf (t'.asOf account p) = enrolledOf (t.asOf account p)
  gaps : ∀ account, t'.isGap account (some p) = t.isGap account (some p)

theorem SameAt.refl (p : ℕ) (t : FilteredTable) : SameAt p t t := ⟨fun _ => rfl, fun _ => rfl⟩

theorem SameAt.trans {p : ℕ} {t'' : FilteredTable} (h : SameAt p t t') (h' : SameAt p t' t'') : SameAt p t t'' :=
  ⟨fun account => (h'.sets account).trans (h.sets account), fun account => (h'.gaps account).trans (h.gaps account)⟩

theorem SameAt.openingAt {p : ℕ} (h : SameAt p t t') (account : Address) :
    t'.openingAt account p = t.openingAt account p := by
  apply walkOver_congr
  · exact h.sets
  · exact h.gaps

/-- A mark at or above a position leaves what is read as of it. -/
theorem sameAt_markMissing {p : ℕ} (t : FilteredTable) (account : Address) {position : ℕ} (h : p ≤ position) :
    SameAt p t (t.markMissing account position) where
  sets _ := rfl
  gaps a := by
    by_cases hacc : a = account
    · subst hacc
      cases hfirst : t.missing.get a with
      | none => simp [isGap, markMissing, hfirst, h]
      | some first =>
        simp only [isGap, markMissing, OrdMap.get_insert_self, hfirst, Option.any_some, Option.getD_some,
          Option.mem_some_iff, forall_eq', min_lt_iff, decide_eq_decide]
        omega
    · simp [isGap, markMissing, OrdMap.get_insert_of_ne _ _ hacc]

theorem standsAsOf_admissionOf {p q : ℕ} (h : p ≤ q) (e : Enrollment) :
    (admissionOf sha256 (some q) e).standsAsOf p = false := by
  simp [Admission.standsAsOf, admissionOf, h]

theorem standsAsOf_retireIn {p q : ℕ} (h : p ≤ q) (removed : List Fingerprint) (a : Admission) :
    (retireIn removed (some q) a).standsAsOf p = a.standsAsOf p := by
  unfold retireIn
  split
  · next hends => simp [Admission.standsAsOf, hends.1, h]
  · rfl

/-- What is posted at or above a position leaves what is read as of it. -/
theorem sameAt_post {p q : ℕ} (hpos : r.position = some q) (h : p ≤ q) (d : Decision) :
    SameAt p t (t.post sha256 r d) where
  sets account := by
    cases d with
    | enroll new signer =>
      have hnone : (new.map (admissionOf sha256 (some q))).filter (Admission.standsAsOf p) = [] := by
        rw [List.filter_eq_nil_iff]
        intro a ha
        obtain ⟨e, -, rfl⟩ := List.mem_map.1 ha
        simp [standsAsOf_admissionOf h]
      rw [asOf, admissions_post_enroll, hpos]
      split
      · rw [List.filter_append, hnone, List.append_nil]
        rfl
      · rfl
    | retire removed signer =>
      rw [asOf, admissions_post_retire, hpos]
      split
      · have hstands : Admission.standsAsOf p ∘ retireIn removed (some q) = Admission.standsAsOf p := by
          funext a
          exact standsAsOf_retireIn h removed a
        have henr : (fun a : Admission => (⟨a.key, a.anchor⟩ : Enrolled)) ∘ retireIn removed (some q) =
            fun a => ⟨a.key, a.anchor⟩ := by
          funext a
          simp only [Function.comp, retireIn]
          split
          · rfl
          · rfl
        rw [List.filter_map, hstands, enrolledOf, List.map_map, henr]
        rfl
      · rfl
  gaps account := by simp [isGap]

/-- An event at or above a position. -/
def AtOrAbove (p : ℕ) : TableEvent → Prop
  | .record r _ _ => ∃ q, r.position = some q ∧ p ≤ q
  | .missing _ position => p ≤ position

/-- An event below a position, or read without one. -/
def Below (p : ℕ) : TableEvent → Prop
  | .record r _ _ => ∀ q ∈ r.position, q < p
  | .missing _ position => position < p

theorem SameAt.step {p : ℕ} {ev : TableEvent} (hev : AtOrAbove p ev) (hstep : t.step sha256 ev = .ok t') :
    SameAt p t t' := by
  obtain ⟨account, position, rfl, rfl⟩ | ⟨r, board, verify, cause, rfl, -, rfl⟩ | ⟨r, board, verify, d, rfl, -, rfl⟩ :=
    step_cases hstep
  · exact sameAt_markMissing t account hev
  · obtain ⟨q, hq, hle⟩ := hev
    unfold refuse
    split
    · rw [hq]
      exact ⟨fun _ => rfl, (sameAt_markMissing t r.subject hle).gaps⟩
    · exact ⟨fun _ => rfl, fun _ => rfl⟩
  · obtain ⟨q, hq, hle⟩ := hev
    exact sameAt_post hq hle d

-- A gap is a mark

theorem exists_missing_of_isGap {account : Address} {base : Option ℕ} (h : t.isGap account base = true) :
    ∃ account first, t.missing.get account = some first := by
  cases hfirst : t.missing.get account with
  | none => simp [isGap, hfirst] at h
  | some first => exact ⟨account, first, hfirst⟩

theorem exists_missing_of_walkOver {base : Option ℕ} {accounts : List Address}
    (h : t.walkOver base accounts = none) : ∃ account first, t.missing.get account = some first := by
  induction accounts with
  | nil => cases h
  | cons account above ih =>
    rw [walkOver] at h
    split_ifs at h with hgap hempty
    · exact exists_missing_of_isGap hgap
    · exact ih h

theorem exists_missing_of_keyedOver {accounts : List Address} (h : t.keyedOver accounts = none) :
    ∃ account first, t.missing.get account = some first := by
  induction accounts with
  | nil => cases h
  | cons account above ih =>
    rw [keyedOver] at h
    split_ifs at h with hgap hkeyed
    · obtain ⟨first, hfirst⟩ := OrdMap.contains_iff.1 hgap
      exact ⟨account, first, hfirst⟩
    · exact ih h

theorem exists_missing_of_genesisGrade {subject : Address} (h : t.genesisGrade subject = none) :
    ∃ account first, t.missing.get account = some first := by
  unfold genesisGrade at h
  cases hgiver : t.keyedAbove subject with
  | none => exact exists_missing_of_keyedOver hgiver
  | some giver =>
    rw [hgiver] at h
    cases giver with
    | none => cases h
    | some giver =>
      cases hholder : t.keyedAbove giver with
      | none => exact exists_missing_of_keyedOver hholder
      | some holder =>
        simp only [Option.bind_eq_bind, Option.bind_some, hholder] at h
        split_ifs at h

theorem exists_missing_of_handoffLatchFires (h : t.handoffLatchFires sha256 r = none) :
    ∃ account first, t.missing.get account = some first := by
  unfold handoffLatchFires at h
  cases habove : accountAbove r.subject with
  | none =>
    rw [habove] at h
    cases h
  | some above =>
    rw [habove] at h
    cases hwalk : t.walk above none with
    | none => exact exists_missing_of_walkOver hwalk
    | some opening => simp [hwalk] at h

theorem exists_missing_of_arms (h : t.arms sha256 r = .err .undeterminable) :
    ∃ account first, t.missing.get account = some first := by
  unfold arms at h
  split at h
  · simp [Outcome.bind_eq_err_iff] at h
  · cases hregistry : t.genesisRegistry r with
    | none => simp [hregistry] at h
    | some registry =>
      simp only [hregistry] at h
      by_cases hhome : registry = r.homeAccount
      · simp only [if_pos hhome, Outcome.bind_eq_err_iff, Outcome.okOr_eq_err_iff, Outcome.refuseIf_eq_err_iff,
          Outcome.refuseIf_eq_ok_iff, Outcome.okOr_eq_ok_iff, Outcome.pure_eq, reduceCtorEq, and_true, and_false,
          exists_const, or_false, false_or] at h
        obtain hfires | ⟨_, -, -, hgrade⟩ := h
        · exact exists_missing_of_handoffLatchFires hfires
        · exact exists_missing_of_genesisGrade hgrade
      · rw [if_neg hhome] at h
        split_ifs at h
        · cases h
        · cases h
  · cases h
  · simp [Outcome.bind_eq_err_iff] at h
  · cases h
  · cases h

theorem exists_missing_of_trial {board : Option BoardTerm} {verify : Verify} {anchorGrade : Bool}
    (h : t.trial r board verify anchorGrade = .err .undeterminable) :
    ∃ account first, t.missing.get account = some first := by
  simp only [trial, Outcome.bind_eq_err_iff, Outcome.okOr_eq_err_iff, Outcome.okOr_eq_ok_iff, Outcome.expect_ne_err,
    reduceCtorEq, and_false, and_true, exists_false, or_false, false_or] at h
  obtain ⟨_, -, _, -, _, -, hwalk⟩ := h
  exact exists_missing_of_walkOver hwalk

/-- A record is undeterminable only where some account is marked. -/
theorem exists_missing_of_undeterminable {board : Option BoardTerm} {verify : Verify}
    (h : t.judge sha256 r board verify = .err .undeterminable) :
    ∃ account first, t.missing.get account = some first := by
  unfold judge at h
  split_ifs at h with hdoc htrust
  · cases h
  rw [Outcome.bind_eq_err_iff] at h
  obtain harms | ⟨act, -, h⟩ := h
  · exact exists_missing_of_arms harms
  · rw [Outcome.bind_eq_err_iff] at h
    obtain htrial | ⟨fp, -, h⟩ := h
    · exact exists_missing_of_trial htrial
    · cases hkind : r.kind with
      | enroll => simp [hkind] at h
      | retire => simp [hkind] at h

-- Tables below a position

/-- Everything a table holds came of positions below `p`. -/
structure AllBelow (p : ℕ) (t : FilteredTable) : Prop where
  since : ∀ account, ∀ a ∈ t.admissions account, ∀ s ∈ a.since, s < p
  ends : ∀ account, ∀ a ∈ t.admissions account, ∀ q, a.ends = .retiredAt q → q < p
  marks : ∀ account first, t.missing.get account = some first → first < p

theorem AllBelow.new (p : ℕ) (claim : Option (ℕ × Address)) : AllBelow p (new claim) where
  since _ a ha := by simp at ha
  ends _ a ha := by simp at ha
  marks _ _ h := by cases h

theorem AllBelow.openingAt {p : ℕ} (h : AllBelow p t) (account : Address) :
    t.openingAt account p = t.openingNow account := by
  apply walkOver_congr
  · intro a
    apply congrArg enrolledOf
    apply List.filter_congr
    intro x hx
    have hsince := h.since a x hx
    cases hends : x.ends with
    | enrolled => simpa [Admission.standsAsOf, hends] using hsince
    | retiredAt q =>
      have hlt := h.ends a x hx q hends
      simp [Admission.standsAsOf, hends, hlt]
    | retiredPositionFree => simp [Admission.standsAsOf, hends]
  · intro a
    cases hfirst : t.missing.get a with
    | none => simp [isGap, hfirst]
    | some first => simp [isGap, hfirst, h.marks a first hfirst]

theorem AllBelow.markMissing {p : ℕ} (h : AllBelow p t) (account : Address) {position : ℕ} (hlt : position < p) :
    AllBelow p (t.markMissing account position) where
  since := h.since
  ends := h.ends
  marks a first hfirst := by
    rw [FilteredTable.markMissing, OrdMap.get_insert] at hfirst
    split_ifs at hfirst with hacc
    · cases hfirst
      omega
    · exact h.marks a first hfirst

theorem AllBelow.post {p : ℕ} (h : AllBelow p t) (hpos : ∀ q ∈ r.position, q < p) (d : Decision) :
    AllBelow p (t.post sha256 r d) := by
  cases d with
  | enroll new signer =>
    have hcases : ∀ account, ∀ a ∈ (t.post sha256 r (.enroll new signer)).admissions account,
        a ∈ t.admissions account ∨ ∃ e, a = admissionOf sha256 r.position e := by
      intro account a ha
      rw [admissions_post_enroll] at ha
      split_ifs at ha
      · obtain ha | ha := List.mem_append.1 ha
        · exact .inl ha
        · obtain ⟨e, -, rfl⟩ := List.mem_map.1 ha
          exact .inr ⟨e, rfl⟩
      · exact .inl ha
    refine ⟨?_, ?_, h.marks⟩
    · intro account a ha s hs
      obtain ha | ⟨e, rfl⟩ := hcases account a ha
      · exact h.since account a ha s hs
      · exact hpos s hs
    · intro account a ha q hq
      obtain ha | ⟨e, rfl⟩ := hcases account a ha
      · exact h.ends account a ha q hq
      · cases hq
  | retire removed signer =>
    have hcases : ∀ account, ∀ a ∈ (t.post sha256 r (.retire removed signer)).admissions account,
        ∃ x ∈ t.admissions account, a.since = x.since ∧
          (a.ends = x.ends ∨ a.ends = (r.position.map Until.retiredAt).getD .retiredPositionFree) := by
      intro account a ha
      rw [admissions_post_retire] at ha
      split_ifs at ha
      · obtain ⟨x, hx, rfl⟩ := List.mem_map.1 ha
        refine ⟨x, hx, ?_⟩
        unfold retireIn
        split
        · exact ⟨rfl, .inr rfl⟩
        · exact ⟨rfl, .inl rfl⟩
      · exact ⟨a, ha, rfl, .inl rfl⟩
    refine ⟨?_, ?_, ?_⟩
    · intro account a ha s hs
      obtain ⟨x, hx, hsince, -⟩ := hcases account a ha
      exact h.since account x hx s (hsince ▸ hs)
    · intro account a ha q hq
      obtain ⟨x, hx, -, hends | hends⟩ := hcases account a ha
      · exact h.ends account x hx q (hends ▸ hq)
      · cases hposition : r.position with
        | none =>
          rw [hq, hposition] at hends
          cases hends
        | some s =>
          rw [hq, hposition] at hends
          cases hends
          exact hpos q (by simp [hposition])
    · rw [missing_post]
      exact h.marks

theorem AllBelow.step {p : ℕ} (h : AllBelow p t) {ev : TableEvent} (hev : Below p ev)
    (hstep : t.step sha256 ev = .ok t') : AllBelow p t' := by
  obtain ⟨account, position, rfl, rfl⟩ | ⟨r, board, verify, cause, rfl, hjudge, rfl⟩ |
    ⟨r, board, verify, d, rfl, -, rfl⟩ := step_cases hstep
  · exact h.markMissing account hev
  · have hrefused : ∀ refused, AllBelow p { t with refused := refused } :=
      fun _ => ⟨h.since, h.ends, h.marks⟩
    unfold refuse
    split
    · next hcause =>
      subst hcause
      -- a record without a position is marked at zero, and something was marked below `p`
      obtain ⟨account, first, hfirst⟩ := exists_missing_of_undeterminable hjudge
      have hfirst := h.marks account first hfirst
      apply (hrefused _).markMissing
      cases hposition : r.position with
      | none => exact Nat.zero_lt_of_lt hfirst
      | some q => exact hev q (by simp [hposition])
    · exact hrefused _
  · exact h.post hev d

end FilteredTable

-- The chain

open FilteredTable

section

variable (sha256 : List UInt8 → Bytes32) (claim : Option (ℕ × Address))

/-- The claimant's own first enrollment, at or below the claim. -/
structure ClaimantGenesis (t : FilteredTable) (r : CredentialRecord) : Prop where
  enrolls : r.kind = .enroll
  own : r.homeAccount = r.subject
  unkeyed : t.keyed r.subject = false
  claimant : ∃ claimAt, claim = some (claimAt, r.subject) ∧ ∀ p ∈ r.position, p ≤ claimAt

/-- How a key came to an account's table: by the claimant's own first enrollment, or by a
record signed by a key that came to its own table before. -/
inductive Custody : List TableEvent → Address → Fingerprint → Prop where
  | genesis {before t r board verify e} : run sha256 claim before = .ok t → ClaimantGenesis claim t r →
      e ∈ r.enrolled →
      Custody (before ++ [.record r board verify]) r.subject (Fingerprint.of sha256 e.key)
  | signed {before t r board verify act opener signer e} : run sha256 claim before = .ok t → r.kind = .enroll →
      opener ∈ r.homeAccount :: accountsAbove r.homeAccount →
      SignedBy sha256 t r board verify act opener signer → e ∈ act.new →
      Custody before opener signer.fingerprint →
      Custody (before ++ [.record r board verify]) r.subject (Fingerprint.of sha256 e.key)
  | later {before ev account fp} : Custody before account fp → Custody (before ++ [ev]) account fp

/-- What holds of the table of a list of events. -/
structure ChainOfCustody (events : List TableEvent) (t : FilteredTable) : Prop where
  /-- Every key traces back, signer by signer, to the claimant's own. -/
  traced : ∀ account, ∀ a ∈ t.admissions account, Custody sha256 claim events account a.fingerprint
  /-- What moves a table is the claimant's own first enrollment, or a record a key that traces
  back signed at the grade of its act. -/
  moved : ∀ before ev later u v account, events = before ++ ev :: later → run sha256 claim before = .ok u →
    u.step sha256 ev = .ok v → v.admissions account ≠ u.admissions account →
      ∃ r board verify, ev = .record r board verify ∧ account = r.subject ∧
        (ClaimantGenesis claim u r ∨ ∃ act opener signer, SignedBy sha256 u r board verify act opener signer ∧
          Custody sha256 claim before opener signer.fingerprint)
  /-- No fingerprint is admitted twice. -/
  once : ∀ account, ((t.admissions account).map Admission.fingerprint).Nodup
  /-- What was retired stays so and is not enrolled again. -/
  retired : ∀ before later u, events = before ++ later → run sha256 claim before = .ok u →
    ∀ account, ∀ a ∈ u.admissions account, a.ends ≠ .enrolled →
      a ∈ t.admissions account ∧ ∀ x ∈ t.current account, x.fingerprint ≠ a.fingerprint
  /-- A table that held a key holds one. -/
  keyed : ∀ before later u, events = before ++ later → run sha256 claim before = .ok u →
    ∀ account, u.admissions account ≠ [] → t.current account ≠ []
  /-- Events at or above a position leave what is read as of it. -/
  fixed : ∀ before later u p, events = before ++ later → run sha256 claim before = .ok u →
    (∀ ev ∈ later, AtOrAbove p ev) → ∀ account, t.openingAt account p = u.openingAt account p
  /-- What is read as of a position is what was read before the first event at or above it. -/
  base : ∀ before later u p, events = before ++ later → run sha256 claim before = .ok u →
    (∀ ev ∈ before, Below p ev) → (∀ ev ∈ later, AtOrAbove p ev) →
    ∀ account, t.openingAt account p = u.openingNow account

end

variable {sha256 : List UInt8 → Bytes32} {claim : Option (ℕ × Address)} {events : List TableEvent}
  {t : FilteredTable}

theorem claim_run (h : run sha256 claim events = .ok t) : t.claim = claim := by
  apply Outcome.foldlM_invariant (P := fun u : FilteredTable => u.claim = claim) _ h rfl
  intro u ev _ u' hstep hclaim
  obtain ⟨_, _, -, rfl⟩ | ⟨_, _, _, _, -, -, rfl⟩ | ⟨_, _, _, _, -, -, rfl⟩ := step_cases hstep
  · simpa using hclaim
  · simpa using hclaim
  · simpa using hclaim

theorem sound_run (hparsed : ∀ r board verify, .record r board verify ∈ events → r.AsParsed sha256)
    (h : run sha256 claim events = .ok t) : Sound t := by
  apply Outcome.foldlM_invariant _ h (Sound.new claim)
  intro u ev hev u' hstep hsound
  apply hsound.step _ hstep
  rintro r board verify rfl
  exact hparsed r board verify hev

theorem rest_of_run {before later : List TableEvent} {u : FilteredTable}
    (h : run sha256 claim (before ++ later) = .ok t) (hu : run sha256 claim before = .ok u) :
    later.foldlM (step sha256) u = .ok t := by
  rw [run] at hu
  rwa [run, List.foldlM_append, hu, Outcome.ok_bind] at h

theorem keeps_rest {before later : List TableEvent} {u : FilteredTable}
    (h : run sha256 claim (before ++ later) = .ok t) (hu : run sha256 claim before = .ok u) : Keeps u t := by
  apply Outcome.foldlM_relates Keeps.refl Keeps.trans _ (rest_of_run h hu)
  intro _ _ _ _ hstep
  exact Keeps.step hstep

theorem sameAt_rest {before later : List TableEvent} {u : FilteredTable} {p : ℕ}
    (h : run sha256 claim (before ++ later) = .ok t) (hu : run sha256 claim before = .ok u)
    (hlater : ∀ ev ∈ later, AtOrAbove p ev) : SameAt p u t := by
  apply Outcome.foldlM_relates (SameAt.refl p) SameAt.trans _ (rest_of_run h hu)
  intro _ ev hev _ hstep
  exact SameAt.step (hlater ev hev) hstep

theorem allBelow_run {p : ℕ} (h : run sha256 claim events = .ok t) (hbelow : ∀ ev ∈ events, Below p ev) :
    AllBelow p t := by
  apply Outcome.foldlM_invariant _ h (AllBelow.new p claim)
  intro _ ev hev _ hstep hall
  exact hall.step (hbelow ev hev) hstep

/-- A decision of a run rests on the claimant's own first enrollment or on a signature. -/
theorem grounds_of_judge {r : CredentialRecord} {board : Option BoardTerm} {verify : Verify} {d : Decision}
    (hrun : run sha256 claim events = .ok t) (h : t.judge sha256 r board verify = .ok d) :
    ClaimantGenesis claim t r ∧ d = .enroll r.enrolled none ∨
      ∃ act opener signer, SignedBy sha256 t r board verify act opener signer ∧
        d = match r.kind with
          | .enroll => .enroll act.new (some signer.fingerprint)
          | .retire => .retire act.removed signer.fingerprint := by
  obtain ⟨-, ⟨htrust, hd⟩ | ⟨-, act, fp, hact, htrial, hd⟩⟩ := judge_cases h
  · simp only [isHostTrusted, hostTrusts, Bool.and_eq_true, decide_eq_true_eq, Bool.not_eq_true',
      Option.any_eq_true, claim_run hrun] at htrust
    obtain ⟨⟨⟨henroll, hown⟩, hkeyed⟩, ⟨claimAt, claimant⟩, hclaim, hsubject, hposition⟩ := htrust
    simp only at hsubject hposition
    subst hsubject
    exact .inl ⟨⟨henroll, hown, hkeyed, claimAt, hclaim, hposition⟩, hd⟩
  · obtain ⟨opener, signer, rfl, hsigned⟩ := exists_signedBy hact htrial
    exact .inr ⟨act, opener, signer, hsigned, hd⟩

theorem custody_of_mem (h : run sha256 claim events = .ok t) {account : Address} {a : Admission}
    (ha : a ∈ t.admissions account) : Custody sha256 claim events account a.fingerprint := by
  induction events using List.reverseRecOn generalizing t account a with
  | nil =>
    cases h
    simp at ha
  | append_singleton before ev ih =>
    rw [run, Outcome.foldlM_concat_eq_ok_iff] at h
    obtain ⟨u, hu, hstep⟩ := h
    obtain ⟨_, _, -, rfl⟩ | ⟨_, _, _, _, -, -, rfl⟩ | ⟨r, board, verify, d, rfl, hjudge, rfl⟩ := step_cases hstep
    · rw [admissions_markMissing] at ha
      exact .later (ih hu ha)
    · rw [admissions_refuse] at ha
      exact .later (ih hu ha)
    · cases d with
      | retire removed signer =>
        rw [admissions_post_retire] at ha
        split_ifs at ha
        · obtain ⟨x, hx, rfl⟩ := List.mem_map.1 ha
          rw [fingerprint_retireIn]
          exact .later (ih hu hx)
        · exact .later (ih hu ha)
      | enroll new signer =>
        rw [admissions_post_enroll] at ha
        split_ifs at ha with hacc
        · obtain ha | ha := List.mem_append.1 ha
          · exact .later (ih hu ha)
          · obtain ⟨e, he, rfl⟩ := List.mem_map.1 ha
            subst hacc
            obtain ⟨hgenesis, hd⟩ | ⟨act, opener, found, hsigned, hd⟩ := grounds_of_judge hu hjudge
            · cases hd
              exact .genesis hu hgenesis he
            · cases hkind : r.kind with
              | retire =>
                rw [hkind] at hd
                cases hd
              | enroll =>
                rw [hkind] at hd
                cases hd
                exact .signed hu hkind hsigned.nearest.mem hsigned he (ih hu (List.mem_of_mem_filter hsigned.stands))
        · exact .later (ih hu ha)

theorem moved_step {before : List TableEvent} {ev : TableEvent} {u v : FilteredTable} {account : Address}
    (hu : run sha256 claim before = .ok u) (hstep : u.step sha256 ev = .ok v)
    (hmoved : v.admissions account ≠ u.admissions account) :
    ∃ r board verify, ev = .record r board verify ∧ account = r.subject ∧
      (ClaimantGenesis claim u r ∨ ∃ act opener signer, SignedBy sha256 u r board verify act opener signer ∧
        Custody sha256 claim before opener signer.fingerprint) := by
  obtain ⟨_, _, -, rfl⟩ | ⟨_, _, _, _, -, -, rfl⟩ | ⟨r, board, verify, d, rfl, hjudge, rfl⟩ := step_cases hstep
  · exact absurd (admissions_markMissing ..) hmoved
  · exact absurd (admissions_refuse ..) hmoved
  · refine ⟨r, board, verify, rfl, ?_, ?_⟩
    · by_contra hne
      cases d with
      | enroll new signer => exact hmoved (by rw [admissions_post_enroll, if_neg hne])
      | retire removed signer => exact hmoved (by rw [admissions_post_retire, if_neg hne])
    · obtain ⟨hgenesis, -⟩ | ⟨act, opener, signer, hsigned, -⟩ := grounds_of_judge hu hjudge
      · exact .inl hgenesis
      · exact .inr ⟨act, opener, signer, hsigned, custody_of_mem hu (List.mem_of_mem_filter hsigned.stands)⟩

/-- The filtered table is a chain of custody, and its past is fixed. -/
theorem table_chainOfCustody (hparsed : ∀ r board verify, .record r board verify ∈ events → r.AsParsed sha256)
    (h : run sha256 claim events = .ok t) : ChainOfCustody sha256 claim events t where
  traced _ _ ha := custody_of_mem h ha
  moved before ev later u v account _ hu hstep hmoved := moved_step hu hstep hmoved
  once := (sound_run hparsed h).nodup
  retired before later u hevents hu account a ha hends := by
    subst hevents
    obtain ⟨a', ha', -, hsame⟩ := keeps_rest h hu account a ha
    have haa := hsame hends
    subst haa
    refine ⟨ha', ?_⟩
    intro x hx heq
    obtain ⟨hmem, hstands⟩ := List.mem_filter.1 hx
    have hxa := List.inj_on_of_nodup_map ((sound_run hparsed h).nodup account) hmem ha' heq
    subst hxa
    exact hends (of_decide_eq_true hstands)
  keyed before later u hevents hu account hne := by
    subst hevents
    obtain ⟨a, ha⟩ := List.exists_mem_of_ne_nil _ hne
    obtain ⟨a', ha', -, -⟩ := keeps_rest h hu account a ha
    exact (sound_run hparsed h).keyed account (List.ne_nil_of_mem ha')
  fixed before later u p hevents hu hlater account := by
    subst hevents
    exact (sameAt_rest h hu hlater).openingAt account
  base before later u p hevents hu hbefore hlater account := by
    subst hevents
    calc t.openingAt account p = u.openingAt account p := (sameAt_rest h hu hlater).openingAt account
      _ = u.openingNow account := (allBelow_run hu hbefore).openingAt account

/-- A claimant, its first document and a link there. -/
def claimantAccount : Address := ⟨⟨[1, 0, 1], by simp⟩, .account, by decide⟩

def claimantDocOne : Address := ⟨⟨[1, 0, 1, 0, 1], by simp⟩, .document, by decide⟩

def claimantLink : Address := ⟨⟨[1, 0, 1, 0, 1, 0, 2, 1], by simp⟩, .element, by decide⟩

/-- A key of a repeated byte. -/
def plainKey (b : UInt8) : PublicKey :=
  .fnDsa512PreviewEd25519 ⟨List.replicate (fndsa512PreviewKeyLen + ed25519KeyLen) b, List.length_replicate⟩

/-- An account the claimant delegates. -/
def handedAccount : Address := ⟨⟨[1, 0, 1, 2], by simp⟩, .account, by decide⟩

/-- A signature of the key of a byte, as long as the key's algorithm signs. -/
def repeatedSig (b : UInt8) : String := hexEncode (List.replicate 730 b)

def repeatedVerify : Verify := fun _ key _ blob => decide (key = plainKey (blob.headD 0))

/-- A record of the claimant's first document. -/
def claimantRecord (kind : RecordKind) (subject : Address) (enrolled : List Enrollment) (retired : List Fingerprint)
    (sig : Option String) (position : ℕ) : TableEvent :=
  .record ⟨kind, claimantLink, claimantDocOne, claimantAccount, subject, claimantLink, [], sig, enrolled, retired,
    some position⟩ (some ⟨0, Journal.chainGenesis⟩) repeatedVerify

def anchorOf (b : UInt8) : Enrollment := ⟨plainKey b, true, none, isLabel_none⟩

/-- The claimant's own keys: the first enrolls the second, and the second retires the
first. An account is then handed off, once under the key that was retired and once under
the key that stands. -/
def handingOff : List TableEvent :=
  [claimantRecord .enroll claimantAccount [anchorOf 1] [] none 1,
    claimantRecord .enroll claimantAccount [anchorOf 2] [] (some (repeatedSig 1)) 3,
    claimantRecord .retire claimantAccount [] [Fingerprint.of Journal.Sha256.digest (plainKey 1)]
      (some (repeatedSig 2)) 4,
    claimantRecord .enroll handedAccount [anchorOf 3] [] (some (repeatedSig 1)) 5,
    claimantRecord .enroll handedAccount [anchorOf 3] [] (some (repeatedSig 2)) 6,
    .missing claimantAccount 7]

theorem asParsed_handingOff (r : CredentialRecord) (board : Option BoardTerm) (verify : Verify)
    (h : .record r board verify ∈ handingOff) : r.AsParsed Journal.Sha256.digest := by
  simp only [handingOff, claimantRecord, List.mem_cons, TableEvent.record.injEq, reduceCtorEq, List.not_mem_nil,
    or_false] at h
  obtain ⟨rfl, -⟩ | ⟨rfl, -⟩ | ⟨rfl, -⟩ | ⟨rfl, -⟩ | ⟨rfl, -⟩ := h
  all_goals exact ⟨List.cons_ne_nil _ _, List.nodup_singleton _⟩

/-- What the table of the handing off holds. -/
def HandedOff (t : FilteredTable) : Prop :=
  (t.admissions claimantAccount).map (fun a => (a.key, a.ends)) =
      [(plainKey 1, .retiredAt 4), (plainKey 2, .enrolled)] ∧
    (t.admissions handedAccount).map (fun a => (a.key, a.ends)) = [(plainKey 3, .enrolled)] ∧
    t.refused.map (fun refused => (refused.position, refused.cause)) = [(some 5, .unsigned)]

instance (t : FilteredTable) : Decidable (HandedOff t) :=
  inferInstanceAs (Decidable (_ ∧ _ ∧ _))

/-- The digests of the keys' preimages. -/
def keyDigest (bs : List UInt8) : Bytes32 :=
  if bs = Fingerprint.preimage (plainKey 1) then
    ⟨[95, 40, 126, 199, 223, 42, 198, 22, 118, 218, 116, 3, 66, 224, 230, 245, 170, 194, 147, 45, 228, 103, 67, 225,
      36, 177, 174, 190, 143, 34, 81, 72], rfl⟩
  else if bs = Fingerprint.preimage (plainKey 2) then
    ⟨[128, 95, 57, 240, 168, 201, 1, 175, 43, 133, 160, 119, 27, 168, 121, 231, 167, 247, 184, 152, 60, 62, 100, 194,
      95, 216, 230, 55, 26, 248, 154, 9], rfl⟩
  else if bs = Fingerprint.preimage (plainKey 3) then
    ⟨[35, 190, 202, 241, 200, 40, 158, 220, 191, 160, 2, 126, 67, 195, 86, 157, 142, 156, 226, 182, 239, 128, 164, 130,
      160, 39, 113, 25, 135, 255, 74, 174], rfl⟩
  else Journal.Sha256.digest bs

/-- Each digest is evaluated by itself, and no run evaluates one. -/
theorem digest_eq_keyDigest : Journal.Sha256.digest = keyDigest := by
  funext bs
  unfold keyDigest
  split_ifs with h1 h2 h3
  · rw [h1]
    decide +kernel
  · rw [h2]
    decide +kernel
  · rw [h3]
    decide +kernel
  · rfl

/-- The keys signed for trace back through the one retired to the claimant's first. -/
theorem table_chainOfCustody_claimed : ∃ t,
    run Journal.Sha256.digest (some (2, claimantAccount)) handingOff = .ok t ∧ HandedOff t ∧
      ChainOfCustody Journal.Sha256.digest (some (2, claimantAccount)) handingOff t := by
  have hrun : (run Journal.Sha256.digest (some (2, claimantAccount)) handingOff).toOption.any
      (fun t => decide (HandedOff t)) = true := by
    rw [handingOff, digest_eq_keyDigest]
    decide +kernel
  obtain ⟨t, ht, hholds⟩ := (Option.any_eq_true _ _).1 hrun
  have hok := Outcome.toOption_eq_some_iff.1 ht
  exact ⟨t, hok, of_decide_eq_true hholds, table_chainOfCustody asParsed_handingOff hok⟩

end Identity
