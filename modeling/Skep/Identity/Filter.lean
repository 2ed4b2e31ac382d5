import Skep.Identity.Custody
import Skep.Identity.Lifecycle

/-!
# The table beside the fold

A filtered table and a fold that hold the same keys, before a record: what the table
admits the fold honors, to the same effect, and they hold the same keys after. The one
finds an account's registry by addresses and the board's claim, the other by the owners
of the world and its own claimant; where those agree the registries do, but for a top
account's own record, which no key opens.
-/

namespace Identity

-- One account's keys

section MirrorSet

variable {sha256 : List UInt8 → Bytes32}

/-- Admissions and a key set that hold the same keys, enrolled and retired alike. -/
structure MirrorSet (held : List Admission) (set : KeySet) : Prop where
  enrolled : ∀ fp e, set.enrolled.get fp = some e ↔
    ∃ a ∈ held, a.ends = .enrolled ∧ a.fingerprint = fp ∧ e = ⟨a.key, a.anchor⟩
  retired : ∀ fp anchor, set.retired.get fp = some anchor ↔
    ∃ a ∈ held, a.ends ≠ .enrolled ∧ a.fingerprint = fp ∧ anchor = a.anchor

namespace MirrorSet

variable {held : List Admission} {set : KeySet}

theorem empty : MirrorSet [] KeySet.empty where
  enrolled fp e := by simp [KeySet.empty]
  retired fp anchor := by simp [KeySet.empty]

theorem isEmpty_iff (h : MirrorSet held set) :
    set.isEmpty = true ↔ held.filter (fun a => a.ends = .enrolled) = [] := by
  rw [← not_iff_not, Bool.not_eq_true, KeySet.isEmpty_eq_false_iff]
  constructor
  · rintro ⟨fp, e, hget⟩
    obtain ⟨a, ha, hends, -⟩ := (h.enrolled fp e).1 hget
    exact List.ne_nil_of_mem (List.mem_filter.2 ⟨ha, decide_eq_true hends⟩)
  · intro hne
    obtain ⟨a, ha⟩ := List.exists_mem_of_ne_nil _ hne
    obtain ⟨hmem, hends⟩ := List.mem_filter.1 ha
    exact ⟨a.fingerprint, _, (h.enrolled _ _).2 ⟨a, hmem, of_decide_eq_true hends, rfl, rfl⟩⟩

theorem contains_iff (h : MirrorSet held set) {fp : Fingerprint} :
    set.contains fp = true ↔ ∃ a ∈ held, a.ends = .enrolled ∧ a.fingerprint = fp := by
  rw [KeySet.contains, OrdMap.contains_iff]
  constructor
  · rintro ⟨e, hget⟩
    obtain ⟨a, ha, hends, hfp, -⟩ := (h.enrolled fp e).1 hget
    exact ⟨a, ha, hends, hfp⟩
  · rintro ⟨a, ha, hends, hfp⟩
    exact ⟨_, (h.enrolled fp _).2 ⟨a, ha, hends, hfp, rfl⟩⟩

/-- A key is new to the set where no admission names it. -/
theorem admits_iff (h : MirrorSet held set) {fp : Fingerprint} :
    set.admits fp = true ↔ ∀ a ∈ held, a.fingerprint ≠ fp := by
  rw [KeySet.admits_iff]
  constructor
  · rintro ⟨hfree, hunretired⟩ a ha hfp
    by_cases hends : a.ends = .enrolled
    · have hget := (h.enrolled fp _).2 ⟨a, ha, hends, hfp, rfl⟩
      rw [hfree] at hget
      cases hget
    · have hget := (h.retired fp _).2 ⟨a, ha, hends, hfp, rfl⟩
      rw [hunretired] at hget
      cases hget
  · intro hnone
    constructor
    · cases hget : set.enrolled.get fp with
      | none => rfl
      | some e =>
        obtain ⟨a, ha, -, hfp, -⟩ := (h.enrolled fp e).1 hget
        exact absurd hfp (hnone a ha)
    · cases hget : set.retired.get fp with
      | none => rfl
      | some anchor =>
        obtain ⟨a, ha, -, hfp, -⟩ := (h.retired fp anchor).1 hget
        exact absurd hfp (hnone a ha)

theorem enrolledLen_eq (h : MirrorSet held set) (hnodup : (held.map Admission.fingerprint).Nodup) :
    set.enrolledLen = (held.filter fun a => a.ends = .enrolled).length := by
  have hkeys : (set.enrolled.entries.map Prod.fst).Nodup :=
    set.enrolled.keys_ascending.imp fun hlt => ne_of_lt hlt
  have hfps : ((held.filter fun a => a.ends = .enrolled).map Admission.fingerprint).Nodup :=
    hnodup.sublist (List.filter_sublist.map _)
  have hsub : ∀ fp, fp ∈ set.enrolled.entries.map Prod.fst ↔
      fp ∈ (held.filter fun a => a.ends = .enrolled).map Admission.fingerprint := by
    intro fp
    constructor
    · intro hmem
      obtain ⟨⟨fp', e⟩, hentry, rfl⟩ := List.mem_map.1 hmem
      obtain ⟨a, ha, hends, hfp, -⟩ := (h.enrolled fp' e).1 (OrdMap.get_eq_some_iff.2 hentry)
      exact List.mem_map.2 ⟨a, List.mem_filter.2 ⟨ha, decide_eq_true hends⟩, hfp⟩
    · intro hmem
      obtain ⟨a, ha, rfl⟩ := List.mem_map.1 hmem
      obtain ⟨ha, hends⟩ := List.mem_filter.1 ha
      have hget := (h.enrolled a.fingerprint _).2 ⟨a, ha, of_decide_eq_true hends, rfl, rfl⟩
      exact List.mem_map.2 ⟨_, OrdMap.get_eq_some_iff.1 hget, rfl⟩
  have hperm := (List.perm_ext_iff_of_nodup hkeys hfps).2 hsub
  simpa [KeySet.enrolledLen] using hperm.length_eq

theorem insertEnrolled (h : MirrorSet held set) {position : Option ℕ} {e : Enrollment}
    (hnew : ∀ a ∈ held, a.fingerprint ≠ Fingerprint.of sha256 e.key) :
    MirrorSet (held ++ [FilteredTable.admissionOf sha256 position e])
      (set.insertEnrolled sha256 (enrolledOf e)) where
  enrolled fp e' := by
    by_cases hfp : fp = Fingerprint.of sha256 e.key
    · subst hfp
      have hget : (set.insertEnrolled sha256 (enrolledOf e)).enrolled.get (Fingerprint.of sha256 e.key) =
          some (enrolledOf e) := OrdMap.get_insert_self _ _ _
      rw [hget]
      constructor
      · rintro ⟨⟩
        exact ⟨_, List.mem_append_right _ (List.mem_singleton_self _), rfl, rfl, rfl⟩
      · rintro ⟨a, ha, -, hfp, rfl⟩
        obtain ha | ha := List.mem_append.1 ha
        · exact absurd hfp (hnew a ha)
        · rw [List.mem_singleton.1 ha]
          rfl
    · have hget : (set.insertEnrolled sha256 (enrolledOf e)).enrolled.get fp = set.enrolled.get fp :=
        OrdMap.get_insert_of_ne _ _ hfp
      rw [hget, h.enrolled]
      constructor
      · rintro ⟨a, ha, hrest⟩
        exact ⟨a, List.mem_append_left _ ha, hrest⟩
      · rintro ⟨a, ha, hends, hafp, heq⟩
        obtain ha | ha := List.mem_append.1 ha
        · exact ⟨a, ha, hends, hafp, heq⟩
        · rw [List.mem_singleton.1 ha] at hafp
          exact absurd hafp.symm hfp
  retired fp anchor := by
    have hsame : (set.insertEnrolled sha256 (enrolledOf e)).retired.get fp = set.retired.get fp := rfl
    rw [hsame, h.retired]
    constructor
    · rintro ⟨a, ha, hrest⟩
      exact ⟨a, List.mem_append_left _ ha, hrest⟩
    · rintro ⟨a, ha, hends, hrest⟩
      obtain ha | ha := List.mem_append.1 ha
      · exact ⟨a, ha, hends, hrest⟩
      · rw [List.mem_singleton.1 ha] at hends
        exact absurd rfl hends

theorem insertAll (h : MirrorSet held set) {position : Option ℕ} {new : List Enrollment}
    (hnew : ∀ e ∈ new, ∀ a ∈ held, a.fingerprint ≠ Fingerprint.of sha256 e.key)
    (hnodup : (new.map fun e => Fingerprint.of sha256 e.key).Nodup) :
    MirrorSet (held ++ new.map (FilteredTable.admissionOf sha256 position))
      ((new.map enrolledOf).foldl (KeySet.insertEnrolled sha256) set) := by
  induction new generalizing held set with
  | nil => simpa using h
  | cons e new ih =>
    obtain ⟨hhead, htail⟩ := List.nodup_cons.1 hnodup
    rw [List.map_cons, List.map_cons, List.foldl_cons, List.append_cons]
    apply ih (h.insertEnrolled (hnew e List.mem_cons_self)) _ htail
    intro e' he' a ha
    obtain ha | ha := List.mem_append.1 ha
    · exact hnew e' (List.mem_cons_of_mem _ he') a ha
    · rw [List.mem_singleton.1 ha]
      intro heq
      exact hhead (List.mem_map.2 ⟨e', he', heq.symm⟩)

theorem ends_retireIn {removed : List Fingerprint} {position : Option ℕ} {a : Admission} :
    (FilteredTable.retireIn removed position a).ends = .enrolled ↔
      a.ends = .enrolled ∧ a.fingerprint ∉ removed := by
  unfold FilteredTable.retireIn
  split_ifs with h
  · cases position with
    | none => simp [h.2]
    | some q => simp [h.2]
  · constructor
    · intro hends
      exact ⟨hends, fun hmem => h ⟨hends, hmem⟩⟩
    · exact And.left

/-- What is retired was retired, or was enrolled and is named. -/
theorem retired_retireAll_iff {set : KeySet} (hset : set.Sound sha256) {removed : List Fingerprint}
    {fp : Fingerprint} {anchor : Bool} :
    (removed.foldl KeySet.moveToRetired set).retired.get fp = some anchor ↔
      set.retired.get fp = some anchor ∨
        fp ∈ removed ∧ ∃ e, set.enrolled.get fp = some e ∧ e.anchor = anchor := by
  obtain ⟨hsound, hkeeps⟩ := hset.retireAll removed
  constructor
  · intro h
    obtain h | ⟨e, he, hanchor⟩ := KeySet.retired_retireAll h
    · exact .inl h
    · by_cases hmem : fp ∈ removed
      · exact .inr ⟨hmem, e, he, hanchor⟩
      · have hstill := KeySet.get_retireAll set removed fp
        rw [if_neg hmem, he] at hstill
        have hnot := (hsound.disjoint fp).resolve_left (by simp [hstill])
        rw [hnot] at h
        cases h
  · rintro (h | ⟨hmem, e, he, rfl⟩)
    · exact hkeeps.retired fp anchor h
    · obtain h | ⟨-, h⟩ := hkeeps.enrolled fp e he
      · rw [KeySet.get_retireAll, if_pos hmem] at h
        cases h
      · exact h

theorem retireAll (h : MirrorSet held set) (hset : set.Sound sha256) {position : Option ℕ}
    (removed : List Fingerprint) :
    MirrorSet (held.map (FilteredTable.retireIn removed position)) (removed.foldl KeySet.moveToRetired set) where
  enrolled fp e := by
    rw [KeySet.get_retireAll]
    constructor
    · intro hget
      split_ifs at hget with hmem
      obtain ⟨a, ha, hends, rfl, rfl⟩ := (h.enrolled fp e).1 hget
      have hsame : FilteredTable.retireIn removed position a = a := FilteredTable.retireIn_of_not_mem hmem
      exact ⟨a, List.mem_map.2 ⟨a, ha, hsame⟩, hends, rfl, rfl⟩
    · rintro ⟨a', ha', hends, hfp, rfl⟩
      obtain ⟨a, ha, rfl⟩ := List.mem_map.1 ha'
      obtain ⟨hstands, hnot⟩ := ends_retireIn.1 hends
      rw [FilteredTable.retireIn_of_not_mem hnot] at hfp ⊢
      rw [if_neg (hfp ▸ hnot)]
      exact (h.enrolled fp _).2 ⟨a, ha, hstands, hfp, rfl⟩
  retired fp anchor := by
    rw [retired_retireAll_iff hset, h.retired]
    have hanchor : ∀ a, (FilteredTable.retireIn removed position a).anchor = a.anchor := by
      intro a
      unfold FilteredTable.retireIn
      split
      · rfl
      · rfl
    constructor
    · rintro (⟨a, ha, hends, hfp, rfl⟩ | ⟨hmem, e, he, rfl⟩)
      · refine ⟨_, List.mem_map_of_mem ha, ?_, ?_, (hanchor a).symm⟩
        · intro hstill
          exact hends (ends_retireIn.1 hstill).1
        · rw [FilteredTable.fingerprint_retireIn, hfp]
      · obtain ⟨a, ha, -, rfl, rfl⟩ := (h.enrolled fp e).1 he
        refine ⟨_, List.mem_map_of_mem ha, ?_, FilteredTable.fingerprint_retireIn _ _ _, (hanchor a).symm⟩
        intro hstill
        exact (ends_retireIn.1 hstill).2 hmem
    · rintro ⟨a', ha', hends, hfp, rfl⟩
      obtain ⟨a, ha, rfl⟩ := List.mem_map.1 ha'
      rw [FilteredTable.fingerprint_retireIn] at hfp
      rw [hanchor]
      by_cases hstands : a.ends = .enrolled
      · right
        refine ⟨?_, _, (h.enrolled fp _).2 ⟨a, ha, hstands, hfp, rfl⟩, rfl⟩
        by_contra hnot
        exact hends (ends_retireIn.2 ⟨hstands, hfp ▸ hnot⟩)
      · exact .inl ⟨a, ha, hstands, hfp, rfl⟩

end MirrorSet

end MirrorSet

-- A deposit read twice

open IdentityState in
/-- A deposit of the journal: what the fold sees, its link, its commit position and
whether a reader has that, and what the reader judges it with. -/
structure Deposited extends FoldEvent where
  link : Address
  position : ℕ
  positionKnown : Bool
  board : Option BoardTerm
  verify : Verify

/-- The account an account's delegator is, by its address. -/
def delegatorByAddress (a : Address) : Delegator :=
  match FilteredTable.accountAbove a with
  | some above => .account above
  | none => .bootstrap

/-- A deposit in a published document of a registered account. What stands above a
registered account is registered, and the world and the addresses agree on its delegator. -/
structure Deposited.WellFormed (d : Deposited) : Prop where
  published : d.ctx.isPublished d.dep.home = true
  home : d.dep.home.level = .document
  homeAccount : ∀ a, documentAccount d.ctx d.dep.home = some a → d.ctx.isAccount a = true
  accounts : ∀ a, d.ctx.isAccount a = true → a.level = .account
  above : ∀ a p, d.ctx.isAccount a = true → FilteredTable.accountAbove a = some p → d.ctx.isAccount p = true
  delegators : ∀ a, d.ctx.isAccount a = true → delegator d.ctx.ownerOf a = some (delegatorByAddress a)

section Journal

variable (sha256 : List UInt8 → Bytes32) (fromStr : String → Option Json) (types : TypeAddrs)

/-- A deposit as a verifying reader reads it. -/
def credentialOf (d : Deposited) : Option CredentialRecord := do
  let kind ← types.kindOf d.dep.ty
  let homeAccount ← documentAccount d.ctx d.dep.home
  let (subject, bytes) ← (subjectAndRecord d.ctx d.dep).toOption
  let position := if d.positionKnown then some d.position else none
  match kind with
  | .enroll => do
      let v ← (parseRecordValue (enrollSchema sha256) fromStr bytes).toOption
      return ⟨.enroll, d.link, d.dep.home, homeAccount, subject, types.enroll,
        utf8 (canonicalRecord (enrollSchema sha256) v.entries none), v.sig, v.entries, [], position⟩
  | .retire => do
      let v ← (parseRecordValue retireSchema fromStr bytes).toOption
      return ⟨.retire, d.link, d.dep.home, homeAccount, subject, types.retire,
        utf8 (canonicalRecord retireSchema v.entries none), v.sig, [], v.entries, position⟩
  | .claim => none

end Journal

/-- A table and a fold with the same keys. -/
def Mirrors (t : FilteredTable) (st : IdentityState) : Prop :=
  ∀ account, MirrorSet (t.admissions account) (st.keySet account)

-- Accounts above

section Agreement

open FilteredTable IdentityState

variable {sha256 : List UInt8 → Bytes32} {fromStr : String → Option Json} {types : TypeAddrs}
  {t t' : FilteredTable} {st : IdentityState} {d : Deposited} {r : CredentialRecord}

theorem accountAbove_eq_some_iff {a p : Address} :
    accountAbove a = some p ↔ parent a = some p ∧ p.level = .account := by
  simp [accountAbove, Option.filter_eq_some_iff]

theorem accountsAbove_of_some {a p : Address} (h : accountAbove a = some p) :
    accountsAbove a = p :: accountsAbove p := by
  obtain ⟨hparent, hlevel⟩ := accountAbove_eq_some_iff.1 h
  rw [accountsAbove, ancestors_eq, hparent]
  simp [hlevel, accountsAbove]

theorem accountsAbove_of_none {a : Address} (h : accountAbove a = none) : accountsAbove a = [] := by
  rw [accountsAbove, ancestors_eq]
  cases hparent : parent a with
  | none => rfl
  | some p =>
    have hlevel : p.level ≠ .account := by
      intro hlevel
      rw [accountAbove_eq_some_iff.2 ⟨hparent, hlevel⟩] at h
      cases h
    simp [hlevel]

theorem filter_sets_get (st : IdentityState) (account : Address) :
    (st.sets.get account).filter (fun set => !set.isEmpty) =
      if (st.keySet account).isEmpty = true then none else some (st.keySet account) := by
  rw [keySet]
  cases hrow : st.sets.get account with
  | none => rfl
  | some set =>
    by_cases hempty : set.isEmpty = true
    · simp [hempty]
    · simp [hempty]

/-- With no gap, a walk finds a set that names the keys of the nearest keyed row. -/
theorem exists_walkOver (hm : Mirrors t st) (hgaps : t.missing = OrdMap.empty) (accounts : List Address) :
    ∃ set, t.walkOver none accounts = some set ∧ ∀ fp, (∃ a ∈ set, a.fingerprint = fp) ↔
      ∃ keys, (accounts.findSome? fun above => (st.sets.get above).filter fun set => !set.isEmpty) = some keys ∧
        keys.contains fp = true := by
  induction accounts with
  | nil => exact ⟨[], rfl, by simp⟩
  | cons account above ih =>
    have hgap : ¬ t.isGap account none = true := by simp [isGap, hgaps]
    have hempty := (hm account).isEmpty_iff
    rw [walkOver, if_neg hgap, List.findSome?_cons, filter_sets_get]
    by_cases hcurrent : t.setAt account none = []
    · rw [if_pos hcurrent, if_pos (hempty.2 hcurrent)]
      exact ih
    · rw [if_neg hcurrent, if_neg fun h => hcurrent (hempty.1 h)]
      refine ⟨_, rfl, fun fp => ?_⟩
      simp only [Option.some.injEq, exists_eq_left', (hm account).contains_iff]
      constructor
      · rintro ⟨a, ha, hfp⟩
        obtain ⟨hmem, hends⟩ := List.mem_filter.1 ha
        exact ⟨a, hmem, of_decide_eq_true hends, hfp⟩
      · rintro ⟨a, ha, hends, hfp⟩
        exact ⟨a, List.mem_filter.2 ⟨ha, decide_eq_true hends⟩, hfp⟩

theorem handoffLatchFires_eq (hm : Mirrors t st) (hgaps : t.missing = OrdMap.empty)
    {ownerOf : Address → Option Owner} (hdelegator : delegator ownerOf r.subject = some (delegatorByAddress r.subject)) :
    t.handoffLatchFires sha256 r = some (st.handoffLatchFires sha256 ownerOf r.subject r.enrolled) := by
  rw [FilteredTable.handoffLatchFires, IdentityState.handoffLatchFires, hdelegator, delegatorByAddress]
  cases habove : accountAbove r.subject with
  | none => rfl
  | some above =>
    obtain ⟨set, hwalk, hset⟩ := exists_walkOver hm hgaps (above :: accountsAbove above)
    have hopening : st.openingSetAbove r.subject =
        ((above :: accountsAbove above).findSome? fun x => (st.sets.get x).filter fun set => !set.isEmpty) := by
      rw [← accountsAbove_of_some habove]
      rfl
    simp only [walk, hwalk, Option.bind_eq_bind, Option.bind_some, hopening]
    apply congrArg some
    have hany : ∀ e : Enrollment, (set.any fun a => a.fingerprint = Fingerprint.of sha256 e.key) = true ↔
        ∃ keys, ((above :: accountsAbove above).findSome? fun x =>
          (st.sets.get x).filter fun set => !set.isEmpty) = some keys ∧
            keys.contains (Fingerprint.of sha256 e.key) = true := by
      intro e
      rw [← hset]
      simp
    cases hfound : (above :: accountsAbove above).findSome? fun x =>
        (st.sets.get x).filter fun set => !set.isEmpty with
    | none =>
      rw [List.any_eq_false]
      intro e _ hfires
      obtain ⟨keys, hkeys, -⟩ := (hany e).1 hfires
      rw [hfound] at hkeys
      cases hkeys
    | some keys =>
      rw [Bool.eq_iff_iff, List.any_eq_true, List.any_eq_true]
      apply exists_congr
      intro e
      rw [hany e, hfound]
      simp

/-- The registries agree where the subject is delegated beneath an account. -/
theorem genesisRegistry_of_above {ownerOf : Address → Option Owner} {above : Address}
    (habove : accountAbove r.subject = some above)
    (hsubject : delegator ownerOf r.subject = some (delegatorByAddress r.subject))
    (hgiver : delegator ownerOf above = some (delegatorByAddress above)) :
    st.genesisRegistry ownerOf r.subject = t.genesisRegistry r := by
  obtain ⟨hparent, -⟩ := accountAbove_eq_some_iff.1 habove
  have hfirst : isFirstChildOfBootstrap ownerOf r.subject = isAgentSpaceOfTop above r.subject := by
    rw [isFirstChildOfBootstrap, hparent, Option.any_some, isAgentSpaceOfTop, hgiver, delegatorByAddress]
    cases habove' : accountAbove above with
    | none => simp [agentSpaceOf]
    | some x => simp
  simp only [IdentityState.genesisRegistry, hsubject, delegatorByAddress, habove, FilteredTable.genesisRegistry,
    hfirst]

/-- What the place of a record is to the claim: read below it, or at or above it. -/
def ClaimPlace (claim : Option (ℕ × Address)) (claimant : Option Address) (r : CredentialRecord) : Prop :=
  match claimant with
  | none => ∀ claimAt c, claim = some (claimAt, c) → r.subject = c ∨ ∃ p, r.position = some p ∧ p ≤ claimAt
  | some c => ∃ claimAt, claim = some (claimAt, c) ∧ ∀ p ∈ r.position, claimAt ≤ p

/-- The registries agree, or the record is a top account's own that no key opens. -/
theorem genesisRegistry_eq {ownerOf : Address → Option Owner}
    (hsubject : delegator ownerOf r.subject = some (delegatorByAddress r.subject))
    (hgiver : ∀ above, accountAbove r.subject = some above →
      delegator ownerOf above = some (delegatorByAddress above))
    (hplace : accountAbove r.subject = none → ClaimPlace t.claim st.claimant r) :
    st.genesisRegistry ownerOf r.subject = t.genesisRegistry r ∨
      accountAbove r.subject = none ∧ t.genesisRegistry r = some r.subject := by
  cases habove : accountAbove r.subject with
  | some above => exact .inl (genesisRegistry_of_above habove hsubject (hgiver above habove))
  | none =>
    have hfold : st.genesisRegistry ownerOf r.subject = some (st.claimant.getD r.subject) := by
      rw [IdentityState.genesisRegistry, hsubject, delegatorByAddress, habove]
    have hplace := hplace habove
    simp only [hfold, FilteredTable.genesisRegistry, habove]
    cases hclaimant : st.claimant with
    | none =>
      left
      rw [hclaimant] at hplace
      cases hclaim : t.claim with
      | none => rfl
      | some claim =>
        obtain hsame | ⟨p, hp, hle⟩ := hplace claim.1 claim.2 hclaim
        · simp [hsame]
        · have hnot : ¬ ∀ q ∈ r.position, claim.1 < q := by
            intro hall
            have hlt := hall p hp
            omega
          simp only [Option.getD_none]
          rw [if_neg hnot]
    | some c =>
      rw [hclaimant] at hplace
      obtain ⟨claimAt, hclaim, -⟩ := hplace
      rw [hclaim]
      by_cases hlater : ∀ p ∈ r.position, claimAt < p
      · left
        simp only [Option.getD_some]
        rw [if_pos hlater]
      · right
        simp only
        rw [if_neg hlater]
        exact ⟨trivial, rfl⟩

-- A record read by both

/-- What the fold reads where a reader reads a record. -/
structure ReadAs (sha256 : List UInt8 → Bytes32) (fromStr : String → Option Json) (types : TypeAddrs) (d : Deposited)
    (r : CredentialRecord) : Prop where
  home : r.home = d.dep.home
  homeAccount : documentAccount d.ctx d.dep.home = some r.homeAccount
  position : r.position = if d.positionKnown then some d.position else none
  entries : ∃ bytes, subjectAndRecord d.ctx d.dep = .ok (r.subject, bytes) ∧
    ((r.kind = .enroll ∧ types.kindOf d.dep.ty = some .enroll ∧ readEnroll sha256 fromStr bytes = .ok r.enrolled) ∨
      (r.kind = .retire ∧ types.kindOf d.dep.ty = some .retire ∧ readRetire fromStr bytes = .ok r.retired))

theorem readEnroll_of_parse {bytes : List UInt8} {v : RecordValue Enrollment}
    (h : parseRecordValue (enrollSchema sha256) fromStr bytes = .ok v) :
    readEnroll sha256 fromStr bytes = .ok v.entries := by
  rw [readEnroll, Outcome.toExcept_eq_ok_iff]
  exact Outcome.bind_eq_ok_iff.2 ⟨v, h, rfl⟩

theorem readRetire_of_parse {bytes : List UInt8} {v : RecordValue Fingerprint}
    (h : parseRecordValue retireSchema fromStr bytes = .ok v) : readRetire fromStr bytes = .ok v.entries := by
  rw [readRetire, Outcome.toExcept_eq_ok_iff]
  exact Outcome.bind_eq_ok_iff.2 ⟨v, h, rfl⟩

theorem readAs_of_credentialOf (h : credentialOf sha256 fromStr types d = some r) :
    ReadAs sha256 fromStr types d r ∧ r.AsParsed sha256 := by
  simp only [credentialOf, Option.bind_eq_bind, Option.bind_eq_some_iff] at h
  obtain ⟨kind, hkind, homeAccount, haccount, ⟨subject, bytes⟩, hrecord, h⟩ := h
  have hrecord : subjectAndRecord d.ctx d.dep = .ok (subject, bytes) := by
    cases hread : subjectAndRecord d.ctx d.dep with
    | error e => simp [hread, Except.toOption] at hrecord
    | ok x =>
      rw [hread] at hrecord
      exact congrArg _ (Option.some.inj hrecord)
  cases kind with
  | enroll =>
    simp only [Option.bind_eq_some_iff, Outcome.toOption_eq_some_iff] at h
    obtain ⟨v, hv, h⟩ := h
    cases h
    obtain ⟨-, hne, hnodup, -⟩ := parseRecordValue_eq_ok hv
    exact ⟨⟨rfl, haccount, rfl, bytes, hrecord, .inl ⟨rfl, hkind, readEnroll_of_parse hv⟩⟩, hne, hnodup⟩
  | retire =>
    simp only [Option.bind_eq_some_iff, Outcome.toOption_eq_some_iff] at h
    obtain ⟨v, hv, h⟩ := h
    cases h
    obtain ⟨-, hne, hnodup, -⟩ := parseRecordValue_eq_ok hv
    refine ⟨⟨rfl, haccount, rfl, bytes, hrecord, .inr ⟨rfl, hkind, readRetire_of_parse hv⟩⟩, hne, ?_⟩
    simpa [retireSchema] using hnodup
  | claim => cases h

theorem isAccount_of_subjectAndRecord {ctx : FoldCtx} {dep : LinkDeposit} {subject : Address} {bytes : List UInt8}
    (h : subjectAndRecord ctx dep = .ok (subject, bytes)) : ctx.isAccount subject = true := by
  unfold subjectAndRecord at h
  split_ifs at h
  split at h
  · cases h
  · next found hfound =>
    split at h
    · cases h
      exact (Option.filter_eq_some_iff.1 hfound).2
    · cases h

theorem ReadAs.subject (h : ReadAs sha256 fromStr types d r) : d.ctx.isAccount r.subject = true := by
  obtain ⟨bytes, hrecord, -⟩ := h.entries
  exact isAccount_of_subjectAndRecord hrecord

/-- The fold judges a record, in its home's first document, by its arms. -/
theorem ReadAs.classify_enroll (h : ReadAs sha256 fromStr types d r) (hwf : d.WellFormed)
    (hdoc : docOne r.homeAccount = some r.home) (hkind : r.kind = .enroll) (st : IdentityState) :
    st.classify sha256 fromStr types d.ctx d.dep =
      st.enrollArms sha256 d.ctx r.subject r.homeAccount r.enrolled := by
  obtain ⟨bytes, hrecord, ⟨-, htype, hread⟩ | ⟨hretire, -⟩⟩ := h.entries
  · have hhome : homedInDocOne d.dep r.homeAccount = true := by
      rw [docOne, Outcome.toOption_eq_some_iff] at hdoc
      simp [homedInDocOne, doc1Of, hdoc, h.home]
    simp only [IdentityState.classify, htype, h.homeAccount, hwf.published, payloadPath, hrecord, hread, hhome,
      Bool.not_true, Bool.false_eq_true, if_false]
  · rw [hkind] at hretire
    cases hretire

theorem ReadAs.classify_retire (h : ReadAs sha256 fromStr types d r) (hwf : d.WellFormed)
    (hdoc : docOne r.homeAccount = some r.home) (hkind : r.kind = .retire) (st : IdentityState) :
    st.classify sha256 fromStr types d.ctx d.dep = st.retireArms r.subject r.homeAccount r.retired := by
  obtain ⟨bytes, hrecord, ⟨henroll, -⟩ | ⟨-, htype, hread⟩⟩ := h.entries
  · rw [hkind] at henroll
    cases henroll
  · have hhome : homedInDocOne d.dep r.homeAccount = true := by
      rw [docOne, Outcome.toOption_eq_some_iff] at hdoc
      simp [homedInDocOne, doc1Of, hdoc, h.home]
    simp only [IdentityState.classify, htype, h.homeAccount, hwf.published, payloadPath, hrecord, hread, hhome,
      Bool.not_true, Bool.false_eq_true, if_false]

theorem keyed_eq_false_iff (hm : Mirrors t st) {account : Address} :
    t.keyed account = false ↔ (st.keySet account).isEmpty = true := by
  rw [← Bool.not_eq_true, keyed_iff, not_not]
  exact (hm account).isEmpty_iff.symm

theorem mirrors_posted {post : KeySet → KeySet} {account : Address} (held : List Admission) (hm : Mirrors t st)
    (hposted : ∀ a, t'.admissions a = if a = account then held else t.admissions a)
    (hset : MirrorSet held (post (st.keySet account))) : Mirrors t' (st.postToSet account post) := by
  intro a
  rw [hposted, keySet_postToSet]
  by_cases ha : a = account
  · rw [if_pos ha, if_pos ha]
    exact hset
  · rw [if_neg ha, if_neg ha]
    exact hm a

/-- A first enrollment is honored where the table posts it. -/
theorem genesis_honored (hm : Mirrors t st) (hsound : FilteredTable.Sound t) (hread : ReadAs sha256 fromStr types d r)
    (hparsed : r.AsParsed sha256) (hwf : d.WellFormed) (hdoc : docOne r.homeAccount = some r.home)
    (hkind : r.kind = .enroll) (hkeyed : t.keyed r.subject = false)
    (hregistry : st.genesisRegistry d.ctx.ownerOf r.subject = some r.homeAccount)
    (hlatch : st.handoffLatchFires sha256 d.ctx.ownerOf r.subject r.enrolled = false) (signer : Option Fingerprint) :
    st.classify sha256 fromStr types d.ctx d.dep = .honored (.genesis r.subject (r.enrolled.map enrolledOf)) ∧
      Mirrors (t.post sha256 r (.enroll r.enrolled signer))
        (st.apply sha256 (.genesis r.subject (r.enrolled.map enrolledOf))) := by
  have hempty := (keyed_eq_false_iff hm).1 hkeyed
  rw [CredentialRecord.AsParsed, hkind] at hparsed
  constructor
  · rw [hread.classify_enroll hwf hdoc hkind, enrollArms]
    simp [hempty, hregistry, hlatch]
  · have hnone := hsound.admissions_eq_nil hkeyed
    apply mirrors_posted (t.admissions r.subject ++ r.enrolled.map (admissionOf sha256 r.position)) hm
    · intro a
      rw [admissions_post_enroll]
      by_cases ha : a = r.subject
      · subst ha
        rfl
      · rw [if_neg ha, if_neg ha]
    · apply (hm r.subject).insertAll _ hparsed.2
      intro e _ a ha
      rw [hnone] at ha
      cases ha

/-- A holder's enrollment is honored where the table posts it. -/
theorem enroll_honored (hm : Mirrors t st) (hread : ReadAs sha256 fromStr types d r)
    (hparsed : r.AsParsed sha256) (hwf : d.WellFormed) (hdoc : docOne r.homeAccount = some r.home)
    (hkind : r.kind = .enroll) (hown : r.homeAccount = r.subject) (hkeyed : t.keyed r.subject = true)
    (hne : t.newEntries sha256 r ≠ []) (signer : Option Fingerprint) :
    st.classify sha256 fromStr types d.ctx d.dep =
        .honored (.enroll r.subject ((t.newEntries sha256 r).map enrolledOf)) ∧
      Mirrors (t.post sha256 r (.enroll (t.newEntries sha256 r) signer))
        (st.apply sha256 (.enroll r.subject ((t.newEntries sha256 r).map enrolledOf))) := by
  have hempty : (st.keySet r.subject).isEmpty = false := by
    rw [← Bool.not_eq_true, ← keyed_eq_false_iff hm, hkeyed]
    simp
  have hadmits : ∀ e : Enrollment, (st.keySet r.subject).admits (Fingerprint.of sha256 e.key) =
      !(t.admissions r.subject).any fun a => a.fingerprint = Fingerprint.of sha256 e.key := by
    intro e
    rw [Bool.eq_iff_iff, (hm r.subject).admits_iff]
    simp
  have hnew : r.enrolled.filter (fun e => (st.keySet r.subject).admits (Fingerprint.of sha256 e.key)) =
      t.newEntries sha256 r := by
    apply List.filter_congr
    intro e _
    exact hadmits e
  rw [CredentialRecord.AsParsed, hkind] at hparsed
  constructor
  · rw [hread.classify_enroll hwf hdoc hkind, enrollArms]
    simp [hown, hempty, hnew, hne]
  · apply mirrors_posted (t.admissions r.subject ++ (t.newEntries sha256 r).map (admissionOf sha256 r.position)) hm
    · intro a
      rw [admissions_post_enroll]
      by_cases ha : a = r.subject
      · subst ha
        rfl
      · rw [if_neg ha, if_neg ha]
    · apply (hm r.subject).insertAll _ (hparsed.2.sublist (List.filter_sublist.map _))
      intro e he a ha heq
      have hnot := (List.mem_filter.1 he).2
      simp only [Bool.not_eq_true', List.any_eq_false, decide_eq_true_eq] at hnot
      exact hnot a ha heq

/-- A retirement is honored where the table posts it. -/
theorem retire_honored (hm : Mirrors t st) (hsound : FilteredTable.Sound t) (hst : IdentityState.Sound sha256 st)
    (hread : ReadAs sha256 fromStr types d r) (hwf : d.WellFormed) (hdoc : docOne r.homeAccount = some r.home)
    (hkind : r.kind = .retire) (hown : r.homeAccount = r.subject) (hkeyed : t.keyed r.subject = true)
    (hne : t.removedEntries r ≠ []) (hlen : (t.removedEntries r).length ≠ (t.current r.subject).length)
    (signer : Fingerprint) :
    st.classify sha256 fromStr types d.ctx d.dep = .honored (.retire r.subject (t.removedEntries r)) ∧
      Mirrors (t.post sha256 r (.retire (t.removedEntries r) signer))
        (st.apply sha256 (.retire r.subject (t.removedEntries r))) := by
  have hempty : (st.keySet r.subject).isEmpty = false := by
    rw [← Bool.not_eq_true, ← keyed_eq_false_iff hm, hkeyed]
    simp
  have hcontains : ∀ fp, (st.keySet r.subject).contains fp =
      (t.current r.subject).any fun a => a.fingerprint = fp := by
    intro fp
    rw [Bool.eq_iff_iff, (hm r.subject).contains_iff]
    simp [current]
  have hremoved : r.retired.filter (fun fp => (st.keySet r.subject).contains fp) = t.removedEntries r := by
    apply List.filter_congr
    intro fp _
    exact hcontains fp
  have henrolled := (hm r.subject).enrolledLen_eq (hsound.nodup r.subject)
  constructor
  · rw [hread.classify_retire hwf hdoc hkind, retireArms]
    have hleft : (t.removedEntries r).length ≠ (st.keySet r.subject).enrolledLen := by
      rw [henrolled]
      exact hlen
    simp [hown, hempty, hremoved, hne, hleft]
  · apply mirrors_posted ((t.admissions r.subject).map (retireIn (t.removedEntries r) r.position)) hm
    · intro a
      rw [admissions_post_retire]
      by_cases ha : a = r.subject
      · subst ha
        rfl
      · rw [if_neg ha, if_neg ha]
    · exact (hm r.subject).retireAll (hst.rows r.subject) _

/-- No key opens an unkeyed account with no account above it. -/
theorem trial_ne_ok_of_top {board : Option BoardTerm} {verify : Verify} {act : Act} {fp : Fingerprint}
    (htop : accountAbove r.homeAccount = none) (hkeyed : t.keyed r.homeAccount = false)
    (hact : t.arms sha256 r = .ok act) : t.trial r board verify act.anchorGrade ≠ .ok fp := by
  intro htrial
  obtain ⟨opener, signer, -, hsigned⟩ := exists_signedBy hact htrial
  have hopener := hsigned.nearest.mem
  rw [accountsAbove_of_none htop, List.mem_singleton] at hopener
  subst hopener
  have hcurrent := keyed_iff.2 (List.ne_nil_of_mem hsigned.stands)
  rw [hkeyed] at hcurrent
  cases hcurrent

/-- What holds of a table and a fold that stand side by side before a record. -/
structure SideBySide (sha256 : List UInt8 → Bytes32) (t : FilteredTable) (st : IdentityState) : Prop where
  mirrors : Mirrors t st
  table : FilteredTable.Sound t
  fold : IdentityState.Sound sha256 st
  noGaps : t.missing = OrdMap.empty
  claimantTop : ∀ claimAt c, t.claim = some (claimAt, c) → accountAbove c = none

/-- What the table admits the fold beside it honors, to the same effect. -/
theorem SideBySide.honored (h : SideBySide sha256 t st) (hread : ReadAs sha256 fromStr types d r)
    (hparsed : r.AsParsed sha256) (hwf : d.WellFormed)
    (hplace : accountAbove r.subject = none → ClaimPlace t.claim st.claimant r) {board : Option BoardTerm}
    {verify : Verify} {decision : Decision} (hjudge : t.judge sha256 r board verify = .ok decision) :
    ∃ effect, st.classify sha256 fromStr types d.ctx d.dep = .honored effect ∧
      Mirrors (t.post sha256 r decision) (st.apply sha256 effect) := by
  have hsubject := hwf.delegators _ hread.subject
  obtain ⟨hdoc, ⟨htrust, rfl⟩ | ⟨-, act, fp, hact, htrial, rfl⟩⟩ := judge_cases hjudge
  · simp only [isHostTrusted, hostTrusts, Bool.and_eq_true, decide_eq_true_eq, Bool.not_eq_true',
      Option.any_eq_true] at htrust
    obtain ⟨⟨⟨hkind, hown⟩, hkeyed⟩, ⟨claimAt, c⟩, hclaim, hc, -⟩ := htrust
    simp only at hc
    have htop : accountAbove r.subject = none := hc ▸ h.claimantTop claimAt c hclaim
    have hunclaimed : st.claimant = none := by
      cases hclaimant : st.claimant with
      | none => rfl
      | some c' =>
        have hplace := hplace htop
        rw [hclaimant] at hplace
        obtain ⟨claimAt', hclaim', -⟩ := hplace
        rw [hclaim, Option.some.injEq, Prod.mk.injEq] at hclaim'
        have hempty := (keyed_eq_false_iff h.mirrors).1 hkeyed
        rw [hc, hclaim'.2, h.fold.claimant c' hclaimant] at hempty
        cases hempty
    have hdelegator : delegator d.ctx.ownerOf r.subject = some .bootstrap := by
      rw [hsubject, delegatorByAddress, htop]
    have hregistry : st.genesisRegistry d.ctx.ownerOf r.subject = some r.homeAccount := by
      rw [IdentityState.genesisRegistry, hdelegator, hunclaimed, hown]
      rfl
    have hlatch : st.handoffLatchFires sha256 d.ctx.ownerOf r.subject r.enrolled = false := by
      rw [IdentityState.handoffLatchFires, hdelegator]
    exact ⟨_, genesis_honored h.mirrors h.table hread hparsed hwf hdoc hkind hkeyed hregistry hlatch none⟩
  · obtain ⟨hkind, hown, hkeyed, hne, rfl⟩ | ⟨hkind, hkeyed, hregistry, hlatch, grade, -, rfl⟩ |
      ⟨hkind, hown, hkeyed, hne, hlen, rfl⟩ := arms_cases hact
    · rw [hkind]
      exact ⟨_, enroll_honored h.mirrors hread hparsed hwf hdoc hkind hown hkeyed hne (some fp)⟩
    · rw [hkind]
      have hlatch' : st.handoffLatchFires sha256 d.ctx.ownerOf r.subject r.enrolled = false := by
        rw [handoffLatchFires_eq h.mirrors h.noGaps hsubject] at hlatch
        exact Option.some.inj hlatch
      have hgiver : ∀ above, accountAbove r.subject = some above →
          delegator d.ctx.ownerOf above = some (delegatorByAddress above) :=
        fun above habove => hwf.delegators _ (hwf.above _ _ hread.subject habove)
      obtain hsame | ⟨htop, hself⟩ := genesisRegistry_eq hsubject hgiver hplace
      · rw [hregistry] at hsame
        exact ⟨_, genesis_honored h.mirrors h.table hread hparsed hwf hdoc hkind hkeyed hsame hlatch' (some fp)⟩
      · rw [hself, Option.some.injEq] at hregistry
        exact absurd htrial (trial_ne_ok_of_top (hregistry ▸ htop) (hregistry ▸ hkeyed) hact)
    · rw [hkind]
      exact ⟨_, retire_honored h.mirrors h.table h.fold hread hwf hdoc hkind hown hkeyed hne hlen fp⟩

-- The fold's own steps

/-- Whether a verdict honors its deposit. -/
def Verdict.isHonored : Verdict → Bool
  | honored _ => true
  | _ => false

@[simp] theorem step_snd (st : IdentityState) (ctx : FoldCtx) (dep : LinkDeposit) :
    (st.step sha256 fromStr types ctx dep).2 = st.classify sha256 fromStr types ctx dep := by
  unfold IdentityState.step
  simp only
  split
  · rfl
  · rfl

theorem step_fst_of_honored {ctx : FoldCtx} {dep : LinkDeposit} {effect : Effect}
    (h : st.classify sha256 fromStr types ctx dep = .honored effect) :
    (st.step sha256 fromStr types ctx dep).1 = st.apply sha256 effect := by
  unfold IdentityState.step
  simp only [h]

theorem step_fst_of_not_honored {ctx : FoldCtx} {dep : LinkDeposit}
    (h : (st.classify sha256 fromStr types ctx dep).isHonored = false) :
    (st.step sha256 fromStr types ctx dep).1 = st := by
  obtain ⟨hsame, -⟩ | ⟨effect, heffect, -⟩ := IdentityState.step_cases sha256 fromStr st types ctx dep
  · exact hsame
  · rw [heffect] at h
    cases h

theorem run_concat (events : List FoldEvent) (ev : FoldEvent) :
    IdentityState.run sha256 fromStr types (events ++ [ev]) =
      ((IdentityState.run sha256 fromStr types events).step sha256 fromStr types ev.ctx ev.dep).1 :=
  Runs.after_concat _ _ _

/-- What the fold honors is the claim or a record, which a reader reads. -/
theorem honored_cases {effect : Effect} (h : st.classify sha256 fromStr types d.ctx d.dep = .honored effect) :
    (types.kindOf d.dep.ty = some .claim ∧ ∃ account, effect = .claim account ∧
      documentAccount d.ctx d.dep.home = some account) ∨
    ∃ r, credentialOf sha256 fromStr types d = some r ∧ d.dep.home = doc1Of r.homeAccount ∧
      ((r.kind = .enroll ∧ st.enrollArms sha256 d.ctx r.subject r.homeAccount r.enrolled = .honored effect) ∨
        (r.kind = .retire ∧ st.retireArms r.subject r.homeAccount r.retired = .honored effect)) := by
  unfold IdentityState.classify at h
  split at h
  · cases h
  · next kind hkind =>
    split at h
    · cases h
    · next homeAccount haccount =>
      split_ifs at h
      cases kind with
      | claim =>
        left
        simp only [claimPath] at h
        split_ifs at h
        cases h
        exact ⟨hkind, homeAccount, rfl, haccount⟩
      | enroll =>
        right
        obtain ⟨subject, bytes, entries, hrecord, hread, hhome, harms⟩ := payloadPath_honored h
        rw [readEnroll, Outcome.toExcept_eq_ok_iff] at hread
        obtain ⟨v, hv, heq⟩ := Outcome.bind_eq_ok_iff.1 hread
        cases heq
        refine ⟨⟨.enroll, d.link, d.dep.home, homeAccount, subject, types.enroll,
          utf8 (canonicalRecord (enrollSchema sha256) v.entries none), v.sig, v.entries, [],
          if d.positionKnown then some d.position else none⟩, ?_, hhome, .inl ⟨rfl, harms⟩⟩
        simp only [credentialOf, hkind, haccount, hrecord, Except.toOption, hv, Outcome.toOption, Option.bind_eq_bind,
          Option.bind_some]
        rfl
      | retire =>
        right
        obtain ⟨subject, bytes, entries, hrecord, hread, hhome, harms⟩ := payloadPath_honored h
        rw [readRetire, Outcome.toExcept_eq_ok_iff] at hread
        obtain ⟨v, hv, heq⟩ := Outcome.bind_eq_ok_iff.1 hread
        cases heq
        refine ⟨⟨.retire, d.link, d.dep.home, homeAccount, subject, types.retire,
          utf8 (canonicalRecord retireSchema v.entries none), v.sig, [], v.entries,
          if d.positionKnown then some d.position else none⟩, ?_, hhome, .inr ⟨rfl, harms⟩⟩
        simp only [credentialOf, hkind, haccount, hrecord, Except.toOption, hv, Outcome.toOption, Option.bind_eq_bind,
          Option.bind_some]
        rfl

theorem enrollArms_ne_claim {ctx : FoldCtx} {subject homeAccount account : Address} {enrolled : List Enrollment} :
    st.enrollArms sha256 ctx subject homeAccount enrolled ≠ .honored (.claim account) := by
  unfold enrollArms
  simp only
  split_ifs <;> simp

theorem retireArms_ne_claim {subject homeAccount account : Address} {retired : List Fingerprint} :
    st.retireArms subject homeAccount retired ≠ .honored (.claim account) := by
  unfold retireArms
  simp only
  split_ifs <;> simp

theorem claimant_apply {effect : Effect} (h : ∀ account, effect ≠ .claim account) :
    (st.apply sha256 effect).claimant = st.claimant := by
  cases effect with
  | genesis account keys => rfl
  | enroll account added => rfl
  | retire account removed => rfl
  | claim account => exact absurd rfl (h account)

/-- A first enrollment the fold honors is homed in the subject's registry. -/
theorem genesis_of_enrollArms {ctx : FoldCtx} {subject homeAccount account : Address} {enrolled : List Enrollment}
    {keys : List Enrolled} (h : st.enrollArms sha256 ctx subject homeAccount enrolled = .honored (.genesis account keys)) :
    account = subject ∧ st.genesisRegistry ctx.ownerOf subject = some homeAccount := by
  unfold enrollArms at h
  simp only at h
  split_ifs at h with hown hnothing hempty hregistry hlatch
  · cases h
  · cases h
    exact ⟨rfl, hregistry⟩

theorem retireArms_ne_genesis {subject homeAccount account : Address} {retired : List Fingerprint}
    {keys : List Enrolled} : st.retireArms subject homeAccount retired ≠ .honored (.genesis account keys) := by
  unfold retireArms
  simp only
  split_ifs <;> simp

theorem genesis_of_keyed {account : Address} (hbefore : (st.keySet account).isEmpty = true)
    {effect : Effect} (hpermitted : st.Permitted sha256 d.ctx d.dep effect)
    (hafter : ((st.apply sha256 effect).keySet account).isEmpty = false) : ∃ keys, effect = .genesis account keys := by
  have hother : ∀ a post, ((st.postToSet a post).keySet account).isEmpty = false → account = a := by
    intro a post hkeyed
    by_contra hne
    rw [keySet_postToSet, if_neg hne, hbefore] at hkeyed
    cases hkeyed
  cases effect with
  | genesis a keys =>
    obtain rfl := hother a _ hafter
    exact ⟨keys, rfl⟩
  | enroll a added =>
    obtain rfl := hother a _ hafter
    rw [hpermitted.1] at hbefore
    cases hbefore
  | retire a removed =>
    obtain rfl := hother a _ hafter
    rw [hpermitted.1] at hbefore
    cases hbefore
  | claim a =>
    have hsame : ((st.apply sha256 (.claim a)).keySet account) = st.keySet account := rfl
    rw [hsame, hbefore] at hafter
    cases hafter

end Agreement

end Identity
