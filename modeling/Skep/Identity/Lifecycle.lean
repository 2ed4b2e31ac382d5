import Skep.Identity.Fold
import Skep.Identity.Spelling

/-!
# The life of a key table

What an honored deposit has been found to be, what each effect does to a key set, and
what then holds of every state a run of deposits reaches.

## Main results

- `IdentityState.classify_permitted` — an honored effect is a permitted one
- `keyTable_lifecycle` — the lifecycle over every run
-/

namespace Identity

variable {sha256 : List UInt8 → Bytes32} {fromStr : String → Option Json}

namespace KeySet

-- Key sets

theorem isEmpty_eq_false_iff {set : KeySet} :
    set.isEmpty = false ↔ ∃ fp e, set.enrolled.get fp = some e := by
  constructor
  · intro h
    obtain ⟨⟨fp, e⟩, hmem⟩ := List.exists_mem_of_ne_nil _ (List.isEmpty_eq_false_iff.1 h)
    exact ⟨fp, e, OrdMap.get_eq_some_iff.2 hmem⟩
  · rintro ⟨fp, e, h⟩
    exact List.isEmpty_eq_false_iff.2 (List.ne_nil_of_mem (OrdMap.get_eq_some_iff.1 h))

theorem admits_iff {set : KeySet} {fp : Fingerprint} :
    set.admits fp = true ↔ set.enrolled.get fp = none ∧ set.retired.get fp = none := by
  simp [admits, OrdMap.contains]

/-- The invariant of a key set. -/
structure Sound (sha256 : List UInt8 → Bytes32) (set : KeySet) : Prop where
  named : ∀ fp e, set.enrolled.get fp = some e → fp = Fingerprint.of sha256 e.key
  disjoint : ∀ fp, set.enrolled.get fp = none ∨ set.retired.get fp = none

/-- A later set keeps what is retired as it is retired, and what is enrolled as it is
enrolled or retired under the same flag. -/
structure Keeps (set set' : KeySet) : Prop where
  retired : ∀ fp anchor, set.retired.get fp = some anchor → set'.retired.get fp = some anchor
  enrolled : ∀ fp e, set.enrolled.get fp = some e → set'.enrolled.get fp = some e ∨
    set'.enrolled.get fp = none ∧ set'.retired.get fp = some e.anchor

theorem Sound.empty : Sound sha256 KeySet.empty where
  named _ _ h := by simp [KeySet.empty] at h
  disjoint _ := .inl rfl

theorem Keeps.refl (set : KeySet) : Keeps set set where
  retired _ _ h := h
  enrolled _ _ h := .inl h

theorem Keeps.trans {a b c : KeySet} (hbc : Keeps b c) (hc : Sound sha256 c) (hab : Keeps a b) :
    Keeps a c where
  retired fp anchor h := hbc.retired fp anchor (hab.retired fp anchor h)
  enrolled fp e h := by
    rcases hab.enrolled fp e h with h | ⟨-, h⟩
    · exact hbc.enrolled fp e h
    · have hretired := hbc.retired fp e.anchor h
      have hgone := (hc.disjoint fp).resolve_right (by simp [hretired])
      exact .inr ⟨hgone, hretired⟩

theorem Sound.insertEnrolled {set : KeySet} (h : Sound sha256 set) {e : Enrolled}
    (hnew : set.admits (Fingerprint.of sha256 e.key) = true) :
    Sound sha256 (set.insertEnrolled sha256 e) ∧ Keeps set (set.insertEnrolled sha256 e) := by
  obtain ⟨hfree, hunretired⟩ := admits_iff.1 hnew
  refine ⟨⟨?_, ?_⟩, ⟨fun _ _ h => h, ?_⟩⟩
  · intro fp e' hget
    by_cases hfp : fp = Fingerprint.of sha256 e.key
    · rw [KeySet.insertEnrolled, hfp, OrdMap.get_insert_self, Option.some.injEq] at hget
      rw [hfp, hget]
    · rw [KeySet.insertEnrolled, OrdMap.get_insert_of_ne _ _ hfp] at hget
      exact h.named fp e' hget
  · intro fp
    by_cases hfp : fp = Fingerprint.of sha256 e.key
    · exact .inr (hfp ▸ hunretired)
    · rw [KeySet.insertEnrolled, OrdMap.get_insert_of_ne _ _ hfp]
      exact h.disjoint fp
  · intro fp e' hget
    have hfp : fp ≠ Fingerprint.of sha256 e.key := by
      rintro rfl
      simp [hfree] at hget
    exact .inl (by rwa [KeySet.insertEnrolled, OrdMap.get_insert_of_ne _ _ hfp])

theorem isEmpty_insertEnrolled (set : KeySet) (e : Enrolled) :
    (set.insertEnrolled sha256 e).isEmpty = false :=
  isEmpty_eq_false_iff.2 ⟨_, e, OrdMap.get_insert_self _ _ _⟩

/-- Keys new to a set, and none of them twice, are enrolled in it. -/
theorem Sound.insertAll {set : KeySet} (h : Sound sha256 set) {keys : List Enrolled}
    (hnew : ∀ e ∈ keys, set.admits (Fingerprint.of sha256 e.key) = true)
    (hnodup : (keys.map fun e => Fingerprint.of sha256 e.key).Nodup) :
    Sound sha256 (keys.foldl (KeySet.insertEnrolled sha256) set) ∧
      Keeps set (keys.foldl (KeySet.insertEnrolled sha256) set) := by
  induction keys generalizing set with
  | nil => exact ⟨h, Keeps.refl set⟩
  | cons e keys ih =>
    obtain ⟨hhead, htail⟩ := List.nodup_cons.1 hnodup
    obtain ⟨hsound, hkeeps⟩ := h.insertEnrolled (hnew e List.mem_cons_self)
    have hnew' : ∀ e' ∈ keys, (set.insertEnrolled sha256 e).admits (Fingerprint.of sha256 e'.key) = true := by
      intro e' he'
      have hne : Fingerprint.of sha256 e'.key ≠ Fingerprint.of sha256 e.key := fun heq =>
        hhead (List.mem_map.2 ⟨e', he', heq⟩)
      obtain ⟨hfree, hunretired⟩ := admits_iff.1 (hnew e' (List.mem_cons_of_mem _ he'))
      refine admits_iff.2 ⟨?_, hunretired⟩
      rwa [KeySet.insertEnrolled, OrdMap.get_insert_of_ne _ _ hne]
    obtain ⟨hsound', hkeeps'⟩ := ih hsound hnew' htail
    exact ⟨hsound', hkeeps'.trans hsound' hkeeps⟩

theorem isEmpty_insertAll {set : KeySet} {keys : List Enrolled} (h : set.isEmpty = false ∨ keys ≠ []) :
    (keys.foldl (KeySet.insertEnrolled sha256) set).isEmpty = false := by
  induction keys generalizing set with
  | nil => exact h.resolve_right (by simp)
  | cons e keys ih => exact ih (.inl (isEmpty_insertEnrolled set e))

theorem get_moveToRetired (set : KeySet) (fp fp' : Fingerprint) :
    (set.moveToRetired fp).enrolled.get fp' = if fp' = fp then none else set.enrolled.get fp' := by
  rw [KeySet.moveToRetired]
  split
  · by_cases hfp : fp' = fp
    · simp [OrdMap.get_erase, hfp]
    · simp [OrdMap.get_erase, hfp]
  · next h =>
    split
    · next hfp => rw [hfp, h]
    · rfl

theorem Sound.moveToRetired {set : KeySet} (h : Sound sha256 set) (fp : Fingerprint) :
    Sound sha256 (set.moveToRetired fp) ∧ Keeps set (set.moveToRetired fp) := by
  cases hfp : set.enrolled.get fp with
  | none =>
    have hsame : set.moveToRetired fp = set := by rw [KeySet.moveToRetired, hfp]
    rw [hsame]
    exact ⟨h, Keeps.refl set⟩
  | some e =>
    have hmoved : (set.moveToRetired fp).retired = set.retired.insert fp e.anchor := by
      rw [KeySet.moveToRetired, hfp]
    refine ⟨⟨?_, ?_⟩, ⟨?_, ?_⟩⟩
    · intro fp' e' hget
      rw [get_moveToRetired] at hget
      split at hget
      · cases hget
      · exact h.named fp' e' hget
    · intro fp'
      by_cases heq : fp' = fp
      · exact .inl (by rw [get_moveToRetired, if_pos heq])
      · rw [get_moveToRetired, if_neg heq, hmoved, OrdMap.get_insert_of_ne _ _ heq]
        exact h.disjoint fp'
    · intro fp' anchor hget
      have heq : fp' ≠ fp := by
        rintro rfl
        simpa [hfp, hget] using h.disjoint fp'
      rw [hmoved, OrdMap.get_insert_of_ne _ _ heq, hget]
    · intro fp' e' hget
      by_cases heq : fp' = fp
      · subst heq
        rw [hfp] at hget
        cases hget
        exact .inr ⟨by rw [get_moveToRetired, if_pos rfl], by rw [hmoved, OrdMap.get_insert_self]⟩
      · exact .inl (by rw [get_moveToRetired, if_neg heq, hget])

theorem Sound.retireAll {set : KeySet} (h : Sound sha256 set) (removed : List Fingerprint) :
    Sound sha256 (removed.foldl KeySet.moveToRetired set) ∧
      Keeps set (removed.foldl KeySet.moveToRetired set) := by
  induction removed generalizing set with
  | nil => exact ⟨h, Keeps.refl set⟩
  | cons fp removed ih =>
    obtain ⟨hsound, hkeeps⟩ := h.moveToRetired fp
    obtain ⟨hsound', hkeeps'⟩ := ih hsound
    exact ⟨hsound', hkeeps'.trans hsound' hkeeps⟩

/-- What is retired was retired, or enrolled under the flag it is retired under. -/
theorem retired_moveToRetired {set : KeySet} {fp fp' : Fingerprint} {anchor : Bool}
    (h : (set.moveToRetired fp).retired.get fp' = some anchor) :
    set.retired.get fp' = some anchor ∨ ∃ e, set.enrolled.get fp' = some e ∧ e.anchor = anchor := by
  rw [KeySet.moveToRetired] at h
  split at h
  · next e he =>
    by_cases heq : fp' = fp
    · subst heq
      rw [OrdMap.get_insert_self, Option.some.injEq] at h
      exact .inr ⟨e, he, h⟩
    · exact .inl (by rwa [OrdMap.get_insert_of_ne _ _ heq] at h)
  · exact .inl h

theorem get_retireAll (set : KeySet) (removed : List Fingerprint) (fp : Fingerprint) :
    (removed.foldl KeySet.moveToRetired set).enrolled.get fp =
      if fp ∈ removed then none else set.enrolled.get fp := by
  induction removed generalizing set with
  | nil => simp
  | cons fp' removed ih =>
    rw [List.foldl_cons, ih, get_moveToRetired]
    by_cases hmem : fp ∈ removed
    · simp [hmem]
    · simp [hmem]

theorem retired_retireAll {set : KeySet} {removed : List Fingerprint} {fp : Fingerprint} {anchor : Bool}
    (h : (removed.foldl KeySet.moveToRetired set).retired.get fp = some anchor) :
    set.retired.get fp = some anchor ∨ ∃ e, set.enrolled.get fp = some e ∧ e.anchor = anchor := by
  induction removed generalizing set with
  | nil => exact .inl h
  | cons fp' removed ih =>
    rcases ih h with h | ⟨e, he, hanchor⟩
    · exact retired_moveToRetired h
    · rw [get_moveToRetired] at he
      split at he
      · cases he
      · exact .inr ⟨e, he, hanchor⟩

theorem retired_insertAll (set : KeySet) (keys : List Enrolled) :
    (keys.foldl (KeySet.insertEnrolled sha256) set).retired = set.retired := by
  induction keys generalizing set with
  | nil => rfl
  | cons e keys ih => exact ih _

/-- Distinct enrolled keys, fewer than all of them, leave a key when they are retired. -/
theorem isEmpty_retireAll {set : KeySet} {removed : List Fingerprint} (hnodup : removed.Nodup)
    (hheld : ∀ fp ∈ removed, set.contains fp = true) (hfewer : removed.length ≠ set.enrolledLen) :
    (removed.foldl KeySet.moveToRetired set).isEmpty = false := by
  have hkeys : (set.enrolled.entries.map Prod.fst).Nodup :=
    set.enrolled.keys_ascending.imp fun hlt => ne_of_lt hlt
  obtain ⟨⟨fp, e⟩, hmem, hleft⟩ : ∃ entry ∈ set.enrolled.entries, entry.1 ∉ removed := by
    by_contra hall
    push Not at hall
    have hsub : set.enrolled.entries.map Prod.fst ⊆ removed := by
      intro fp hfp
      obtain ⟨entry, hentry, rfl⟩ := List.mem_map.1 hfp
      exact hall entry hentry
    have hsup : removed ⊆ set.enrolled.entries.map Prod.fst := by
      intro fp hfp
      obtain ⟨e, he⟩ := OrdMap.contains_iff.1 (hheld fp hfp)
      exact List.mem_map.2 ⟨(fp, e), OrdMap.get_eq_some_iff.1 he, rfl⟩
    apply hfewer
    have hlength : set.enrolledLen = (set.enrolled.entries.map Prod.fst).length := by
      rw [enrolledLen, List.length_map]
    rw [hlength]
    exact le_antisymm (hnodup.subperm hsup).length_le (hkeys.subperm hsub).length_le
  refine isEmpty_eq_false_iff.2 ⟨fp, e, ?_⟩
  rw [get_retireAll, if_neg hleft]
  exact OrdMap.get_eq_some_iff.2 hmem

end KeySet

-- What an honored deposit was found to be

theorem readEnroll_eq_ok {bytes : List UInt8} {entries : List Enrollment}
    (h : readEnroll sha256 fromStr bytes = .ok entries) :
    entries ≠ [] ∧ (entries.map fun e => Fingerprint.of sha256 e.key).Nodup := by
  rw [readEnroll, Outcome.toExcept_eq_ok_iff] at h
  obtain ⟨v, hv, heq⟩ := Outcome.bind_eq_ok_iff.1 h
  obtain ⟨-, hne, hnodup, -⟩ := parseRecordValue_eq_ok hv
  rw [Outcome.ok.inj heq] at hne hnodup
  exact ⟨hne, hnodup⟩

theorem readRetire_eq_ok {bytes : List UInt8} {fps : List Fingerprint}
    (h : readRetire fromStr bytes = .ok fps) : fps.Nodup := by
  rw [readRetire, Outcome.toExcept_eq_ok_iff] at h
  obtain ⟨v, hv, heq⟩ := Outcome.bind_eq_ok_iff.1 h
  obtain ⟨-, -, hnodup, -⟩ := parseRecordValue_eq_ok hv
  rw [Outcome.ok.inj heq] at hnodup
  simpa [retireSchema] using hnodup

namespace IdentityState

/-- What an effect was found to be before it was honored. -/
def Permitted (sha256 : List UInt8 → Bytes32) (st : IdentityState) (ctx : FoldCtx) (dep : LinkDeposit) :
    Effect → Prop
  | .genesis account keys => (st.keySet account).isEmpty = true ∧ keys ≠ [] ∧
      (keys.map fun e => Fingerprint.of sha256 e.key).Nodup ∧
      ∃ registry, st.genesisRegistry ctx.ownerOf account = some registry ∧ dep.home = doc1Of registry
  | .enroll account added => (st.keySet account).isEmpty = false ∧
      (∀ e ∈ added, (st.keySet account).admits (Fingerprint.of sha256 e.key) = true) ∧
      (added.map fun e => Fingerprint.of sha256 e.key).Nodup ∧ dep.home = doc1Of account
  | .retire account removed => (st.keySet account).isEmpty = false ∧ removed.Nodup ∧
      (∀ fp ∈ removed, (st.keySet account).contains fp = true) ∧
      removed.length ≠ (st.keySet account).enrolledLen ∧ dep.home = doc1Of account
  | .claim account => st.claimant = none ∧ (st.keySet account).isEmpty = false ∧
      delegator ctx.ownerOf account = some .bootstrap ∧ dep.home = doc1Of account

theorem claimPath_permitted {st : IdentityState} {ctx : FoldCtx} {dep : LinkDeposit}
    {homeAccount : Address} {effect : Effect}
    (h : st.claimPath ctx dep homeAccount = .honored effect) : st.Permitted sha256 ctx dep effect := by
  unfold claimPath at h
  split_ifs at h with hshape hhome hdelegator hclaimant hkeyless
  cases h
  refine ⟨?_, ?_, ?_, ?_⟩
  · simpa using hclaimant
  · simpa using hkeyless
  · simpa using hdelegator
  · simpa [homedInDocOne] using hhome

/-- A payload's verdict is that of its arms, on the entries it parses to. -/
theorem payloadPath_honored {T : Type} {ctx : FoldCtx} {dep : LinkDeposit} {homeAccount : Address}
    {parse : List UInt8 → Except PayloadError (List T)} {arms : Address → List T → Verdict}
    {effect : Effect} (h : payloadPath ctx dep homeAccount parse arms = .honored effect) :
    ∃ subject bytes entries, subjectAndRecord ctx dep = .ok (subject, bytes) ∧
      parse bytes = .ok entries ∧ dep.home = doc1Of homeAccount ∧
      arms subject entries = .honored effect := by
  unfold payloadPath at h
  split at h
  · cases h
  · next subject bytes hrecord =>
    split at h
    · cases h
    · next entries hparse =>
      split_ifs at h with hhome
      exact ⟨subject, bytes, entries, hrecord, hparse, by simpa [homedInDocOne] using hhome, h⟩

theorem map_key_enrolledOf (enrollments : List Enrollment) :
    (enrollments.map enrolledOf).map (fun e => Fingerprint.of sha256 e.key) =
      enrollments.map fun e => Fingerprint.of sha256 e.key := by
  rw [List.map_map]
  rfl

theorem enrollArms_permitted {st : IdentityState} {ctx : FoldCtx} {dep : LinkDeposit}
    {subject homeAccount : Address} {enrollments : List Enrollment} {effect : Effect}
    (hhome : dep.home = doc1Of homeAccount) (hne : enrollments ≠ [])
    (hnodup : (enrollments.map fun e => Fingerprint.of sha256 e.key).Nodup)
    (h : st.enrollArms sha256 ctx subject homeAccount enrollments = .honored effect) :
    st.Permitted sha256 ctx dep effect := by
  unfold enrollArms at h
  simp only at h
  split_ifs at h with hown hnothing hempty hregistry hlatch
  · cases h
    obtain ⟨rfl, hkeyed⟩ := hown
    refine ⟨hkeyed, ?_, ?_, hhome⟩
    · intro e he
      obtain ⟨enrollment, hmem, rfl⟩ := List.mem_map.1 he
      exact (List.mem_filter.1 hmem).2
    · rw [map_key_enrolledOf]
      exact hnodup.sublist (List.filter_sublist.map _)
  · cases h
    refine ⟨hempty, by simpa using hne, ?_, homeAccount, hregistry, hhome⟩
    rwa [map_key_enrolledOf]

theorem retireArms_permitted {st : IdentityState} {ctx : FoldCtx} {dep : LinkDeposit}
    {subject homeAccount : Address} {fps : List Fingerprint} {effect : Effect}
    (hhome : dep.home = doc1Of homeAccount) (hnodup : fps.Nodup)
    (h : st.retireArms subject homeAccount fps = .honored effect) :
    st.Permitted sha256 ctx dep effect := by
  unfold retireArms at h
  simp only at h
  split_ifs at h with hown hnothing hall
  cases h
  obtain ⟨rfl, hkeyed⟩ := hown
  exact ⟨hkeyed, hnodup.sublist List.filter_sublist, fun fp hfp => (List.mem_filter.1 hfp).2, hall, hhome⟩

/-- An honored effect is a permitted one. -/
theorem classify_permitted {st : IdentityState} {types : TypeAddrs} {ctx : FoldCtx} {dep : LinkDeposit}
    {effect : Effect} (h : st.classify sha256 fromStr types ctx dep = .honored effect) :
    st.Permitted sha256 ctx dep effect := by
  unfold classify at h
  split at h
  · cases h
  · next kind hkind =>
    split at h
    · cases h
    · next homeAccount haccount =>
      split_ifs at h with hpublished
      cases kind with
      | claim => exact claimPath_permitted h
      | enroll =>
        obtain ⟨subject, bytes, entries, -, hparse, hhome, harms⟩ := payloadPath_honored h
        obtain ⟨hne, hnodup⟩ := readEnroll_eq_ok hparse
        exact enrollArms_permitted hhome hne hnodup harms
      | retire =>
        obtain ⟨subject, bytes, fps, -, hparse, hhome, harms⟩ := payloadPath_honored h
        exact retireArms_permitted hhome (readRetire_eq_ok hparse) harms

-- One step

/-- The invariant of the table: every row is keyed and sound, and so is the claimant's. -/
structure Sound (sha256 : List UInt8 → Bytes32) (st : IdentityState) : Prop where
  keyed : ∀ account set, st.sets.get account = some set → set.isEmpty = false
  rows : ∀ account, (st.keySet account).Sound sha256
  claimant : ∀ c, st.claimant = some c → (st.keySet c).isEmpty = false

/-- What a later table keeps of an earlier one. -/
structure Keeps (st st' : IdentityState) : Prop where
  rows : ∀ account, (st.keySet account).Keeps (st'.keySet account)
  keyed : ∀ account, (st.keySet account).isEmpty = false → (st'.keySet account).isEmpty = false
  claimant : ∀ c, st.claimant = some c → st'.claimant = some c

theorem Sound.genesis : Sound sha256 genesis where
  keyed _ _ h := by simp [IdentityState.genesis] at h
  rows _ := KeySet.Sound.empty
  claimant _ h := by simp [IdentityState.genesis] at h

theorem Keeps.refl (st : IdentityState) : Keeps st st :=
  ⟨fun _ => KeySet.Keeps.refl _, fun _ h => h, fun _ h => h⟩

theorem Keeps.trans {a b c : IdentityState} (hbc : Keeps b c) (hc : Sound sha256 c) (hab : Keeps a b) :
    Keeps a c where
  rows account := (hbc.rows account).trans (hc.rows account) (hab.rows account)
  keyed account h := hbc.keyed account (hab.keyed account h)
  claimant c h := hbc.claimant c (hab.claimant c h)

theorem Sound.sets_get_eq_none {st : IdentityState} (h : Sound sha256 st) {account : Address}
    (hempty : (st.keySet account).isEmpty = true) : st.sets.get account = none := by
  cases hrow : st.sets.get account with
  | none => rfl
  | some set =>
    have hkeyed := h.keyed account set hrow
    rw [keySet, hrow, Option.getD_some, hkeyed] at hempty
    cases hempty

theorem keySet_postToSet (st : IdentityState) (account : Address) (post : KeySet → KeySet) (a : Address) :
    (st.postToSet account post).keySet a =
      if a = account then post (st.keySet account) else st.keySet a := by
  by_cases h : a = account
  · simp [keySet, postToSet, h]
  · simp [keySet, postToSet, OrdMap.get_insert, h]

/-- A row posted to keeps the table, where the row is sound and keyed and keeps itself. -/
theorem Sound.postToSet {st : IdentityState} (h : Sound sha256 st) (account : Address) (post : KeySet → KeySet)
    (hrow : (post (st.keySet account)).Sound sha256 ∧ (st.keySet account).Keeps (post (st.keySet account)))
    (hkeyed : (post (st.keySet account)).isEmpty = false) :
    Sound sha256 (st.postToSet account post) ∧ Keeps st (st.postToSet account post) := by
  have hkept : ∀ a, (st.keySet a).isEmpty = false → ((st.postToSet account post).keySet a).isEmpty = false := by
    intro a ha
    rw [keySet_postToSet]
    split
    · exact hkeyed
    · exact ha
  refine ⟨⟨?_, ?_, ?_⟩, ⟨?_, hkept, fun c hc => hc⟩⟩
  · intro a set hget
    by_cases ha : a = account
    · subst ha
      rw [IdentityState.postToSet, OrdMap.get_insert_self, Option.some.injEq] at hget
      rwa [← hget]
    · rw [IdentityState.postToSet, OrdMap.get_insert_of_ne _ _ ha] at hget
      exact h.keyed a set hget
  · intro a
    rw [keySet_postToSet]
    split
    · exact hrow.1
    · exact h.rows a
  · intro c hc
    exact hkept c (h.claimant c hc)
  · intro a
    rw [keySet_postToSet]
    split
    · next ha => exact ha ▸ hrow.2
    · exact KeySet.Keeps.refl _

/-- A permitted effect keeps the table sound, and the table keeps what it holds. -/
theorem Sound.apply {st : IdentityState} (h : Sound sha256 st) {ctx : FoldCtx} {dep : LinkDeposit}
    {effect : Effect} (hpermitted : st.Permitted sha256 ctx dep effect) :
    Sound sha256 (st.apply sha256 effect) ∧ Keeps st (st.apply sha256 effect) := by
  cases effect with
  | genesis account keys =>
    obtain ⟨hempty, hne, hnodup, -⟩ := hpermitted
    have hset : st.keySet account = KeySet.empty := by
      rw [keySet, h.sets_get_eq_none hempty]
      rfl
    refine h.postToSet account (fun set => keys.foldl (KeySet.insertEnrolled sha256) set) ?_
      (KeySet.isEmpty_insertAll (.inr hne))
    rw [hset]
    exact KeySet.Sound.empty.insertAll (fun e _ => rfl) hnodup
  | enroll account added =>
    obtain ⟨hkeyed, hnew, hnodup, -⟩ := hpermitted
    exact h.postToSet account (fun set => added.foldl (KeySet.insertEnrolled sha256) set)
      ((h.rows account).insertAll hnew hnodup) (KeySet.isEmpty_insertAll (.inl hkeyed))
  | retire account removed =>
    obtain ⟨-, hnodup, hheld, hfewer, -⟩ := hpermitted
    exact h.postToSet account (fun set => removed.foldl KeySet.moveToRetired set)
      ((h.rows account).retireAll removed) (KeySet.isEmpty_retireAll hnodup hheld hfewer)
  | claim account =>
    obtain ⟨hnone, hkeyed, -⟩ := hpermitted
    refine ⟨⟨h.keyed, h.rows, ?_⟩, ⟨fun _ => KeySet.Keeps.refl _, fun _ ha => ha, ?_⟩⟩
    · rintro c ⟨⟩
      exact hkeyed
    · intro c hc
      rw [hnone] at hc
      cases hc

/-- A step passes the deposit over, refuses it or applies a permitted effect. -/
theorem step_cases (sha256 : List UInt8 → Bytes32) (fromStr : String → Option Json) (st : IdentityState)
    (types : TypeAddrs) (ctx : FoldCtx) (dep : LinkDeposit) :
    ((step sha256 fromStr st types ctx dep).1 = st ∧
      ∀ effect, st.classify sha256 fromStr types ctx dep ≠ .honored effect) ∨
    ∃ effect, st.classify sha256 fromStr types ctx dep = .honored effect ∧
      st.Permitted sha256 ctx dep effect ∧
      (step sha256 fromStr st types ctx dep).1 = st.apply sha256 effect := by
  rw [step]
  cases hv : st.classify sha256 fromStr types ctx dep with
  | notCredential => exact .inl ⟨rfl, fun effect => by simp⟩
  | inert reason => exact .inl ⟨rfl, fun effect => by simp⟩
  | honored effect => exact .inr ⟨effect, rfl, classify_permitted hv, rfl⟩

theorem Sound.step {st : IdentityState} (h : Sound sha256 st) (types : TypeAddrs) (ctx : FoldCtx)
    (dep : LinkDeposit) : Sound sha256 (step sha256 fromStr st types ctx dep).1 ∧
      Keeps st (step sha256 fromStr st types ctx dep).1 := by
  rcases step_cases sha256 fromStr st types ctx dep with ⟨heq, -⟩ | ⟨effect, -, hpermitted, heq⟩
  · rw [heq]
    exact ⟨h, Keeps.refl st⟩
  · rw [heq]
    exact h.apply hpermitted

/-- A row changes by a deposit homed in the first document of its account, or of the
account's genesis registry. -/
theorem row_changed {st : IdentityState} {types : TypeAddrs} {ctx : FoldCtx} {dep : LinkDeposit}
    {account : Address}
    (h : (step sha256 fromStr st types ctx dep).1.sets.get account ≠ st.sets.get account) :
    dep.home = doc1Of account ∨
      ∃ registry, st.genesisRegistry ctx.ownerOf account = some registry ∧ dep.home = doc1Of registry := by
  rcases step_cases sha256 fromStr st types ctx dep with ⟨heq, -⟩ | ⟨effect, -, hpermitted, heq⟩
  · exact absurd (by rw [heq]) h
  · rw [heq] at h
    have hother : ∀ a post, (st.postToSet a post).sets.get account ≠ st.sets.get account → account = a := by
      intro a post hne
      by_contra ha
      exact hne (OrdMap.get_insert_of_ne _ _ ha)
    cases effect with
    | genesis a keys =>
      obtain rfl := hother a _ h
      exact .inr hpermitted.2.2.2
    | enroll a added =>
      obtain rfl := hother a _ h
      exact .inl hpermitted.2.2.2
    | retire a removed =>
      obtain rfl := hother a _ h
      exact .inl hpermitted.2.2.2.2
    | claim a => exact absurd rfl h

/-- What is retired by a step was enrolled before it, under the flag it is retired under. -/
theorem retired_step {st : IdentityState} {types : TypeAddrs} {ctx : FoldCtx} {dep : LinkDeposit}
    {account : Address} {fp : Fingerprint} {anchor : Bool}
    (h : ((step sha256 fromStr st types ctx dep).1.keySet account).retired.get fp = some anchor) :
    (st.keySet account).retired.get fp = some anchor ∨
      ∃ e, (st.keySet account).enrolled.get fp = some e ∧ e.anchor = anchor := by
  rcases step_cases sha256 fromStr st types ctx dep with ⟨heq, -⟩ | ⟨effect, -, -, heq⟩
  · exact .inl (by rwa [heq] at h)
  · rw [heq] at h
    have hpost : ∀ a post, ((post (st.keySet a)).retired.get fp = some anchor →
        (st.keySet a).retired.get fp = some anchor ∨
          ∃ e, (st.keySet a).enrolled.get fp = some e ∧ e.anchor = anchor) →
        ((st.postToSet a post).keySet account).retired.get fp = some anchor →
        (st.keySet account).retired.get fp = some anchor ∨
          ∃ e, (st.keySet account).enrolled.get fp = some e ∧ e.anchor = anchor := by
      intro a post hrow hget
      rw [keySet_postToSet] at hget
      split at hget
      · next ha => exact ha ▸ hrow hget
      · exact .inl hget
    cases effect with
    | genesis a keys => exact hpost a _ (fun hget => .inl (by rwa [KeySet.retired_insertAll] at hget)) h
    | enroll a added => exact hpost a _ (fun hget => .inl (by rwa [KeySet.retired_insertAll] at hget)) h
    | retire a removed => exact hpost a _ KeySet.retired_retireAll h
    | claim a => exact .inl h

/-- A step that sets the claimant finds none before it, and its account keyed. -/
theorem claimant_step {st : IdentityState} {types : TypeAddrs} {ctx : FoldCtx} {dep : LinkDeposit}
    {c : Address} (hbefore : st.claimant ≠ some c)
    (h : (step sha256 fromStr st types ctx dep).1.claimant = some c) :
    st.claimant = none ∧ (st.keySet c).isEmpty = false ∧
      st.classify sha256 fromStr types ctx dep = .honored (.claim c) := by
  rcases step_cases sha256 fromStr st types ctx dep with ⟨heq, -⟩ | ⟨effect, hverdict, hpermitted, heq⟩
  · exact absurd (by rwa [heq] at h) hbefore
  · rw [heq] at h
    cases effect with
    | genesis a keys => exact absurd h hbefore
    | enroll a added => exact absurd h hbefore
    | retire a removed => exact absurd h hbefore
    | claim a =>
      obtain rfl : a = c := Option.some.inj h
      exact ⟨hpermitted.1, hpermitted.2.1, hverdict⟩

-- The first sub-account of an account of the bootstrap tier

/-- An account the bootstrap principal delegated: it is not the bootstrap principal's own. -/
def IsBootstrapTier (ownerOf : Address → Option Owner) (b : Address) : Prop :=
  delegator ownerOf b = some .bootstrap ∧ ∀ owner, ownerOf b = some owner → owner.isBootstrap = false

theorem parent_of_checkedInc_one {b s : Address} (h : checkedInc b 1 = .ok s) : parent s = some b := by
  have hcomps : s.comps = b.comps ++ [1] := by
    rw [Address.comps, checkedInc_eq_ok h]
    simp [inc, Address.comps]
  exact parent_eq_some_iff.2 ⟨1, .inl hcomps⟩

theorem genesisRegistry_firstChild (st : IdentityState) {ownerOf : Address → Option Owner} {b s : Address}
    (hb : IsBootstrapTier ownerOf b) (hs : checkedInc b 1 = .ok s) :
    st.genesisRegistry ownerOf s = none := by
  have hparent := parent_of_checkedInc_one hs
  have hfirst : isFirstChildOfBootstrap ownerOf s = true := by
    simp [isFirstChildOfBootstrap, hparent, hs, hb.1]
  rw [genesisRegistry]
  cases howner : ownerOf b with
  | none => simp [delegator, hparent, howner]
  | some owner => simp [delegator, hparent, howner, hb.2 owner howner, hfirst]

/-- A step keys no account that has no genesis registry. -/
theorem unkeyed_step {st : IdentityState} {types : TypeAddrs} {ctx : FoldCtx} {dep : LinkDeposit} {s : Address} (hregistry : st.genesisRegistry ctx.ownerOf s = none)
    (hunkeyed : st.sets.get s = none) : (step sha256 fromStr st types ctx dep).1.sets.get s = none := by
  have hempty : (st.keySet s).isEmpty = true := by
    rw [keySet, hunkeyed]
    rfl
  rcases step_cases sha256 fromStr st types ctx dep with ⟨heq, -⟩ | ⟨effect, -, hpermitted, heq⟩
  · rw [heq, hunkeyed]
  · rw [heq]
    have hother : ∀ a post, s ≠ a → (st.postToSet a post).sets.get s = none := by
      intro a post ha
      rw [postToSet, OrdMap.get_insert_of_ne _ _ ha, hunkeyed]
    cases effect with
    | genesis a keys =>
      apply hother
      rintro rfl
      obtain ⟨-, -, -, registry, hsome, -⟩ := hpermitted
      simp [hregistry] at hsome
    | enroll a added =>
      apply hother
      rintro rfl
      exact absurd hpermitted.1 (by simp [hempty])
    | retire a removed =>
      apply hother
      rintro rfl
      exact absurd hpermitted.1 (by simp [hempty])
    | claim a => exact hunkeyed

end IdentityState

-- Every run

section EveryRun

variable (sha256 : List UInt8 → Bytes32) (fromStr : String → Option Json) (types : TypeAddrs)

open IdentityState

theorem after_sound {st : IdentityState} (h : Sound sha256 st) (events : List FoldEvent) :
    Sound sha256 (Runs.after (foldStep sha256 fromStr types) st events) ∧
      Keeps st (Runs.after (foldStep sha256 fromStr types) st events) := by
  refine Runs.after_relates (R := fun a c => Sound sha256 a → Sound sha256 c ∧ Keeps a c) ?_ ?_ ?_ st h
  · intro a ha
    exact ⟨ha, Keeps.refl a⟩
  · intro a b c hab hbc ha
    obtain ⟨hb, hab⟩ := hab ha
    obtain ⟨hc, hbc⟩ := hbc hb
    exact ⟨hc, hbc.trans hc hab⟩
  · intro a ev _ ha
    exact ha.step types ev.ctx ev.dep

theorem run_sound (events : List FoldEvent) : Sound sha256 (run sha256 fromStr types events) :=
  (after_sound sha256 fromStr types Sound.genesis events).1

theorem run_append (before later : List FoldEvent) : run sha256 fromStr types (before ++ later) =
    Runs.after (foldStep sha256 fromStr types) (run sha256 fromStr types before) later :=
  Runs.after_append _ _ _

theorem run_keeps (before later : List FoldEvent) :
    Keeps (run sha256 fromStr types before) (run sha256 fromStr types (before ++ later)) := by
  rw [run_append]
  exact (after_sound sha256 fromStr types (run_sound sha256 fromStr types before) later).2

/-- What holds of the table a run reaches, of its next step, and of the table a later run
reaches from it. The contexts answer owners as they please, but where one set of owners
is named. -/
structure Lifecycle (before later : List FoldEvent) : Prop where
  /-- Each row is keyed, and each key stands under its fingerprint. -/
  keyed : ∀ account set, (run sha256 fromStr types before).sets.get account = some set →
    set.isEmpty = false
  named : ∀ account fp e, ((run sha256 fromStr types before).keySet account).enrolled.get fp = some e →
    fp = Fingerprint.of sha256 e.key
  /-- No fingerprint is both enrolled and retired, and a set with a retired one has an
  enrolled one. -/
  disjoint : ∀ account fp, ((run sha256 fromStr types before).keySet account).enrolled.get fp = none ∨
    ((run sha256 fromStr types before).keySet account).retired.get fp = none
  held : ∀ account fp anchor, ((run sha256 fromStr types before).keySet account).retired.get fp = some anchor →
    ((run sha256 fromStr types before).keySet account).isEmpty = false
  /-- A keyed account stays keyed, and no second genesis is honored. -/
  staysKeyed : ∀ account, ((run sha256 fromStr types before).keySet account).isEmpty = false →
    ((run sha256 fromStr types (before ++ later)).keySet account).isEmpty = false
  oneGenesis : ∀ account (ev : FoldEvent) keys (ev' : FoldEvent) keys',
    (run sha256 fromStr types before).classify sha256 fromStr types ev.ctx ev.dep = .honored (.genesis account keys) →
    (run sha256 fromStr types (before ++ ev :: later)).classify sha256 fromStr types ev'.ctx ev'.dep ≠
      .honored (.genesis account keys')
  /-- A retired fingerprint stays retired under its flag and is not enrolled again, and it
  was enrolled once, under that flag. -/
  retired : ∀ account fp anchor, ((run sha256 fromStr types before).keySet account).retired.get fp = some anchor →
    ((run sha256 fromStr types (before ++ later)).keySet account).retired.get fp = some anchor ∧
      ((run sha256 fromStr types (before ++ later)).keySet account).enrolled.get fp = none
  wasEnrolled : ∀ account fp anchor, ((run sha256 fromStr types before).keySet account).retired.get fp = some anchor →
    ∃ earlier rest e, before = earlier ++ rest ∧
      ((run sha256 fromStr types earlier).keySet account).enrolled.get fp = some e ∧ e.anchor = anchor
  /-- An enrolled fingerprint keeps its key and its flag, and is retired under the flag. -/
  enrolled : ∀ account fp e, ((run sha256 fromStr types before).keySet account).enrolled.get fp = some e →
    ((run sha256 fromStr types (before ++ later)).keySet account).enrolled.get fp = some e ∨
      ((run sha256 fromStr types (before ++ later)).keySet account).retired.get fp = some e.anchor
  /-- The claimant stays, and was keyed at the deposit that claimed. -/
  claimant : ∀ c, (run sha256 fromStr types before).claimant = some c →
    (run sha256 fromStr types (before ++ later)).claimant = some c
  keyedAtClaim : ∀ c, (run sha256 fromStr types before).claimant = some c →
    ∃ earlier ev rest, before = earlier ++ ev :: rest ∧ (run sha256 fromStr types earlier).claimant = none ∧
      ((run sha256 fromStr types earlier).keySet c).isEmpty = false ∧
      (run sha256 fromStr types earlier).classify sha256 fromStr types ev.ctx ev.dep = .honored (.claim c)
  /-- Under fixed owners, the first sub-account of an account of the bootstrap tier is
  never keyed. -/
  firstChild : ∀ ownerOf b s, (∀ ev ∈ before, ev.ctx.ownerOf = ownerOf) → IsBootstrapTier ownerOf b →
    checkedInc b 1 = .ok s → (run sha256 fromStr types before).sets.get s = none
  /-- A row changes by a deposit homed in the first document of its account or of the
  account's genesis registry. -/
  row : ∀ ev account, (run sha256 fromStr types (before ++ [ev])).sets.get account ≠
      (run sha256 fromStr types before).sets.get account →
    ev.dep.home = doc1Of account ∨ ∃ registry,
      (run sha256 fromStr types before).genesisRegistry ev.ctx.ownerOf account = some registry ∧
        ev.dep.home = doc1Of registry
  /-- A deposit that is not honored leaves the table as it is. -/
  inert : ∀ ev, (∀ effect, (run sha256 fromStr types before).classify sha256 fromStr types ev.ctx ev.dep ≠
      .honored effect) →
    run sha256 fromStr types (before ++ [ev]) = run sha256 fromStr types before

theorem run_wasEnrolled {before : List FoldEvent} {account : Address} {fp : Fingerprint} {anchor : Bool}
    (h : ((run sha256 fromStr types before).keySet account).retired.get fp = some anchor) :
    ∃ earlier rest e, before = earlier ++ rest ∧
      ((run sha256 fromStr types earlier).keySet account).enrolled.get fp = some e ∧ e.anchor = anchor := by
  have hstart : ¬ (genesis.keySet account).retired.get fp = some anchor := by
    simp [keySet, genesis, KeySet.empty]
  obtain ⟨earlier, ev, rest, rfl, hbefore, hturn⟩ :=
    Runs.exists_turn (P := fun st : IdentityState => (st.keySet account).retired.get fp = some anchor) hstart h
  obtain ⟨e, he, hanchor⟩ := (retired_step hturn).resolve_left hbefore
  exact ⟨earlier, ev :: rest, e, rfl, he, hanchor⟩

theorem run_keyedAtClaim {before : List FoldEvent} {c : Address}
    (h : (run sha256 fromStr types before).claimant = some c) :
    ∃ earlier ev rest, before = earlier ++ ev :: rest ∧ (run sha256 fromStr types earlier).claimant = none ∧
      ((run sha256 fromStr types earlier).keySet c).isEmpty = false ∧
      (run sha256 fromStr types earlier).classify sha256 fromStr types ev.ctx ev.dep = .honored (.claim c) := by
  have hstart : ¬ genesis.claimant = some c := by simp [genesis]
  obtain ⟨earlier, ev, rest, rfl, hbefore, hturn⟩ :=
    Runs.exists_turn (P := fun st : IdentityState => st.claimant = some c) hstart h
  obtain ⟨hnone, hkeyed, hverdict⟩ := claimant_step hbefore hturn
  exact ⟨earlier, ev, rest, rfl, hnone, hkeyed, hverdict⟩

/-- **The lifecycle of the key table.** It holds of every run and of every run that goes
on from it. -/
theorem keyTable_lifecycle (before later : List FoldEvent) :
    Lifecycle sha256 fromStr types before later where
  keyed := (run_sound sha256 fromStr types before).keyed
  named account := ((run_sound sha256 fromStr types before).rows account).named
  disjoint account := ((run_sound sha256 fromStr types before).rows account).disjoint
  held account fp anchor h := by
    cases hrow : (run sha256 fromStr types before).sets.get account with
    | none => simp [keySet, hrow, KeySet.empty] at h
    | some set =>
      rw [keySet, hrow]
      exact (run_sound sha256 fromStr types before).keyed account set hrow
  staysKeyed := (run_keeps sha256 fromStr types before later).keyed
  oneGenesis account ev keys ev' keys' h h' := by
    have hkeyed : ((run sha256 fromStr types (before ++ [ev])).keySet account).isEmpty = false := by
      obtain ⟨-, hne, -⟩ := classify_permitted h
      rw [run_append, Runs.after_cons, Runs.after_nil, foldStep, step, h]
      simp only [IdentityState.apply, keySet_postToSet, if_true]
      exact KeySet.isEmpty_insertAll (.inr hne)
    have hlater := (run_keeps sha256 fromStr types (before ++ [ev]) later).keyed account hkeyed
    rw [List.append_assoc, List.singleton_append] at hlater
    exact absurd (classify_permitted h').1 (by simp [hlater])
  retired account fp anchor h := by
    have hretired := ((run_keeps sha256 fromStr types before later).rows account).retired fp anchor h
    have hdisjoint := ((run_sound sha256 fromStr types (before ++ later)).rows account).disjoint fp
    exact ⟨hretired, hdisjoint.resolve_right (by simp [hretired])⟩
  wasEnrolled _ _ _ h := run_wasEnrolled sha256 fromStr types h
  enrolled account fp e h :=
    (((run_keeps sha256 fromStr types before later).rows account).enrolled fp e h).imp_right And.right
  claimant := (run_keeps sha256 fromStr types before later).claimant
  keyedAtClaim _ h := run_keyedAtClaim sha256 fromStr types h
  firstChild ownerOf b s howners hb hs := by
    have hinv : Sound sha256 (run sha256 fromStr types before) ∧
        (run sha256 fromStr types before).sets.get s = none := by
      refine Runs.after_invariant (P := fun st : IdentityState => Sound sha256 st ∧ st.sets.get s = none) ?_
        ⟨Sound.genesis, rfl⟩
      rintro st ev hev ⟨hsound, hnone⟩
      have hregistry : st.genesisRegistry ev.ctx.ownerOf s = none := by
        rw [howners ev hev]
        exact genesisRegistry_firstChild st hb hs
      exact ⟨(hsound.step types ev.ctx ev.dep).1, unkeyed_step hregistry hnone⟩
    exact hinv.2
  row ev account h := by
    rw [run_append, Runs.after_cons, Runs.after_nil] at h
    exact row_changed h
  inert ev h := by
    rw [run_append, Runs.after_cons, Runs.after_nil]
    rcases step_cases sha256 fromStr (run sha256 fromStr types before) types ev.ctx ev.dep with
      ⟨heq, -⟩ | ⟨effect, hverdict, -⟩
    · exact heq
    · exact absurd hverdict (h effect)

end EveryRun

end Identity
