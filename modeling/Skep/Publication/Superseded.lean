import Skep.Address.Displacement
import Skep.Library.Refusal
import Skep.Namespace.Ownership
import Skep.Publication.Plan

/-!
# Originals accepted once

An original is refused where a claim of the caller's own already has it, or what it revises,
superseded by a public copy that covers the words an entry names. Three kinds of entry are
misread: what they name of width one is left out, and what a copy holds in pieces it is not
seen to hold.

## Main results

- `Publication.checkOld_eq` — which originals are refused as superseded
- `Publication.plan_superseded_iff` — the plan's verdict is that of the words named, but for the
  entries misread
-/

namespace Publication

-- The caller's claims

/-- A document of a principal's own. -/
def IsOwn (m3 : M3State) (caller : Caller) (home : Address) : Prop :=
  ∃ p, caller = .principal p ∧ m3.isEffectiveOwner p home = true

section

variable (reg : TypeRegistry) (w : PlanWorld) (caller : Caller)

/-- An active claim of the caller's has one link superseded by another. -/
def OwnClaim (old new : Address) : Prop :=
  ∃ claim l home, w.links.state.IsOperative reg claim l ∧ documentOf claim = some home ∧
    IsOwn w.m3 caller home ∧ l.fromSlot.singleDenoted = some old.tumbler ∧
      l.toSlot.singleDenoted = some new.tumbler

/-- One of a link's spans has a span within. -/
def Holds (l : Link) (s : Span) : Prop :=
  ∃ e ∈ l.fromSlot.spans ++ l.toSlot.spans, e.start.len = s.start.len ∧ e.start ≤ s.start ∧ s.reach ≤ e.reach

/-- A claim names a public copy of the caller's. -/
def SuccessorOf (y : Address) (l : Link) : Prop :=
  ∃ new home, OwnClaim reg w caller y new ∧ documentOf new = some home ∧
    isOwnPublished w.m3 caller home = true ∧ w.links.state.readlink new = some l

/-- A copy of the original, or of what it is a successor of, stands. -/
def Successor (old : Address) (l : Link) : Prop :=
  ∃ y, (y = old ∨ OwnClaim reg w caller y old) ∧ SuccessorOf reg w caller y l

/-- What refuses an original: some spans are named, and a copy holds each of them. -/
def Covered (old : Address) (spans : List Span) : Prop :=
  spans ≠ [] ∧ ∃ l, Successor reg w caller old l ∧ ∀ s ∈ spans, Holds l s

end

section

variable {reg : TypeRegistry} {w : PlanWorld} {caller : Caller}

theorem coversAll_iff {l : Link} {spans : List Span} : coversAll l spans = true ↔ ∀ s ∈ spans, Holds l s := by
  simp only [coversAll, Holds, List.all_eq_true, List.any_eq_true, Bool.and_eq_true, beq_iff_eq,
    decide_eq_true_eq, and_assoc]

theorem denotedAddress_eq_some_iff {e : Endset} {a : Address} :
    denotedAddress e = some a ↔ e.singleDenoted = some a.tumbler := by
  rw [denotedAddress, Option.bind_eq_some_iff]
  constructor
  · rintro ⟨t, ht, hlift⟩
    rw [Outcome.toOption_eq_some_iff, validate_eq_ok_iff] at hlift
    rw [ht, hlift]
  · intro h
    exact ⟨_, h, Outcome.toOption_eq_some_iff.2 (validate_eq_ok_iff.2 rfl)⟩

/-- The span of the one address denoted is among the endset's. -/
theorem subtreeOf_mem_of_singleDenoted {e : Endset} {t : Tumbler} (h : e.singleDenoted = some t) :
    Span.subtreeOf t ∈ e.spans := by
  rw [Endset.singleDenoted] at h
  by_cases hall : e.isAddressDenoting = false
  · rw [if_pos hall] at h
    cases h
  · rw [if_neg hall] at h
    have hmem : t ∈ e.addrs := by
      cases haddrs : e.addrs with
      | nil =>
        rw [haddrs] at h
        cases h
      | cons first rest =>
        rw [haddrs] at h
        dsimp only at h
        by_cases hother : (rest.any fun x => x != first) = true
        · rw [if_pos hother] at h
          cases h
        · rw [if_neg hother] at h
          cases h
          exact List.mem_cons_self
    obtain ⟨s, hs, rfl⟩ := List.mem_map.1 hmem
    obtain ⟨hs, hunit⟩ := List.mem_filter.1 hs
    rwa [← beq_iff_eq.1 hunit]

theorem overlaps_self (s : Span) : overlaps s s = true :=
  overlaps_iff_lt.2 ⟨s.start_lt_reach, s.start_lt_reach⟩

/-- A stab of a class answers its tuples that the query hits. -/
theorem mem_stabTypedIn {st : LinkStore} (hs : st.Sound) {c : CoverageClass} {home : Address} {slot : ℕ}
    {query : List Span} {claim : Tuple} : claim ∈ stabTypedIn reg st c home slot query .active ↔
      ∃ l, st.state.readlink claim.addr = some l ∧ claim = ⟨claim.addr, l.fromSlot, l.toSlot⟩ ∧
        coverageClass l.typeSlot = .ok c ∧ documentOf claim.addr = some home ∧
          st.state.nullified reg claim.addr.tumbler = false ∧ slotOverlaps l slot ⟨query⟩ = true := by
  rw [stabTypedIn, List.mem_filterMap]
  constructor
  · rintro ⟨a, ha, hclaim⟩
    obtain ⟨l, hl, hdoc, hmet, hover⟩ := hs.mem_stabIn.1 (OrdSet.mem_elems.1 ha)
    rw [hl, Option.bind_some] at hclaim
    by_cases hc : coverageClass l.typeSlot = .ok c
    · rw [if_pos hc] at hclaim
      cases hclaim
      refine ⟨l, hl, rfl, hc, hdoc, ?_, hover⟩
      simpa [LinkStore.met, View.isActive] using hmet
    · rw [if_neg hc] at hclaim
      cases hclaim
  · rintro ⟨l, hl, hclaim, hc, hdoc, hactive, hover⟩
    refine ⟨claim.addr, OrdSet.mem_elems.2 (hs.mem_stabIn.2 ⟨l, hl, hdoc, ?_, hover⟩), ?_⟩
    · simp [LinkStore.met, hactive]
    · rw [hl, Option.bind_some, if_pos hc, ← hclaim]

variable (caller) in
theorem ownHomes_spec {ε : Type} (hs : w.links.Sound) (hseated : w.m3.Seated) :
    ∃ homes, (ownHomes w caller : Outcome ε (List Address)) = .ok homes ∧
      ∀ home, home ∈ homes ↔ w.links.IsHome home ∧ IsOwn w.m3 caller home := by
  cases caller with
  | system =>
    refine ⟨[], rfl, fun home => iff_of_false List.not_mem_nil ?_⟩
    rintro ⟨-, p, hp, -⟩
    cases hp
  | principal p =>
    cases hprefix : w.m3.principalPrefix p with
    | none =>
      refine ⟨[], by rw [ownHomes, hprefix]; rfl, fun home => iff_of_false List.not_mem_nil ?_⟩
      rintro ⟨-, p', hp', howner⟩
      cases hp'
      rw [M3State.isEffectiveOwner, beq_iff_eq, M3State.effectiveOwner_eq_some_iff] at howner
      obtain ⟨seat, hseat, -⟩ := howner
      exact M3State.principalPrefix_eq_none_iff.1 hprefix seat hseat
    | some account =>
      obtain ⟨homes, hhomes, hiff⟩ := hs.homesUnder_spec (ε := ε) (enc [account])
      refine ⟨homes.elems.filter fun home => (Caller.principal p).isOwner w.m3 home, ?_, fun home => ?_⟩
      · rw [ownHomes, hprefix]
        dsimp only
        rw [hhomes]
        rfl
      · rw [List.mem_filter, OrdSet.mem_elems, hiff]
        constructor
        · rintro ⟨⟨hhome, -⟩, howner⟩
          exact ⟨hhome, p, rfl, howner⟩
        · rintro ⟨hhome, p', hp', howner⟩
          cases hp'
          refine ⟨⟨hhome, Span.subtreeOf account.tumbler, List.mem_singleton_self _, ?_⟩, howner⟩
          -- the one seat of the caller's principal is the account
          rw [M3State.isEffectiveOwner, beq_iff_eq, M3State.effectiveOwner_eq_some_iff] at howner
          obtain ⟨seat, hseat, habove, -⟩ := howner
          have haccount : w.m3.principals.get account = some p := by
            rw [M3State.principalPrefix, Option.map_eq_some_iff] at hprefix
            obtain ⟨⟨a, id⟩, hfind, rfl⟩ := hprefix
            have hid := List.find?_some hfind
            rw [← beq_iff_eq.1 hid]
            exact OrdMap.get_eq_some_iff.2 (List.mem_of_find?_eq_some hfind)
          rw [hseated.ids _ _ _ haccount hseat]
          exact Span.contains_subtreeOf_iff.2 habove.2.2

variable (hs : w.links.Sound) {homes : List Address}
  (hhomes : ∀ home, home ∈ homes ↔ w.links.IsHome home ∧ IsOwn w.m3 caller home)

include hs hhomes

/-- The caller's claims as the stabs of the caller's homes answer them. -/
theorem ownClaim_iff {slot : ℕ} {y old new : Address}
    (hslot : slot = FROM ∧ y = old ∨ slot = TO ∧ y = new) : OwnClaim reg w caller old new ↔
      ∃ home ∈ homes, ∃ claim ∈ stabTypedIn reg w.links (reg.shippedClass .supersedes) home slot
        [Span.subtreeOf y.tumbler] .active, claim.fromSlot.singleDenoted = some old.tumbler ∧
          claim.toSlot.singleDenoted = some new.tumbler := by
  constructor
  · rintro ⟨a, l, home, ⟨hl, hc, hactive⟩, hdoc, hown, hfrom, hto⟩
    refine ⟨home, (hhomes home).2 ⟨⟨a, l, hl, hdoc⟩, hown⟩, ⟨a, l.fromSlot, l.toSlot⟩,
      (mem_stabTypedIn hs).2 ⟨l, hl, rfl, hc, hdoc, hactive, ?_⟩, hfrom, hto⟩
    rw [slotOverlaps_iff]
    rcases hslot with ⟨rfl, rfl⟩ | ⟨rfl, rfl⟩
    · exact ⟨l.fromSlot, rfl, _, List.mem_singleton_self _, _, subtreeOf_mem_of_singleDenoted hfrom,
        overlaps_self _⟩
    · exact ⟨l.toSlot, rfl, _, List.mem_singleton_self _, _, subtreeOf_mem_of_singleDenoted hto,
        overlaps_self _⟩
  · rintro ⟨home, hhome, claim, hclaim, hfrom, hto⟩
    obtain ⟨l, hl, heq, hc, hdoc, hactive, -⟩ := (mem_stabTypedIn hs).1 hclaim
    rw [heq] at hfrom hto
    exact ⟨claim.addr, l, home, ⟨hl, hc, hactive⟩, hdoc, ((hhomes home).1 hhome).2, hfrom, hto⟩

theorem supersededByOwnClaim_iff {y : Address} {spans : List Span} :
    supersededByOwnClaim reg w caller homes y spans = true ↔
      spans ≠ [] ∧ ∃ l, SuccessorOf reg w caller y l ∧ ∀ s ∈ spans, Holds l s := by
  rw [supersededByOwnClaim]
  by_cases hempty : spans = []
  · rw [if_pos hempty]
    simp [hempty]
  · rw [if_neg hempty]
    simp only [List.any_eq_true, Bool.and_eq_true, beq_iff_eq, successorCovers, Option.any_eq_true,
      denotedAddress_eq_some_iff, coversAll_iff, ne_eq, hempty, not_false_eq_true, true_and]
    constructor
    · rintro ⟨home, hhome, claim, hclaim, hfrom, new, hto, newHome, hdoc, hown, l, hl, hcovers⟩
      have hown' := (ownClaim_iff hs hhomes (.inl ⟨rfl, rfl⟩)).2 ⟨home, hhome, claim, hclaim, hfrom, hto⟩
      exact ⟨l, ⟨new, newHome, hown', hdoc, hown, hl⟩, hcovers⟩
    · rintro ⟨l, ⟨new, newHome, hclaim, hdoc, hown, hl⟩, hcovers⟩
      obtain ⟨home, hhome, claim, hclaim, hfrom, hto⟩ := (ownClaim_iff hs hhomes (.inl ⟨rfl, rfl⟩)).1 hclaim
      exact ⟨home, hhome, claim, hclaim, hfrom, new, hto, newHome, hdoc, hown, l, hl, hcovers⟩

theorem mem_originalsOf {original y : Address} :
    original ∈ originalsOf reg w homes y ↔ OwnClaim reg w caller original y := by
  rw [ownClaim_iff hs hhomes (.inr ⟨rfl, rfl⟩), originalsOf]
  simp only [List.mem_flatMap, List.mem_filterMap, List.mem_filter, beq_iff_eq, denotedAddress_eq_some_iff]
  constructor
  · rintro ⟨home, hhome, claim, ⟨hclaim, hto⟩, hfrom⟩
    exact ⟨home, hhome, claim, hclaim, hfrom, hto⟩
  · rintro ⟨home, hhome, claim, hclaim, hfrom, hto⟩
    exact ⟨home, hhome, claim, ⟨hclaim, hto⟩, hfrom⟩

end

-- The original

section

variable (reg : TypeRegistry) (w : PlanWorld) (caller : Caller)

/-- An original resident, the caller's own, private, active, and standing on the words by its content. -/
def Passes (old : Address) (image : List Run) (home : Address) : Prop :=
  ∃ l, w.links.state.readlink old = some l ∧ documentOf old = some home ∧ caller.isOwner w.m3 old = true ∧
    w.m3.published home = false ∧ w.links.state.isActive reg old = true ∧
      reachesByWholeWorkEndAlone l image = false

variable {reg w caller} {old home : Address} {image : List Run}

/-- An original that passes the other checks is refused where a copy holds the spans, and nowhere else. -/
theorem checkOld_eq (spans : List Span) (hs : w.links.Sound) (hseated : w.m3.Seated) (hpass : Passes reg w caller old image home) :
    (Covered reg w caller old spans → checkOld reg w caller old image spans = .err .superseded) ∧
      (¬ Covered reg w caller old spans → checkOld reg w caller old image spans = .ok home) := by
  obtain ⟨l, hl, hdoc, howner, hprivate, hactive, hcontent⟩ := hpass
  obtain ⟨homes, hhomes, hiff⟩ := ownHomes_spec caller (ε := OldCause) hs hseated
  -- the two last checks ask of the original, and of what it is a successor of
  have hchecks : checkOld reg w caller old image spans = (do
      Outcome.refuseIf (supersededByOwnClaim reg w caller homes old spans = true) .superseded
      Outcome.refuseIf ((originalsOf reg w homes old).any fun original =>
        supersededByOwnClaim reg w caller homes original spans) .superseded
      return home) := by
    simp only [checkOld, hl, hdoc, howner, hprivate, hactive, hcontent, hhomes, Outcome.okOr, Outcome.refuseIf,
      Outcome.ok_bind, Bool.false_eq_true, Bool.true_eq_false, if_false]
  have hfirst : supersededByOwnClaim reg w caller homes old spans = true ↔
      spans ≠ [] ∧ ∃ l, SuccessorOf reg w caller old l ∧ ∀ s ∈ spans, Holds l s := supersededByOwnClaim_iff hs hiff
  have hsecond : ((originalsOf reg w homes old).any fun original =>
      supersededByOwnClaim reg w caller homes original spans) = true ↔
        ∃ y, OwnClaim reg w caller y old ∧ spans ≠ [] ∧ ∃ l, SuccessorOf reg w caller y l ∧ ∀ s ∈ spans, Holds l s := by
    simp only [List.any_eq_true, mem_originalsOf hs hiff, supersededByOwnClaim_iff hs hiff]
  rw [hchecks]
  constructor
  · rintro ⟨hne, new, ⟨y, hy, hnew⟩, hholds⟩
    by_cases hown : supersededByOwnClaim reg w caller homes old spans = true
    · rw [Outcome.refuseIf, if_pos hown]
      rfl
    · rw [Outcome.refuseIf, if_neg hown, Outcome.ok_bind, Outcome.refuseIf, if_pos]
      · rfl
      · rw [hsecond]
        cases hy with
        | inl hy =>
          subst hy
          exact absurd (hfirst.2 ⟨hne, new, hnew, hholds⟩) hown
        | inr hy => exact ⟨y, hy, hne, new, hnew, hholds⟩
  · intro hnot
    have hown : ¬ supersededByOwnClaim reg w caller homes old spans = true := by
      intro h
      obtain ⟨hne, l, hl, hholds⟩ := hfirst.1 h
      exact hnot ⟨hne, l, ⟨old, .inl rfl, hl⟩, hholds⟩
    have horiginal : ¬ ((originalsOf reg w homes old).any fun original =>
        supersededByOwnClaim reg w caller homes original spans) = true := by
      intro h
      obtain ⟨y, hy, hne, l, hl, hholds⟩ := hsecond.1 h
      exact hnot ⟨hne, l, ⟨y, .inr hy, hl⟩, hholds⟩
    rw [Outcome.refuseIf, if_neg hown, Outcome.ok_bind, Outcome.refuseIf, if_neg horiginal]
    rfl

end

-- The words named

/-- The positions within a span, at its own depth. -/
def spanWords (s : Span) : Set Tumbler := {t | t.len = s.start.len ∧ s.start ≤ t ∧ t < s.reach}

/-- The positions within the spans of a link's ends. -/
def linkWords (l : Link) : Set Tumbler := {t | ∃ e ∈ l.fromSlot.spans ++ l.toSlot.spans, t ∈ spanWords e}

theorem start_mem_spanWords (s : Span) : s.start ∈ spanWords s := ⟨rfl, le_rfl, s.start_lt_reach⟩

theorem Holds.subset {l : Link} {s : Span} (h : Holds l s) : spanWords s ⊆ linkWords l := by
  obtain ⟨e, he, hlen, hstart, hreach⟩ := h
  intro t ht
  exact ⟨e, he, ht.1.trans hlen.symm, hstart.trans ht.2.1, ht.2.2.trans_le hreach⟩

/-- Some words are named, and one copy covers all of them. -/
def Superseded (reg : TypeRegistry) (w : PlanWorld) (caller : Caller) (old : Address) (words : Set Tumbler) : Prop :=
  words.Nonempty ∧ ∃ l, Successor reg w caller old l ∧ words ⊆ linkWords l

/-- An end names a content span of published identity, as an I-span of width one or otherwise. -/
inductive EndNames (image : List Run) (shot : Shot) : EndArg → Bool → Span → Prop
  | spans {spans single s} : s ∈ spans → isOfDraft shot s = false → isUnitDepth s = single →
      EndNames image shot (.spans spans) single s
  | member {spans stated s} : (memberEnd image spans : Outcome PlanFault (Option MemberEnd)) = .ok (some stated) →
      s ∈ stated.stored.spans → isOfDraft shot s = false → EndNames image shot (.member spans) false s

theorem endSpans_of_planned {arg : EndArg} {image : List Run} {index slot : ℕ} {planned : PlannedEnd}
    (h : plannedEnd arg image index slot = .ok planned) (shot : Shot) :
    ∃ spans, (endSpans image shot planned : Outcome PlanFault (List Span)) = .ok spans ∧
      ∀ s, s ∈ spans ↔ EndNames image shot arg false s := by
  cases arg with
  | addrs named =>
    simp only [plannedEnd, Outcome.bind_eq_ok_iff] at h
    obtain ⟨-, -, h⟩ := h
    refine ⟨[], ?_, fun s => iff_of_false List.not_mem_nil nofun⟩
    by_cases htags : (named.all fun n => n.address?.isSome) = true
    · rw [if_pos htags] at h
      cases h
      rw [endSpans, Outcome.pure_eq, Outcome.ok.injEq, List.filter_eq_nil_iff]
      intro s hmem
      obtain ⟨a, -, rfl⟩ := List.mem_map.1 hmem
      simp
    · rw [if_neg htags] at h
      cases h
      rfl
  | spans spans =>
    simp only [plannedEnd, storedSpans, Outcome.bind_eq_ok_iff, Outcome.pure_eq, Outcome.ok.injEq] at h
    obtain ⟨e, ⟨-, -, -, -, rfl⟩, rfl⟩ := h
    refine ⟨_, rfl, fun s => ?_⟩
    simp only [List.mem_filter, Bool.and_eq_true, Bool.not_eq_true']
    constructor
    · rintro ⟨hmem, hsingle, hdraft⟩
      exact .spans hmem hdraft hsingle
    · intro hnames
      cases hnames with
      | spans hmem hdraft hsingle => exact ⟨hmem, hsingle, hdraft⟩
  | member spans =>
    simp only [plannedEnd, Outcome.bind_eq_ok_iff, Outcome.okOr_eq_ok_iff, Outcome.pure_eq, Outcome.ok.injEq] at h
    obtain ⟨-, -, -, hstated, stated, rfl, -, -, rfl⟩ := h
    refine ⟨stated.stored.spans.filter fun s => !isOfDraft shot s, by rw [endSpans, hstated]; rfl, fun s => ?_⟩
    simp only [List.mem_filter, Bool.not_eq_true']
    constructor
    · rintro ⟨hmem, hdraft⟩
      exact .member hstated hmem hdraft
    · intro hnames
      cases hnames with
      | member hstated' hmem hdraft =>
        rw [hstated] at hstated'
        cases hstated'
        exact ⟨hmem, hdraft⟩

-- The plan's refusals

/-- A refusal of no original, or of one at the index or later. -/
def NotBefore (index : ℕ) (e : PlanFault) : Prop := ∀ i cause, e = .old i cause → index ≤ i

/-- A refusal of no original. -/
def NotOld (e : PlanFault) : Prop := ∀ i cause, e ≠ .old i cause

section

variable {reg : TypeRegistry} {w : PlanWorld} {caller : Caller} {shot : Shot}

theorem plannedEnd_notOld {arg : EndArg} {image : List Run} {index slot : ℕ} :
    (plannedEnd arg image index slot).ErrsIn NotOld := by
  cases arg with
  | addrs named =>
    refine (Outcome.errsIn_refuseIf fun i cause => nofun).bind fun _ _ => ?_
    by_cases htags : (named.all fun n => n.address?.isSome) = true
    · rw [if_pos htags]
      exact Outcome.errsIn_ok _
    · rw [if_neg htags]
      exact Outcome.errsIn_ok _
  | spans spans =>
    refine Outcome.ErrsIn.bind ?_ fun _ _ => Outcome.errsIn_ok _
    refine (Outcome.errsIn_refuseIf fun i cause => nofun).bind fun _ _ => ?_
    exact (Outcome.errsIn_refuseIf fun i cause => nofun).bind fun _ _ => Outcome.errsIn_ok _
  | member spans =>
    refine (Outcome.errsIn_refuseIf fun i cause => nofun).bind fun _ _ => ?_
    refine (Outcome.errsIn_of_ok (memberEnd_ne_fault image spans)).bind fun _ _ => ?_
    refine (Outcome.errsIn_okOr fun i cause => nofun).bind fun _ _ => ?_
    exact (Outcome.errsIn_refuseIf fun i cause => nofun).bind fun _ _ => Outcome.errsIn_ok _

theorem plannedType_notOld {ty : EndArg} {index : ℕ} : (plannedType reg ty index).ErrsIn NotOld := by
  refine Outcome.ErrsIn.bind ?_ fun _ _ => ?_
  · cases ty with
    | addrs named =>
      refine (Outcome.errsIn_okOr fun i cause => nofun).bind fun _ _ => ?_
      exact (Outcome.errsIn_refuseIf fun i cause => nofun).bind fun _ _ => Outcome.errsIn_ok _
    | spans spans =>
      refine (Outcome.errsIn_refuseIf fun i cause => nofun).bind fun _ _ => ?_
      exact (Outcome.errsIn_refuseIf fun i cause => nofun).bind fun _ _ => Outcome.errsIn_ok _
    | member spans => exact Outcome.errsIn_err fun i cause => nofun
  · refine (Outcome.errsIn_refuseIf fun i cause => nofun).bind fun _ _ => ?_
    refine Outcome.errsIn_expect.bind fun _ _ => ?_
    refine (Outcome.errsIn_refuseIf fun i cause => nofun).bind fun _ _ => ?_
    refine (Outcome.errsIn_refuseIf fun i cause => nofun).bind fun _ _ => ?_
    refine (Outcome.errsIn_refuseIf fun i cause => nofun).bind fun _ _ => ?_
    exact (Outcome.errsIn_refuseIf fun i cause => nofun).bind fun _ _ => Outcome.errsIn_ok _

theorem plannedSlots_notOld {image : List Run} {index : ℕ} {entry : LinkEntry} :
    (plannedSlots reg w caller image index entry).ErrsIn NotOld := by
  refine Outcome.ErrsIn.bind ?_ fun _ _ => ?_
  · cases entry.home with
    | member => exact Outcome.errsIn_ok _
    | edition => exact Outcome.errsIn_err fun i cause => nofun
    | address home =>
      refine (Outcome.errsIn_refuseIf fun i cause => nofun).bind fun _ _ => ?_
      refine (Outcome.errsIn_refuseIf fun i cause => nofun).bind fun _ _ => ?_
      exact Outcome.errsIn_refuseIf fun i cause => nofun
  · refine plannedType_notOld.bind fun _ _ => ?_
    refine plannedEnd_notOld.bind fun _ _ => ?_
    refine plannedEnd_notOld.bind fun _ _ => ?_
    exact (Outcome.errsIn_refuseIf fun i cause => nofun).bind fun _ _ => Outcome.errsIn_ok _

theorem endSpans_ok {ε : Type} (image : List Run) (shot : Shot) (planned : PlannedEnd) :
    ∃ spans, (endSpans image shot planned : Outcome ε (List Span)) = .ok spans := by
  cases planned with
  | stored e => exact ⟨_, rfl⟩
  | named named => exact ⟨_, rfl⟩
  | member spans =>
    obtain ⟨stated, hstated⟩ := memberEnd_ne_fault (ε := ε) image spans
    rw [endSpans, hstated]
    cases stated with
    | none => exact ⟨_, rfl⟩
    | some stated => exact ⟨_, rfl⟩

/-- An entry refuses the original at its own index, if any. -/
theorem planLink_notBefore {acc : LinksPlanned} {index : ℕ} {entry : LinkEntry} :
    (planLink reg w caller shot acc index entry).ErrsIn (NotBefore index) := by
  have hold : ∀ e, NotOld e → NotBefore index e := fun e he i cause heq => absurd heq (he i cause)
  refine Outcome.ErrsIn.bind (fun e he => hold e (plannedSlots_notOld e he)) fun slots _ => ?_
  refine Outcome.ErrsIn.bind ?_ fun _ _ => Outcome.errsIn_ok _
  cases entry.old with
  | none => exact Outcome.errsIn_ok _
  | some old =>
    refine (Outcome.errsIn_refuseIf fun i cause => nofun).bind fun _ _ => ?_
    refine Outcome.ErrsIn.bind ?_ fun _ _ => ?_
    · obtain ⟨spans, hspans⟩ := endSpans_ok (ε := PlanFault) (requestImage shot) shot slots.2.1
      obtain ⟨spans', hspans'⟩ := endSpans_ok (ε := PlanFault) (requestImage shot) shot slots.2.2
      exact Outcome.errsIn_of_ok ⟨spans ++ spans', by rw [publishedSpans, hspans, hspans']; rfl⟩
    · refine Outcome.ErrsIn.bind ?_ fun _ _ => Outcome.errsIn_ok _
      refine Outcome.errsIn_mapErr fun cause i cause' heq => ?_
      cases heq
      exact le_rfl

theorem planLinks_notBefore {links : List LinkEntry} {acc : LinksPlanned} {index : ℕ} :
    (planLinks reg w caller shot links index acc).ErrsIn (NotBefore index) := by
  induction links generalizing acc index with
  | nil => exact Outcome.errsIn_ok _
  | cons entry links ih =>
    refine planLink_notBefore.bind fun acc' _ e he i cause heq => ?_
    exact (Nat.le_succ index).trans (ih e he i cause heq)

theorem planLinks_append {before links : List LinkEntry} {acc acc' : LinksPlanned} {index : ℕ}
    (h : planLinks reg w caller shot before index acc = .ok acc') :
    planLinks reg w caller shot (before ++ links) index acc =
      planLinks reg w caller shot links (index + before.length) acc' := by
  induction before generalizing acc index with
  | nil =>
    cases h
    rfl
  | cons entry before ih =>
    rw [planLinks, Outcome.bind_eq_ok_iff] at h
    obtain ⟨next, hnext, h⟩ := h
    rw [List.cons_append, planLinks, hnext, Outcome.ok_bind, ih h, List.length_cons]
    congr 1
    omega

theorem planRetracts_notOld {retract : List Address} {index : ℕ} {homes : PlannedHomes} :
    (planRetracts reg w caller retract index homes).ErrsIn NotOld := by
  induction retract generalizing index homes with
  | nil => exact Outcome.errsIn_ok _
  | cons target retract ih =>
    refine (Outcome.errsIn_mapErr fun e i cause => nofun).bind fun home _ => ?_
    cases home with
    | none => exact ih
    | some home => exact ih

theorem planReadWith_notOld (hs : w.links.Sound) (hseated : w.m3.Seated) {edition : Option Address}
    {readWith : List Address} {index : ℕ} {homes : PlannedHomes} :
    (planReadWith reg w caller edition readWith index homes).ErrsIn NotOld := by
  induction readWith generalizing index homes with
  | nil => exact Outcome.errsIn_ok _
  | cons set readWith ih =>
    refine (Outcome.errsIn_mapErr fun e i cause => nofun).bind fun _ _ => ?_
    refine Outcome.ErrsIn.bind ?_ fun stands _ => ?_
    · cases edition with
      | none => exact Outcome.errsIn_ok _
      | some edition =>
        obtain ⟨own, hown, -⟩ := ownHomes_spec caller (ε := PlanFault) hs hseated
        refine (Outcome.errsIn_of_ok ⟨own, hown⟩).bind fun _ _ => ?_
        refine Outcome.errsIn_of_ok (Outcome.exists_anyM_ok fun home _ => ?_)
        obtain ⟨hits, hhits, -⟩ := hs.matchLinksIn_spec (ε := PlanFault) reg home FROM
          [Span.subtreeOf edition.tumbler] [(TO, enc [set]), (TYPE, ⟨[Span.subtreeOf readWithType.tumbler]⟩)] .active
        exact ⟨_, by rw [readWithIn, hhits]; rfl⟩
    · cases stands with
      | false => exact ih
      | true => exact ih

theorem planSupersede_notOld {edition base : Option Address} {own supersede seen : List Address} {index : ℕ}
    {homes : PlannedHomes} : (planSupersede reg w edition base own supersede index seen homes).ErrsIn NotOld := by
  induction supersede generalizing index seen homes with
  | nil => exact Outcome.errsIn_ok _
  | cons daughter supersede ih =>
    refine (Outcome.errsIn_okOr fun i cause => nofun).bind fun _ _ => ?_
    refine (Outcome.errsIn_refuseIf fun i cause => nofun).bind fun _ _ => ?_
    refine (Outcome.errsIn_refuseIf fun i cause => nofun).bind fun _ _ => ?_
    refine (Outcome.errsIn_refuseIf fun i cause => nofun).bind fun _ _ => ?_
    by_cases hclaimed : claimedByOwn reg w.links own daughter = true
    · rw [if_pos hclaimed]
      exact ih
    · rw [if_neg hclaimed]
      exact ih

theorem planRest_notOld (hs : w.links.Sound) (hseated : w.m3.Seated) {target : PublishTarget}
    {deposits : PublishDeposits} {homes : PlannedHomes} :
    (planRest reg w caller target shot deposits homes).ErrsIn NotOld := by
  refine planRetracts_notOld.bind fun _ _ => ?_
  refine (planReadWith_notOld hs hseated).bind fun _ _ => ?_
  by_cases hempty : deposits.supersede = []
  · rw [if_pos hempty]
    exact Outcome.errsIn_ok _
  · rw [if_neg hempty]
    refine (Outcome.errsIn_refuseSome fun head i cause => nofun).bind fun _ _ => ?_
    obtain ⟨own, hown, -⟩ := ownHomes_spec caller (ε := PlanFault) hs hseated
    refine (Outcome.errsIn_of_ok ⟨own, hown⟩).bind fun _ _ => ?_
    exact planSupersede_notOld.bind fun _ _ => Outcome.errsIn_ok _

end

-- The entry considered

/-- An entry that the plan comes to, its original passing every check but the last. -/
structure Considered (reg : TypeRegistry) (w : PlanWorld) (caller : Caller) (old : Address) where
  target : PublishTarget
  shot : Shot
  deposits : PublishDeposits
  before : List LinkEntry
  entry : LinkEntry
  after : List LinkEntry
  homes : PlannedHomes
  acc : LinksPlanned
  slots : Endset × PlannedEnd × PlannedEnd
  home : Address
  links_eq : deposits.links = before ++ entry :: after
  old_eq : entry.old = some old
  claim_ok : planEditionClaim target shot deposits.claim = .ok homes
  before_ok : planLinks reg w caller shot before 0 ⟨homes, []⟩ = .ok acc
  fresh : old ∉ acc.originals
  slots_ok : plannedSlots reg w caller (requestImage shot) before.length entry = .ok slots
  passes : Passes reg w caller old (requestImage shot) home

namespace Considered

variable {reg : TypeRegistry} {w : PlanWorld} {caller : Caller} {old : Address}

/-- The plan refuses the entry: its original is superseded. -/
def Refused (c : Considered reg w caller old) : Prop :=
  planDeposits reg w caller c.target c.shot c.deposits = .err (.old c.before.length .superseded)

/-- A span that the entry's ends name, as an I-span of width one or otherwise. -/
def Names (c : Considered reg w caller old) (single : Bool) (s : Span) : Prop :=
  EndNames (requestImage c.shot) c.shot c.entry.fromEnd single s ∨
    EndNames (requestImage c.shot) c.shot c.entry.toEnd single s

/-- The published positions that the entry's ends name. -/
def words (c : Considered reg w caller old) : Set Tumbler :=
  {t | ∃ single s, c.Names single s ∧ t ∈ spanWords s}

theorem spanWords_subset {c : Considered reg w caller old} {single : Bool} {s : Span} (h : c.Names single s) :
    spanWords s ⊆ c.words := fun _ ht => ⟨single, s, h, ht⟩

theorem words_eq {c : Considered reg w caller old} {single : Bool} {s : Span} (h : c.Names single s)
    (hall : ∀ single' x, c.Names single' x → x = s) : c.words = spanWords s := by
  apply Set.Subset.antisymm
  · rintro t ⟨single', x, hx, ht⟩
    rwa [← hall single' x hx]
  · exact spanWords_subset h

/-- The entries misread. -/
inductive Misread (c : Considered reg w caller old) : Prop
  /-- A copy covers what is named, all of it I-spans of width one. -/
  | dropped {s l} : c.Names true s → (∀ x, ¬ c.Names false x) → Successor reg w caller old l →
      c.words ⊆ linkWords l → Misread c
  /-- A copy covers what is named, and none holds every other span in one of its own. -/
  | split {s l} : c.Names false s → Successor reg w caller old l → c.words ⊆ linkWords l →
      (∀ l', Successor reg w caller old l' → ∃ x, c.Names false x ∧ ¬ Holds l' x) → Misread c
  /-- A copy holds every other span, and none covers the I-spans of width one besides. -/
  | passedOver {s l} : c.Names false s → Successor reg w caller old l → (∀ x, c.Names false x → Holds l x) →
      (∀ l', Successor reg w caller old l' → ¬ c.words ⊆ linkWords l') → Misread c

theorem exists_publishedSpans (c : Considered reg w caller old) :
    ∃ spans, (publishedSpans c.slots.2.1 c.slots.2.2 (requestImage c.shot) c.shot :
      Outcome PlanFault (List Span)) = .ok spans ∧ ∀ s, s ∈ spans ↔ c.Names false s := by
  have hslots := c.slots_ok
  simp only [plannedSlots, Outcome.bind_eq_ok_iff, Outcome.pure_eq, Outcome.ok.injEq] at hslots
  obtain ⟨-, -, ty, -, fromEnd, hfrom, toEnd, hto, -, -, heq⟩ := hslots
  obtain ⟨spans, hspans, hnames⟩ := endSpans_of_planned hfrom c.shot
  obtain ⟨spans', hspans', hnames'⟩ := endSpans_of_planned hto c.shot
  refine ⟨spans ++ spans', by rw [← heq, publishedSpans, hspans, hspans']; rfl, fun s => ?_⟩
  rw [List.mem_append, hnames, hnames']
  rfl

variable (hs : w.links.Sound) (hseated : w.m3.Seated)

include hs hseated

/-- The plan refuses the entry where a copy holds the spans read. -/
theorem refused_iff (c : Considered reg w caller old) : c.Refused ↔
    (∃ s, c.Names false s) ∧ ∃ l, Successor reg w caller old l ∧ ∀ s, c.Names false s → Holds l s := by
  obtain ⟨spans, hspans, hnames⟩ := c.exists_publishedSpans
  have hcovered : Covered reg w caller old spans ↔
      (∃ s, c.Names false s) ∧ ∃ l, Successor reg w caller old l ∧ ∀ s, c.Names false s → Holds l s := by
    simp only [Covered, ne_eq, List.eq_nil_iff_forall_not_mem, not_forall, not_not, hnames]
  rw [← hcovered]
  have hplan : planDeposits reg w caller c.target c.shot c.deposits = (do
      let claim ← (do
        let home ← (checkOld reg w caller old (requestImage c.shot) spans).mapErr (.old c.before.length)
        return some ⟨old, home⟩)
      let links ← planLinks reg w caller c.shot c.after (c.before.length + 1)
        ⟨addDeposit c.acc.homes c.entry.home (.copy c.before.length c.slots.1 c.slots.2.1 c.slots.2.2 claim),
          c.acc.originals ++ c.entry.old.toList⟩
      planRest reg w caller c.target c.shot c.deposits links.homes) := by
    have hclaim : planClaim reg w caller c.shot c.acc.originals c.before.length c.slots.2.1 c.slots.2.2 (some old) = (do
        let home ← (checkOld reg w caller old (requestImage c.shot) spans).mapErr (.old c.before.length)
        return some ⟨old, home⟩) := by
      rw [planClaim, Outcome.refuseIf, if_neg c.fresh, Outcome.ok_bind, hspans, Outcome.ok_bind]
    rw [planDeposits, c.claim_ok, Outcome.ok_bind, c.links_eq, planLinks_append c.before_ok, Nat.zero_add, planLinks,
      planLink, c.slots_ok, Outcome.ok_bind, c.old_eq]
    dsimp only
    rw [hclaim]
    cases checkOld reg w caller old (requestImage c.shot) spans <;> rfl
  obtain ⟨hrefused, hpassed⟩ := checkOld_eq spans hs hseated c.passes
  rw [Refused, hplan]
  constructor
  · intro h
    by_contra hnot
    rw [hpassed hnot] at h
    -- what follows the entry refuses a later original, or none
    have hlater : (do
        let links ← planLinks reg w caller c.shot c.after (c.before.length + 1)
          ⟨addDeposit c.acc.homes c.entry.home (.copy c.before.length c.slots.1 c.slots.2.1 c.slots.2.2
            (some ⟨old, c.home⟩)), c.acc.originals ++ c.entry.old.toList⟩
        planRest reg w caller c.target c.shot c.deposits links.homes).ErrsIn (NotBefore (c.before.length + 1)) :=
      planLinks_notBefore.bind fun links _ e he i cause heq =>
        absurd heq (planRest_notOld hs hseated e he i cause)
    exact absurd (hlater _ h _ _ rfl) (Nat.not_succ_le_self _)
  · intro h
    rw [hrefused h]
    rfl

/-- The plan's verdict is that of the words named exactly where the entry is not misread. -/
theorem refused_iff_superseded (c : Considered reg w caller old) :
    (c.Refused ↔ Superseded reg w caller old c.words) ↔ ¬ c.Misread := by
  have hnonempty : ∀ {single s}, c.Names single s → c.words.Nonempty :=
    fun {_ s} h => ⟨s.start, spanWords_subset h (start_mem_spanWords s)⟩
  rw [c.refused_iff hs hseated]
  constructor
  · rintro h (⟨hsingle, hnone, hl, hcovers⟩ | ⟨hother, hl, hcovers, hpieces⟩ | ⟨hother, hl, hholds, hnone⟩)
    · obtain ⟨⟨x, hx⟩, -⟩ := h.2 ⟨hnonempty hsingle, _, hl, hcovers⟩
      exact hnone x hx
    · obtain ⟨-, l', hl', hholds⟩ := h.2 ⟨hnonempty hother, _, hl, hcovers⟩
      obtain ⟨x, hx, hnot⟩ := hpieces l' hl'
      exact hnot (hholds x hx)
    · obtain ⟨-, l', hl', hcovers⟩ := h.1 ⟨⟨_, hother⟩, _, hl, hholds⟩
      exact hnone l' hl' hcovers
  · intro hread
    constructor
    · rintro ⟨⟨s, hs⟩, l, hl, hholds⟩
      by_contra hnot
      apply hread
      apply Misread.passedOver hs hl hholds
      intro l' hl' hcovers
      exact hnot ⟨hnonempty hs, l', hl', hcovers⟩
    · rintro ⟨⟨t, single, s, hnames, -⟩, l, hl, hcovers⟩
      by_contra hnot
      apply hread
      by_cases hother : ∃ x, c.Names false x
      · obtain ⟨x, hx⟩ := hother
        apply Misread.split hx hl hcovers
        intro l' hl'
        by_contra hall
        push Not at hall
        exact hnot ⟨⟨x, hx⟩, l', hl', hall⟩
      · cases single with
        | false => exact absurd ⟨s, hnames⟩ hother
        | true => exact .dropped hnames (not_exists.1 hother) hl hcovers

end Considered

/-- Deposit a link at a home. -/
private def deposited (w : PlanWorld) (home : Address) (value : Link) : Outcome Empty (Address × PlanWorld) := do
  let (addr, r) ← (w.m3.mintLink home).expect
  let m3 ← w.m3.applyM3 1 r
  let links ← w.links.applyLink TypeRegistry.build (.deposit addr value)
  return (addr, ⟨links, m3⟩)

private theorem deposited_spec {w w' : PlanWorld} {home a : Address} {value : Link}
    (hlinks : w.links.Reachable TypeRegistry.build w.m3) (hseated : w.m3.Seated)
    (h : deposited w home value = .ok (a, w')) :
    w'.links.Reachable TypeRegistry.build w'.m3 ∧ w'.m3.Seated := by
  simp only [deposited, Outcome.bind_eq_ok_iff, Outcome.expect_eq_ok_iff, Outcome.pure_eq, Outcome.ok.injEq,
    Prod.mk.injEq, Prod.exists] at h
  obtain ⟨addr, r, hmint, m3, hm3, links, hst, -, rfl⟩ := h
  refine ⟨.deposit hlinks hmint hm3 hst, ?_⟩
  obtain ⟨hhome, rfl, hns, -⟩ := M3State.mintLink_eq_ok hmint
  exact (hseated.element (M3State.level_of_linkNs (M3State.isRegisteredDocument_iff.1 hhome).1 hns) hm3).1

private def word : Run := ⟨⟨⟨[1, 1, 0, 1, 0, 2, 0, 1, 1], by simp⟩, .element, by decide⟩, 1, Nat.one_pos, by decide⟩

private def remark : Link := ⟨⟨[word.iextent]⟩, enc [], enc [headDocument]⟩

/-- A remark on a private page, its copy on a public one, and the claim between the two. -/
private def accepted : Outcome Empty (Address × PlanWorld) := do
  let (page, r) ← (M3State.genesis.mintDocument systemAccount false).expect
  let m3 ← M3State.genesis.applyM3 1 r
  let (old, w) ← deposited ⟨.genesis, m3⟩ page remark
  let (new, w) ← deposited w headDocument remark
  let (_, w) ← deposited w page ⟨enc [old], enc [new], TypeRegistry.build.reservedType .supersedes⟩
  return (old, w)

private def once : Address × PlanWorld :=
  match accepted with
  | .ok once => once
  | .err _ | .fault => (headDocument, ⟨.genesis, .genesis⟩)

private theorem once_spec : once.2.links.Reachable TypeRegistry.build once.2.m3 ∧ once.2.m3.Seated := by
  have hok : accepted.isOk = true := by decide +kernel
  obtain ⟨⟨a, w⟩, haccepted⟩ := Outcome.isOk_iff.1 hok
  have heq : once = (a, w) := by rw [once, haccepted]
  rw [heq]
  simp only [accepted, Outcome.bind_eq_ok_iff, Outcome.expect_eq_ok_iff, Outcome.pure_eq, Outcome.ok.injEq,
    Prod.mk.injEq, Prod.exists] at haccepted
  obtain ⟨page, r, hmint, m3, hm3, old, w1, hold, new, w2, hnew, claim, w3, hclaim, -, rfl⟩ := haccepted
  obtain ⟨haccount, rfl, hns, -⟩ := M3State.mintDocument_eq_ok hmint
  have hseated := (M3State.seated_genesis.document haccount hns hm3).1
  have hreach : LinkStore.genesis.Reachable TypeRegistry.build m3 := by
    refine .record .genesis (fun home hhome heq => ?_) hm3
    have hkey : documentNs systemAccount = linkNs home := Option.some.inj (hns.symm.trans heq)
    exact Generator.noConfusion (congrArg NsKey.g hkey)
  obtain ⟨h1, hseated1⟩ := deposited_spec hreach hseated hold
  obtain ⟨h2, hseated2⟩ := deposited_spec h1 hseated1 hnew
  exact deposited_spec h2 hseated2 hclaim

/-- The remark accepted again, by an entry that spells its end in one of the forms. -/
private def again (arg : EndArg) (planned : PlannedEnd)
    (h : plannedSlots TypeRegistry.build once.2 (.principal systemPrincipal) [word] 0
      ⟨.address headDocument, arg, .addrs [], .addrs [.address headDocument], some once.1⟩ =
        .ok (enc [headDocument], planned, .stored (enc []))) :
    Considered TypeRegistry.build once.2 (.principal systemPrincipal) once.1 where
  target := .document headDocument
  shot := ⟨none, none, [], [⟨headDocument, word⟩]⟩
  deposits := ⟨false, [⟨.address headDocument, arg, .addrs [], .addrs [.address headDocument], some once.1⟩],
    [], [], []⟩
  before := []
  entry := ⟨.address headDocument, arg, .addrs [], .addrs [.address headDocument], some once.1⟩
  after := []
  homes := OrdMap.empty
  acc := ⟨OrdMap.empty, []⟩
  slots := (enc [headDocument], planned, .stored (enc []))
  home := firstCreated
  links_eq := rfl
  old_eq := rfl
  claim_ok := rfl
  before_ok := rfl
  fresh := List.not_mem_nil
  slots_ok := h
  passes := ⟨remark, by decide +kernel, by decide +kernel, by decide +kernel, by decide +kernel, by decide +kernel,
    by decide +kernel⟩

private def asSpan : Considered TypeRegistry.build once.2 (.principal systemPrincipal) once.1 :=
  again (.spans [word.iextent]) (.stored ⟨[word.iextent]⟩) (by decide +kernel)

private def asPosition : Considered TypeRegistry.build once.2 (.principal systemPrincipal) once.1 :=
  again (.member [⟨1, 1⟩]) (.member [⟨1, 1⟩]) (by decide +kernel)

private theorem names_asSpan : asSpan.Names true word.iextent :=
  .inl (.spans (List.mem_singleton_self _) (by decide +kernel) (by decide +kernel))

private theorem eq_of_names_asSpan (single : Bool) (s : Span) (h : asSpan.Names single s) :
    single = true ∧ s = word.iextent := by
  obtain ⟨hmem, -, hsingle⟩ | hto := h
  · cases List.mem_singleton.1 hmem
    exact ⟨hsingle.symm.trans (by decide +kernel), rfl⟩
  · cases hto

private theorem memberEnd_word :
    (memberEnd (requestImage asPosition.shot) [⟨1, 1⟩] : Outcome PlanFault (Option MemberEnd)) =
      .ok (some ⟨[⟨1, 1⟩], ⟨[word.iextent]⟩⟩) := by decide +kernel

private theorem names_asPosition : asPosition.Names false word.iextent :=
  .inl (.member memberEnd_word (List.mem_singleton_self _) (by decide +kernel))

private theorem eq_of_names_asPosition (single : Bool) (s : Span) (h : asPosition.Names single s) :
    s = word.iextent := by
  cases h with
  | inl hfrom =>
    cases hfrom with
    | member hstated hmem _ =>
      cases memberEnd_word.symm.trans hstated
      exact List.mem_singleton.1 hmem
  | inr hto => cases hto

private theorem words_once : asSpan.words = asPosition.words := by
  rw [Considered.words_eq names_asSpan fun _ s h => (eq_of_names_asSpan _ s h).2,
    Considered.words_eq names_asPosition eq_of_names_asPosition]

private theorem once_verdicts :
    Superseded TypeRegistry.build once.2 (.principal systemPrincipal) once.1 asSpan.words ∧
      asPosition.Refused ∧ ¬ asSpan.Refused := by
  have hcovered : Covered TypeRegistry.build once.2 (.principal systemPrincipal) once.1 [word.iextent] := by
    have hrefused : checkOld TypeRegistry.build once.2 (.principal systemPrincipal) once.1
        (requestImage asPosition.shot) [word.iextent] = .err .superseded := by decide +kernel
    by_contra hnot
    rw [(checkOld_eq [word.iextent] once_spec.1.sound once_spec.2 asPosition.passes).2 hnot] at hrefused
    cases hrefused
  obtain ⟨-, l, hl, hholds⟩ := hcovered
  have hholds := hholds _ (List.mem_singleton_self _)
  refine ⟨?_, ?_, ?_⟩
  · rw [Considered.words_eq names_asSpan fun _ s h => (eq_of_names_asSpan _ s h).2]
    exact ⟨⟨_, start_mem_spanWords _⟩, l, hl, hholds.subset⟩
  · refine (asPosition.refused_iff once_spec.1.sound once_spec.2).2 ⟨⟨_, names_asPosition⟩, l, hl, fun s hs => ?_⟩
    rw [eq_of_names_asPosition _ s hs]
    exact hholds
  · rw [asSpan.refused_iff once_spec.1.sound once_spec.2]
    rintro ⟨⟨s, hs⟩, -⟩
    exact Bool.false_ne_true (eq_of_names_asSpan _ s hs).1

end Publication
