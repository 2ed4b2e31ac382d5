import Skep.Discovery.Region
import Skep.Links.Supersession

/-!
# Pointwise projection and discoverability

Two reads ask of one link and one document. The projection answers where the document's
reading surface arranges what a slot of the link covers. The link is addressably discoverable
from the document where it is active and a slot of it shares a tumbler with the extent of a run
the surface arranges, of content or of links.

## Main results

- `Run.exists_extent_iff` — the extents of some runs hold what lies at or beneath their addresses
- `addressablyDiscoverable_exact` — discoverability agrees with the search of the whole content,
  and with the projection
-/

/-- Whether the reader may read an address's home. An address in no document has none to withhold. -/
def homeReadable (readable : Address → Bool) (a : Address) : Bool := (documentOf a).all readable

/-- Whether a join of some spans against some runs is within the budget, the product saturating. -/
def joinWithinBudget (spanCount runCount maxProduct : ℕ) : Bool :=
  decide (runCount ≤ maxImageRuns) && decide (min (spanCount * runCount) (2 ^ 64 - 1) ≤ maxProduct)

def M5State.linkRunCount (s : M5State) (doc : Address) : ℕ := (s.linkList doc).runs.length

/-- Where a document arranges what a slot covers. -/
def projectOn (w : DiscoveryWorld) (a : Address) (slot : ℕ) (d : Address) (readable : Address → Bool) :
    Outcome QueryError SpanSet := do
  Outcome.refuseIf (w.m3.isRegisteredDocument d = false) .docNotRegistered
  Outcome.refuseIf (homeReadable readable a = false) .notALink
  let coverage ← (w.links.state.followlink a slot).mapErr fun _ => .notALink
  let surface := readingSurface w.m3 d
  let runCount := w.m5.contentRunCount surface
  Outcome.refuseIf (joinWithinBudget coverage.spans.length runCount maxAnswerSpans = false) .imageTooLarge
  (w.m5.project surface coverage).expect

/-- A span as its two bounds. -/
structure SpanBounds where
  start : Tumbler
  reach : Tumbler

namespace SpanBounds

def of (span : Span) : SpanBounds := ⟨span.start, span.reach⟩

/-- Each starts before the other reaches. -/
def overlaps (a b : SpanBounds) : Bool := decide (a.start < b.reach) && decide (b.start < a.reach)

end SpanBounds

/-- Whether a span of the endset overlaps one of the extents. -/
def touches (e : Endset) (extentBounds : List SpanBounds) : Bool :=
  e.spans.any fun span => extentBounds.any fun extent => (SpanBounds.of span).overlaps extent

/-- Whether a link is active and reaches the document. -/
def addressablyDiscoverableFromOn (reg : TypeRegistry) (w : DiscoveryWorld) (a d : Address)
    (readable : Address → Bool) : Outcome QueryError Bool := do
  Outcome.refuseIf (w.m3.isRegisteredDocument d = false) .docNotRegistered
  Outcome.refuseIf (homeReadable readable a = false) .notALink
  let link ← Outcome.okOr (w.links.state.readlink a) .notALink
  if w.links.state.isActive reg a = false then return false
  else do
    let surface := readingSurface w.m3 d
    let spanCount := (link.slots.map fun e => e.spans.length).sum
    let runCount := w.m5.contentRunCount surface + w.m5.linkRunCount surface
    Outcome.refuseIf (joinWithinBudget spanCount runCount maxJoinSteps = false) .imageTooLarge
    let extents := ((w.m5.contentList surface).runs ++ (w.m5.linkList surface).runs).map Run.iextent
    let extentBounds := extents.map SpanBounds.of
    return link.slots.any fun e => touches e extentBounds

/-- What lies between the first address of a run and its reach lies at or beneath one of them. -/
theorem Run.between_iff (r : Run) (t : Tumbler) (n : ℕ) :
    r.iStart.tumbler ≤ t ∧ t < r.tumblerAt n ↔ ∃ k < n, r.tumblerAt k ≤ t ∧ t < r.tumblerAt (k + 1) := by
  induction n with
  | zero =>
    simp only [not_lt_zero, false_and, exists_false, iff_false, not_and, not_lt]
    intro h
    rwa [tumblerAt, Tumbler.shift_zero]
  | succ n ih =>
    rw [Nat.exists_lt_succ_right, ← ih]
    by_cases h : t < r.tumblerAt n
    · have hnot : ¬ r.tumblerAt n ≤ t := not_le.2 h
      have hlt : t < r.tumblerAt (n + 1) := h.trans (Tumbler.shift_lt_shift.2 n.lt_succ_self)
      simp only [h, hlt, hnot, and_true, or_false]
    · have hle : r.tumblerAt n ≤ t := not_lt.1 h
      have hstart : r.iStart.tumbler ≤ t := (r.iStart_le_tumblerAt n).trans hle
      simp only [h, hle, hstart, true_and, and_false, false_or]

/-- The extents of some runs hold what lies at or beneath one of their addresses. -/
theorem Run.exists_extent_iff {runs : List Run} {t : Tumbler} :
    (∃ run ∈ runs, run.iextent.contains t = true) ↔
      ∃ x ∈ denRuns runs, x.tumbler ≤ t ∧ t < (x.advance 1).tumbler := by
  have hone : ∀ run : Run, run.iextent.contains t = true ↔
      ∃ x ∈ run.addrs, x.tumbler ≤ t ∧ t < (x.advance 1).tumbler := by
    intro run
    rw [iextent_contains_iff, reach, between_iff]
    constructor
    · rintro ⟨k, hk, hle, hlt⟩
      refine ⟨run.addrAt k, mem_addrs_iff.2 ⟨k, hk, rfl⟩, hle, ?_⟩
      rw [addrAt, Address.advance_advance]
      exact hlt
    · rintro ⟨x, hx, hle, hlt⟩
      obtain ⟨k, hk, rfl⟩ := mem_addrs_iff.1 hx
      rw [addrAt, Address.advance_advance] at hlt
      exact ⟨k, hk, hle, hlt⟩
  simp only [hone, denRuns, List.mem_flatMap]
  constructor
  · rintro ⟨run, hrun, x, hx, ht⟩
    exact ⟨x, ⟨run, hrun, hx⟩, ht⟩
  · rintro ⟨x, ⟨run, hrun, hx⟩, ht⟩
    exact ⟨run, hrun, x, hx, ht⟩

/-- A link touches the extents of runs with the same addresses alike. -/
theorem Link.touches_extents_congr {link : Link} {runs runs' : List Run}
    (h : ∀ x, x ∈ denRuns runs ↔ x ∈ denRuns runs') :
    link.Touches (runs.map Run.iextent) ↔ link.Touches (runs'.map Run.iextent) := by
  have hshare : ∀ (runs : List Run) (s : Span), (∃ q ∈ runs.map Run.iextent, ∃ t,
      s.contains t = true ∧ q.contains t = true) ↔
      ∃ t, s.contains t = true ∧ ∃ x ∈ denRuns runs, x.tumbler ≤ t ∧ t < (x.advance 1).tumbler := by
    intro runs s
    simp only [← Run.exists_extent_iff, List.mem_map]
    constructor
    · rintro ⟨q, ⟨run, hrun, rfl⟩, t, hs, hq⟩
      exact ⟨t, hs, run, hrun, hq⟩
    · rintro ⟨t, hs, run, hrun, hq⟩
      exact ⟨run.iextent, ⟨run, hrun, rfl⟩, t, hs, hq⟩
  simp only [Link.Touches, hshare, h]

theorem Link.touches_append {link : Link} {query query' : List Span} :
    link.Touches (query ++ query') ↔ link.Touches query ∨ link.Touches query' := by
  simp only [Link.Touches, List.mem_append, or_and_right, exists_or, and_or_left]

theorem Link.mem_slots_iff {link : Link} {e : Endset} : e ∈ link.slots ↔ ∃ slot, link.slot slot = some e := by
  constructor
  · intro h
    obtain ⟨i, hi⟩ := List.mem_iff_getElem?.1 h
    exact ⟨i + 1, hi⟩
  · rintro ⟨slot, h⟩
    rw [Link.slot] at h
    by_cases hslot : slot = 0
    · rw [if_pos hslot] at h
      cases h
    · rw [if_neg hslot] at h
      exact List.mem_of_getElem? h

/-- The test over bounds is the search's own overlap. -/
theorem overlaps_bounds (a b : Span) : (SpanBounds.of a).overlaps (SpanBounds.of b) = overlaps a b := by
  rw [Bool.eq_iff_iff, overlaps_iff_lt, SpanBounds.overlaps, Bool.and_eq_true, decide_eq_true_eq, decide_eq_true_eq]
  rfl

theorem any_touches_iff {link : Link} {query : List Span} :
    (link.slots.any fun e => touches e (query.map SpanBounds.of)) = true ↔ link.Touches query := by
  simp only [List.any_eq_true, touches, List.any_map, Function.comp, overlaps_bounds, overlaps_iff,
    Link.mem_slots_iff, Link.Touches]
  constructor
  · rintro ⟨e, ⟨slot, he⟩, hshare⟩
    exact ⟨slot, e, he, hshare⟩
  · rintro ⟨slot, e, he, hshare⟩
    exact ⟨e, ⟨slot, he⟩, hshare⟩

section

variable {reg : TypeRegistry} {w : DiscoveryWorld} {a d : Address} {link : Link} {readable : Address → Bool}

/-- A resident active link of a readable home is tested against both runs of the surface. -/
theorem addressablyDiscoverableFromOn_eq (hd : w.m3.isRegisteredDocument d = true)
    (hread : homeReadable readable a = true) (hlink : w.links.state.readlink a = some link)
    (hactive : w.links.state.isActive reg a = true)
    (hbudget : joinWithinBudget (link.slots.map fun e => e.spans.length).sum
      (w.m5.contentRunCount (readingSurface w.m3 d) + w.m5.linkRunCount (readingSurface w.m3 d)) maxJoinSteps = true) :
    ∃ b, addressablyDiscoverableFromOn reg w a d readable = .ok b ∧
      (b = true ↔ link.Touches ((w.m5.contentList (readingSurface w.m3 d)).runs.map Run.iextent) ∨
        link.Touches ((w.m5.linkList (readingSurface w.m3 d)).runs.map Run.iextent)) := by
  refine ⟨link.slots.any fun e => touches e ((((w.m5.contentList (readingSurface w.m3 d)).runs ++
    (w.m5.linkList (readingSurface w.m3 d)).runs).map Run.iextent).map SpanBounds.of), ?_, ?_⟩
  · rw [addressablyDiscoverableFromOn, hd, hread, hlink]
    simp only [Outcome.refuseIf, Outcome.okOr, hactive, hbudget, Bool.true_eq_false, if_false, Outcome.ok_bind,
      Outcome.pure_eq]
  · rw [any_touches_iff, List.map_append, Link.touches_append]

theorem projectOn_eq {slot : ℕ} {e : Endset} (hd : w.m3.isRegisteredDocument d = true)
    (hread : homeReadable readable a = true) (hlink : w.links.state.readlink a = some link)
    (hslot : link.slot slot = some e)
    (hbudget : joinWithinBudget e.spans.length (w.m5.contentRunCount (readingSurface w.m3 d)) maxAnswerSpans = true) :
    ∃ set, projectOn w a slot d readable = .ok set ∧
      (∀ k, set.denotes (VPos.content k).tumbler = true ↔
        ∃ x, w.m5.point (readingSurface w.m3 d) (.content k) = some x ∧ e.covers x.tumbler = true) ∧
      (set.spans ≠ [] ↔ ∃ x, w.m5.Arranges (readingSurface w.m3 d) x ∧ e.covers x.tumbler = true) := by
  obtain ⟨set, hset, hpoint, hne⟩ := w.m5.project_spec (readingSurface w.m3 d) e.toSpanset
  refine ⟨set, ?_, hpoint, hne⟩
  have hcoverage : w.links.state.followlink a slot = .ok e.toSpanset := by
    rw [LinkState.followlink, hlink, Outcome.okOr, Outcome.ok_bind, hslot]
    rfl
  have hlen : joinWithinBudget e.toSpanset.spans.length (w.m5.contentRunCount (readingSurface w.m3 d))
      maxAnswerSpans = true := hbudget
  rw [projectOn, hd, hread, hcoverage]
  simp only [Outcome.refuseIf, Outcome.mapErr, hlen, Bool.true_eq_false, if_false, Outcome.ok_bind, hset, Outcome.expect]

/-- The region holds every content position of the document's reading surface. -/
def WholeContent (w : DiscoveryWorld) (d : Address) (region : List Span) : Prop :=
  ∀ k, 1 ≤ k → k ≤ w.m5.contentCount (readingSurface w.m3 d) →
    ∃ span ∈ region, span.contains (M5State.vTumbler k) = true

/-- A surface within the budget has a region of its whole content within it. -/
theorem exists_wholeContent (h : w.m5.contentRunCount (readingSurface w.m3 d) ≤ maxImageRuns) :
    ∃ region, ImageWithin w d region ∧ WholeContent w d region := by
  have hsteps : maxImageRuns ≤ maxJoinSteps := by decide
  obtain hzero | hpos := Nat.eq_zero_or_pos (w.m5.contentCount (readingSurface w.m3 d))
  · refine ⟨[], ⟨rfl, Nat.zero_le _, Nat.zero_le _⟩, fun k hk hle => ?_⟩
    omega
  · generalize hn : w.m5.contentCount (readingSurface w.m3 d) = n at hpos
    have hdom : addDomain (VPos.content 1).tumbler ⟨[0, n], by simp⟩ = .ok 2 :=
      addDomain_eq_ok_iff.2
        ⟨actionPoint_of_parts (show [0, n] = List.replicate 1 0 ++ [n] from rfl) hpos.ne', le_rfl⟩
    let span : Span := ⟨(VPos.content 1).tumbler, ⟨[0, n], by simp⟩, 2, hdom⟩
    have hshape : asOrdinalVspan span = some ⟨contentSubspace, 1, n⟩ := rfl
    have hruns : w.m5.iterResolve (readingSurface w.m3 d) span = (w.m5.contentList (readingSurface w.m3 d)).runs := by
      have hresolve : w.m5.iterResolve (readingSurface w.m3 d) span =
          (w.m5.contentList (readingSurface w.m3 d)).iterResolveRange 1 n := rfl
      rw [hresolve]
      refine merged_eq_of_denRuns_eq (RunList.merged_iterResolveRange _ _ _) (w.m5.contentList _).merged ?_
      have hlen : (w.m5.contentList (readingSurface w.m3 d)).totalWidth = n := hn
      rw [RunList.den_iterResolveRange, RunList.positions, max_self, Nat.sub_self, List.drop_zero, hlen,
        List.take_of_length_le]
      · rfl
      · rw [RunList.length_den]
        omega
    refine ⟨[span], ⟨rfl, ?_, ?_⟩, fun k hk hle => ⟨span, List.mem_singleton_self _, ?_⟩⟩
    · have hpassed : passedRuns (w.m5.contentRunCount (readingSurface w.m3 d)) span ≤
          w.m5.contentRunCount (readingSurface w.m3 d) := by
        rw [passedRuns, hshape]
        dsimp only
        split
        · exact min_le_right _ _
        · exact le_rfl
      rw [runListWalk, List.map_singleton, List.sum_singleton]
      exact hpassed.trans (h.trans hsteps)
    · rw [List.flatMap_singleton, hruns]
      exact h
    · rw [hn] at hle
      exact (contains_position_of_shape hshape (.content k)).2 ⟨rfl, hk, by show k < 1 + n; omega⟩

/-- **Discoverability agrees with search.** -/
theorem addressablyDiscoverable_exact (h : w.links.Reachable reg w.m3)
    (hlink : w.links.state.readlink a = some link) (hactive : w.links.state.isActive reg a = true)
    (hread : homeReadable readable a = true) (hd : w.m3.isRegisteredDocument d = true)
    (hbudget : joinWithinBudget (link.slots.map fun e => e.spans.length).sum
      (w.m5.contentRunCount (readingSurface w.m3 d) + w.m5.linkRunCount (readingSurface w.m3 d)) maxJoinSteps = true) :
    ∃ b, addressablyDiscoverableFromOn reg w a d readable = .ok b ∧
      (∃ region, ImageWithin w d region ∧ WholeContent w d region) ∧
      (∀ region, ImageWithin w d region → WholeContent w d region →
        ∃ links, findlinksVOn reg w d region readable = .ok links ∧
          (b = true ↔ a ∈ links ∨ link.Touches ((w.m5.linkList (readingSurface w.m3 d)).runs.map Run.iextent))) ∧
      ∀ slot e, link.slot slot = some e →
        joinWithinBudget e.spans.length (w.m5.contentRunCount (readingSurface w.m3 d)) maxAnswerSpans = true →
        ∃ set, projectOn w a slot d readable = .ok set ∧ (set.spans ≠ [] → b = true) ∧
          ∀ k, set.denotes (VPos.content k).tumbler = true ↔
            ∃ x, w.m5.point (readingSurface w.m3 d) (.content k) = some x ∧ e.covers x.tumbler = true := by
  obtain ⟨b, hb, hiff⟩ := addressablyDiscoverableFromOn_eq hd hread hlink hactive hbudget
  refine ⟨b, hb, ?_, fun region hwithin hwhole => ?_, fun slot e hslot hproject => ?_⟩
  · rw [joinWithinBudget, Bool.and_eq_true, decide_eq_true_eq] at hbudget
    exact exists_wholeContent ((Nat.le_add_right _ _).trans hbudget.1)
  · obtain ⟨links, hlinks, -, hmem⟩ := @findlinksVOn_spec reg w h.sound d region hd hwithin readable
    refine ⟨links, hlinks, ?_⟩
    have hsame := @Link.touches_extents_congr link _ _ (mem_denRuns_image_of_whole hwithin.content hwhole)
    obtain ⟨home, -, hhome, -⟩ := h.sound.homed a link hlink
    have hadmitted : readable home = true := by
      rw [homeReadable, hhome] at hread
      exact hread
    have hnullified : w.links.state.nullified reg a.tumbler = false := by
      rw [LinkState.isActive, Bool.and_eq_true, Bool.not_eq_true'] at hactive
      exact hactive.2
    have hlisted : a ∈ links ↔ link.Touches ((w.m5.contentList (readingSurface w.m3 d)).runs.map Run.iextent) := by
      rw [hmem]
      constructor
      · rintro ⟨link', home', hlink', -, -, -, htouches⟩
        rw [hlink] at hlink'
        cases hlink'
        exact hsame.1 htouches
      · exact fun htouches => ⟨link, home, hlink, hhome, hadmitted, hnullified, hsame.2 htouches⟩
    rw [hiff, hlisted]
  · obtain ⟨set, hset, hpoint, hne⟩ := projectOn_eq hd hread hlink hslot hproject
    refine ⟨set, hset, fun hspans => hiff.2 (.inl ?_), hpoint⟩
    -- an address the slot covers lies in the extent of the run that arranges it
    obtain ⟨x, hx, hcovers⟩ := hne.1 hspans
    obtain ⟨run, hrun, hxrun⟩ := List.mem_flatMap.1 hx
    obtain ⟨s, hs, hsx⟩ := List.any_eq_true.1 hcovers
    refine ⟨slot, e, hslot, s, hs, run.iextent, List.mem_map_of_mem hrun, x.tumbler, hsx, ?_⟩
    obtain ⟨k, hk, rfl⟩ := Run.mem_addrs_iff.1 hxrun
    exact Run.iextent_contains_iff.2 ⟨run.iStart_le_tumblerAt k, Run.tumblerAt_lt_tumblerAt.2 hk⟩

end

private def aboutHeadLink : Link := ⟨enc [headDocument], enc [], enc [headDocument]⟩

/-- A link of the head document about itself, deposited at genesis. -/
private def depositedAbout : Outcome Empty (Address × LinkStore × M3State) := do
  let (addr, r) ← (M3State.genesis.mintLink headDocument).expect
  let m3 ← M3State.genesis.applyM3 1 r
  let st ← LinkStore.genesis.applyLink TypeRegistry.build (.deposit addr aboutHeadLink)
  return (addr, st, m3)

private def aboutOne : Address × LinkStore × M3State :=
  match depositedAbout with
  | .ok one => one
  | .err _ | .fault => (headDocument, .genesis, .genesis)

private theorem reachable_aboutOne : aboutOne.2.1.Reachable TypeRegistry.build aboutOne.2.2 := by
  have hok : depositedAbout.isOk = true := by decide +kernel
  obtain ⟨⟨addr, st, m3⟩, hone⟩ := Outcome.isOk_iff.1 hok
  have heq : aboutOne = (addr, st, m3) := by rw [aboutOne, hone]
  rw [heq]
  simp only [depositedAbout, Outcome.bind_eq_ok_iff, Outcome.expect_eq_ok_iff, Outcome.pure_eq,
    Outcome.ok.injEq, Prod.mk.injEq, Prod.exists] at hone
  obtain ⟨addr', r, hmint, m3', hm3, st', hst, rfl, rfl, rfl⟩ := hone
  exact .deposit .genesis hmint hm3 hst

private def wordsOfHead : Run :=
  ⟨⟨⟨[1, 1, 0, 1, 0, 2, 0, 1, 9], by simp⟩, .element, by decide⟩, 2, Nat.two_pos, by decide⟩

private def aboutWorld : DiscoveryWorld :=
  ⟨aboutOne.2.2, M5State.genesis.applyM5 1 (.contentPlace headDocument 1 [wordsOfHead]), aboutOne.2.1⟩

theorem addressablyDiscoverable_exact_one :
    addressablyDiscoverableFromOn TypeRegistry.build aboutWorld aboutOne.1 headDocument (fun _ => true) = .ok true ∧
      ∃ set, projectOn aboutWorld aboutOne.1 FROM headDocument (fun _ => true) = .ok set ∧
        set.denotes (VPos.content 1).tumbler = true := by
  obtain ⟨b, hb, -, -, hproject⟩ := @addressablyDiscoverable_exact TypeRegistry.build aboutWorld aboutOne.1
    headDocument aboutHeadLink (fun _ => true) reachable_aboutOne (by decide +kernel) (by decide +kernel)
    (by decide +kernel) (by decide +kernel) (by decide +kernel)
  obtain ⟨set, hset, hreaches, hpoint⟩ := hproject FROM (enc [headDocument]) rfl (by decide +kernel)
  have hfirst : set.denotes (VPos.content 1).tumbler = true :=
    (hpoint 1).2 ⟨wordsOfHead.iStart, by decide +kernel, by decide +kernel⟩
  have hspans : set.spans ≠ [] := by
    intro hnil
    rw [SpanSet.denotes, hnil] at hfirst
    cases hfirst
  rw [hreaches hspans] at hb
  exact ⟨hb, set, hset, hfirst⟩
