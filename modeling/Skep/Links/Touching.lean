import Skep.Library.Merge
import Skep.Links.HomeReads
import Skep.Links.Streams

/-!
# The homes that touch a query

The homes with a link that some slot's query may hit, in order, each with the spans that
named it and how. A query of the type slot that denotes addresses is answered by the
types its addresses are related to, whose homes come off the links of each type; the
others by the spanfilade.
-/

/-- A home, and the spans of each query that named it with the ways they did. -/
structure Touch where
  home : Address
  named : List (ℕ × Parts × Span)

namespace Touch

/-- The spans of a query that named the home, with the ways. -/
def namedAt (touch : Touch) (query : ℕ) : List (Span × Parts) :=
  (touch.named.filter fun n => decide (n.1 = query)).map fun n => (n.2.2, n.2.1)

def spans (touch : Touch) (query : ℕ) : List Span := (touch.namedAt query).map Prod.fst

end Touch

/-- The parts of the streams of a query's span, or of the whole query, among those at some places. -/
def joinParts (streams : List HomeStream) (naming : List ℕ) (pair : ℕ) (span : Option ℕ) : Parts :=
  ((naming.filterMap fun i => streams[i]?).filter fun st =>
    decide (st.pair = pair ∧ st.span = span)).foldl (fun parts st => parts.join st.parts) .NONE

/-- What named a home: for each query, each span that some stream names or, where a stream
is the whole query's, every span. The program finds the streams of each span by a sort. -/
def namedBy (spans : List (List Span)) (streams : List HomeStream) (naming : List ℕ) :
    List (ℕ × Parts × Span) :=
  spans.zipIdx.flatMap fun query =>
    let whole := joinParts streams naming query.2 none
    query.1.zipIdx.filterMap fun q =>
      let parts := whole.join (joinParts streams naming query.2 (some q.2))
      if parts = .NONE then none else some (query.2, parts, q.1)

/-- The homes of the streams, each once and in order, with what named it. -/
def touching (spans : List (List Span)) (streams : List HomeStream) : List Touch :=
  (Merge.walk (streams.map HomeStream.homes)).map fun turn => ⟨turn.1, namedBy spans streams turn.2⟩

def CoverageClass.denoted : CoverageClass → Option (OrdSet Tumbler)
  | .addrs minimal => some minimal
  | .extents _ => none

namespace LinkState

variable (s : LinkState)

/-- The classes of the links. -/
def classes : List CoverageClass :=
  (s.links.entries.filterMap fun e =>
    match coverageClass e.2.typeSlot with
    | .ok c => some c
    | .err _ | .fault => none).dedup

/-- The links of the types some address of a type endset is over or under, and of those
that denote no addresses. -/
def relatedSlices (ty : Endset) : List (List Address) :=
  (s.classes.filter fun c => c.denoted.all fun minimal =>
    minimal.elems.any fun u => ty.addrs.any fun t => isPrefix u t || isPrefix t u).map fun c =>
      (s.typeSlice c).map Prod.fst

end LinkState

namespace LinkStore

variable (st : LinkStore)

/-- The streams of a query of a slot. -/
def streamsOf {ε : Type} (pair slot : ℕ) (query : Endset) : Outcome ε (List HomeStream) :=
  if slot = TYPE ∧ query.isAddressDenoting = true then
    (st.state.relatedSlices query).mapM fun slice => do
      let homes ← homesFrom slice (fun _ => false) slice.length none
      return ⟨pair, none, .ALL, homes⟩
  else
    match st.spanfilade.slot slot with
    | none => return []
    | some idx => return (query.spans.zipIdx.flatMap fun q => idx.streams q.1 pair q.2) ++
        (idx.residueStream pair).toList

/-- The homes that touch some slots' queries. -/
def homesTouching {ε : Type} (queries : List (ℕ × Endset)) : Outcome ε (List Touch) := do
  let streams ← queries.zipIdx.mapM fun query => st.streamsOf query.2 query.1.1 query.1.2
  return touching (queries.map fun query => query.2.spans) streams.flatten

/-- The place of the walk that runs out first, the walks advanced in turn. -/
def firstExhausted {α : Type} : ℕ → List (List α) → ℕ
  | 0, _ => 0
  | turns + 1, walks =>
      match walks.findIdx? List.isEmpty with
      | some i => i
      | none => firstExhausted turns (walks.map List.tail)

/-- The constraint whose homes are fewest. -/
def fewestHomes {ε : Type} (constraints : List (ℕ × Endset)) : Outcome ε ℕ :=
  if constraints.length < 2 then return 0
  else do
    let walks ← constraints.mapM fun c => st.homesTouching [c]
    return firstExhausted ((walks.map List.length).sum + 1) walks

end LinkStore

namespace Parts

/-- The ways of the one are among those of the other. -/
structure Sub (a b : Parts) : Prop where
  starting : a.starting = true → b.starting = true
  containing : a.containing = true → b.containing = true
  residue : a.residue = true → b.residue = true

theorem Sub.refl (a : Parts) : a.Sub a := ⟨id, id, id⟩

theorem Sub.trans {a b c : Parts} (h : a.Sub b) (h' : b.Sub c) : a.Sub c :=
  ⟨h'.starting ∘ h.starting, h'.containing ∘ h.containing, h'.residue ∘ h.residue⟩

theorem sub_join_left (a b : Parts) : a.Sub (a.join b) := by
  refine ⟨?_, ?_, ?_⟩ <;> intro h <;> simp [join, h]

theorem sub_join_right (a b : Parts) : b.Sub (a.join b) := by
  refine ⟨?_, ?_, ?_⟩ <;> intro h <;> simp [join, h]

theorem sub_all (a : Parts) : a.Sub .ALL := ⟨fun _ => rfl, fun _ => rfl, fun _ => rfl⟩

theorem Sub.eq_none {a : Parts} (h : a.Sub .NONE) : a = .NONE := by
  obtain ⟨s, c, r⟩ := a
  have hs : s = false := by simpa [NONE] using h.starting
  have hc : c = false := by simpa [NONE] using h.containing
  have hr : r = false := by simpa [NONE] using h.residue
  rw [hs, hc, hr]
  rfl

theorem sub_foldl {streams : List HomeStream} (acc : Parts) :
    acc.Sub (streams.foldl (fun parts st => parts.join st.parts) acc) ∧ ∀ st ∈ streams,
      st.parts.Sub (streams.foldl (fun parts st => parts.join st.parts) acc) := by
  induction streams generalizing acc with
  | nil => exact ⟨.refl acc, fun st h => nomatch h⟩
  | cons st streams ih =>
    obtain ⟨hacc, hrest⟩ := ih (acc.join st.parts)
    refine ⟨(sub_join_left _ _).trans hacc, fun st' hst' => ?_⟩
    rcases List.mem_cons.1 hst' with rfl | hst'
    · exact (sub_join_right _ _).trans hacc
    · exact hrest st' hst'

end Parts

section

variable {spans : List (List Span)} {streams : List HomeStream} {naming : List ℕ}

theorem sub_joinParts {i : ℕ} {st : HomeStream} (hi : i ∈ naming) (hst : streams[i]? = some st) :
    st.parts.Sub (joinParts streams naming st.pair st.span) :=
  (Parts.sub_foldl _).2 st (List.mem_filter.2
    ⟨List.mem_filterMap.2 ⟨i, hi, hst⟩, decide_eq_true ⟨rfl, rfl⟩⟩)

/-- A stream that named the home is behind each span it is of, in its ways. -/
theorem exists_mem_namedBy {i j : ℕ} {st : HomeStream} {qs : List Span} {q : Span} (hi : i ∈ naming)
    (hst : streams[i]? = some st) (hqs : spans[st.pair]? = some qs) (hq : qs[j]? = some q)
    (hspan : st.span = none ∨ st.span = some j) (hparts : st.parts ≠ .NONE) :
    ∃ parts, (st.pair, parts, q) ∈ namedBy spans streams naming ∧ st.parts.Sub parts := by
  have hjoin := sub_joinParts hi hst
  have hsub : st.parts.Sub ((joinParts streams naming st.pair none).join
      (joinParts streams naming st.pair (some j))) := by
    rcases hspan with hspan | hspan
    · rw [hspan] at hjoin
      exact hjoin.trans (Parts.sub_join_left _ _)
    · rw [hspan] at hjoin
      exact hjoin.trans (Parts.sub_join_right _ _)
  refine ⟨_, ?_, hsub⟩
  refine List.mem_flatMap.2 ⟨(qs, st.pair), List.mem_zipIdx_iff_getElem?.2 hqs,
    List.mem_filterMap.2 ⟨(q, j), List.mem_zipIdx_iff_getElem?.2 hq, ?_⟩⟩
  refine if_neg fun hnone => hparts ?_
  rw [hnone] at hsub
  exact hsub.eq_none

theorem mem_of_mem_namedBy {pair : ℕ} {parts : Parts} {q : Span}
    (h : (pair, parts, q) ∈ namedBy spans streams naming) : ∃ qs, spans[pair]? = some qs ∧ q ∈ qs := by
  obtain ⟨⟨qs, pair'⟩, hqs, hq⟩ := List.mem_flatMap.1 h
  obtain ⟨⟨q', j⟩, hj, heq⟩ := List.mem_filterMap.1 hq
  rw [Option.ite_none_left_eq_some, Option.some.injEq] at heq
  obtain ⟨-, heq⟩ := heq
  cases heq
  exact ⟨qs, List.mem_zipIdx_iff_getElem?.1 hqs,
    List.mem_of_getElem? (List.mem_zipIdx_iff_getElem?.1 hj)⟩

/-- The merge meets each home once, in order, and each stream's homes with its ways. -/
theorem touching_spec (spans : List (List Span)) (hasc : ∀ st ∈ streams, st.homes.Pairwise (· ≤ ·)) :
    ((touching spans streams).map Touch.home).Pairwise (· < ·) ∧
      (∀ touch ∈ touching spans streams, (∃ st ∈ streams, touch.home ∈ st.homes) ∧
        ∀ pair parts q, (pair, parts, q) ∈ touch.named → ∃ qs, spans[pair]? = some qs ∧ q ∈ qs) ∧
      ∀ st ∈ streams, ∀ home ∈ st.homes, ∃ touch ∈ touching spans streams, touch.home = home ∧
        ∀ qs j q, spans[st.pair]? = some qs → qs[j]? = some q → st.span = none ∨ st.span = some j →
          st.parts ≠ .NONE → ∃ parts, (st.pair, parts, q) ∈ touch.named ∧ st.parts.Sub parts := by
  have hstreams : Merge.Ascending (streams.map HomeStream.homes) := by
    intro homes hhomes
    obtain ⟨st, hst, rfl⟩ := List.mem_map.1 hhomes
    exact hasc st hst
  refine ⟨?_, fun touch htouch => ?_, fun st hst home hhome => ?_⟩
  · rw [touching, List.map_map]
    exact Merge.walk_ascending hstreams
  · obtain ⟨⟨home, naming⟩, hturn, rfl⟩ := List.mem_map.1 htouch
    obtain ⟨⟨i, hi⟩, hheld⟩ := Merge.mem_of_mem_walk hstreams hturn
    obtain ⟨homes, hhomes, hmem⟩ := hheld i hi
    obtain ⟨st, hst, rfl⟩ := List.mem_map.1 (List.mem_of_getElem? hhomes)
    exact ⟨⟨st, hst, hmem⟩, fun pair parts q h => mem_of_mem_namedBy h⟩
  · obtain ⟨i, hi⟩ := List.mem_iff_getElem?.1 hst
    have hheld : Merge.Held (streams.map HomeStream.homes) i home :=
      ⟨st.homes, by rw [List.getElem?_map, hi]; rfl, hhome⟩
    obtain ⟨naming, hturn, hnaming⟩ := Merge.exists_mem_walk hstreams hheld
    exact ⟨_, List.mem_map.2 ⟨_, hturn, rfl⟩, rfl, fun qs j q hqs hq hspan hparts =>
      exists_mem_namedBy hnaming hi hqs hq hspan hparts⟩

end

/-- A span of unit depth holds what is at or under its start. -/
theorem contains_of_isUnitDepth {s : Span} (h : isUnitDepth s = true) {t : Tumbler} :
    s.contains t = true ↔ isPrefix s.start t = true := by
  rw [isUnitDepth, beq_iff_eq] at h
  rw [h, Span.contains_iff, HalfOpen.Mem, Span.endpoints_lo, Span.endpoints_hi, Span.start_subtreeOf,
    Span.reach_subtreeOf, isPrefix_iff]
  obtain ⟨front, last, hstart⟩ := s.start.exists_snoc
  rw [hstart, Tumbler.nextAtLength, Tumbler.shift_snoc,
    Tumbler.between_siblings (Tumbler.comps_snoc _ _) (Tumbler.comps_snoc _ _)]
  constructor
  · rintro ⟨k, rest, hcomps, hlo, hhi⟩
    obtain rfl : k = last := by omega
    exact ⟨rest, by rw [hcomps]; simp⟩
  · rintro ⟨rest, hcomps⟩
    exact ⟨last, rest, by rw [← hcomps]; simp, le_rfl, Nat.lt_succ_self _⟩

/-- Spans of unit depth overlap where the one's start is over the other's. -/
theorem isPrefix_or_of_overlaps {q s : Span} (hq : isUnitDepth q = true) (hs : isUnitDepth s = true)
    (h : overlaps q s = true) : isPrefix q.start s.start = true ∨ isPrefix s.start q.start = true := by
  obtain ⟨t, hqt, hst⟩ := overlaps_iff.1 h
  rw [contains_of_isUnitDepth hq, isPrefix_iff] at hqt
  rw [contains_of_isUnitDepth hs, isPrefix_iff] at hst
  rw [isPrefix_iff, isPrefix_iff]
  exact List.prefix_or_prefix_of_prefix hqt hst

/-- The walk keeps what it kept, and keeps something over each address it passes. -/
theorem retainMinimal_spec (l : List Tumbler) (acc : OrdSet Tumbler × Option Tumbler)
    (hlast : ∀ y ∈ acc.2, y ∈ acc.1) : (∀ u ∈ acc.1, u ∈ (l.foldl retainMinimal acc).1) ∧
      ∀ t ∈ l, ∃ u ∈ (l.foldl retainMinimal acc).1, isPrefix u t = true := by
  induction l generalizing acc with
  | nil => exact ⟨fun u hu => hu, fun t h => nomatch h⟩
  | cons t l ih =>
    rw [List.foldl_cons]
    by_cases hover : (acc.2.any fun y => isPrefix y t) = true
    · have hstep : retainMinimal acc t = acc := if_pos hover
      obtain ⟨y, hy, hpre⟩ := (Option.any_eq_true _ _).1 hover
      obtain ⟨hkeep, hall⟩ := ih acc hlast
      rw [hstep]
      refine ⟨hkeep, fun t' ht' => ?_⟩
      rcases List.mem_cons.1 ht' with rfl | ht'
      · exact ⟨y, hkeep y (hlast y hy), hpre⟩
      · exact hall t' ht'
    · have hstep : retainMinimal acc t = (acc.1.insert t, some t) := if_neg hover
      obtain ⟨hkeep, hall⟩ := ih (acc.1.insert t, some t) fun y hy => by
        cases hy
        exact OrdSet.mem_insert.2 (.inl rfl)
      rw [hstep]
      refine ⟨fun u hu => hkeep u (OrdSet.mem_insert.2 (.inr hu)), fun t' ht' => ?_⟩
      rcases List.mem_cons.1 ht' with rfl | ht'
      · exact ⟨t', hkeep t' (OrdSet.mem_insert.2 (.inl rfl)), isPrefix_iff.2 (List.prefix_refl _)⟩
      · exact hall t' ht'

/-- A type that shares a tumbler with a type endset of addresses is related to it. -/
theorem related_of_overlaps {ty e : Endset} (hty : ty.isAddressDenoting = true) {c : CoverageClass}
    (hc : coverageClass e = .ok c) {q s : Span} (hq : q ∈ ty.spans) (hs : s ∈ e.spans)
    (hover : overlaps q s = true) : (c.denoted.all fun minimal =>
      minimal.elems.any fun u => ty.addrs.any fun t => isPrefix u t || isPrefix t u) = true := by
  have hqunit : isUnitDepth q = true := List.all_eq_true.1 hty q hq
  by_cases hden : e.isAddressDenoting = true
  · have hsunit : isUnitDepth s = true := List.all_eq_true.1 hden s hs
    rw [coverageClass, if_pos hden] at hc
    cases hc
    obtain ⟨-, hall⟩ := retainMinimal_spec (OrdSet.ofList (e.spans.map Span.start)).elems (∅, none)
      fun y hy => absurd hy (Option.not_mem_none y)
    obtain ⟨u, hu, hpre⟩ := hall s.start (OrdSet.mem_ofList.2 (List.mem_map_of_mem hs))
    rw [CoverageClass.denoted, Option.all_some, List.any_eq_true]
    refine ⟨u, hu, List.any_eq_true.2 ⟨q.start, ?_, ?_⟩⟩
    · exact List.mem_map_of_mem (List.mem_filter.2 ⟨hq, hqunit⟩)
    · rw [Bool.or_eq_true]
      rw [isPrefix_iff] at hpre
      rcases isPrefix_or_of_overlaps hqunit hsunit hover with h | h
      · rw [isPrefix_iff] at h
        rw [isPrefix_iff, isPrefix_iff]
        exact List.prefix_or_prefix_of_prefix hpre h
      · rw [isPrefix_iff] at h
        exact .inl (isPrefix_iff.2 (hpre.trans h))
  · rw [coverageClass, if_neg hden] at hc
    obtain ⟨extents, -, hpure⟩ := Outcome.bind_eq_ok_iff.1 hc
    cases hpure
    rfl

namespace LinkStore

variable {st : LinkStore} (hs : st.Sound)

/-- A link of a home whose slot has a span that overlaps a query span. -/
structure Hit (st : LinkStore) (slot : ℕ) (q : Span) (home a : Address) : Prop where
  exists_overlaps : ∃ l, st.state.readlink a = some l ∧ ∃ e, l.slot slot = some e ∧
    ∃ s ∈ e.spans, overlaps q s = true
  home : documentOf a = some home

/-- The index of a slot by its number. -/
def indexOf (st : LinkStore) (slot : ℕ) : SlotIndex := (st.spanfilade.slot slot).getD .empty

include hs

theorem Sound.mem_stabIn_indexOf {slot : ℕ} {home a : Address} {q : Span} :
    a ∈ (st.indexOf slot).stabIn home q ↔ st.Hit slot q home a := by
  by_cases hslot : slot = 0
  · subst hslot
    have hnone : st.indexOf 0 = .empty := rfl
    rw [hnone, SlotIndex.files_empty.mem_stabIn]
    constructor
    · rintro ⟨i, s, h, -⟩
      exact h.elim
    · rintro ⟨⟨l, -, e, he, -⟩, -⟩
      cases he
  · have hfiles := hs.filed.slots (slot - 1)
    rw [← slot_eq hslot] at hfiles
    rw [indexOf, hfiles.mem_stabIn]
    constructor
    · rintro ⟨i, s, hP, hover⟩
      obtain ⟨l, e, hl, hdoc, he, hi⟩ := spansAt_iff.1 hP
      exact ⟨⟨l, hl, e, (Link.slot_eq hslot).trans he, s, List.mem_of_getElem? hi, hover⟩, hdoc⟩
    · rintro ⟨⟨l, hl, e, he, s, hmem, hover⟩, hdoc⟩
      obtain ⟨i, hi⟩ := List.mem_iff_getElem?.1 hmem
      exact ⟨i, s, spansAt_iff.2 ⟨l, e, hl, hdoc, (Link.slot_eq hslot).symm.trans he, hi⟩, hover⟩

theorem Sound.stabInParts_mono {slot : ℕ} {home a : Address} {q : Span} {parts parts' : Parts}
    (hsub : parts.Sub parts') (h : a ∈ (st.indexOf slot).stabInParts home q parts) :
    a ∈ (st.indexOf slot).stabInParts home q parts' := by
  have hfiles : ∃ P, (st.indexOf slot).Files P := by
    by_cases hslot : slot = 0
    · subst hslot
      exact ⟨_, SlotIndex.files_empty⟩
    · have hfiles := hs.filed.slots (slot - 1)
      rw [← slot_eq hslot] at hfiles
      exact ⟨_, hfiles⟩
  obtain ⟨P, hfiles⟩ := hfiles
  rw [hfiles.mem_stabInParts] at h ⊢
  rcases h with ⟨hpart, h⟩ | ⟨hpart, h⟩ | ⟨hpart, h⟩
  · exact .inl ⟨hsub.starting hpart, h⟩
  · exact .inr (.inl ⟨hsub.containing hpart, h⟩)
  · exact .inr (.inr ⟨hsub.residue hpart, h⟩)

theorem Sound.chained_slice (c : CoverageClass) : Chained ((st.state.typeSlice c).map Prod.fst) := by
  refine ⟨(OrdMap.keys_ascending st.state.links).sublist (List.filter_sublist.map _), fun key hkey => ?_⟩
  obtain ⟨e, he, rfl⟩ := List.mem_map.1 hkey
  exact hs.homed e.1 e.2 (LinkState.mem_typeSlice.1 he).1

/-- The streams of a query are each in order, and name the home of every link it hits, in a way
that finds the link. -/
theorem Sound.streamsOf_spec {ε : Type} (pair slot : ℕ) (query : Endset) :
    ∃ streams, (st.streamsOf pair slot query : Outcome ε (List HomeStream)) = .ok streams ∧
      (∀ strm ∈ streams, strm.pair = pair ∧ strm.homes.Pairwise (· ≤ ·)) ∧
      ∀ home a j q, query.spans[j]? = some q → st.Hit slot q home a →
        ∃ strm ∈ streams, home ∈ strm.homes ∧ (strm.span = none ∨ strm.span = some j) ∧
          strm.parts ≠ .NONE ∧ a ∈ (st.indexOf slot).stabInParts home q strm.parts := by
  rw [streamsOf]
  by_cases htype : slot = TYPE ∧ query.isAddressDenoting = true
  · rw [if_pos htype]
    obtain ⟨rfl, hden⟩ := htype
    obtain ⟨streams, heq, hsound, hcomplete⟩ := Outcome.exists_mapM_mem (ε := ε)
      (f := fun slice => do
        let homes ← homesFrom slice (fun _ => false) slice.length none
        return (⟨pair, none, .ALL, homes⟩ : HomeStream))
      (R := fun slice strm => strm.pair = pair ∧ strm.span = none ∧ strm.parts = .ALL ∧
        strm.homes.Pairwise (· < ·) ∧ ∀ home, home ∈ strm.homes ↔ ∃ key ∈ slice, documentOf key = some home)
      (l := st.state.relatedSlices query) (fun slice hslice => by
        obtain ⟨c, -, rfl⟩ := List.mem_map.1 hslice
        obtain ⟨homes, heq, hasc, hiff⟩ := homesFrom_spec (ε := ε) (hs.chained_slice c) (fun _ => false)
          (fun _ _ _ h => h) _ none (List.length_filter_le _ _)
        exact ⟨⟨pair, none, .ALL, homes⟩, by rw [heq]; rfl, rfl, rfl, rfl, hasc, by simpa using hiff⟩)
    refine ⟨streams, heq, fun strm hstrm => ?_, fun home a j q hq hhit => ?_⟩
    · obtain ⟨slice, -, hpair, -, -, hasc, -⟩ := hsound strm hstrm
      exact ⟨hpair, hasc.imp le_of_lt⟩
    · obtain ⟨⟨l, hl, e, he, s, hmem, hover⟩, hdoc⟩ := hhit
      obtain ⟨c, hc⟩ := hs.classed a l hl
      have hslot : l.typeSlot = e := Option.some.inj (show l.slot TYPE = some e from he)
      rw [hslot] at hc
      have hrelated := related_of_overlaps hden hc (List.mem_of_getElem? hq) hmem hover
      have hclass : c ∈ st.state.classes := by
        refine List.mem_dedup.2 (List.mem_filterMap.2 ⟨(a, l), OrdMap.get_eq_some_iff.1 hl, ?_⟩)
        simp only [hslot, hc]
      obtain ⟨strm, hstrm, -, hspan, hparts, -, hiff⟩ := hcomplete _
        (List.mem_map.2 ⟨c, List.mem_filter.2 ⟨hclass, hrelated⟩, rfl⟩)
      refine ⟨strm, hstrm, (hiff home).2 ⟨a, List.mem_map.2 ⟨(a, l), ?_, rfl⟩, hdoc⟩, .inl hspan, ?_, ?_⟩
      · exact LinkState.mem_typeSlice.2 ⟨hl, by rw [hslot]; exact hc⟩
      · rw [hparts]
        decide
      · rw [hparts]
        exact hs.mem_stabIn_indexOf.2 ⟨⟨l, hl, e, he, s, hmem, hover⟩, hdoc⟩
  · rw [if_neg htype]
    cases hidx : st.spanfilade.slot slot with
    | none =>
      refine ⟨[], rfl, fun strm h => (nomatch h), fun home a j q hq hhit => ?_⟩
      rw [← hs.mem_stabIn_indexOf, indexOf, hidx] at hhit
      obtain ⟨i, s, h, -⟩ := SlotIndex.files_empty.mem_stabIn.1 hhit
      exact h.elim
    | some idx =>
      refine ⟨_, rfl, fun strm hstrm => ?_, fun home a j q hq hhit => ?_⟩
      · rcases List.mem_append.1 hstrm with hstrm | hstrm
        · obtain ⟨⟨q, j⟩, -, hstrm⟩ := List.mem_flatMap.1 hstrm
          obtain ⟨hpair, -, hasc⟩ := SlotIndex.streams_ascending pair j q strm hstrm
          exact ⟨hpair, hasc⟩
        · obtain ⟨hpair, -, hasc⟩ := SlotIndex.residueStream_ascending (Option.mem_toList.1 hstrm)
          exact ⟨hpair, hasc⟩
      · have hindex : st.indexOf slot = idx := by rw [indexOf, hidx, Option.getD_some]
        have hslot : slot ≠ 0 := by
          rintro rfl
          cases hidx
        have hfiles := hs.filed.slots (slot - 1)
        rw [← slot_eq hslot, hidx, Option.getD_some] at hfiles
        obtain ⟨⟨l, hl, e, he, s, hmem, hover⟩, hdoc⟩ := hhit
        obtain ⟨i, hi⟩ := List.mem_iff_getElem?.1 hmem
        have hP : Spanfilade.spansAt (Stored st.state) (slot - 1) home a i s :=
          spansAt_iff.2 ⟨l, e, hl, hdoc, (Link.slot_eq hslot).symm.trans he, hi⟩
        have hzip : (q, j) ∈ query.spans.zipIdx := List.mem_zipIdx_iff_getElem?.2 hq
        have hspanned : ∀ {strm}, strm ∈ idx.streams q pair j → strm ∈ (query.spans.zipIdx.flatMap
            fun q => idx.streams q.1 pair q.2) ++ (idx.residueStream pair).toList := fun h =>
          List.mem_append.2 (.inl (List.mem_flatMap.2 ⟨(q, j), hzip, h⟩))
        rw [hindex]
        cases hrun : SiblingRun.of s with
        | none =>
          obtain ⟨strm, heq, -, hspan, hparts, hhome⟩ := hfiles.exists_residueStream hP hrun pair
          refine ⟨strm, List.mem_append.2 (.inr (Option.mem_toList.2 heq)), hhome, .inl hspan, ?_, ?_⟩
          · rw [hparts]
            decide
          · rw [hparts, hfiles.mem_stabInParts]
            exact .inr (.inr ⟨rfl, i, s, hP, hrun, hover⟩)
        | some run =>
          rcases overlaps_iff_starts.1 hover with ⟨hlo, hhi⟩ | ⟨hlo, hhi⟩
          · obtain ⟨strm, hstrm, -, hspan, hparts, hhome⟩ :=
              hfiles.exists_startingStream hP hrun pair j hlo hhi
            refine ⟨strm, hspanned hstrm, hhome, .inr hspan, ?_, ?_⟩
            · rw [hparts]
              decide
            · rw [hparts, hfiles.mem_stabInParts]
              exact .inl ⟨rfl, i, s, run, hP, hrun, hlo, hhi⟩
          · obtain ⟨strm, hstrm, -, hspan, hparts, hhome⟩ :=
              hfiles.exists_containingStream hP hrun pair j hlo hhi
            refine ⟨strm, hspanned hstrm, hhome, .inr hspan, ?_, ?_⟩
            · rw [hparts]
              decide
            · rw [hparts, hfiles.mem_stabInParts]
              exact .inr (.inl ⟨rfl, i, s, run, hP, hrun, hlo, hhi⟩)

/-- The homes that touch some queries come in order, each named by spans of the queries, and
every link a query hits is found in its home by a span that named it, in the ways it did. -/
theorem Sound.homesTouching_spec {ε : Type} (queries : List (ℕ × Endset)) :
    ∃ touches, (st.homesTouching queries : Outcome ε (List Touch)) = .ok touches ∧
      (touches.map Touch.home).Pairwise (· < ·) ∧
      (∀ touch ∈ touches, ∀ pair parts q, (pair, parts, q) ∈ touch.named →
        ∃ query, queries[pair]? = some query ∧ q ∈ query.2.spans) ∧
      ∀ pair query, queries[pair]? = some query → ∀ q ∈ query.2.spans, ∀ home a, st.Hit query.1 q home a →
        ∃ touch ∈ touches, touch.home = home ∧ ∃ parts, (pair, parts, q) ∈ touch.named ∧
          a ∈ (st.indexOf query.1).stabInParts home q parts := by
  obtain ⟨lists, heq, hsound, hcomplete⟩ := Outcome.exists_mapM_mem (ε := ε) (l := queries.zipIdx)
    fun (query : (ℕ × Endset) × ℕ) _ => hs.streamsOf_spec query.2 query.1.1 query.1.2
  have hasc : ∀ strm ∈ lists.flatten, strm.homes.Pairwise (· ≤ ·) := by
    intro strm hstrm
    obtain ⟨streams, hstreams, hstrm⟩ := List.mem_flatten.1 hstrm
    obtain ⟨query, -, hall, -⟩ := hsound streams hstreams
    exact (hall strm hstrm).2
  obtain ⟨hlt, hnamed, hfind⟩ := touching_spec (queries.map fun query => query.2.spans) hasc
  refine ⟨_, by rw [homesTouching, heq]; rfl, hlt, fun touch htouch pair parts q hq => ?_,
    fun pair query hquery q hq home a hhit => ?_⟩
  · obtain ⟨qs, hqs, hq⟩ := (hnamed touch htouch).2 pair parts q hq
    rw [List.getElem?_map] at hqs
    obtain ⟨query, hquery, rfl⟩ := Option.map_eq_some_iff.1 hqs
    exact ⟨query, hquery, hq⟩
  · obtain ⟨streams, hstreams, hall, hhits⟩ := hcomplete (query, pair) (List.mem_zipIdx_iff_getElem?.2 hquery)
    obtain ⟨j, hj⟩ := List.mem_iff_getElem?.1 hq
    obtain ⟨strm, hstrm, hhome, hspan, hparts, hstab⟩ := hhits home a j q hj hhit
    obtain ⟨touch, htouch, hthome, hfound⟩ :=
      hfind strm (List.mem_flatten.2 ⟨streams, hstreams, hstrm⟩) home hhome
    have hpair := (hall strm hstrm).1
    obtain ⟨parts, hmem, hsub⟩ := hfound query.2.spans j q
      (by rw [hpair, List.getElem?_map, hquery]; rfl) hj hspan hparts
    rw [hpair] at hmem
    exact ⟨touch, htouch, hthome, parts, hmem, hs.stabInParts_mono hsub hstab⟩

omit hs

theorem firstExhausted_lt {α : Type} (turns : ℕ) {walks : List (List α)} (hne : walks ≠ []) :
    firstExhausted turns walks < walks.length := by
  induction turns generalizing walks with
  | zero => exact List.length_pos_iff.2 hne
  | succ turns ih =>
    rw [firstExhausted]
    cases hfind : walks.findIdx? List.isEmpty with
    | none =>
      have := ih (show walks.map List.tail ≠ [] by simpa using hne)
      rwa [List.length_map] at this
    | some i => exact (List.findIdx?_eq_some_iff_getElem.1 hfind).1

include hs

/-- The constraint of the fewest homes is one of the constraints. -/
theorem Sound.fewestHomes_spec {ε : Type} {constraints : List (ℕ × Endset)} (hne : constraints ≠ []) :
    ∃ driver, (st.fewestHomes constraints : Outcome ε ℕ) = .ok driver ∧ driver < constraints.length := by
  have hpos := List.length_pos_iff.2 hne
  rw [fewestHomes]
  by_cases htwo : constraints.length < 2
  · rw [if_pos htwo]
    exact ⟨0, rfl, hpos⟩
  · rw [if_neg htwo]
    obtain ⟨walks, heq, hall⟩ := Outcome.exists_mapM (ε := ε) (f := fun c => st.homesTouching [c])
      (R := fun _ _ => True) (l := constraints) fun c _ => by
        obtain ⟨touches, htouches, -⟩ := hs.homesTouching_spec (ε := ε) [c]
        exact ⟨touches, htouches, trivial⟩
    have hlen : walks.length = constraints.length := hall.length_eq.symm
    refine ⟨_, by rw [heq]; rfl, ?_⟩
    rw [← hlen]
    refine firstExhausted_lt _ fun hnil => ?_
    rw [hnil, List.length_nil] at hlen
    omega

end LinkStore
