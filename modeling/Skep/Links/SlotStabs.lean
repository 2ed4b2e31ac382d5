import Mathlib.Data.Prod.Lex
import Skep.Links.Touching

/-!
# Stabs of a home at several slots

A read over every slot of a link stabs each home that a walk names once, at each slot by
the spans that named it there and in the ways they did. The hits come in the order of the
links, and of the slots for one link.
-/

/-- The link or the slot is absent. -/
inductive Invalid where
  | invalid
  deriving DecidableEq, Repr

/-- The coverage of a slot of a link. -/
def LinkState.followlink (s : LinkState) (a : Address) (slot : ℕ) : Outcome Invalid SpanSet := do
  let link ← Outcome.okOr (s.readlink a) .invalid
  let endset ← Outcome.okOr (link.slot slot) .invalid
  return endset.toSpanset

theorem Touch.mem_namedAt {touch : Touch} {query : ℕ} {q : Span} {parts : Parts} :
    (q, parts) ∈ touch.namedAt query ↔ (query, parts, q) ∈ touch.named := by
  simp only [namedAt, List.mem_map, List.mem_filter, decide_eq_true_eq, Prod.mk.injEq, Prod.exists]
  constructor
  · rintro ⟨query', parts', q', ⟨hmem, rfl⟩, rfl, rfl⟩
    exact hmem
  · exact fun hmem => ⟨query, parts, q, ⟨hmem, rfl⟩, rfl, rfl⟩

namespace LinkStore

variable (reg : TypeRegistry) (st : LinkStore)

/-- The links of a home that one probe hits: a slot, and the query that was asked of it. -/
def probeHits (touch : Touch) (probe : ℕ × ℕ) : List Address :=
  match st.spanfilade.slot probe.1 with
  | none => []
  | some idx => (touch.namedAt probe.2).flatMap fun named => idx.stabInParts touch.home named.1 named.2

/-- The hits of a home's probes, in order and each once. -/
def keysInSlots (touch : Touch) (probes : List (ℕ × ℕ)) : OrdSet (Address ×ₗ ℕ) :=
  .ofList (probes.flatMap fun probe => (st.probeHits touch probe).map fun link => toLex (link, probe.1))

/-- The links of a home that its probes hit, with the slots. -/
def stabInSlots (touch : Touch) (probes : List (ℕ × ℕ)) (view : View) : List (Address × ℕ) :=
  ((st.keysInSlots touch probes).elems.filter fun hit => st.met reg view (ofLex hit).1).map ofLex

variable {reg st}

theorem mem_probeHits {touch : Touch} {slot query : ℕ} {a : Address} :
    a ∈ st.probeHits touch (slot, query) ↔ ∃ q parts, (query, parts, q) ∈ touch.named ∧
      a ∈ (st.indexOf slot).stabInParts touch.home q parts := by
  rw [probeHits, indexOf]
  cases st.spanfilade.slot slot with
  | none =>
    simp only [List.not_mem_nil, false_iff, not_exists, not_and]
    intro q parts _ hmem
    rw [Option.getD_none, SlotIndex.files_empty.mem_stabInParts] at hmem
    simp at hmem
  | some idx =>
    simp only [List.mem_flatMap, Prod.exists, Touch.mem_namedAt, Option.getD_some]

theorem mem_stabInSlots {touch : Touch} {probes : List (ℕ × ℕ)} {view : View} {a : Address} {slot : ℕ} :
    (a, slot) ∈ st.stabInSlots reg touch probes view ↔ st.met reg view a = true ∧
      ∃ query, (slot, query) ∈ probes ∧ ∃ q parts, (query, parts, q) ∈ touch.named ∧
        a ∈ (st.indexOf slot).stabInParts touch.home q parts := by
  have hhits : toLex (a, slot) ∈ st.keysInSlots touch probes ↔
      ∃ query, (slot, query) ∈ probes ∧ a ∈ st.probeHits touch (slot, query) := by
    rw [keysInSlots, OrdSet.mem_ofList, List.mem_flatMap]
    constructor
    · rintro ⟨⟨slot', query⟩, hprobe, hmem⟩
      obtain ⟨a', hhit, heq⟩ := List.mem_map.1 hmem
      cases toLex.injective heq
      exact ⟨query, hprobe, hhit⟩
    · rintro ⟨query, hprobe, hmem⟩
      exact ⟨(slot, query), hprobe, List.mem_map.2 ⟨a, hmem, rfl⟩⟩
  simp only [mem_probeHits] at hhits
  rw [stabInSlots, List.mem_map]
  constructor
  · rintro ⟨hit, hmem, rfl⟩
    obtain ⟨hmem, hmet⟩ := List.mem_filter.1 hmem
    exact ⟨hmet, hhits.1 hmem⟩
  · rintro ⟨hmet, hquery⟩
    exact ⟨toLex (a, slot), List.mem_filter.2 ⟨hhits.2 hquery, hmet⟩, rfl⟩

variable (hs : st.Sound)

include hs

/-- What a home's probe finds is hit by the span that named the home. -/
theorem Sound.hit_of_stabInParts {slot : ℕ} {home a : Address} {q : Span} {parts : Parts}
    (h : a ∈ (st.indexOf slot).stabInParts home q parts) : st.Hit slot q home a :=
  hs.mem_stabIn_indexOf.1 (hs.stabInParts_mono (Parts.sub_all parts) h)

/-- Over the homes that touch some queries, the probes find exactly the links that a query hits
at the slot it is asked of. -/
theorem Sound.stabInSlots_spec {ε : Type} (queries : List (ℕ × Endset)) (view : View) :
    ∃ touches, (st.homesTouching queries : Outcome ε (List Touch)) = .ok touches ∧
      (touches.map Touch.home).Pairwise (· < ·) ∧ ∀ probes : List (ℕ × ℕ),
        (∀ p ∈ probes, ∃ query, queries[p.2]? = some (p.1, query)) → ∀ home a,
        (∃ touch ∈ touches, touch.home = home ∧ ∃ slot, (a, slot) ∈ st.stabInSlots reg touch probes view) ↔
          ∃ link, st.state.readlink a = some link ∧ documentOf a = some home ∧ st.met reg view a = true ∧
            ∃ p ∈ probes, ∃ query, queries[p.2]? = some (p.1, query) ∧ slotOverlaps link p.1 query = true := by
  obtain ⟨touches, htouches, hasc, hnamed, hfind⟩ := hs.homesTouching_spec (ε := ε) queries
  refine ⟨touches, htouches, hasc, fun probes hprobes home a => ⟨?_, ?_⟩⟩
  · rintro ⟨touch, htouch, rfl, slot, hmem⟩
    obtain ⟨hmet, pair, hprobe, q, parts, hname, hstab⟩ := mem_stabInSlots.1 hmem
    obtain ⟨⟨link, hl, e, he, s, hspan, hover⟩, hdoc⟩ := hs.hit_of_stabInParts hstab
    obtain ⟨query, hquery⟩ := hprobes _ hprobe
    obtain ⟨query', hquery', hq⟩ := hnamed touch htouch _ _ _ hname
    rw [hquery] at hquery'
    cases hquery'
    exact ⟨link, hl, hdoc, hmet, _, hprobe, query, hquery,
      slotOverlaps_iff.2 ⟨e, he, q, hq, s, hspan, hover⟩⟩
  · rintro ⟨link, hl, hdoc, hmet, ⟨slot, pair⟩, hprobe, query, hquery, hover⟩
    obtain ⟨e, he, q, hq, s, hspan, hover⟩ := slotOverlaps_iff.1 hover
    obtain ⟨touch, htouch, hhome, parts, hname, hstab⟩ := hfind _ _ hquery q hq home a
      ⟨⟨link, hl, e, he, s, hspan, hover⟩, hdoc⟩
    subst hhome
    exact ⟨touch, htouch, rfl, slot, mem_stabInSlots.2 ⟨hmet, pair, hprobe, q, parts, hname, hstab⟩⟩

end LinkStore
