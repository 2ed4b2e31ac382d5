import Mathlib.Data.List.Destutter
import Skep.Discovery.Image
import Skep.Discovery.Sets
import Skep.Links.SlotStabs

/-!
# The links that touch a region

The image of a region, each of its runs once, is one query of every slot of a link. The
homes that touch it are asked of the reader in order, and each that is admitted is stabbed
at the slots together.
-/

/-- The slots a link has. -/
def v1Slots : List ℕ := [FROM, TO, TYPE]

theorem mem_v1Slots_of_slot {link : Link} {slot : ℕ} {e : Endset} (h : link.slot slot = some e) :
    slot ∈ v1Slots := by
  rw [Link.slot] at h
  by_cases hslot : slot = 0
  · rw [if_pos hslot] at h
    cases h
  · rw [if_neg hslot] at h
    have hlt := (List.getElem?_eq_some_iff.1 h).1
    have hthree : slot - 1 < 3 := hlt
    simp only [v1Slots, FROM, TO, TYPE, List.mem_cons, List.not_mem_nil, or_false]
    omega

namespace Region

/-- The query of some runs: the extent of each distinct one. -/
def extents (runs : List Run) : Endset := ⟨runs.eraseDups.map Run.iextent⟩

/-- Each slot, and the place of its query among those a walk was asked. -/
def probes (first : ℕ) : List (ℕ × ℕ) := v1Slots.zipIdx.map fun p => (p.1, first + p.2)

/-- The links of pairs in which those of one link follow one another. -/
def distinct (pairs : List (Address × ℕ)) : List Address := (pairs.map Prod.fst).destutter (· ≠ ·)

/-- The homes that touch a query at some slot. -/
def touching {ε : Type} (l : LinkStore) (query : Endset) : Outcome ε (List Touch) :=
  l.homesTouching (v1Slots.map fun slot => (slot, query))

def touchedBySlot (reg : TypeRegistry) (l : LinkStore) (touch : Touch) : List (Address × ℕ) :=
  l.stabInSlots reg touch (probes 0) .active

/-- A home's links that touch the query. -/
def touched (reg : TypeRegistry) (l : LinkStore) (touch : Touch) : List Address :=
  distinct (touchedBySlot reg l touch)

/-- The links that touch a query, in the homes a reader may read. -/
def selection {ε : Type} (reg : TypeRegistry) (l : LinkStore) (query : Endset) (readable : Address → Bool) :
    Outcome ε (List Address) := do
  let touches ← touching l query
  return (touches.filter fun touch => homeAdmitted readable touch.home).flatMap (touched reg l)

end Region

/-- The links that touch a region. -/
def findlinksVOn (reg : TypeRegistry) (w : DiscoveryWorld) (d : Address) (region : List Span)
    (readable : Address → Bool) : Outcome QueryError (List Address) := do
  let image ← imageOn w d region
  Region.selection reg w.links (Region.extents image) readable

/-- A slot of the link has a span that shares a tumbler with a span of the query. -/
def Link.Touches (link : Link) (query : List Span) : Prop :=
  ∃ slot e, link.slot slot = some e ∧ ∃ s ∈ e.spans, ∃ q ∈ query, ∃ t,
    s.contains t = true ∧ q.contains t = true

namespace Region

theorem mem_extents {runs : List Run} {q : Span} :
    q ∈ (extents runs).spans ↔ ∃ run ∈ runs, run.iextent = q := by
  simp only [extents, List.mem_map, List.mem_eraseDups]

theorem mem_destutter_ne {l : List Address} {a : Address} : a ∈ l.destutter (· ≠ ·) ↔ a ∈ l := by
  refine ⟨fun h => (List.destutter_sublist _ l).subset h, fun h => ?_⟩
  have hfrom : ∀ (l : List Address) (b : Address), a = b ∨ a ∈ l → a ∈ l.destutter' (· ≠ ·) b := by
    intro l
    induction l with
    | nil => exact fun b h => by simpa using h
    | cons c l ih =>
      intro b h
      by_cases hne : b ≠ c
      · rw [List.destutter'_cons_pos _ hne, List.mem_cons]
        exact h.imp id fun h => ih c (List.mem_cons.1 h)
      · rw [List.destutter'_cons_neg _ hne]
        obtain rfl := not_not.1 hne
        exact ih b (h.elim .inl fun h => List.mem_cons.1 h)
  cases l with
  | nil => exact h
  | cons b l => exact hfrom l b (List.mem_cons.1 h)

theorem mem_probes {slot query : ℕ} : (slot, query) ∈ probes 0 ↔ v1Slots[query]? = some slot := by
  simp only [probes, List.mem_map, Prod.exists, List.mem_zipIdx_iff_getElem?, Prod.mk.injEq, Nat.zero_add]
  constructor
  · rintro ⟨slot', query', h, rfl, rfl⟩
    exact h
  · exact fun h => ⟨slot, query, h, rfl, rfl⟩

variable {reg : TypeRegistry} {l : LinkStore}

theorem mem_touched {touch : Touch} {a : Address} :
    a ∈ touched reg l touch ↔ ∃ slot, (a, slot) ∈ l.stabInSlots reg touch (probes 0) .active := by
  rw [touched, distinct, mem_destutter_ne, List.mem_map, touchedBySlot]
  exact ⟨fun ⟨pair, h, heq⟩ => ⟨pair.2, heq ▸ h⟩, fun ⟨slot, h⟩ => ⟨(a, slot), h, rfl⟩⟩

theorem touched_ascending (touch : Touch) : (touched reg l touch).Pairwise (· < ·) := by
  have hle : ((touchedBySlot reg l touch).map Prod.fst).Pairwise (· ≤ ·) := by
    rw [touchedBySlot, LinkStore.stabInSlots, List.map_map, List.pairwise_map]
    refine (List.Pairwise.filter _ (l.keysInSlots touch (probes 0)).ascending).imp fun {x y} h => ?_
    exact (Prod.Lex.lt_iff.1 h).elim le_of_lt fun h => h.1.le
  have hchain := List.isChain_destutter (· ≠ ·) ((touchedBySlot reg l touch).map Prod.fst)
  have hsorted := hle.sublist (List.destutter_sublist (· ≠ ·) _)
  rw [touched, distinct, ← List.isChain_iff_pairwise]
  exact List.isChain_iff_getElem.2 fun i hi =>
    lt_of_le_of_ne (hsorted.isChain.getElem i hi) (hchain.getElem i hi)

variable (hs : l.Sound)

include hs

/-- The selection answers, in order, the active links of the homes a reader may read that share
a tumbler with the query. -/
theorem selection_spec {ε : Type} (query : Endset) (readable : Address → Bool) :
    ∃ links, (selection reg l query readable : Outcome ε (List Address)) = .ok links ∧
      links.Pairwise (· < ·) ∧ ∀ a, a ∈ links ↔ ∃ link home, l.state.readlink a = some link ∧
        documentOf a = some home ∧ readable home = true ∧ l.state.nullified reg a.tumbler = false ∧
          link.Touches query.spans := by
  obtain ⟨touches, htouches, hasc, hspec⟩ :=
    @LinkStore.Sound.stabInSlots_spec reg _ hs ε (v1Slots.map fun slot => (slot, query)) .active
  have hprobe : ∀ p ∈ probes 0, (v1Slots.map fun slot => (slot, query))[p.2]? = some (p.1, query) := by
    intro p hp
    rw [List.getElem?_map, mem_probes.1 hp]
    rfl
  have hmem : ∀ home a, (∃ touch ∈ touches, touch.home = home ∧ a ∈ touched reg l touch) ↔
      ∃ link, l.state.readlink a = some link ∧ documentOf a = some home ∧
        l.state.nullified reg a.tumbler = false ∧ link.Touches query.spans := by
    intro home a
    have hiff := hspec (probes 0) (fun p hp => ⟨query, hprobe p hp⟩) home a
    simp only [mem_touched, hiff, LinkStore.met, View.isActive, Bool.true_and, Bool.not_eq_true']
    refine exists_congr fun link => and_congr_right fun _ => and_congr_right fun _ => and_congr_right fun _ => ?_
    constructor
    · rintro ⟨p, hp, query', hquery, hover⟩
      rw [hprobe p hp] at hquery
      cases hquery
      obtain ⟨e, he, q, hq, s, hspan, hover⟩ := slotOverlaps_iff.1 hover
      obtain ⟨t, hqt, hst⟩ := overlaps_iff.1 hover
      exact ⟨p.1, e, he, s, hspan, q, hq, t, hst, hqt⟩
    · rintro ⟨slot, e, he, s, hspan, q, hq, t, hst, hqt⟩
      obtain ⟨i, hi⟩ := List.mem_iff_getElem?.1 (mem_v1Slots_of_slot he)
      refine ⟨(slot, i), mem_probes.2 hi, query, hprobe (slot, i) (mem_probes.2 hi), ?_⟩
      exact slotOverlaps_iff.2 ⟨e, he, q, hq, s, hspan, overlaps_iff.2 ⟨t, hqt, hst⟩⟩
  refine ⟨_, by rw [selection, touching, htouches]; rfl, ?_, fun a => ?_⟩
  · rw [List.pairwise_flatMap]
    refine ⟨fun touch _ => touched_ascending touch, ?_⟩
    refine ((List.pairwise_map.1 hasc).filter _).imp_of_mem fun {touch touch'} ht ht' hlt a ha b hb => ?_
    obtain ⟨link, hl, hdoc, -⟩ := (hmem touch.home a).1 ⟨touch, (List.mem_filter.1 ht).1, rfl, ha⟩
    obtain ⟨link', hl', hdoc', -⟩ := (hmem touch'.home b).1 ⟨touch', (List.mem_filter.1 ht').1, rfl, hb⟩
    exact hs.lt_of_home_lt hl hdoc hl' hdoc' hlt
  · simp only [List.mem_flatMap, List.mem_filter, homeAdmitted]
    constructor
    · rintro ⟨touch, ⟨htouch, hread⟩, ha⟩
      obtain ⟨link, hl, hdoc, hactive, htouches⟩ := (hmem touch.home a).1 ⟨touch, htouch, rfl, ha⟩
      exact ⟨link, touch.home, hl, hdoc, hread, hactive, htouches⟩
    · rintro ⟨link, home, hl, hdoc, hread, hactive, htouches⟩
      obtain ⟨touch, htouch, rfl, ha⟩ := (hmem home a).2 ⟨link, hl, hdoc, hactive, htouches⟩
      exact ⟨touch, ⟨htouch, hread⟩, ha⟩

end Region

/-- The links of a region within its budgets: the active links of readable homes that share a
tumbler with the extent of a run of the image. -/
theorem findlinksVOn_spec {reg : TypeRegistry} {w : DiscoveryWorld} (hs : w.links.Sound) {d : Address}
    {region : List Span} (hd : w.m3.isRegisteredDocument d = true) (h : ImageWithin w d region)
    (readable : Address → Bool) :
    ∃ links, findlinksVOn reg w d region readable = .ok links ∧ links.Pairwise (· < ·) ∧
      ∀ a, a ∈ links ↔ ∃ link home, w.links.state.readlink a = some link ∧ documentOf a = some home ∧
        readable home = true ∧ w.links.state.nullified reg a.tumbler = false ∧
          link.Touches ((region.flatMap (w.m5.iterResolve (readingSurface w.m3 d))).map Run.iextent) := by
  obtain ⟨links, hlinks, hasc, hmem⟩ := @Region.selection_spec reg _ hs _
    (Region.extents (region.flatMap (w.m5.iterResolve (readingSurface w.m3 d)))) readable
  have hsame : ∀ q, q ∈ (Region.extents (region.flatMap (w.m5.iterResolve (readingSurface w.m3 d)))).spans ↔
      q ∈ (region.flatMap (w.m5.iterResolve (readingSurface w.m3 d))).map Run.iextent := by
    intro q
    rw [Region.mem_extents, List.mem_map]
  refine ⟨links, by rw [findlinksVOn, imageOn_eq_ok hd h]; exact hlinks, hasc, fun a => ?_⟩
  rw [hmem]
  simp only [Link.Touches, hsame]
