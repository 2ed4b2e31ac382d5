import Skep.Links.Hints
import Skep.Links.SlotStabs

/-!
# The index and the scan

Every read of the link store that goes through the spanfilade or through the ranges of its keys
answers what a scan of the stored links does.

## Main results

- `LinkStore.Sound.stab_spec`, `LinkStore.Sound.matchLinks_spec` — the reads answer the scan
- `spanfilade_exact` — so does every read, in every reachable store, and the index is a function
  of the links
-/

/-- Some span of the slot shares a tumbler with some span of the query. -/
def Link.Meets (link : Link) (slot : ℕ) (query : Endset) : Prop :=
  ∃ e, link.slot slot = some e ∧ ∃ q ∈ query.spans, ∃ s ∈ e.spans,
    ∃ t, q.contains t = true ∧ s.contains t = true

theorem Link.meets_iff {link : Link} {slot : ℕ} {query : Endset} :
    link.Meets slot query ↔ slotOverlaps link slot query = true := by
  simp only [Link.Meets, slotOverlaps_iff, overlaps_iff]

namespace LinkStore

variable (reg : TypeRegistry) (st : LinkStore)

/-- The links whose slot a query hits: the homes it touches, and the stab of each. -/
def stab {ε : Type} (slot : ℕ) (query : Endset) (view : View) : Outcome ε (OrdSet Address) := do
  let touches ← st.homesTouching [(slot, query)]
  return .ofList (touches.flatMap fun touch => (st.stabIn reg touch.home slot (touch.spans 0) view).elems)

/-- Every link a view meets. -/
def scan (view : View) : OrdSet Address := .ofList (st.keys.filter (st.met reg view))

/-- The links that satisfy every constraint: one is stabbed, the others keep what satisfies them. -/
def matchDriven {ε : Type} (driver : ℕ) (constraints : List (ℕ × Endset)) (view : View) :
    Outcome ε (OrdSet Address) := do
  let c ← Outcome.expectSome constraints[driver]?
  let acc ← st.stab reg c.1 c.2 view
  (constraints.eraseIdx driver).foldlM (fun acc c => do
    let kept ← Outcome.keepM (fun a => do
      let link ← Outcome.expectSome (st.state.readlink a)
      return slotOverlaps link c.1 c.2) acc.elems
    return .ofList kept) acc

/-- The links that satisfy every constraint, driven by the one with the fewest homes. -/
def matchLinks {ε : Type} (constraints : List (ℕ × Endset)) (view : View) : Outcome ε (OrdSet Address) :=
  if constraints.isEmpty then return st.scan reg view
  else do
    let driver ← st.fewestHomes constraints
    st.matchDriven reg driver constraints view

/-- A link that a scan of the store for some constraints answers. -/
structure Scanned (constraints : List (ℕ × Endset)) (view : View) (a : Address) : Prop where
  met : st.met reg view a = true
  meets : ∃ l, st.state.readlink a = some l ∧ ∀ c ∈ constraints, l.Meets c.1 c.2

variable {reg st} (hs : st.Sound)

theorem scanned_singleton {slot : ℕ} {query : Endset} {view : View} {a : Address} :
    st.Scanned reg [(slot, query)] view a ↔
      st.met reg view a = true ∧ ∃ l, st.state.readlink a = some l ∧ slotOverlaps l slot query = true := by
  constructor
  · rintro ⟨hmet, l, hl, hmeets⟩
    exact ⟨hmet, l, hl, Link.meets_iff.1 (hmeets _ List.mem_cons_self)⟩
  · rintro ⟨hmet, l, hl, hover⟩
    refine ⟨hmet, l, hl, fun c hc => ?_⟩
    rw [List.mem_singleton.1 hc]
    exact Link.meets_iff.2 hover

include hs

/-- A stab answers the scan. -/
theorem Sound.stab_spec {ε : Type} (slot : ℕ) (query : Endset) (view : View) :
    ∃ links, (st.stab reg slot query view : Outcome ε (OrdSet Address)) = .ok links ∧
      ∀ a, a ∈ links ↔ st.Scanned reg [(slot, query)] view a := by
  obtain ⟨touches, htouches, -, hnamed, hfind⟩ := hs.homesTouching_spec (ε := ε) [(slot, query)]
  refine ⟨_, by rw [stab, htouches]; rfl, fun a => ?_⟩
  simp only [OrdSet.mem_ofList, List.mem_flatMap, OrdSet.mem_elems, hs.mem_stabIn, scanned_singleton]
  constructor
  · rintro ⟨touch, htouch, l, hl, -, hmet, hover⟩
    obtain ⟨e, he, q, hq, s, hspan, hover⟩ := slotOverlaps_iff.1 hover
    obtain ⟨⟨q', parts⟩, hname, rfl⟩ := List.mem_map.1 hq
    obtain ⟨query', hquery, hq⟩ := hnamed touch htouch 0 parts q' (Touch.mem_namedAt.1 hname)
    cases hquery
    exact ⟨hmet, l, hl, slotOverlaps_iff.2 ⟨e, he, q', hq, s, hspan, hover⟩⟩
  · rintro ⟨hmet, l, hl, hover⟩
    obtain ⟨e, he, q, hq, s, hspan, hover⟩ := slotOverlaps_iff.1 hover
    obtain ⟨home, -, hdoc, -⟩ := hs.homed a l hl
    obtain ⟨touch, htouch, hhome, parts, hname, -⟩ := hfind 0 _ rfl q hq home a ⟨⟨l, hl, e, he, s, hspan, hover⟩, hdoc⟩
    subst hhome
    refine ⟨touch, htouch, l, hl, hdoc, hmet, slotOverlaps_iff.2 ⟨e, he, q, ?_, s, hspan, hover⟩⟩
    exact List.mem_map.2 ⟨(q, parts), Touch.mem_namedAt.2 hname, rfl⟩

/-- Whichever constraint drives, the links that satisfy every constraint are those of the scan. -/
theorem Sound.matchDriven_spec {ε : Type} {driver : ℕ} {constraints : List (ℕ × Endset)}
    (hdriver : driver < constraints.length) (view : View) :
    ∃ links, (st.matchDriven reg driver constraints view : Outcome ε (OrdSet Address)) = .ok links ∧
      ∀ a, a ∈ links ↔ st.Scanned reg constraints view a := by
  obtain ⟨acc, hacc, hstab⟩ := @Sound.stab_spec reg st hs ε (constraints[driver]).1 (constraints[driver]).2 view
  obtain ⟨links, hlinks, hkept⟩ := foldlM_keep_spec (ε := ε) (constraints.eraseIdx driver) acc fun a ha =>
    (scanned_singleton.1 ((hstab a).1 ha)).2.imp fun l hl => hl.1
  refine ⟨links, ?_, fun a => ?_⟩
  · rw [matchDriven, List.getElem?_eq_getElem hdriver]
    exact Outcome.bind_eq_ok_iff.2 ⟨_, rfl, Outcome.bind_eq_ok_iff.2 ⟨acc, hacc, hlinks⟩⟩
  · have hparts := List.getElem_cons_eraseIdx_perm hdriver
    rw [hkept, hstab, scanned_singleton]
    constructor
    · rintro ⟨⟨hmet, l, hl, hover⟩, hall⟩
      refine ⟨hmet, l, hl, fun c hc => Link.meets_iff.2 ?_⟩
      rcases List.mem_cons.1 (hparts.mem_iff.2 hc) with rfl | hrest
      · exact hover
      · exact hall l hl c hrest
    · rintro ⟨hmet, l, hl, hmeets⟩
      refine ⟨⟨hmet, l, hl, Link.meets_iff.1 (hmeets _ (List.getElem_mem hdriver))⟩, fun l' hl' c hc => ?_⟩
      rw [hl] at hl'
      cases hl'
      exact Link.meets_iff.1 (hmeets c (hparts.mem_iff.1 (List.mem_cons_of_mem _ hc)))

/-- The links that satisfy every constraint are those of the scan. -/
theorem Sound.matchLinks_spec {ε : Type} (constraints : List (ℕ × Endset)) (view : View) :
    ∃ links, (st.matchLinks reg constraints view : Outcome ε (OrdSet Address)) = .ok links ∧
      (∀ a, a ∈ links ↔ st.Scanned reg constraints view a) ∧
      ∀ driver < constraints.length,
        (st.matchDriven reg driver constraints view : Outcome ε (OrdSet Address)) = .ok links := by
  cases constraints with
  | nil =>
    refine ⟨st.scan reg view, rfl, fun a => ?_, fun driver h => absurd h (Nat.not_lt_zero _)⟩
    rw [scan, OrdSet.mem_ofList, List.mem_filter, mem_keys]
    exact ⟨fun ⟨⟨l, hl⟩, hmet⟩ => ⟨hmet, l, hl, fun c hc => absurd hc List.not_mem_nil⟩,
      fun ⟨hmet, l, hl, _⟩ => ⟨⟨l, hl⟩, hmet⟩⟩
  | cons c rest =>
    obtain ⟨driver, hdriver, hlt⟩ := hs.fewestHomes_spec (ε := ε) (List.cons_ne_nil c rest)
    obtain ⟨links, hlinks, hiff⟩ := @Sound.matchDriven_spec reg st hs ε driver (c :: rest) hlt view
    refine ⟨links, ?_, hiff, fun driver' hlt' => ?_⟩
    · rw [matchLinks, List.isEmpty_cons, if_neg (by decide)]
      exact Outcome.bind_eq_ok_iff.2 ⟨driver, hdriver, hlinks⟩
    · obtain ⟨links', hlinks', hiff'⟩ := @Sound.matchDriven_spec reg st hs ε driver' (c :: rest) hlt' view
      have hsame : links' = links := OrdSet.ext_mem fun a => (hiff' a).trans (hiff a).symm
      rw [hlinks', hsame]

/-- Over the homes that touch some queries, the ways that named a home find exactly its hits. -/
theorem Sound.touch_spec {ε : Type} (queries : List (ℕ × Endset)) :
    ∃ touches, (st.homesTouching queries : Outcome ε (List Touch)) = .ok touches ∧
      (touches.map Touch.home).Pairwise (· < ·) ∧
      (∀ c ∈ queries, ∀ a home, st.Scanned reg [c] .audit a → documentOf a = some home →
        ∃ touch ∈ touches, touch.home = home) ∧
      ∀ touch ∈ touches, ∀ (view : View) (probes : List (ℕ × ℕ)),
        (∀ p ∈ probes, ∃ query, queries[p.2]? = some (p.1, query)) → ∀ a slot,
        ((a, slot) ∈ st.stabInSlots reg touch probes view ↔ documentOf a = some touch.home ∧
          ∃ pair query, (slot, pair) ∈ probes ∧ queries[pair]? = some (slot, query) ∧
            st.Scanned reg [(slot, query)] view a) := by
  obtain ⟨touches, htouches, hasc, -⟩ := @Sound.stabInSlots_spec reg st hs ε queries .audit
  -- the touches do not depend on the view
  have hstab : ∀ view, ∀ probes : List (ℕ × ℕ), (∀ p ∈ probes, ∃ query, queries[p.2]? = some (p.1, query)) →
      ∀ home a, (∃ touch ∈ touches, touch.home = home ∧ ∃ slot, (a, slot) ∈ st.stabInSlots reg touch probes view) ↔
        ∃ link, st.state.readlink a = some link ∧ documentOf a = some home ∧ st.met reg view a = true ∧
          ∃ p ∈ probes, ∃ query, queries[p.2]? = some (p.1, query) ∧ slotOverlaps link p.1 query = true := by
    intro view
    obtain ⟨touches', htouches', -, hspec⟩ := @Sound.stabInSlots_spec reg st hs ε queries view
    rw [htouches, Outcome.ok.injEq] at htouches'
    rwa [← htouches'] at hspec
  have hone : ∀ (slot pair : ℕ) (query : Endset), queries[pair]? = some (slot, query) →
      ∀ p ∈ [(slot, pair)], ∃ query, queries[p.2]? = some (p.1, query) := by
    intro slot pair query hquery p hp
    rw [List.mem_singleton.1 hp]
    exact ⟨query, hquery⟩
  refine ⟨touches, htouches, hasc, ?_, ?_⟩
  · rintro ⟨slot, query⟩ hc a home hscanned hdoc
    obtain ⟨pair, hquery⟩ := List.mem_iff_getElem?.1 hc
    obtain ⟨hmet, l, hl, hover⟩ := scanned_singleton.1 hscanned
    obtain ⟨touch, htouch, hhome, -⟩ := (hstab .audit _ (hone slot pair query hquery) home a).2
      ⟨l, hl, hdoc, hmet, _, List.mem_singleton_self _, query, hquery, hover⟩
    exact ⟨touch, htouch, hhome⟩
  · intro touch htouch view probes hprobes a slot
    have hsame : ∀ touch' ∈ touches, touch'.home = touch.home → touch' = touch := fun touch' htouch' heq =>
      List.inj_on_of_nodup_map (hasc.imp ne_of_lt) htouch' htouch heq
    rw [mem_stabInSlots]
    constructor
    · rintro ⟨hmet, pair, hprobe, hfound⟩
      obtain ⟨query, hquery⟩ := hprobes _ hprobe
      obtain ⟨l, hl, hdoc, -, p, hp, query', hquery', hover⟩ :=
        (hstab view _ (hone slot pair query hquery) touch.home a).1 ⟨touch, htouch, rfl, slot,
          mem_stabInSlots.2 ⟨hmet, pair, List.mem_singleton_self _, hfound⟩⟩
      obtain rfl := List.mem_singleton.1 hp
      exact ⟨hdoc, pair, query', hprobe, hquery', scanned_singleton.2 ⟨hmet, l, hl, hover⟩⟩
    · rintro ⟨hdoc, pair, query, hprobe, hquery, hscanned⟩
      obtain ⟨hmet, l, hl, hover⟩ := scanned_singleton.1 hscanned
      obtain ⟨touch', htouch', hhome, slot', hmem⟩ := (hstab view _ (hone slot pair query hquery) touch.home a).2
        ⟨l, hl, hdoc, hmet, _, List.mem_singleton_self _, query, hquery, hover⟩
      obtain rfl := hsame touch' htouch' hhome
      obtain ⟨-, pair', hprobe', hfound⟩ := mem_stabInSlots.1 hmem
      cases List.mem_singleton.1 hprobe'
      exact ⟨hmet, pair, hprobe, hfound⟩

end LinkStore

/-- **The index agrees with the scan.** In every store that a run of deposits reaches: a stab
answers the scan of its slot, in either view; the homes that touch some queries come once and in
order, a home of every hit among them, and the ways that named a home find exactly its hits;
the links that satisfy several constraints are those of the scan, whichever constraint drives;
the homes under a query, and the links of a home, are those of the residents; and the hints are
those a load computes from the links, whatever the order of the deposits. -/
theorem spanfilade_exact {reg : TypeRegistry} {st : LinkStore} {m3 : M3State}
    (h : LinkStore.Reachable reg st m3) :
    (∀ slot query view, ∃ links, (st.stab reg slot query view : Outcome Empty (OrdSet Address)) = .ok links ∧
      ∀ a, a ∈ links ↔ st.Scanned reg [(slot, query)] view a) ∧
    (∀ queries, ∃ touches, (st.homesTouching queries : Outcome Empty (List Touch)) = .ok touches ∧
      (touches.map Touch.home).Pairwise (· < ·) ∧
      (∀ c ∈ queries, ∀ a home, st.Scanned reg [c] .audit a → documentOf a = some home →
        ∃ touch ∈ touches, touch.home = home) ∧
      ∀ touch ∈ touches, ∀ (view : View) (probes : List (ℕ × ℕ)),
        (∀ p ∈ probes, ∃ query, queries[p.2]? = some (p.1, query)) → ∀ a slot,
        ((a, slot) ∈ st.stabInSlots reg touch probes view ↔ documentOf a = some touch.home ∧
          ∃ pair query, (slot, pair) ∈ probes ∧ queries[pair]? = some (slot, query) ∧
            st.Scanned reg [(slot, query)] view a)) ∧
    (∀ constraints view, ∃ links,
      (st.matchLinks reg constraints view : Outcome Empty (OrdSet Address)) = .ok links ∧
      (∀ a, a ∈ links ↔ st.Scanned reg constraints view a) ∧ ∀ driver < constraints.length,
        (st.matchDriven reg driver constraints view : Outcome Empty (OrdSet Address)) = .ok links) ∧
    (∀ query, ∃ homes, (st.homesUnder query : Outcome Empty (OrdSet Address)) = .ok homes ∧
      ∀ home, home ∈ homes ↔ (∃ a l, st.state.readlink a = some l ∧ documentOf a = some home) ∧
        ∃ span ∈ query.spans, span.contains home.tumbler = true) ∧
    (∀ home : Address, home.level = .document → ∀ constraints view, ∃ links,
      (st.homedIn reg home constraints view : Outcome Empty (OrdSet Address)) = .ok links ∧
      ∀ a, a ∈ links ↔ documentOf a = some home ∧ st.Scanned reg constraints view a) ∧
    ∃ (recs : List (Address × Link)) (s : HintedLinks),
      (recs.foldlM (fun s e => s.applyLink reg (.deposit e.1 e.2)) HintedLinks.genesis :
        Outcome Empty HintedLinks) = .ok s ∧
      s.links = st.state.links ∧ s.hints.spanfilade = st.spanfilade ∧ s.hints.Derived reg st.state ∧
      (HintedLinks.rebuildDerived reg s.links : Outcome Empty HintedLinks) = .ok s ∧
      ∀ recs', recs.Perm recs' → (recs'.foldlM (fun s e => s.applyLink reg (.deposit e.1 e.2))
        HintedLinks.genesis : Outcome Empty HintedLinks) = .ok s := by
  have hs := h.sound
  refine ⟨hs.stab_spec, hs.touch_spec, hs.matchLinks_spec, hs.homesUnder_spec, fun home hlv constraints view => ?_, ?_⟩
  · obtain ⟨links, hlinks, hiff⟩ := hs.homedIn_spec (ε := Empty) reg hlv constraints view
    refine ⟨links, hlinks, fun a => (hiff a).trans ?_⟩
    constructor
    · rintro ⟨l, hl, hdoc, hmet, hall⟩
      exact ⟨hdoc, hmet, l, hl, fun c hc => Link.meets_iff.2 (hall c hc)⟩
    · rintro ⟨hdoc, hmet, l, hl, hmeets⟩
      exact ⟨l, hl, hdoc, hmet, fun c hc => Link.meets_iff.1 (hmeets c hc)⟩
  · obtain ⟨recs, s, hfold, hlinks, hfiled, hderived⟩ := h.exists_deposits
    obtain ⟨hrebuilt, hany⟩ := HintedLinks.rebuild_exact hfold
    exact ⟨recs, s, hfold, hlinks, hfiled, hderived, hrebuilt, hany⟩

private def fromHeadLink : Link := ⟨enc [headDocument], enc [], enc [headDocument]⟩

/-- A link from the head document, deposited at genesis. -/
private def depositedFrom : Outcome Empty (Address × LinkStore × M3State) := do
  let (addr, r) ← (M3State.genesis.mintLink headDocument).expect
  let m3 ← M3State.genesis.applyM3 1 r
  let st ← LinkStore.genesis.applyLink TypeRegistry.build (.deposit addr fromHeadLink)
  return (addr, st, m3)

private def scannedOne : Address × LinkStore × M3State :=
  match depositedFrom with
  | .ok one => one
  | .err _ | .fault => (headDocument, .genesis, .genesis)

private theorem reachable_scannedOne : scannedOne.2.1.Reachable TypeRegistry.build scannedOne.2.2 := by
  have hok : depositedFrom.isOk = true := by decide +kernel
  obtain ⟨⟨addr, st, m3⟩, hone⟩ := Outcome.isOk_iff.1 hok
  have heq : scannedOne = (addr, st, m3) := by rw [scannedOne, hone]
  rw [heq]
  simp only [depositedFrom, Outcome.bind_eq_ok_iff, Outcome.expect_eq_ok_iff, Outcome.pure_eq,
    Outcome.ok.injEq, Prod.mk.injEq, Prod.exists] at hone
  obtain ⟨addr', r, hmint, m3', hm3, st', hst, rfl, rfl, rfl⟩ := hone
  exact .deposit .genesis hmint hm3 hst

theorem spanfilade_exact_one : ∃ links,
    (scannedOne.2.1.stab TypeRegistry.build FROM (enc [headDocument]) .active : Outcome Empty (OrdSet Address)) =
      .ok links ∧ scannedOne.1 ∈ links := by
  obtain ⟨links, hlinks, hiff⟩ := (spanfilade_exact reachable_scannedOne).1 FROM (enc [headDocument]) .active
  refine ⟨links, hlinks, (hiff _).2 ⟨by decide +kernel, fromHeadLink, by decide +kernel, fun c hc => ?_⟩⟩
  rw [List.mem_singleton.1 hc]
  exact Link.meets_iff.2 (by decide +kernel)
