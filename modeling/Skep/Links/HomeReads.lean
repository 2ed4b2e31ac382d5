import Skep.Links.Store

/-!
# What the reads by home answer

Over a sound store the walks over homes answer the documents some link is homed in,
and the reads of one home answer exactly its links that satisfy the constraints.
-/

theorem slotOverlaps_iff {link : Link} {slot : ℕ} {query : Endset} : slotOverlaps link slot query = true ↔
    ∃ e, link.slot slot = some e ∧ ∃ q ∈ query.spans, ∃ s ∈ e.spans, overlaps q s = true := by
  rw [slotOverlaps]
  cases link.slot slot with
  | none => simp
  | some e => simp

namespace LinkStore

variable {reg : TypeRegistry} {st : LinkStore} (hs : st.Sound)

theorem mem_keys {a : Address} : a ∈ st.keys ↔ ∃ l, st.state.readlink a = some l := by
  simp only [keys, List.mem_map, LinkState.readlink, OrdMap.get_eq_some_iff, Prod.exists]
  exact ⟨fun ⟨_, l, hmem, h⟩ => ⟨l, h ▸ hmem⟩, fun ⟨l, hmem⟩ => ⟨a, l, hmem, rfl⟩⟩

/-- Some link is homed in the document. -/
def IsHome (st : LinkStore) (home : Address) : Prop :=
  ∃ a l, st.state.readlink a = some l ∧ documentOf a = some home

include hs

theorem Sound.level_of_isHome {home : Address} (h : st.IsHome home) : home.level = .document := by
  obtain ⟨a, l, ha, hdoc⟩ := h
  obtain ⟨home', hlv, hdoc', -⟩ := hs.homed a l ha
  rw [hdoc] at hdoc'
  cases hdoc'
  exact hlv

theorem Sound.mem_chain {a home : Address} {l : Link} (ha : st.state.readlink a = some l)
    (hdoc : documentOf a = some home) :
    (linkChainBounds home).1 ≤ a.tumbler ∧ a.tumbler < (linkChainBounds home).2 := by
  obtain ⟨home', -, hdoc', hchain⟩ := hs.homed a l ha
  rw [hdoc] at hdoc'
  cases hdoc'
  exact hchain

theorem Sound.homes_spec {ε : Type} : ∃ homes, (st.homes : Outcome ε (OrdSet Address)) = .ok homes ∧
    ∀ home, home ∈ homes ↔ st.IsHome home := by
  obtain ⟨homes, heq, -, hiff⟩ := homesFrom_spec (ε := ε) hs.chained (fun _ => false)
    (fun _ _ _ h => h)
    st.keys.length none (List.length_filter_le _ _)
  refine ⟨.ofList homes, by rw [LinkStore.homes, heq]; rfl, fun home => ?_⟩
  rw [OrdSet.mem_ofList, hiff]
  constructor
  · rintro ⟨-, key, hkey, -, hdoc⟩
    obtain ⟨l, hl⟩ := mem_keys.1 hkey
    exact ⟨key, l, hl, hdoc⟩
  · rintro ⟨a, l, hl, hdoc⟩
    exact ⟨rfl, a, mem_keys.2 ⟨l, hl⟩, fun c hc => (nomatch hc), hdoc⟩

theorem Sound.homesIn_spec {ε : Type} (span : Span) :
    ∃ homes, (st.homesIn span : Outcome ε (List Address)) = .ok homes ∧
      ∀ home, home ∈ homes ↔ st.IsHome home ∧ span.contains home.tumbler = true := by
  have hstop : ∀ a b : Address, a ≤ b → decide (span.reach ≤ a.tumbler) = true →
      decide (span.reach ≤ b.tumbler) = true := fun a b hab h =>
    decide_eq_true ((of_decide_eq_true h).trans hab)
  obtain ⟨homes, heq, -, hiff⟩ := homesFrom_spec (ε := ε) hs.chained _ hstop
    st.keys.length (some span.start) (List.length_filter_le _ _)
  refine ⟨_, by rw [LinkStore.homesIn, heq]; rfl, fun home => ?_⟩
  rw [List.mem_filter, hiff, decide_eq_true_eq, decide_eq_false_iff_not, not_le, Span.contains_iff]
  constructor
  · rintro ⟨⟨hlt, key, hkey, -, hdoc⟩, hle⟩
    obtain ⟨l, hl⟩ := mem_keys.1 hkey
    exact ⟨⟨key, l, hl, hdoc⟩, hle, hlt⟩
  · rintro ⟨⟨a, l, hl, hdoc⟩, hle, hlt⟩
    refine ⟨⟨hlt, a, mem_keys.2 ⟨l, hl⟩, fun c hc => ?_, hdoc⟩, hle⟩
    cases hc
    exact hle.trans ((lt_linkChain home).le.trans (hs.mem_chain hl hdoc).1)

theorem Sound.homesUnder_spec {ε : Type} (query : Endset) :
    ∃ homes, (st.homesUnder query : Outcome ε (OrdSet Address)) = .ok homes ∧
      ∀ home, home ∈ homes ↔ st.IsHome home ∧ ∃ s ∈ query.spans, s.contains home.tumbler = true := by
  obtain ⟨lists, heq, hsound, hcomplete⟩ := Outcome.exists_mapM_mem (l := query.spans)
    fun span _ => hs.homesIn_spec (ε := ε) span
  refine ⟨.ofList lists.flatten, by rw [homesUnder, heq]; rfl, fun home => ?_⟩
  rw [OrdSet.mem_ofList, List.mem_flatten]
  constructor
  · rintro ⟨homes, hmem, hhome⟩
    obtain ⟨s, hspan, hiff⟩ := hsound homes hmem
    exact ⟨((hiff home).1 hhome).1, s, hspan, ((hiff home).1 hhome).2⟩
  · rintro ⟨hhome, s, hspan, hin⟩
    obtain ⟨homes, hmem, hiff⟩ := hcomplete s hspan
    exact ⟨homes, hmem, (hiff home).2 ⟨hhome, hin⟩⟩

/-- The links of a document that satisfy every constraint. -/
theorem Sound.homedIn_spec {ε : Type} (reg : TypeRegistry) {home : Address} (hlv : home.level = .document)
    (constraints : List (ℕ × Endset)) (view : View) :
    ∃ links, (st.homedIn reg home constraints view : Outcome ε (OrdSet Address)) = .ok links ∧
      ∀ a, a ∈ links ↔ ∃ l, st.state.readlink a = some l ∧ documentOf a = some home ∧
        st.met reg view a = true ∧ ∀ c ∈ constraints, slotOverlaps l c.1 c.2 = true := by
  refine ⟨_, by rw [homedIn, Outcome.require, if_pos (documentOf_of_document hlv)]; rfl, fun a => ?_⟩
  rw [OrdSet.mem_ofList]
  simp only [List.mem_map, List.mem_filter, Bool.and_eq_true, decide_eq_true_eq, List.all_eq_true,
    Prod.exists, LinkState.readlink, OrdMap.get_eq_some_iff]
  constructor
  · rintro ⟨a, l, ⟨hmem, ⟨hchain, hmet⟩, hall⟩, rfl⟩
    exact ⟨l, hmem, documentOf_of_linkChain hlv hchain, hmet, fun c hc => hall c hc⟩
  · rintro ⟨l, hmem, hdoc, hmet, hall⟩
    exact ⟨a, l, ⟨hmem, ⟨hs.mem_chain (OrdMap.get_eq_some_iff.2 hmem) hdoc, hmet⟩, hall⟩, rfl⟩

omit hs

/-- The spans of a slot as the spanfilade holds them. -/
theorem spansAt_iff {home a : Address} {i position : ℕ} {s : Span} :
    Spanfilade.spansAt (Stored st.state) position home a i s ↔ ∃ l e, st.state.readlink a = some l ∧
      documentOf a = some home ∧ l.slots[position]? = some e ∧ e.spans[i]? = some s := by
  constructor
  · rintro ⟨l, e, ⟨hl, hdoc⟩, he, hs⟩
    exact ⟨l, e, hl, hdoc, he, hs⟩
  · rintro ⟨l, e, hl, hdoc, he, hs⟩
    exact ⟨l, e, ⟨hl, hdoc⟩, he, hs⟩

theorem slot_eq {slot : ℕ} (hslot : slot ≠ 0) :
    (st.spanfilade.slot slot).getD .empty = Spanfilade.indexAt st.spanfilade.slots (slot - 1) := by
  rw [Spanfilade.slot, if_neg hslot, Spanfilade.indexAt]

theorem Link.slot_eq {l : Link} {slot : ℕ} (hslot : slot ≠ 0) : l.slot slot = l.slots[slot - 1]? := by
  rw [Link.slot, if_neg hslot]

include hs

/-- A stab of a home answers its links whose slot has a span that shares a tumbler with one given. -/
theorem Sound.mem_stabIn {home a : Address} {slot : ℕ} {query : List Span} {view : View} :
    a ∈ st.stabIn reg home slot query view ↔ ∃ l, st.state.readlink a = some l ∧
      documentOf a = some home ∧ st.met reg view a = true ∧ slotOverlaps l slot ⟨query⟩ = true := by
  have hiff : ∀ idx, (st.spanfilade.slot slot).getD .empty = idx → (a ∈ (OrdSet.ofList
      ((query.flatMap (idx.stabIn home)).filter (st.met reg view)) : OrdSet Address) ↔
        ∃ l, st.state.readlink a = some l ∧ documentOf a = some home ∧ st.met reg view a = true ∧
          slotOverlaps l slot ⟨query⟩ = true) := by
    rintro idx rfl
    by_cases hslot : slot = 0
    · subst hslot
      have hnone : (st.spanfilade.slot 0).getD .empty = .empty := rfl
      simp only [hnone, OrdSet.mem_ofList, List.mem_filter, List.mem_flatMap,
        SlotIndex.files_empty.mem_stabIn, slotOverlaps_iff, Link.slot]
      simp
    · have hfiles := hs.filed.slots (slot - 1)
      rw [← slot_eq hslot] at hfiles
      simp only [OrdSet.mem_ofList, List.mem_filter, List.mem_flatMap, hfiles.mem_stabIn,
        spansAt_iff, slotOverlaps_iff, Link.slot_eq hslot]
      constructor
      · rintro ⟨⟨q, hq, i, s, ⟨l, e, hl, hdoc, he, hi⟩, hover⟩, hmet⟩
        exact ⟨l, hl, hdoc, hmet, e, he, q, hq, s, List.mem_of_getElem? hi, hover⟩
      · rintro ⟨l, hl, hdoc, hmet, e, he, q, hq, s, hmem, hover⟩
        obtain ⟨i, hi⟩ := List.mem_iff_getElem?.1 hmem
        exact ⟨⟨q, hq, i, s, ⟨l, e, hl, hdoc, he, hi⟩, hover⟩, hmet⟩
  rw [stabIn]
  by_cases hhome : home ∈ st.spanfilade.homes
  · rw [if_pos hhome]
    cases hidx : st.spanfilade.slot slot with
    | none =>
      rw [← hiff .empty (by rw [hidx]; rfl)]
      simp [SlotIndex.files_empty.mem_stabIn]
    | some idx => exact hiff idx (by rw [hidx]; rfl)
  · rw [if_neg hhome]
    simp only [OrdSet.not_mem_empty, false_iff, not_exists, not_and]
    intro l hl hdoc
    exact absurd (hs.filed.homes home a l ⟨hl, hdoc⟩) hhome

omit hs

/-- Each constraint keeps the links that satisfy it. -/
theorem foldlM_keep_spec {ε : Type} (rest : List (ℕ × Endset)) (acc : OrdSet Address)
    (hacc : ∀ a ∈ acc, ∃ l, st.state.readlink a = some l) :
    ∃ links, (rest.foldlM (fun acc c => do
        let kept ← Outcome.keepM (fun a => do
          let link ← Outcome.expectSome (st.state.readlink a)
          return slotOverlaps link c.1 c.2) acc.elems
        return .ofList kept) acc : Outcome ε (OrdSet Address)) = .ok links ∧
      ∀ a, a ∈ links ↔ a ∈ acc ∧ ∀ l, st.state.readlink a = some l →
        ∀ c ∈ rest, slotOverlaps l c.1 c.2 = true := by
  induction rest generalizing acc with
  | nil => exact ⟨acc, rfl, fun a => by simp⟩
  | cons c rest ih =>
    have hkeep : (Outcome.keepM (fun a => do
        let link ← Outcome.expectSome (st.state.readlink a)
        return slotOverlaps link c.1 c.2) acc.elems : Outcome ε (List Address)) =
          .ok (acc.elems.filter fun a => (st.state.readlink a).any fun l => slotOverlaps l c.1 c.2) := by
      refine Outcome.keepM_eq_filter fun a ha => ?_
      obtain ⟨l, hl⟩ := hacc a ha
      rw [hl]
      rfl
    obtain ⟨links, heq, hiff⟩ := ih (.ofList (acc.elems.filter fun a =>
      (st.state.readlink a).any fun l => slotOverlaps l c.1 c.2)) fun a ha =>
        hacc a (List.mem_filter.1 (OrdSet.mem_ofList.1 ha)).1
    refine ⟨links, by rw [List.foldlM_cons, hkeep]; exact heq, fun a => ?_⟩
    rw [hiff, OrdSet.mem_ofList, List.mem_filter, OrdSet.mem_elems, and_assoc]
    refine and_congr_right fun ha => ?_
    obtain ⟨l, hl⟩ := hacc a ha
    simp only [hl, Option.any_some, Option.some.injEq, forall_eq', List.forall_mem_cons]

include hs

/-- The links of a home a driver's spans hit that satisfy the other constraints. -/
theorem Sound.matchLinksIn_spec {ε : Type} (reg : TypeRegistry) (home : Address) (slot : ℕ) (query : List Span)
    (rest : List (ℕ × Endset)) (view : View) :
    ∃ links, (st.matchLinksIn reg home (slot, query) rest view : Outcome ε (OrdSet Address)) = .ok links ∧
      ∀ a, a ∈ links ↔ ∃ l, st.state.readlink a = some l ∧ documentOf a = some home ∧
        st.met reg view a = true ∧ slotOverlaps l slot ⟨query⟩ = true ∧
          ∀ c ∈ rest, slotOverlaps l c.1 c.2 = true := by
  obtain ⟨links, heq, hiff⟩ := foldlM_keep_spec (ε := ε) rest (st.stabIn reg home slot query view) fun a ha => by
    obtain ⟨l, hl, -⟩ := hs.mem_stabIn.1 ha
    exact ⟨l, hl⟩
  refine ⟨links, heq, fun a => ?_⟩
  rw [hiff, hs.mem_stabIn]
  constructor
  · rintro ⟨⟨l, hl, hdoc, hmet, hover⟩, hall⟩
    exact ⟨l, hl, hdoc, hmet, hover, hall l hl⟩
  · rintro ⟨l, hl, hdoc, hmet, hover, hall⟩
    refine ⟨⟨l, hl, hdoc, hmet, hover⟩, fun l' hl' => ?_⟩
    rw [hl] at hl'
    cases hl'
    exact hall

end LinkStore
