import Skep.Dump.Filter
import Skep.Namespace.Documents

/-!
# What a reader's dump discloses

Two worlds that agree on everything a reader reads have one dump at that reader. What the
reader does not read may differ in any way, and it leaves no trace in the hints either.

## Main results

- `Dump.World.shown_spec` — what the unfiltered dump writes
- `Dump.dumpVisible_spec` — what a reader's dump writes
- `Dump.World.Shows.restrict_congr` — worlds that agree show a reader the same entries
- `Dump.filterTree_visible` — a reader's dump discloses only what the reader reads
-/

namespace Dump

section

variable (reg : TypeRegistry) (readable : Address → Bool)

/-- A link that the reader reads, operative, that has the one superseded by the other. -/
def EdgeClaimed (links : LinkState) (old new : Address) : Prop :=
  ∃ claim l, links.IsOperative reg claim l ∧ old.tumbler ∈ l.fromSlot.addrs ∧ new.tumbler ∈ l.toSlot.addrs ∧
    documentReadable readable claim = true

/-- A tuple that the reader reads, of the row's class under its view, about the member. -/
def MemberAsserted (links : LinkState) (ty : ShippedType) (view : View) (member : Address) : Prop :=
  ∃ e ∈ links.typedLinks reg (reg.shippedClass ty) view,
    member.tumbler ∈ e.2.fromSlot.addrs ∧ documentReadable readable e.1 = true

variable {reg readable}

/-- The rows that the links of a slice are read into. -/
theorem exists_rows {β : Type} {links : LinkState} {slice : List Address}
    (hslice : ∀ a ∈ slice, ∃ l, links.readlink a = some l) (row : Address → Link → List β) :
    ∃ rows : List (List β), (slice.mapM fun a => do
        let link ← Outcome.expectSome (links.readlink a)
        return row a link : Outcome Empty (List (List β))) = .ok rows ∧
      ∀ b, b ∈ rows.flatten ↔ ∃ a ∈ slice, ∃ l, links.readlink a = some l ∧ b ∈ row a l := by
  refine ⟨slice.map fun a => ((links.readlink a).map (row a)).getD [], Outcome.mapM_eq_ok fun a ha => ?_, fun b => ?_⟩
  · obtain ⟨l, hl⟩ := hslice a ha
    rw [hl]
    rfl
  · rw [← List.flatMap_def, List.mem_flatMap]
    refine exists_congr fun a => and_congr_right fun ha => ?_
    obtain ⟨l, hl⟩ := hslice a ha
    simp [hl]

theorem supEdgeClaims_spec (links : LinkState) : ∃ claims, supEdgeClaims reg links = .ok claims ∧
    ∀ old new claim, ((old, new), claim) ∈ claims ↔
      ∃ l, links.IsOperative reg claim l ∧ old ∈ l.fromSlot.addrs ∧ new ∈ l.toSlot.addrs := by
  have hslice : links.typeSliceOf reg (reg.reservedType .supersedes) .audit =
      (.ok ((links.typedLinks reg (reg.shippedClass .supersedes) .audit).map Prod.fst) :
        Outcome Empty (List Address)) := by
    rw [LinkState.typeSliceOf, reg.coverageClass_reservedType]
    rfl
  have hop : ∀ claim, claim ∈ ((links.typedLinks reg (reg.shippedClass .supersedes) .audit).map Prod.fst).filter
      (fun claim => !links.nullified reg claim.tumbler) ↔ ∃ l, links.IsOperative reg claim l := by
    intro claim
    simp only [List.mem_filter, List.mem_map, LinkState.mem_typedLinks, Bool.not_eq_true']
    constructor
    · rintro ⟨⟨e, ⟨hl, hc, -⟩, rfl⟩, hn⟩
      exact ⟨e.2, hl, hc, hn⟩
    · rintro ⟨l, hl, hc, hn⟩
      exact ⟨⟨(claim, l), ⟨hl, hc, nofun⟩, rfl⟩, hn⟩
  obtain ⟨rows, hrows, hmem⟩ := exists_rows (fun claim hclaim => by
      obtain ⟨l, hl⟩ := (hop claim).1 hclaim
      exact ⟨l, hl.1⟩)
    fun claim link => link.fromSlot.addrs.flatMap fun old => link.toSlot.addrs.map fun new => ((old, new), claim)
  refine ⟨rows.flatten, ?_, fun old new claim => ?_⟩
  · rw [supEdgeClaims, hslice, Outcome.ok_bind, hrows]
    rfl
  · rw [hmem]
    constructor
    · rintro ⟨a, ha, l, hl, hrow⟩
      obtain ⟨l', hl'⟩ := (hop a).1 ha
      simp only [List.mem_flatMap, List.mem_map, Prod.mk.injEq] at hrow
      obtain ⟨_, hold, _, hnew, ⟨rfl, rfl⟩, rfl⟩ := hrow
      have heq : l' = l := Option.some.inj (hl'.1.symm.trans hl)
      exact ⟨l, heq ▸ hl', hold, hnew⟩
    · rintro ⟨l, hl, hold, hnew⟩
      refine ⟨claim, (hop claim).2 ⟨l, hl⟩, l, hl.1, ?_⟩
      exact List.mem_flatMap.2 ⟨old, hold, List.mem_map.2 ⟨new, hnew, rfl⟩⟩

theorem memberTuples_spec (links : LinkState) (ty : ShippedType) (view : View) :
    ∃ tuples, memberTuples reg links (reg.reservedType ty) view = .ok tuples ∧
      ∀ t a, (t, a) ∈ tuples ↔
        ∃ e ∈ links.typedLinks reg (reg.shippedClass ty) view, e.1 = a ∧ t ∈ e.2.fromSlot.addrs := by
  have hslice : links.typeSliceOf reg (reg.reservedType ty) view =
      (.ok ((links.typedLinks reg (reg.shippedClass ty) view).map Prod.fst) : Outcome Empty (List Address)) := by
    rw [LinkState.typeSliceOf, reg.coverageClass_reservedType]
    rfl
  have hread : ∀ a ∈ (links.typedLinks reg (reg.shippedClass ty) view).map Prod.fst,
      ∃ l, links.readlink a = some l := by
    intro a ha
    obtain ⟨e, he, rfl⟩ := List.mem_map.1 ha
    exact ⟨e.2, (LinkState.mem_typedLinks.1 he).1⟩
  obtain ⟨rows, hrows, hmem⟩ := exists_rows hread fun tuple link => link.fromSlot.addrs.map fun member => (member, tuple)
  refine ⟨rows.flatten, ?_, fun t a => ?_⟩
  · rw [memberTuples, hslice, Outcome.ok_bind, hrows]
    rfl
  · rw [hmem]
    constructor
    · rintro ⟨b, hb, l, hl, hrow⟩
      obtain ⟨e, he, rfl⟩ := List.mem_map.1 hb
      have heq : e.2 = l := Option.some.inj ((LinkState.mem_typedLinks.1 he).1.symm.trans hl)
      obtain ⟨_, ht, hpair⟩ := List.mem_map.1 hrow
      obtain ⟨rfl, rfl⟩ := Prod.mk.inj hpair
      exact ⟨e, he, rfl, heq ▸ ht⟩
    · rintro ⟨e, he, rfl, ht⟩
      exact ⟨e.1, List.mem_map_of_mem he, e.2, (LinkState.mem_typedLinks.1 he).1, List.mem_map.2 ⟨t, ht, rfl⟩⟩

theorem filedReadably_iff {κ : Type} [DecidableEq κ] {filed : List (κ × Address)} {k : κ} :
    filedReadably readable filed k = true ↔ ∃ a, (k, a) ∈ filed ∧ documentReadable readable a = true := by
  rw [filedReadably, List.any_eq_true]
  constructor
  · rintro ⟨e, he, hboth⟩
    obtain ⟨hk, ha⟩ := Bool.and_eq_true_iff.1 hboth
    exact ⟨e.2, by rwa [← eq_of_beq hk], ha⟩
  · rintro ⟨a, ha, hread⟩
    exact ⟨(k, a), ha, by simp [hread]⟩

end

section

variable (reg : TypeRegistry)

/-- The edges of a tree: adjacency lists out of ascending links, none of them empty. -/
structure EdgesOf (asserts : Address → Address → Prop) (edges : List (Address × List Address)) : Prop where
  ascending : OrdMap.Ascending edges
  succs : ∀ e ∈ edges, e.2 ≠ [] ∧ e.2.Pairwise (· < ·) ∧ ∀ new, new ∈ e.2 ↔ asserts e.1 new
  all : ∀ old new, asserts old new → ∃ e ∈ edges, e.1 = old

/-- The entries of a world, each by its own test. -/
structure World.Shows (w : World) (s : Shown) : Prop where
  m3 : s.m3 = w.m3
  content : s.content = w.content.entries
  arrangements : s.arrangements = w.m5.arrangements.entries
  provenance : s.provenance = w.m5.provenance.relation.entries
  birthExtents : s.birthExtents = w.m5.birthExtents
  shotTerms : s.shotTerms = w.m5.shotTerms
  forkSources : s.forkSources = w.m5.forkSources.entries
  arrangedAt : s.arrangedAt = w.m5.arrangedAt.entries
  draftBases : s.draftBases = w.m5.draftBases.entries
  links : s.links = w.links.links.entries
  publication : s.publication = w.m3.privateDocuments
  grants : s.grants = w.grants
  audit : s.audit = w.links.viewSlice reg .audit
  active : s.active = w.links.viewSlice reg .active
  nullified : s.nullified = s.audit.filter fun a => w.links.nullified reg a.tumbler
  classes : s.classes = fun ty view => (w.links.typedLinks reg (reg.shippedClass ty) view).map Prod.fst
  edges : EdgesOf (fun old new => (∃ l, w.links.readlink old = some l) ∧
    w.links.Supersedes reg old.tumbler new.tumbler) s.edges
  members : ∀ ty view, (s.members ty view).Pairwise (· < ·) ∧ ∀ a, a ∈ s.members ty view ↔
    (∃ p ∈ predicateProjections, p.ty = ty ∧ p.view = view) ∧
      ∃ e ∈ w.links.typedLinks reg (reg.shippedClass ty) view, a.tumbler ∈ e.2.fromSlot.addrs
  drafts : s.drafts = w.drafts.entries

variable {reg}

theorem shownEdges_spec {links : LinkState} (hs : links.DenotesAddresses) : ∃ edges,
    shownEdges reg links = .ok edges ∧ EdgesOf (fun old new => (∃ l, links.readlink old = some l) ∧
      links.Supersedes reg old.tumbler new.tumbler) edges := by
  choose succs hsuccs hasc hmem using
    LinkState.succs_spec hs (reg.coverageClass_reservedType .supersedes)
  have hread : (links.viewSlice reg .audit).mapM (fun a => do
      let found ← links.succs reg (reg.reservedType .supersedes) a
      return (a, found)) = .ok ((links.viewSlice reg .audit).map fun a => (a, succs a)) := by
    apply Outcome.mapM_eq_ok
    intro a _
    rw [hsuccs]
    rfl
  have hresident : ∀ a, a ∈ links.viewSlice reg .audit ↔ ∃ l, links.readlink a = some l := by
    intro a
    rw [LinkState.mem_viewSlice]
    exact ⟨And.left, fun h => ⟨h, nofun⟩⟩
  refine ⟨_, by rw [shownEdges, hread]; rfl, ⟨?_, ?_, ?_⟩⟩
  · have hkeys : OrdMap.Ascending ((links.viewSlice reg .audit).map fun a => (a, succs a)) :=
      List.pairwise_map.2 (LinkState.viewSlice_ascending .audit)
    exact hkeys.filter _
  · intro e he
    obtain ⟨he, hne⟩ := List.mem_filter.1 he
    obtain ⟨a, ha, rfl⟩ := List.mem_map.1 he
    refine ⟨by simpa using hne, hasc a, fun new => ?_⟩
    rw [hmem]
    exact ⟨fun h => ⟨(hresident a).1 ha, h⟩, And.right⟩
  · rintro old new ⟨hl, hsup⟩
    refine ⟨(old, succs old), List.mem_filter.2 ⟨List.mem_map_of_mem ((hresident old).2 hl), ?_⟩, rfl⟩
    simpa using List.ne_nil_of_mem ((hmem old new).2 hsup)

/-- The members of each row, as the table's walk reads them. -/
theorem membersOf_spec {links : LinkState} (hs : links.DenotesAddresses) : ∃ read,
    predicateProjections.mapM (fun p => do
      let members ← links.members reg (reg.reservedType p.ty) p.view
      return (p, members)) = (.ok read : Outcome Empty _) ∧
    ∀ ty view, (membersOf read ty view).Pairwise (· < ·) ∧ ∀ a, a ∈ membersOf read ty view ↔
      (∃ p ∈ predicateProjections, p.ty = ty ∧ p.view = view) ∧
        ∃ e ∈ links.typedLinks reg (reg.shippedClass ty) view, a.tumbler ∈ e.2.fromSlot.addrs := by
  have hspec : ∀ ty view, ∃ found, view ≠ .default →
      (links.members reg (reg.reservedType ty) view : Outcome Empty _) = .ok found ∧ found.Pairwise (· < ·) ∧
        ∀ a, a ∈ found ↔ ∃ e ∈ links.typedLinks reg (reg.shippedClass ty) view, a.tumbler ∈ e.2.fromSlot.addrs := by
    intro ty view
    by_cases hview : view = .default
    · exact ⟨[], fun h => absurd hview h⟩
    · obtain ⟨found, hfound⟩ := LinkState.members_spec hs (reg.coverageClass_reservedType ty) hview
      exact ⟨found, fun _ => hfound⟩
  choose members hmembers using hspec
  have hviews : ∀ p ∈ predicateProjections, p.view ≠ .default := by decide
  refine ⟨predicateProjections.map fun p => (p, members p.ty p.view), ?_, fun ty view => ?_⟩
  · apply Outcome.mapM_eq_ok
    intro p hp
    rw [(hmembers p.ty p.view (hviews p hp)).1]
    rfl
  · rw [membersOf]
    by_cases hrow : ∃ p ∈ predicateProjections, p.ty = ty ∧ p.view = view
    · have hview : view ≠ .default := by
        obtain ⟨p, hp, -, rfl⟩ := hrow
        exact hviews p hp
      have hfind : ((predicateProjections.map fun p => (p, members p.ty p.view)).find? fun e =>
          e.1.ty == ty && e.1.view == view).map Prod.snd = some (members ty view) := by
        obtain ⟨p, hp, hty, hpv⟩ := hrow
        cases hfound : (predicateProjections.map fun p => (p, members p.ty p.view)).find? fun e =>
            e.1.ty == ty && e.1.view == view with
        | none => exact absurd (List.find?_eq_none.1 hfound _ (List.mem_map_of_mem hp)) (by simp [hty, hpv])
        | some e =>
          obtain ⟨q, -, rfl⟩ := List.mem_map.1 (List.mem_of_find?_eq_some hfound)
          have hq := List.find?_some hfound
          simp only [Bool.and_eq_true, beq_iff_eq] at hq
          rw [Option.map_some, hq.1, hq.2]
      rw [hfind, Option.getD_some]
      refine ⟨(hmembers ty view hview).2.1, fun a => ?_⟩
      rw [(hmembers ty view hview).2.2 a, and_iff_right hrow]
    · have hfind : ((predicateProjections.map fun p => (p, members p.ty p.view)).find? fun e =>
          e.1.ty == ty && e.1.view == view) = none := by
        rw [List.find?_eq_none]
        intro e he heq
        obtain ⟨p, hp, rfl⟩ := List.mem_map.1 he
        simp only [Bool.and_eq_true, beq_iff_eq] at heq
        exact hrow ⟨p, hp, heq⟩
      rw [hfind]
      exact ⟨.nil, fun a => ⟨nofun, fun h => absurd h.1 hrow⟩⟩

/-- The unfiltered dump writes the entries of its world. -/
theorem World.shown_spec {w : World} (hw : w.links.DenotesAddresses) :
    ∃ s, w.shown reg = .ok s ∧ w.Shows reg s := by
  obtain ⟨edges, hedges, hexact⟩ := @shownEdges_spec reg _ hw
  obtain ⟨read, hread, hmembers⟩ := @membersOf_spec reg _ hw
  refine ⟨_, by rw [World.shown, hedges, Outcome.ok_bind, hread]; rfl, ?_⟩
  constructor <;> first | exact hexact | exact hmembers | rfl

end

section

variable {reg : TypeRegistry} {readable : Address → Bool}

/-- The edges that are left when each adjacency list is reduced. -/
theorem EdgesOf.restrict {asserts : Address → Address → Prop} {edges : List (Address × List Address)}
    (h : EdgesOf asserts edges) (keep : Address → Bool) (keepPair : Address → Address → Bool) :
    EdgesOf (fun old new => asserts old new ∧ keep old = true ∧ keepPair old new = true)
      ((edges.map fun e => (e.1, e.2.filter (keepPair e.1))).filter fun e => keep e.1 && !e.2.isEmpty) := by
  refine ⟨?_, ?_, ?_⟩
  · have hkeys : OrdMap.Ascending (edges.map fun e => (e.1, e.2.filter (keepPair e.1))) :=
      List.pairwise_map.2 h.ascending
    exact hkeys.filter _
  · intro e he
    obtain ⟨he, hkept⟩ := List.mem_filter.1 he
    obtain ⟨e, hmem, rfl⟩ := List.mem_map.1 he
    obtain ⟨hkey, hne⟩ := Bool.and_eq_true_iff.1 hkept
    obtain ⟨-, hasc, hiff⟩ := h.succs e hmem
    refine ⟨by simpa using hne, hasc.filter _, fun new => ?_⟩
    rw [List.mem_filter, hiff]
    exact ⟨fun ⟨ha, hp⟩ => ⟨ha, hkey, hp⟩, fun ⟨ha, _, hp⟩ => ⟨ha, hp⟩⟩
  · rintro old new ⟨ha, hkey, hpair⟩
    obtain ⟨e, he, rfl⟩ := h.all old new ha
    refine ⟨_, List.mem_filter.2 ⟨List.mem_map_of_mem he, ?_⟩, rfl⟩
    have hnew : new ∈ e.2.filter (keepPair e.1) := List.mem_filter.2 ⟨((h.succs e he).2.2 new).2 ha, hpair⟩
    simpa [hkey] using List.ne_nil_of_mem hnew

theorem EdgesOf.unique {asserts asserts' : Address → Address → Prop} {edges edges' : List (Address × List Address)}
    (h : EdgesOf asserts edges) (h' : EdgesOf asserts' edges') (hiff : ∀ old new, asserts old new ↔ asserts' old new) :
    edges = edges' := by
  have hsub : ∀ {R R' : Address → Address → Prop} {l l' : List (Address × List Address)}, EdgesOf R l → EdgesOf R' l' →
      (∀ old new, R old new ↔ R' old new) → ∀ e ∈ l, e ∈ l' := by
    intro R R' l l' hl hl' hR e he
    obtain ⟨hne, hasc, hmem⟩ := hl.succs e he
    obtain ⟨new, hnew⟩ := List.exists_mem_of_ne_nil _ hne
    obtain ⟨e', he', hkey⟩ := hl'.all e.1 new ((hR _ _).1 ((hmem new).1 hnew))
    obtain ⟨-, hasc', hmem'⟩ := hl'.succs e' he'
    have hlist : e.2 = e'.2 := OrdSet.eq_of_ascending hasc hasc' fun k => by
      rw [hmem, hmem', hR, hkey]
    rwa [show e = e' from Prod.ext hkey.symm hlist]
  exact h.ascending.eq_of_mem h'.ascending fun e =>
    ⟨hsub h h' hiff e, hsub h' h (fun old new => (hiff old new).symm) e⟩

/-- An edge of the tree. -/
def Shown.HasEdge (s : Shown) (old new : Address) : Prop := ∃ e ∈ s.edges, e.1 = old ∧ new ∈ e.2

theorem EdgesOf.hasEdge_iff {asserts : Address → Address → Prop} {s : Shown} (h : EdgesOf asserts s.edges)
    {old new : Address} : s.HasEdge old new ↔ asserts old new := by
  constructor
  · rintro ⟨e, he, rfl, hnew⟩
    exact ((h.succs e he).2.2 new).1 hnew
  · intro ha
    obtain ⟨e, he, rfl⟩ := h.all old new ha
    exact ⟨e, he, rfl, ((h.succs e he).2.2 new).2 ha⟩

variable {natOf : String → Option ℕ} (hnat : ∀ n : ℕ, natOf n.repr = some n)

include hnat in
/-- A reader's dump restricts the unfiltered one by what the readable links say. -/
theorem dumpVisible_spec {w : World} {s : Shown} (hs : w.shown reg = .ok s) :
    ∃ (edge : Address → Address → Bool) (member : ShippedType → View → Address → Bool),
      dumpVisible reg natOf readable w = .ok ((s.restrict readable edge member).tree reg) ∧
      (∀ old new, edge old new = true ↔ EdgeClaimed reg readable w.links old new) ∧
      ∀ ty view a, member ty view a = true ↔ MemberAsserted reg readable w.links ty view a := by
  obtain ⟨claims, hclaims, hclaim⟩ := @supEdgeClaims_spec reg w.links
  choose assertedBy hasserted hassert using @memberTuples_spec reg w.links
  refine ⟨fun old new => filedReadably readable claims (old.tumbler, new.tumbler),
    fun ty view a => filedReadably readable (assertedBy ty view) a.tumbler, ?_, fun old new => ?_, fun ty view a => ?_⟩
  · rw [dumpVisible, dumpTree, hs]
    exact filterTree_tree reg readable hnat hclaims (fun p _ => hasserted p.ty p.view) s
  · rw [filedReadably_iff]
    constructor
    · rintro ⟨claim, hmem, hread⟩
      obtain ⟨l, hl, hold, hnew⟩ := (hclaim _ _ _).1 hmem
      exact ⟨claim, l, hl, hold, hnew, hread⟩
    · rintro ⟨claim, l, hl, hold, hnew, hread⟩
      exact ⟨claim, (hclaim _ _ _).2 ⟨l, hl, hold, hnew⟩, hread⟩
  · rw [filedReadably_iff]
    constructor
    · rintro ⟨tuple, hmem, hread⟩
      obtain ⟨e, he, rfl, hsubject⟩ := (hassert ty view _ _).1 hmem
      exact ⟨e, he, hsubject, hread⟩
    · rintro ⟨e, he, hsubject, hread⟩
      exact ⟨e.1, (hassert ty view _ _).2 ⟨e, he, rfl, hsubject⟩, hread⟩

end

section

variable (reg : TypeRegistry) (readable : Address → Bool)

/-- Maps that answer alike at every document that the reader reads. -/
def AgreeAt {ν : Type} (m m' : OrdMap Address ν) : Prop :=
  ∀ a, documentReadable readable a = true → m.get a = m'.get a

/-- Worlds that agree on what the reader reads. -/
structure Agree (w w' : World) : Prop where
  m3 : w.m3 = w'.m3
  grants : w.grants = w'.grants
  birthExtents : w.m5.birthExtents = w'.m5.birthExtents
  shotTerms : w.m5.shotTerms = w'.m5.shotTerms
  content : AgreeAt readable w.content w'.content
  arrangements : AgreeAt readable w.m5.arrangements w'.m5.arrangements
  provenance : AgreeAt readable w.m5.provenance.relation w'.m5.provenance.relation
  forkSources : AgreeAt readable w.m5.forkSources w'.m5.forkSources
  arrangedAt : AgreeAt readable w.m5.arrangedAt w'.m5.arrangedAt
  draftBases : AgreeAt readable w.m5.draftBases w'.m5.draftBases
  links : AgreeAt readable w.links.links w'.links.links
  nullified : ∀ a l, documentReadable readable a = true → w.links.readlink a = some l →
    w.links.nullified reg a.tumbler = w'.links.nullified reg a.tumbler

variable {reg readable}

theorem AgreeAt.filter_entries {ν : Type} {m m' : OrdMap Address ν} (h : AgreeAt readable m m') :
    m.entries.filter (fun e => documentReadable readable e.1) =
      m'.entries.filter fun e => documentReadable readable e.1 := by
  refine OrdMap.Ascending.eq_of_mem (m.ascending.filter _) (m'.ascending.filter _) fun e => ?_
  rw [List.mem_filter, List.mem_filter, and_comm, and_comm (a := e ∈ m'.entries)]
  refine and_congr_right fun hread => ?_
  rw [← OrdMap.get_eq_some_iff, ← OrdMap.get_eq_some_iff, h e.1 hread]

namespace Agree

variable {w w' : World}

theorem symm (h : Agree reg readable w w') : Agree reg readable w' w where
  m3 := h.m3.symm
  grants := h.grants.symm
  birthExtents := h.birthExtents.symm
  shotTerms := h.shotTerms.symm
  content := fun a ha => (h.content a ha).symm
  arrangements := fun a ha => (h.arrangements a ha).symm
  provenance := fun a ha => (h.provenance a ha).symm
  forkSources := fun a ha => (h.forkSources a ha).symm
  arrangedAt := fun a ha => (h.arrangedAt a ha).symm
  draftBases := fun a ha => (h.draftBases a ha).symm
  links := fun a ha => (h.links a ha).symm
  nullified := fun a l ha hl => (h.nullified a l ha ((h.links a ha).trans hl)).symm

theorem drafts (h : Agree reg readable w w') : w.drafts = w'.drafts := by
  have hseed := w.derived
  rw [h.m3, w'.derived] at hseed
  exact (Outcome.ok.inj hseed).symm

theorem viewSlice (h : Agree reg readable w w') (view : View) :
    (w.links.viewSlice reg view).filter (documentReadable readable) =
      (w'.links.viewSlice reg view).filter (documentReadable readable) := by
  have hsub : ∀ {w w' : World}, Agree reg readable w w' → ∀ a, documentReadable readable a = true →
      a ∈ w.links.viewSlice reg view → a ∈ w'.links.viewSlice reg view := by
    intro w w' h a hread ha
    obtain ⟨⟨l, hl⟩, hnull⟩ := LinkState.mem_viewSlice.1 ha
    rw [h.nullified a l hread hl] at hnull
    exact LinkState.mem_viewSlice.2 ⟨⟨l, (h.links a hread).symm.trans hl⟩, hnull⟩
  refine OrdSet.eq_of_ascending ((LinkState.viewSlice_ascending view).filter _)
    ((LinkState.viewSlice_ascending view).filter _) fun a => ?_
  rw [List.mem_filter, List.mem_filter]
  exact ⟨fun ⟨ha, hread⟩ => ⟨hsub h a hread ha, hread⟩, fun ⟨ha, hread⟩ => ⟨hsub h.symm a hread ha, hread⟩⟩

theorem mem_typedLinks (h : Agree reg readable w w') {c : CoverageClass} {view : View} {e : Address × Link}
    (hread : documentReadable readable e.1 = true) (he : e ∈ w.links.typedLinks reg c view) :
    e ∈ w'.links.typedLinks reg c view := by
  obtain ⟨hl, hc, hnull⟩ := LinkState.mem_typedLinks.1 he
  rw [h.nullified e.1 e.2 hread hl] at hnull
  exact LinkState.mem_typedLinks.2 ⟨(h.links e.1 hread).symm.trans hl, hc, hnull⟩

theorem classes (h : Agree reg readable w w') (c : CoverageClass) (view : View) :
    ((w.links.typedLinks reg c view).map Prod.fst).filter (documentReadable readable) =
      ((w'.links.typedLinks reg c view).map Prod.fst).filter (documentReadable readable) := by
  have hsub : ∀ {w w' : World}, Agree reg readable w w' → ∀ a, documentReadable readable a = true →
      a ∈ (w.links.typedLinks reg c view).map Prod.fst → a ∈ (w'.links.typedLinks reg c view).map Prod.fst := by
    intro w w' h a hread ha
    obtain ⟨e, he, rfl⟩ := List.mem_map.1 ha
    exact List.mem_map_of_mem (h.mem_typedLinks hread he)
  refine OrdSet.eq_of_ascending ((LinkState.typedLinks_ascending c view).filter _)
    ((LinkState.typedLinks_ascending c view).filter _) fun a => ?_
  rw [List.mem_filter, List.mem_filter]
  exact ⟨fun ⟨ha, hread⟩ => ⟨hsub h a hread ha, hread⟩, fun ⟨ha, hread⟩ => ⟨hsub h.symm a hread ha, hread⟩⟩

theorem nullifiedLinks (h : Agree reg readable w w') :
    ((w.links.viewSlice reg .audit).filter fun a => w.links.nullified reg a.tumbler).filter (documentReadable readable) =
      ((w'.links.viewSlice reg .audit).filter fun a => w'.links.nullified reg a.tumbler).filter
        (documentReadable readable) := by
  rw [List.filter_comm, List.filter_comm (documentReadable readable), ← h.viewSlice .audit]
  refine List.filter_congr fun a ha => ?_
  obtain ⟨ha, hread⟩ := List.mem_filter.1 ha
  obtain ⟨⟨l, hl⟩, -⟩ := LinkState.mem_viewSlice.1 ha
  exact h.nullified a l hread hl

theorem edgeClaimed (h : Agree reg readable w w') {old new : Address}
    (hclaim : EdgeClaimed reg readable w.links old new) : EdgeClaimed reg readable w'.links old new := by
  obtain ⟨claim, l, ⟨hl, hc, hop⟩, hold, hnew, hread⟩ := hclaim
  rw [h.nullified claim l hread hl] at hop
  exact ⟨claim, l, ⟨(h.links claim hread).symm.trans hl, hc, hop⟩, hold, hnew, hread⟩

theorem memberAsserted (h : Agree reg readable w w') {ty : ShippedType} {view : View} {a : Address}
    (hmember : MemberAsserted reg readable w.links ty view a) : MemberAsserted reg readable w'.links ty view a := by
  obtain ⟨e, he, hsubject, hread⟩ := hmember
  exact ⟨e, h.mem_typedLinks hread he, hsubject, hread⟩

end Agree

theorem EdgeClaimed.supersedes {links : LinkState} {old new : Address} (h : EdgeClaimed reg readable links old new) :
    links.Supersedes reg old.tumbler new.tumbler := by
  obtain ⟨claim, l, hl, hold, hnew, -⟩ := h
  exact ⟨claim, l, hl, hold, hnew⟩

theorem World.Shows.edges_restrict {w : World} {s : Shown} (hs : w.Shows reg s) {edge : Address → Address → Bool}
    {member : ShippedType → View → Address → Bool}
    (hedge : ∀ old new, edge old new = true ↔ EdgeClaimed reg readable w.links old new) :
    EdgesOf (fun old new =>
      ((∃ l, w.links.readlink old = some l) ∧ w.links.Supersedes reg old.tumbler new.tumbler) ∧
        documentReadable readable old = true ∧ documentReadable readable new = true ∧
          EdgeClaimed reg readable w.links old new) (s.restrict readable edge member).edges := by
  have h := hs.edges.restrict (documentReadable readable) fun old new => documentReadable readable new && edge old new
  simp only [Bool.and_eq_true, hedge] at h
  exact h

theorem mem_members_restrict {links : LinkState} {s : Shown} {edge : Address → Address → Bool}
    {member : ShippedType → View → Address → Bool}
    (hmember : ∀ ty view a, member ty view a = true ↔ MemberAsserted reg readable links ty view a)
    {ty : ShippedType} {view : View} {a : Address} : a ∈ (s.restrict readable edge member).members ty view ↔
      a ∈ s.members ty view ∧ documentReadable readable a = true ∧ MemberAsserted reg readable links ty view a := by
  rw [Shown.restrict, List.mem_filter, Bool.and_eq_true, hmember]

/-- Worlds that agree show a reader the same entries. -/
theorem World.Shows.restrict_congr {w w' : World} {s s' : Shown} (hs : w.Shows reg s) (hs' : w'.Shows reg s')
    (h : Agree reg readable w w') {edge edge' : Address → Address → Bool}
    {member member' : ShippedType → View → Address → Bool}
    (hedge : ∀ old new, edge old new = true ↔ EdgeClaimed reg readable w.links old new)
    (hedge' : ∀ old new, edge' old new = true ↔ EdgeClaimed reg readable w'.links old new)
    (hmember : ∀ ty view a, member ty view a = true ↔ MemberAsserted reg readable w.links ty view a)
    (hmember' : ∀ ty view a, member' ty view a = true ↔ MemberAsserted reg readable w'.links ty view a) :
    s.restrict readable edge member = s'.restrict readable edge' member' := by
  have hedges : (s.restrict readable edge member).edges = (s'.restrict readable edge' member').edges := by
    refine (hs.edges_restrict hedge).unique (hs'.edges_restrict hedge') fun old new => ?_
    have hsub : ∀ {w w' : World}, Agree reg readable w w' → documentReadable readable old = true →
        (∃ l, w.links.readlink old = some l) → EdgeClaimed reg readable w.links old new →
        ((∃ l, w'.links.readlink old = some l) ∧ w'.links.Supersedes reg old.tumbler new.tumbler) ∧
          EdgeClaimed reg readable w'.links old new := by
      intro w w' h hold hl hclaim
      rw [LinkState.readlink, h.links old hold] at hl
      exact ⟨⟨hl, (h.edgeClaimed hclaim).supersedes⟩, h.edgeClaimed hclaim⟩
    constructor
    · rintro ⟨⟨hl, -⟩, hold, hnew, hclaim⟩
      obtain ⟨hboth, hclaim'⟩ := hsub h hold hl hclaim
      exact ⟨hboth, hold, hnew, hclaim'⟩
    · rintro ⟨⟨hl, -⟩, hold, hnew, hclaim⟩
      obtain ⟨hboth, hclaim'⟩ := hsub h.symm hold hl hclaim
      exact ⟨hboth, hold, hnew, hclaim'⟩
  have hmembers : (s.restrict readable edge member).members = (s'.restrict readable edge' member').members := by
    funext ty view
    refine OrdSet.eq_of_ascending ((hs.members ty view).1.filter _) ((hs'.members ty view).1.filter _) fun a => ?_
    have hsub : ∀ {w w' : World}, Agree reg readable w w' → MemberAsserted reg readable w.links ty view a →
        (∃ e ∈ w'.links.typedLinks reg (reg.shippedClass ty) view, a.tumbler ∈ e.2.fromSlot.addrs) ∧
          MemberAsserted reg readable w'.links ty view a := by
      intro w w' h hasserted
      obtain ⟨e, he, hsubject, hread⟩ := h.memberAsserted hasserted
      exact ⟨⟨e, he, hsubject⟩, e, he, hsubject, hread⟩
    refine (mem_members_restrict hmember).trans (Iff.trans ?_ (mem_members_restrict hmember').symm)
    rw [(hs.members ty view).2, (hs'.members ty view).2]
    constructor
    · rintro ⟨⟨hrow, -⟩, hread, hasserted⟩
      obtain ⟨hsubject, hasserted'⟩ := hsub h hasserted
      exact ⟨⟨hrow, hsubject⟩, hread, hasserted'⟩
    · rintro ⟨⟨hrow, -⟩, hread, hasserted⟩
      obtain ⟨hsubject, hasserted'⟩ := hsub h.symm hasserted
      exact ⟨⟨hrow, hsubject⟩, hread, hasserted'⟩
  have hclasses : (s.restrict readable edge member).classes = (s'.restrict readable edge' member').classes := by
    funext ty view
    rw [Shown.restrict, Shown.restrict, hs.classes, hs'.classes]
    exact h.classes _ view
  have hnullified : (s.restrict readable edge member).nullified = (s'.restrict readable edge' member').nullified := by
    rw [Shown.restrict, Shown.restrict, hs.nullified, hs'.nullified, hs.audit, hs'.audit]
    exact h.nullifiedLinks
  rw [Shown.restrict, Shown.restrict] at *
  rw [Shown.mk.injEq]
  refine ⟨?_, ?_, ?_, ?_, ?_, ?_, ?_, ?_, ?_, ?_, ?_, ?_, ?_, ?_, hnullified, hclasses, hedges, hmembers, ?_⟩
  · rw [hs.m3, hs'.m3, h.m3]
  · rw [hs.content, hs'.content, h.content.filter_entries]
  · rw [hs.arrangements, hs'.arrangements, h.arrangements.filter_entries]
  · rw [hs.provenance, hs'.provenance, h.provenance.filter_entries]
  · rw [hs.birthExtents, hs'.birthExtents, h.birthExtents]
  · rw [hs.shotTerms, hs'.shotTerms, h.shotTerms]
  · rw [hs.forkSources, hs'.forkSources, h.forkSources.filter_entries]
  · rw [hs.arrangedAt, hs'.arrangedAt, h.arrangedAt.filter_entries]
  · rw [hs.draftBases, hs'.draftBases, h.draftBases.filter_entries]
  · rw [hs.links, hs'.links, h.links.filter_entries]
  · rw [hs.publication, hs'.publication, h.m3]
  · rw [hs.grants, hs'.grants, h.grants]
  · rw [hs.audit, hs'.audit, h.viewSlice]
  · rw [hs.active, hs'.active, h.viewSlice]
  · rw [hs.drafts, hs'.drafts, h.drafts]

theorem documentReadable_all (a : Address) : documentReadable (fun _ => true) a = true := by
  rw [documentReadable]
  cases documentOf a <;> rfl

theorem World.Shows.restrict_all {w : World} {s : Shown} (hs : w.Shows reg s) {edge : Address → Address → Bool}
    {member : ShippedType → View → Address → Bool}
    (hedge : ∀ old new, edge old new = true ↔ EdgeClaimed reg (fun _ => true) w.links old new)
    (hmember : ∀ ty view a, member ty view a = true ↔ MemberAsserted reg (fun _ => true) w.links ty view a) :
    s.restrict (fun _ => true) edge member = s := by
  have hedges : (s.restrict (fun _ => true) edge member).edges = s.edges := by
    refine (hs.edges_restrict hedge).unique hs.edges fun old new => ?_
    refine ⟨And.left, fun h => ⟨h, documentReadable_all _, documentReadable_all _, ?_⟩⟩
    obtain ⟨-, claim, l, hl, hold, hnew⟩ := h
    exact ⟨claim, l, hl, hold, hnew, documentReadable_all _⟩
  have hmembers : (s.restrict (fun _ => true) edge member).members = s.members := by
    funext ty view
    refine OrdSet.eq_of_ascending ((hs.members ty view).1.filter _) (hs.members ty view).1 fun a => ?_
    refine (mem_members_restrict hmember).trans ⟨And.left, fun h => ⟨h, documentReadable_all _, ?_⟩⟩
    obtain ⟨-, e, he, hsubject⟩ := ((hs.members ty view).2 a).1 h
    exact ⟨e, he, hsubject, documentReadable_all _⟩
  have hall : documentReadable (fun _ => true) = fun _ => true := funext documentReadable_all
  rw [Shown.restrict] at *
  simp only [hall, List.filter_true] at *
  rw [hedges, hmembers]

variable {natOf : String → Option ℕ} (hnat : ∀ n : ℕ, natOf n.repr = some n)

include hnat in
/-- A reader's dump is a function of what the reader reads: worlds that agree there have one
dump. An edge of supersession stays exactly when the reader reads both of its ends and some
operative claim that asserts it, and a member of a predicate class exactly when the reader
reads it and some tuple that asserts it under the entry's view. The reader of everything has
the unfiltered dump. -/
theorem filterTree_visible (readable : Address → Bool) {w w' : World} (hw : w.links.DenotesAddresses)
    (hw' : w'.links.DenotesAddresses) (h : Agree reg readable w w') :
    ∃ whole shown : Shown, dumpTree reg w = .ok (whole.tree reg) ∧ w.Shows reg whole ∧
      dumpVisible reg natOf readable w = .ok (shown.tree reg) ∧
      dumpVisible reg natOf readable w' = .ok (shown.tree reg) ∧
      (∀ old new, shown.HasEdge old new ↔ whole.HasEdge old new ∧ documentReadable readable old = true ∧
        documentReadable readable new = true ∧ EdgeClaimed reg readable w.links old new) ∧
      (∀ p ∈ predicateProjections, ∀ a, a ∈ shown.members p.ty p.view ↔ a ∈ whole.members p.ty p.view ∧
        documentReadable readable a = true ∧ MemberAsserted reg readable w.links p.ty p.view a) ∧
      dumpVisible reg natOf (fun _ => true) w = dumpTree reg w := by
  obtain ⟨whole, hwhole, hshows⟩ := @World.shown_spec reg _ hw
  obtain ⟨whole', hwhole', hshows'⟩ := @World.shown_spec reg _ hw'
  obtain ⟨edge, member, hdump, hedge, hmember⟩ := @dumpVisible_spec reg readable _ hnat _ _ hwhole
  obtain ⟨edge', member', hdump', hedge', hmember'⟩ := @dumpVisible_spec reg readable _ hnat _ _ hwhole'
  have htree : dumpTree reg w = .ok (whole.tree reg) := by
    rw [dumpTree, hwhole]
    rfl
  refine ⟨whole, whole.restrict readable edge member, htree, hshows, hdump, ?_, fun old new => ?_,
    fun p _ a => mem_members_restrict hmember, ?_⟩
  · rw [hdump', hshows.restrict_congr hshows' h hedge hedge' hmember hmember']
  · rw [(hshows.edges_restrict hedge).hasEdge_iff, hshows.edges.hasEdge_iff]
  · obtain ⟨edge, member, hall, hedge, hmember⟩ := @dumpVisible_spec reg (fun _ => true) _ hnat _ _ hwhole
    rw [hall, hshows.restrict_all hedge hmember, htree]

end

-- Three links of the head document: one succeeded by a claim made there, another by a private page's.

private def firstLink : Address := ⟨⟨[1, 1, 0, 1, 0, 2, 0, 2, 5], by simp⟩, .element, by decide⟩

private def secondLink : Address := ⟨⟨[1, 1, 0, 1, 0, 2, 0, 2, 6], by simp⟩, .element, by decide⟩

private def thirdLink : Address := ⟨⟨[1, 1, 0, 1, 0, 2, 0, 2, 7], by simp⟩, .element, by decide⟩

private def openClaim : Address := ⟨⟨[1, 1, 0, 1, 0, 2, 0, 2, 8], by simp⟩, .element, by decide⟩

private def page : Address := firstCreated

private def hiddenClaim : Address := ⟨⟨[1, 1, 0, 1, 0, 3, 0, 2, 1], by simp⟩, .element, by decide⟩

private def drafted : M3State :=
  match (M3State.genesis.applyM3 1 (.allocate page false) : Outcome Empty M3State) with
  | .ok s => s
  | _ => .genesis

private def remark : Link := ⟨enc [headDocument], enc [], enc [headDocument]⟩

private def claim (old new : Address) : Link :=
  ⟨enc [old], enc [new], TypeRegistry.build.reservedType .supersedes⟩

private def openLinks : LinkState :=
  ⟨(((OrdMap.empty.insert firstLink remark).insert secondLink remark).insert thirdLink remark).insert openClaim
    (claim firstLink secondLink)⟩

private def claimed : LinkState := ⟨openLinks.links.insert hiddenClaim (claim thirdLink secondLink)⟩

private def boardOf (links : LinkState) : World where
  m3 := drafted
  content := .empty
  m5 := .genesis
  links := links
  grants := .empty
  drafts := ⟨[(page, systemAccount)], List.pairwise_singleton _ _⟩
  derived := by decide +kernel

private theorem resident_openLinks {a : Address} {l : Link} (h : openLinks.readlink a = some l) :
    a = openClaim ∧ l = claim firstLink secondLink ∨ l = remark ∧ a ∈ [firstLink, secondLink, thirdLink] := by
  simp only [openLinks, LinkState.readlink, OrdMap.get_insert] at h
  split_ifs at h with h4 h3 h2 h1
  · exact .inl ⟨h4, (Option.some.inj h).symm⟩
  · exact .inr ⟨(Option.some.inj h).symm, by simp [h3]⟩
  · exact .inr ⟨(Option.some.inj h).symm, by simp [h2]⟩
  · exact .inr ⟨(Option.some.inj h).symm, by simp [h1]⟩
  · cases h

private theorem denotesAddresses_openLinks : openLinks.DenotesAddresses := by
  intro a l hl t ht
  obtain ⟨-, rfl⟩ | ⟨rfl, -⟩ := resident_openLinks hl
  · simp only [claim, addrs_enc, List.map_cons, List.map_nil, List.mem_append, List.mem_singleton] at ht
    obtain rfl | rfl := ht
    · exact ⟨firstLink, rfl⟩
    · exact ⟨secondLink, rfl⟩
  · simp only [remark, addrs_enc, List.map_cons, List.map_nil, List.append_nil, List.mem_singleton] at ht
    exact ⟨headDocument, ht.symm⟩

private theorem resident_claimed {a : Address} {l : Link} (h : claimed.readlink a = some l) :
    a = hiddenClaim ∧ l = claim thirdLink secondLink ∨ openLinks.readlink a = some l := by
  rw [claimed, LinkState.readlink, OrdMap.get_insert] at h
  split_ifs at h with hhidden
  · exact .inl ⟨hhidden, (Option.some.inj h).symm⟩
  · exact .inr h

private theorem denotesAddresses_claimed : claimed.DenotesAddresses := by
  intro a l hl t ht
  obtain ⟨-, rfl⟩ | hl := resident_claimed hl
  · simp only [claim, addrs_enc, List.map_cons, List.map_nil, List.mem_append, List.mem_singleton] at ht
    obtain rfl | rfl := ht
    · exact ⟨thirdLink, rfl⟩
    · exact ⟨secondLink, rfl⟩
  · exact denotesAddresses_openLinks a l hl t ht

private def reader (doc : Address) : Bool := decide (doc = headDocument)

private theorem hidden_claim : documentReadable reader hiddenClaim = false := by decide

private theorem agree_claimed : Agree TypeRegistry.build reader (boardOf claimed) (boardOf openLinks) where
  m3 := rfl
  grants := rfl
  birthExtents := rfl
  shotTerms := rfl
  content := fun _ _ => rfl
  arrangements := fun _ _ => rfl
  provenance := fun _ _ => rfl
  forkSources := fun _ _ => rfl
  arrangedAt := fun _ _ => rfl
  draftBases := fun _ _ => rfl
  links := by
    intro a hread
    apply OrdMap.get_insert_of_ne
    rintro rfl
    rw [hidden_claim] at hread
    cases hread
  nullified := by
    intro a l hread hl
    obtain ⟨rfl, -⟩ | hl := resident_claimed hl
    · rw [hidden_claim] at hread
      cases hread
    · obtain ⟨rfl, -⟩ | ⟨-, hmem⟩ := resident_openLinks hl
      · decide +kernel
      · simp only [List.mem_cons, List.not_mem_nil, or_false] at hmem
        obtain rfl | rfl | rfl := hmem
        all_goals decide +kernel

/-- A reader of the head document sees that the first link is superseded, and not that the
third is. -/
theorem filterTree_visible_claimed : ∃ whole shown : Shown,
    dumpTree TypeRegistry.build (boardOf claimed) = .ok (whole.tree TypeRegistry.build) ∧
      dumpVisible TypeRegistry.build String.toNat? reader (boardOf claimed) = .ok (shown.tree TypeRegistry.build) ∧
      dumpVisible TypeRegistry.build String.toNat? reader (boardOf openLinks) = .ok (shown.tree TypeRegistry.build) ∧
      whole.HasEdge firstLink secondLink ∧ whole.HasEdge thirdLink secondLink ∧
      shown.HasEdge firstLink secondLink ∧ ¬ shown.HasEdge thirdLink secondLink := by
  obtain ⟨whole, shown, hwhole, hshows, hdump, hdump', hedges, -⟩ := filterTree_visible Nat.toNat?_repr
    reader denotesAddresses_claimed denotesAddresses_openLinks agree_claimed
  have hfirst : claimed.IsOperative TypeRegistry.build openClaim (claim firstLink secondLink) :=
    ⟨by decide +kernel, by decide +kernel, by decide +kernel⟩
  have hthird : claimed.IsOperative TypeRegistry.build hiddenClaim (claim thirdLink secondLink) :=
    ⟨by decide +kernel, by decide +kernel, by decide +kernel⟩
  have hwholeFirst : whole.HasEdge firstLink secondLink :=
    hshows.edges.hasEdge_iff.2 ⟨⟨remark, by decide +kernel⟩, _, _, hfirst, by simp [claim], by simp [claim]⟩
  have hwholeThird : whole.HasEdge thirdLink secondLink :=
    hshows.edges.hasEdge_iff.2 ⟨⟨remark, by decide +kernel⟩, _, _, hthird, by simp [claim], by simp [claim]⟩
  refine ⟨whole, shown, hwhole, hdump, hdump', hwholeFirst, hwholeThird, ?_, fun h => ?_⟩
  · exact (hedges _ _).2 ⟨hwholeFirst, by decide, by decide, _, _, hfirst, by simp [claim], by simp [claim], by decide⟩
  · obtain ⟨-, -, -, a, l, ⟨hl, -⟩, hold, -, hread⟩ := (hedges _ _).1 h
    obtain ⟨rfl, -⟩ | hl := resident_claimed hl
    · rw [hidden_claim] at hread
      cases hread
    · obtain ⟨-, rfl⟩ | ⟨rfl, -⟩ := resident_openLinks hl
      · exact absurd hold (by simp [claim, thirdLink, firstLink])
      · exact absurd hold (by simp [remark, thirdLink, headDocument])

end Dump
