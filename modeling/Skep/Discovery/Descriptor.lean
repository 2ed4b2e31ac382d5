import Skep.Discovery.Sets
import Skep.Links.Touching

/-!
# The four-set descriptor

A descriptor constrains a link's home and its three slots, each to share a tumbler with
given spans, or not at all. The links that satisfy it are found home by home: along the
chains of the homes where no slot is constrained, by a stab of each home where the home
is, and off the directory of one constraint's homes otherwise.

## Main results

- `candidates_spec` — the candidates hold exactly the links that satisfy the descriptor
- `findlinksFtt_exact` — the read-outs answer the descriptor by its definition
-/

/-- What a slot is constrained to. -/
inductive SlotSpec where
  | any
  | empty
  | spans (e : Endset)
  deriving DecidableEq

structure FourSet where
  home : SlotSpec
  fromSlot : SlotSpec
  toSlot : SlotSpec
  ty : SlotSpec
  deriving DecidableEq

namespace FourSet

/-- Some slot is constrained to nothing. -/
def isUnsatisfiable (q : FourSet) : Bool :=
  [q.home, q.fromSlot, q.toSlot, q.ty].any fun
    | .any => false
    | .empty => true
    | .spans e => e.isEmpty

/-- The constrained link slots, of a descriptor that can be satisfied. -/
def linkConstraints (q : FourSet) : Option (List (ℕ × Endset)) :=
  if q.isUnsatisfiable then none
  else some ([(FROM, q.fromSlot), (TO, q.toSlot), (TYPE, q.ty)].filterMap fun
    | (slot, .spans e) => some (slot, e)
    | (_, .any) | (_, .empty) => none)

end FourSet

/-- A home to look in: its whole chain, its links that a query hits, or those the spans that
named it hit. -/
inductive Candidate where
  | chain (home : Address)
  | within (home : Address) (slot : ℕ) (query : Endset) (rest : List (ℕ × Endset))
  | driven (touch : Touch) (slot : ℕ) (rest : List (ℕ × Endset))

namespace Candidate

def home : Candidate → Address
  | chain home | within home _ _ _ => home
  | driven touch _ _ => touch.home

/-- The active links of the home that satisfy the descriptor. -/
def satisfying {ε : Type} (reg : TypeRegistry) (l : LinkStore) : Candidate → Outcome ε (OrdSet Address)
  | chain home => l.homedIn reg home [] .active
  | within home slot query rest => l.matchLinksIn reg home (slot, query.spans) rest .active
  | driven touch slot rest => l.matchLinksIn reg touch.home (slot, touch.spans 0) rest .active

end Candidate

section

variable {ε : Type} (l : LinkStore) (q : FourSet)

/-- The homes to look in where a constraint drives. -/
def candidatesDriven (constraints : List (ℕ × Endset)) (driver : ℕ) : Outcome ε (List Candidate) := do
  let (slot, query) ← Outcome.expectSome constraints[driver]?
  let rest := constraints.eraseIdx driver
  match q.home with
  | .spans h => do
      let homes ← l.homesUnder h
      return homes.elems.map fun home => .within home slot query rest
  | .any | .empty => do
      let touches ← l.homesTouching [(slot, query)]
      return touches.map fun touch => .driven touch slot rest

/-- The homes to look in. -/
def candidates : Outcome ε (List Candidate) :=
  match q.linkConstraints with
  | none => return []
  | some constraints =>
      if constraints.isEmpty then do
        let homes ← match q.home with
          | .spans h => l.homesUnder h
          | .any => l.homes
          | .empty => .fault
        return homes.elems.map .chain
      else do
        let driver ← l.fewestHomes constraints
        candidatesDriven l q constraints driver

variable (reg : TypeRegistry) (readable : Address → Bool)

/-- The links of the candidates in readable homes. -/
def satisfyingLinks (cands : List Candidate) : Outcome ε (List Address) := do
  let shares ← (cands.filter fun cand => homeAdmitted readable cand.home).mapM fun cand =>
    cand.satisfying reg l
  return shares.flatMap OrdSet.elems

def findlinksFtt : Outcome ε (List Address) := do
  let cands ← candidates l q
  satisfyingLinks l reg readable cands

def countFtt : Outcome ε ℕ := do
  let cands ← candidates l q
  let links ← satisfyingLinks l reg readable cands
  return links.length

def windowFtt (cur : Cursor) (n : ℕ) : Outcome ε Window := do
  let cands ← candidates l q
  windowHomes Candidate.home (fun cand => do
    let share ← cand.satisfying reg l
    return share.elems) readable cur n cands

end

/-- A constraint holds: an empty one nowhere, one of spans where the spans have what is asked. -/
def SlotSpec.Holds (P : Span → Prop) : SlotSpec → Prop
  | any => True
  | empty => False
  | spans e => ∃ q ∈ e.spans, P q

/-- A link's slot has a span that shares a tumbler with the query's. -/
def SharesTumbler (link : Link) (slot : ℕ) (q : Span) : Prop :=
  ∃ e, link.slot slot = some e ∧ ∃ s ∈ e.spans, ∃ t, q.contains t = true ∧ s.contains t = true

/-- A link in a home satisfies every slot of the descriptor. -/
structure FourSet.Satisfied (q : FourSet) (home : Address) (link : Link) : Prop where
  home : q.home.Holds fun s => s.contains home.tumbler = true
  fromSlot : q.fromSlot.Holds (SharesTumbler link FROM)
  toSlot : q.toSlot.Holds (SharesTumbler link TO)
  ty : q.ty.Holds (SharesTumbler link TYPE)

/-- An active link in a readable home that satisfies the descriptor. -/
def FourSet.Answers (reg : TypeRegistry) (l : LinkStore) (readable : Address → Bool) (q : FourSet)
    (a : Address) : Prop :=
  ∃ home link, l.state.readlink a = some link ∧ documentOf a = some home ∧
    l.state.nullified reg a.tumbler = false ∧ readable home = true ∧ q.Satisfied home link

theorem slotOverlaps_iff_exists {link : Link} {slot : ℕ} {e : Endset} :
    slotOverlaps link slot e = true ↔ ∃ q ∈ e.spans, SharesTumbler link slot q := by
  rw [slotOverlaps_iff]
  constructor
  · rintro ⟨e', he', q, hq, s, hs, hover⟩
    exact ⟨q, hq, e', he', s, hs, overlaps_iff.1 hover⟩
  · rintro ⟨q, hq, e', he', s, hs, hshare⟩
    exact ⟨e', he', q, hq, s, hs, overlaps_iff.2 hshare⟩

/-- A query whose span a link shares has a hit there. -/
theorem LinkStore.hit_of_sharesTumbler {l : LinkStore} {a home : Address} {link : Link} {slot : ℕ} {q : Span}
    (hl : l.state.readlink a = some link) (hdoc : documentOf a = some home)
    (h : SharesTumbler link slot q) : l.Hit slot q home a := by
  obtain ⟨e, he, s, hs, hshare⟩ := h
  exact ⟨⟨link, hl, e, he, s, hs, overlaps_iff.2 hshare⟩, hdoc⟩

/-- A slot's constraint is met by the spans it is constrained to. -/
theorem SlotSpec.holds_iff_slotOverlaps (link : Link) (slot : ℕ) {spec : SlotSpec}
    (hsat : spec ≠ .empty) : spec.Holds (SharesTumbler link slot) ↔
      ∀ e, spec = .spans e → slotOverlaps link slot e = true := by
  cases spec with
  | any => simp [SlotSpec.Holds]
  | empty => exact absurd rfl hsat
  | spans e => simp [SlotSpec.Holds, slotOverlaps_iff_exists]

namespace FourSet

variable {q : FourSet}

theorem not_satisfied_of_isUnsatisfiable (h : q.isUnsatisfiable = true) (home : Address) (link : Link) :
    ¬ q.Satisfied home link := by
  have hnone : ∀ (spec : SlotSpec) (P : Span → Prop), (match spec with
      | .any => false
      | .empty => true
      | .spans e => e.isEmpty) = true → ¬ spec.Holds P := by
    intro spec P hspec hholds
    cases spec with
    | any => cases hspec
    | empty => exact hholds
    | spans e =>
      obtain ⟨q, hq, -⟩ := hholds
      have hempty : e.spans.isEmpty = true := hspec
      rw [List.isEmpty_iff] at hempty
      rw [hempty] at hq
      cases hq
  intro hsat
  simp only [isUnsatisfiable, List.any_cons, List.any_nil, Bool.or_false, Bool.or_eq_true] at h
  rcases h with h | h | h | h
  · exact hnone _ _ h hsat.home
  · exact hnone _ _ h hsat.fromSlot
  · exact hnone _ _ h hsat.toSlot
  · exact hnone _ _ h hsat.ty

/-- The constraints of a descriptor are those of its slots. -/
theorem satisfied_iff {constraints : List (ℕ × Endset)} (h : q.linkConstraints = some constraints)
    (home : Address) (link : Link) : q.Satisfied home link ↔
      q.home.Holds (fun s => s.contains home.tumbler = true) ∧
        ∀ c ∈ constraints, slotOverlaps link c.1 c.2 = true := by
  rw [linkConstraints] at h
  by_cases hsat : q.isUnsatisfiable = true
  · rw [if_pos hsat] at h
    cases h
  · rw [if_neg hsat, Option.some.injEq] at h
    subst h
    have hne : ∀ spec ∈ [q.home, q.fromSlot, q.toSlot, q.ty], spec ≠ .empty := by
      rintro spec hspec rfl
      exact hsat (List.any_eq_true.2 ⟨.empty, hspec, rfl⟩)
    have hfrom := SlotSpec.holds_iff_slotOverlaps link FROM (hne q.fromSlot (by simp))
    have hto := SlotSpec.holds_iff_slotOverlaps link TO (hne q.toSlot (by simp))
    have hty := SlotSpec.holds_iff_slotOverlaps link TYPE (hne q.ty (by simp))
    have hall : (∀ c ∈ [(FROM, q.fromSlot), (TO, q.toSlot), (TYPE, q.ty)].filterMap (fun
        | (slot, .spans e) => some (slot, e)
        | (_, .any) | (_, .empty) => (none : Option (ℕ × Endset))),
          slotOverlaps link c.1 c.2 = true) ↔
        (∀ e, q.fromSlot = .spans e → slotOverlaps link FROM e = true) ∧
        (∀ e, q.toSlot = .spans e → slotOverlaps link TO e = true) ∧
        ∀ e, q.ty = .spans e → slotOverlaps link TYPE e = true := by
      cases q.fromSlot <;> cases q.toSlot <;> cases q.ty <;> simp
    rw [hall, ← hfrom, ← hto, ← hty]
    exact ⟨fun h => ⟨h.home, h.fromSlot, h.toSlot, h.ty⟩, fun h => ⟨h.1, h.2.1, h.2.2.1, h.2.2.2⟩⟩

end FourSet

/-- An active link of a home that satisfies the descriptor. -/
def FourSet.Finds (reg : TypeRegistry) (l : LinkStore) (q : FourSet) (home a : Address) : Prop :=
  ∃ link, l.state.readlink a = some link ∧ documentOf a = some home ∧
    l.state.nullified reg a.tumbler = false ∧ q.Satisfied home link

/-- The candidates stand in order, each holds the links of its home that satisfy the
descriptor, and every link that does stands in the home of one. -/
structure Complete (ε : Type) (reg : TypeRegistry) (l : LinkStore) (q : FourSet)
    (cands : List Candidate) : Prop where
  ascending : (cands.map Candidate.home).Pairwise (· < ·)
  share : ∀ cand ∈ cands, ∃ links, (cand.satisfying reg l : Outcome ε (OrdSet Address)) = .ok links ∧
    ∀ a, a ∈ links ↔ q.Finds reg l cand.home a
  covers : ∀ home a, q.Finds reg l home a → ∃ cand ∈ cands, cand.home = home

section

variable {ε : Type} (reg : TypeRegistry) {l : LinkStore} (hs : l.Sound) {q : FourSet}
  {constraints : List (ℕ × Endset)} (hq : q.linkConstraints = some constraints)

theorem met_active {a : Address} :
    l.met reg .active a = true ↔ l.state.nullified reg a.tumbler = false := by
  simp [LinkStore.met, View.isActive]

/-- The constraints hold where one of them and the others do. -/
theorem forall_eraseIdx_iff {driver : ℕ} {c : ℕ × Endset} (hdriver : constraints[driver]? = some c)
    {P : ℕ × Endset → Prop} : (∀ x ∈ constraints, P x) ↔ P c ∧ ∀ x ∈ constraints.eraseIdx driver, P x := by
  obtain ⟨hlt, hget⟩ := List.getElem?_eq_some_iff.1 hdriver
  constructor
  · exact fun h => ⟨h c (List.mem_of_getElem? hdriver), fun x hx => h x (List.mem_of_mem_eraseIdx hx)⟩
  · rintro ⟨hc, hrest⟩ x hx
    obtain ⟨i, hi⟩ := List.mem_iff_getElem?.1 hx
    by_cases heq : i = driver
    · rw [heq, hdriver] at hi
      cases hi
      exact hc
    · exact hrest x (List.mem_eraseIdx_iff_getElem?.2 ⟨i, heq, hi⟩)

include hs hq

/-- A descriptor that constrains no slot is answered by whole chains. -/
theorem complete_chains {homes : OrdSet Address} (hnil : constraints = [])
    (hhomes : ∀ home, home ∈ homes ↔ l.IsHome home ∧
      q.home.Holds fun s => s.contains home.tumbler = true) :
    Complete ε reg l q (homes.elems.map .chain) := by
  subst hnil
  have hsat : ∀ home link, q.Satisfied home link ↔ q.home.Holds fun s => s.contains home.tumbler = true :=
    fun home link => by rw [FourSet.satisfied_iff hq]; simp
  refine ⟨?_, fun cand hcand => ?_, fun home a hfind => ?_⟩
  · rw [List.map_map]
    exact List.pairwise_map.2 homes.ascending
  · obtain ⟨home, hmem, rfl⟩ := List.mem_map.1 hcand
    obtain ⟨hhome, hholds⟩ := (hhomes home).1 hmem
    obtain ⟨links, heq, hiff⟩ := hs.homedIn_spec (ε := ε) reg (hs.level_of_isHome hhome) [] .active
    refine ⟨links, heq, fun a => ?_⟩
    rw [hiff]
    constructor
    · rintro ⟨link, hl, hdoc, hmet, -⟩
      exact ⟨link, hl, hdoc, (met_active reg).1 hmet, (hsat home link).2 hholds⟩
    · rintro ⟨link, hl, hdoc, hactive, -⟩
      exact ⟨link, hl, hdoc, (met_active reg).2 hactive, fun c hc => nomatch hc⟩
  · obtain ⟨link, hl, hdoc, -, hsatisfied⟩ := hfind
    exact ⟨.chain home, List.mem_map.2 ⟨home, (hhomes home).2 ⟨⟨a, link, hl, hdoc⟩,
      (hsat home link).1 hsatisfied⟩, rfl⟩, rfl⟩

/-- A descriptor with a driving constraint is answered off that constraint, whichever it is. -/
theorem candidatesDriven_spec {driver : ℕ} (hdriver : driver < constraints.length) :
    ∃ cands, (candidatesDriven l q constraints driver : Outcome ε (List Candidate)) = .ok cands ∧
      Complete ε reg l q cands := by
  obtain ⟨⟨slot, query⟩, hc⟩ : ∃ c, constraints[driver] = c := ⟨_, rfl⟩
  have hget : constraints[driver]? = some (slot, query) := List.getElem?_eq_some_iff.2 ⟨hdriver, hc⟩
  have hsat : ∀ home link, q.Satisfied home link ↔
      q.home.Holds (fun s => s.contains home.tumbler = true) ∧ slotOverlaps link slot query = true ∧
        ∀ c ∈ constraints.eraseIdx driver, slotOverlaps link c.1 c.2 = true := fun home link => by
    rw [FourSet.satisfied_iff hq, forall_eraseIdx_iff hget]
  simp only [candidatesDriven, hget, Outcome.expectSome, Outcome.ok_bind]
  -- a home is sought in the directory unless the descriptor constrains it
  have hdirectory : (∀ home : Address, q.home.Holds fun s => s.contains home.tumbler = true) →
      ∃ cands, (do
        let touches ← l.homesTouching [(slot, query)]
        return touches.map fun touch => .driven touch slot (constraints.eraseIdx driver) :
          Outcome ε (List Candidate)) = .ok cands ∧ Complete ε reg l q cands := by
    intro hany
    obtain ⟨touches, heq, hasc, hnamed, hfind⟩ := hs.homesTouching_spec (ε := ε) [(slot, query)]
    -- the spans that named a home are the query's
    have hspans : ∀ touch ∈ touches, ∀ s ∈ touch.spans 0, s ∈ query.spans := by
      intro touch htouch s hspan
      obtain ⟨⟨s', parts⟩, hmem, rfl⟩ := List.mem_map.1 hspan
      obtain ⟨⟨pair, parts', s''⟩, hmem', heq'⟩ := List.mem_map.1 hmem
      cases heq'
      obtain ⟨hmem', hpair⟩ := List.mem_filter.1 hmem'
      obtain rfl : pair = 0 := of_decide_eq_true hpair
      obtain ⟨query', hquery', hmem''⟩ := hnamed touch htouch 0 parts' s'' hmem'
      cases hquery'
      exact hmem''
    -- a link the query hits is hit by a span that named its home
    have hhits : ∀ home a link, l.state.readlink a = some link → documentOf a = some home →
        slotOverlaps link slot query = true → ∃ touch ∈ touches, touch.home = home ∧
          slotOverlaps link slot ⟨touch.spans 0⟩ = true := by
      intro home a link hl hdoc hover
      obtain ⟨s, hspan, hshare⟩ := slotOverlaps_iff_exists.1 hover
      obtain ⟨touch, htouch, hhome, parts, hmem, -⟩ :=
        hfind 0 (slot, query) rfl s hspan home a (LinkStore.hit_of_sharesTumbler hl hdoc hshare)
      refine ⟨touch, htouch, hhome, slotOverlaps_iff_exists.2 ⟨s, List.mem_map.2 ⟨(s, parts), ?_, rfl⟩, hshare⟩⟩
      exact List.mem_map.2 ⟨(0, parts, s), List.mem_filter.2 ⟨hmem, decide_eq_true rfl⟩, rfl⟩
    refine ⟨_, by rw [heq]; rfl, ?_, fun cand hcand => ?_, fun home a hfound => ?_⟩
    · rw [List.map_map]
      exact hasc
    · obtain ⟨touch, htouch, rfl⟩ := List.mem_map.1 hcand
      obtain ⟨links, hlinks, hiff⟩ := hs.matchLinksIn_spec (ε := ε) reg touch.home slot
        (touch.spans 0) (constraints.eraseIdx driver) .active
      refine ⟨links, hlinks, fun a => ?_⟩
      rw [hiff]
      constructor
      · rintro ⟨link, hl, hdoc, hmet, hover, hrest⟩
        obtain ⟨s, hspan, hshare⟩ := slotOverlaps_iff_exists.1 hover
        exact ⟨link, hl, hdoc, (met_active reg).1 hmet, (hsat _ _).2 ⟨hany _,
          slotOverlaps_iff_exists.2 ⟨s, hspans touch htouch s hspan, hshare⟩, hrest⟩⟩
      · rintro ⟨link, hl, hdoc, hactive, hsatisfied⟩
        obtain ⟨-, hover, hrest⟩ := (hsat _ _).1 hsatisfied
        obtain ⟨touch', htouch', hhome, hover'⟩ := hhits _ a link hl hdoc hover
        -- one touch stands for each home
        have hsame : touch' = touch :=
          List.inj_on_of_nodup_map (hasc.imp ne_of_lt) htouch' htouch hhome
        rw [hsame] at hover'
        exact ⟨link, hl, hdoc, (met_active reg).2 hactive, hover', hrest⟩
    · obtain ⟨link, hl, hdoc, -, hsatisfied⟩ := hfound
      obtain ⟨touch, htouch, hhome, -⟩ := hhits home a link hl hdoc ((hsat _ _).1 hsatisfied).2.1
      exact ⟨_, List.mem_map.2 ⟨touch, htouch, rfl⟩, hhome⟩
  cases hhome : q.home with
  | spans h =>
    obtain ⟨homes, heq, hiff⟩ := hs.homesUnder_spec (ε := ε) h
    rw [hhome] at hsat
    refine ⟨_, by simp only [heq, Outcome.ok_bind]; rfl, ?_, fun cand hcand => ?_, fun home a hfind => ?_⟩
    · rw [List.map_map]
      exact List.pairwise_map.2 homes.ascending
    · obtain ⟨home, hmem, rfl⟩ := List.mem_map.1 hcand
      obtain ⟨hhomed, hholds⟩ := (hiff home).1 hmem
      obtain ⟨links, hlinks, hmatch⟩ := hs.matchLinksIn_spec (ε := ε) reg home slot query.spans
        (constraints.eraseIdx driver) .active
      refine ⟨links, hlinks, fun a => ?_⟩
      rw [hmatch]
      constructor
      · rintro ⟨link, hl, hdoc, hmet, hover, hrest⟩
        exact ⟨link, hl, hdoc, (met_active reg).1 hmet, (hsat _ _).2 ⟨hholds, hover, hrest⟩⟩
      · rintro ⟨link, hl, hdoc, hactive, hsatisfied⟩
        obtain ⟨-, hover, hrest⟩ := (hsat _ _).1 hsatisfied
        exact ⟨link, hl, hdoc, (met_active reg).2 hactive, hover, hrest⟩
    · obtain ⟨link, hl, hdoc, -, hsatisfied⟩ := hfind
      exact ⟨_, List.mem_map.2 ⟨home, (hiff home).2 ⟨⟨a, link, hl, hdoc⟩, ((hsat _ _).1 hsatisfied).1⟩,
        rfl⟩, rfl⟩
  | any => exact hdirectory fun home => by rw [hhome]; trivial
  | empty =>
    have hunsat : q.isUnsatisfiable = true := by simp [FourSet.isUnsatisfiable, hhome]
    rw [FourSet.linkConstraints, if_pos hunsat] at hq
    cases hq

end

section

variable {ε : Type} (reg : TypeRegistry) {l : LinkStore} (hs : l.Sound)

include hs

/-- The candidates of a descriptor hold exactly the links that satisfy it. -/
theorem candidates_spec (q : FourSet) :
    ∃ cands, (candidates l q : Outcome ε (List Candidate)) = .ok cands ∧ Complete ε reg l q cands := by
  rw [candidates]
  cases hq : q.linkConstraints with
  | none =>
    have hunsat : q.isUnsatisfiable = true := by
      by_contra hsat
      rw [FourSet.linkConstraints, if_neg hsat] at hq
      cases hq
    refine ⟨[], rfl, List.Pairwise.nil, fun cand h => (nomatch h), fun home a hfind => ?_⟩
    obtain ⟨link, -, -, -, hsat⟩ := hfind
    exact absurd hsat (FourSet.not_satisfied_of_isUnsatisfiable hunsat home link)
  | some constraints =>
    by_cases hnil : constraints.isEmpty = true
    · simp only [if_pos hnil]
      rw [List.isEmpty_iff] at hnil
      cases hhome : q.home with
      | any =>
        obtain ⟨homes, heq, hiff⟩ := hs.homes_spec (ε := ε)
        refine ⟨_, by simp only [heq, Outcome.ok_bind]; rfl, complete_chains reg hs hq hnil fun home => ?_⟩
        rw [hiff, hhome]
        exact (and_iff_left trivial).symm
      | spans h =>
        obtain ⟨homes, heq, hiff⟩ := hs.homesUnder_spec (ε := ε) h
        refine ⟨_, by simp only [heq, Outcome.ok_bind]; rfl, complete_chains reg hs hq hnil fun home => ?_⟩
        rw [hiff, hhome]
        rfl
      | empty =>
        have hunsat : q.isUnsatisfiable = true := by simp [FourSet.isUnsatisfiable, hhome]
        rw [FourSet.linkConstraints, if_pos hunsat] at hq
        cases hq
    · simp only [if_neg hnil]
      have hne : constraints ≠ [] := by simpa using hnil
      obtain ⟨driver, heq, hlt⟩ := hs.fewestHomes_spec (ε := ε) hne
      rw [heq, Outcome.ok_bind]
      exact candidatesDriven_spec reg hs hq hlt

end

section

variable {ε : Type} {reg : TypeRegistry} {l : LinkStore} (hs : l.Sound) {q : FourSet}

/-- The links of a candidate. -/
def shareOf (ε : Type) (reg : TypeRegistry) (l : LinkStore) (cand : Candidate) : List Address :=
  match (cand.satisfying reg l : Outcome ε (OrdSet Address)) with
  | .ok links => links.elems
  | .err _ | .fault => []

theorem Complete.share_eq {cands : List Candidate} (hc : Complete ε reg l q cands) {cand : Candidate}
    (h : cand ∈ cands) : ∃ links, (cand.satisfying reg l : Outcome ε (OrdSet Address)) = .ok links ∧
      shareOf ε reg l cand = links.elems ∧ ∀ a, a ∈ links.elems ↔ q.Finds reg l cand.home a := by
  obtain ⟨links, heq, hiff⟩ := hc.share cand h
  exact ⟨links, heq, by rw [shareOf, heq], hiff⟩

theorem answers_iff {readable : Address → Bool} {a : Address} : q.Answers reg l readable a ↔
    ∃ home, q.Finds reg l home a ∧ readable home = true := by
  constructor
  · rintro ⟨home, link, hl, hdoc, hactive, hread, hsat⟩
    exact ⟨home, ⟨link, hl, hdoc, hactive, hsat⟩, hread⟩
  · rintro ⟨home, ⟨link, hl, hdoc, hactive, hsat⟩, hread⟩
    exact ⟨home, link, hl, hdoc, hactive, hread, hsat⟩

include hs

/-- The links of complete candidates are the descriptor's answer, in order. -/
theorem Complete.links_spec (readable : Address → Bool) {cands : List Candidate}
    (hc : Complete ε reg l q cands) :
    ((cands.filter fun cand => readable cand.home).flatMap (shareOf ε reg l)).Pairwise (· < ·) ∧
      ∀ a, a ∈ (cands.filter fun cand => readable cand.home).flatMap (shareOf ε reg l) ↔
        q.Answers reg l readable a := by
  refine ⟨List.pairwise_flatMap.2 ⟨fun cand hcand => ?_, ?_⟩, fun a => ?_⟩
  · obtain ⟨links, -, hshare, -⟩ := hc.share_eq (List.mem_filter.1 hcand).1
    rw [hshare]
    exact links.ascending
  · refine List.Pairwise.imp_of_mem (fun {cand cand'} hcand hcand' hlt => ?_)
      ((List.pairwise_map.1 hc.ascending).filter _)
    obtain ⟨links, -, hshare, hiff⟩ := hc.share_eq (List.mem_filter.1 hcand).1
    obtain ⟨links', -, hshare', hiff'⟩ := hc.share_eq (List.mem_filter.1 hcand').1
    rw [hshare, hshare']
    intro a ha a' ha'
    obtain ⟨link, hl, hdoc, -⟩ := (hiff a).1 ha
    obtain ⟨link', hl', hdoc', -⟩ := (hiff' a').1 ha'
    exact hs.lt_of_home_lt hl hdoc hl' hdoc' hlt
  · rw [List.mem_flatMap, answers_iff]
    constructor
    · rintro ⟨cand, hcand, ha⟩
      obtain ⟨hmem, hread⟩ := List.mem_filter.1 hcand
      obtain ⟨links, -, hshare, hiff⟩ := hc.share_eq hmem
      rw [hshare] at ha
      exact ⟨cand.home, (hiff a).1 ha, hread⟩
    · rintro ⟨home, hfind, hread⟩
      obtain ⟨cand, hmem, rfl⟩ := hc.covers home a hfind
      obtain ⟨links, -, hshare, hiff⟩ := hc.share_eq hmem
      refine ⟨cand, List.mem_filter.2 ⟨hmem, hread⟩, ?_⟩
      rw [hshare]
      exact (hiff a).2 hfind

omit hs

theorem Complete.satisfying_eq (readable : Address → Bool) {cands : List Candidate}
    (hc : Complete ε reg l q cands) : (satisfyingLinks l reg readable cands : Outcome ε (List Address)) =
      .ok ((cands.filter fun cand => readable cand.home).flatMap (shareOf ε reg l)) := by
  have hall : ∀ cand ∈ cands.filter fun cand => homeAdmitted readable cand.home,
      ∃ links : OrdSet Address, (cand.satisfying reg l : Outcome ε (OrdSet Address)) = .ok links ∧
        links.elems = shareOf ε reg l cand := by
    intro cand hcand
    obtain ⟨links, heq, hshare, -⟩ := hc.share_eq (List.mem_filter.1 hcand).1
    exact ⟨links, heq, hshare.symm⟩
  obtain ⟨shares, heq, hR⟩ := Outcome.exists_mapM hall
  rw [satisfyingLinks, heq]
  show Outcome.ok (shares.flatMap OrdSet.elems) = _
  rw [Outcome.ok.injEq, List.flatMap_def, List.flatMap_def]
  refine congrArg List.flatten ?_
  show List.map OrdSet.elems shares =
    List.map (shareOf ε reg l) (cands.filter fun cand => homeAdmitted readable cand.home)
  clear heq hall
  generalize (cands.filter fun cand => homeAdmitted readable cand.home) = admitted at hR ⊢
  induction hR with
  | nil => rfl
  | cons h _ ih => rw [List.map_cons, List.map_cons, h, ih]

end

/-- Two constraints of the same spans, in any order and however often. -/
def SlotSpec.SameSpans : SlotSpec → SlotSpec → Prop
  | any, any | empty, empty => True
  | spans e, spans e' => ∀ s, s ∈ e.spans ↔ s ∈ e'.spans
  | _, _ => False

theorem SlotSpec.SameSpans.holds_iff {spec spec' : SlotSpec} (h : spec.SameSpans spec') (P : Span → Prop) :
    spec.Holds P ↔ spec'.Holds P := by
  cases spec <;> cases spec' <;> simp only [SameSpans] at h
  · exact Iff.rfl
  · exact Iff.rfl
  · exact exists_congr fun s => and_congr_left fun _ => h s

structure FourSet.SameSpans (q q' : FourSet) : Prop where
  home : q.home.SameSpans q'.home
  fromSlot : q.fromSlot.SameSpans q'.fromSlot
  toSlot : q.toSlot.SameSpans q'.toSlot
  ty : q.ty.SameSpans q'.ty

theorem FourSet.SameSpans.satisfied_iff {q q' : FourSet} (h : q.SameSpans q') (home : Address) (link : Link) :
    q.Satisfied home link ↔ q'.Satisfied home link := by
  constructor
  · rintro ⟨h₁, h₂, h₃, h₄⟩
    exact ⟨(h.home.holds_iff _).1 h₁, (h.fromSlot.holds_iff _).1 h₂, (h.toSlot.holds_iff _).1 h₃,
      (h.ty.holds_iff _).1 h₄⟩
  · rintro ⟨h₁, h₂, h₃, h₄⟩
    exact ⟨(h.home.holds_iff _).2 h₁, (h.fromSlot.holds_iff _).2 h₂, (h.toSlot.holds_iff _).2 h₃,
      (h.ty.holds_iff _).2 h₄⟩

/-- The four-set descriptor is answered by its definition: over every store a run reaches, the
read-out lists, in order and once each, the active links in readable homes that satisfy it; the
count is the list's length; the pages of a walk from any cursor, of any sizes, hold the list past
the cursor; whichever constraint drives, the list is the same; and so it is for every descriptor
with the same answers, of whatever shape, the same spans repeated among them. -/
theorem findlinksFtt_exact {reg : TypeRegistry} {l : LinkStore} {m3 : M3State} (h : l.Reachable reg m3)
    (q : FourSet) (readable : Address → Bool) :
    ∃ links, (findlinksFtt l q reg readable : Outcome Empty (List Address)) = .ok links ∧
      links.Pairwise (· < ·) ∧ (∀ a, a ∈ links ↔ q.Answers reg l readable a) ∧
      (countFtt l q reg readable : Outcome Empty ℕ) = .ok links.length ∧
      (∀ (cur : Cursor) (sizes : List ℕ), ∃ pages,
        Paging.walk (windowFtt (ε := Empty) l q reg readable) cur sizes = .ok pages ∧
          pages.flatMap Paging.Page.batch =
            (links.filter fun a => cur.all fun c => decide (c < a)).take (Paging.room sizes) ∧
          ((∃ p ∈ pages, p.exhausted = true) ↔
            (links.filter fun a => cur.all fun c => decide (c < a)).length < Paging.room sizes)) ∧
      (∀ constraints driver, q.linkConstraints = some constraints → driver < constraints.length →
        (do
          let cands ← candidatesDriven l q constraints driver
          satisfyingLinks l reg readable cands : Outcome Empty (List Address)) = .ok links) ∧
      (∀ q' : FourSet, (∀ a, q'.Answers reg l readable a ↔ q.Answers reg l readable a) →
        (findlinksFtt l q' reg readable : Outcome Empty (List Address)) = .ok links) ∧
      ∀ q' : FourSet, q.SameSpans q' →
        (findlinksFtt l q' reg readable : Outcome Empty (List Address)) = .ok links := by
  have hs := h.sound
  obtain ⟨cands, hcands, hc⟩ := candidates_spec (ε := Empty) reg hs q
  obtain ⟨hasc, hmem⟩ := hc.links_spec hs readable
  have hother : ∀ q' : FourSet, (∀ a, q'.Answers reg l readable a ↔ q.Answers reg l readable a) →
      (findlinksFtt l q' reg readable : Outcome Empty (List Address)) =
        .ok ((cands.filter fun cand => readable cand.home).flatMap (shareOf Empty reg l)) := by
    intro q' hq'
    obtain ⟨cands', hcands', hc'⟩ := candidates_spec (ε := Empty) reg hs q'
    obtain ⟨hasc', hmem'⟩ := hc'.links_spec hs readable
    rw [findlinksFtt, hcands', Outcome.ok_bind, hc'.satisfying_eq]
    exact congrArg Outcome.ok (OrdSet.eq_of_ascending hasc' hasc fun a => by rw [hmem', hmem, hq'])
  refine ⟨(cands.filter fun cand => readable cand.home).flatMap (shareOf Empty reg l),
    hother q fun a => Iff.rfl, hasc, hmem, ?_, fun cur sizes => ?_, fun constraints driver hq hlt => ?_,
    hother, fun q' hsame => hother q' fun a => ?_⟩
  · rw [countFtt, hcands, Outcome.ok_bind, hc.satisfying_eq]
    rfl
  · rw [← Paging.past_eq_filter hasc]
    refine Paging.walk_spec hasc (fun cursor n => ?_) sizes cur
    rw [windowFtt, hcands, Outcome.ok_bind]
    refine windowHomes_eq (fun cand hcand _ => ?_) (fun cand hcand c _ hbehind a ha => ?_) hasc
    · obtain ⟨links, heq, hshare, -⟩ := hc.share_eq hcand
      rw [heq, hshare]
      rfl
    · obtain ⟨links, -, hshare, hiff⟩ := hc.share_eq hcand
      rw [hshare] at ha
      obtain ⟨link, hl, hdoc, -⟩ := (hiff a).1 ha
      exact hs.homeBehind_le hl hdoc hbehind
  · obtain ⟨cands', hcands', hc'⟩ := candidatesDriven_spec (ε := Empty) reg hs hq hlt
    obtain ⟨hasc', hmem'⟩ := hc'.links_spec hs readable
    rw [hcands', Outcome.ok_bind, hc'.satisfying_eq]
    exact congrArg Outcome.ok (OrdSet.eq_of_ascending hasc' hasc fun a => by rw [hmem', hmem])
  · simp only [FourSet.Answers, hsame.satisfied_iff]

/-- A link of the head document about itself, deposited at genesis. -/
private def depositedOne : Outcome Empty (Address × LinkStore × M3State) := do
  let (addr, r) ← (M3State.genesis.mintLink headDocument).expect
  let m3 ← M3State.genesis.applyM3 1 r
  let st ← LinkStore.genesis.applyLink TypeRegistry.build
    (.deposit addr ⟨enc [headDocument], enc [], enc [headDocument]⟩)
  return (addr, st, m3)

private def oneLink : Address × LinkStore × M3State :=
  match depositedOne with
  | .ok one => one
  | .err _ | .fault => (headDocument, .genesis, .genesis)

/-- What is about the head document, of a type under its account. -/
private def aboutHead : FourSet := ⟨.any, .spans (enc [headDocument]), .any, .spans (enc [systemAccount])⟩

private theorem reachable_oneLink : oneLink.2.1.Reachable TypeRegistry.build oneLink.2.2 := by
  have hok : depositedOne.isOk = true := by decide +kernel
  obtain ⟨⟨addr, st, m3⟩, hone⟩ := Outcome.isOk_iff.1 hok
  have heq : oneLink = (addr, st, m3) := by rw [oneLink, hone]
  rw [heq]
  simp only [depositedOne, Outcome.bind_eq_ok_iff, Outcome.expect_eq_ok_iff, Outcome.pure_eq,
    Outcome.ok.injEq, Prod.mk.injEq, Prod.exists] at hone
  obtain ⟨addr', r, hmint, m3', hm3, st', hst, rfl, rfl, rfl⟩ := hone
  exact .deposit .genesis hmint hm3 hst

theorem findlinksFtt_exact_one : ∃ links,
    (findlinksFtt oneLink.2.1 aboutHead TypeRegistry.build (fun _ => true) : Outcome Empty (List Address)) =
      .ok links ∧ links = [oneLink.1] ∧
    (countFtt oneLink.2.1 aboutHead TypeRegistry.build (fun _ => true) : Outcome Empty ℕ) =
      .ok links.length := by
  obtain ⟨links, hlinks, -, -, hcount, -⟩ := findlinksFtt_exact reachable_oneLink aboutHead fun _ => true
  refine ⟨links, hlinks, ?_, hcount⟩
  have hone : (findlinksFtt oneLink.2.1 aboutHead TypeRegistry.build (fun _ => true) :
      Outcome Empty (List Address)) = .ok [oneLink.1] := by decide +kernel
  rw [hone] at hlinks
  exact (Outcome.ok.inj hlinks).symm
