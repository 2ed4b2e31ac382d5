import Skep.Links.State
import Skep.Namespace.Allocation

/-!
# Committed steps over links and names

What a commit may do to the link slice and the namespace slice: deposit a link
at the address M3 mints for it, or fold a namespace record that mints no link.
Over any run of such steps the links, their values and the registered documents
stay, and each document homes as many links as its link chain has issued.
-/

/-- The link slice and the namespace slice. -/
structure LinkWorld where
  links : LinkState
  m3 : M3State

/-- The chain a record advances. -/
def M3Rec.chain : M3Rec → Option NsKey
  | .allocate addr _ => namespaceOf addr
  | .allocateRange first _ => namespaceOf first
  | .registerNode _ | .registerPrincipal _ _ => none

/-- One committed step. -/
inductive LinkStep (reg : TypeRegistry) : LinkWorld → LinkWorld → Prop
  | deposit {w : LinkWorld} {home addr : Address} {value : Link} {r : M3Rec} {seq : ℕ}
      {m3 : M3State} {links : LinkState} (hmint : w.m3.mintLink home = .ok (addr, r))
      (hm3 : (w.m3.applyM3 seq r : Outcome Empty M3State) = .ok m3)
      (hlinks : (w.links.applyLink reg (.deposit addr value) : Outcome Empty LinkState) = .ok links) :
      LinkStep reg w ⟨links, m3⟩
  | record {w : LinkWorld} {r : M3Rec} {seq : ℕ} {m3 : M3State}
      (hr : ∀ home : Address, home.level = .document → r.chain ≠ some (linkNs home))
      (hm3 : (w.m3.applyM3 seq r : Outcome Empty M3State) = .ok m3) : LinkStep reg w ⟨w.links, m3⟩

namespace M3State

variable {s s' : M3State} {seq : ℕ} {r : M3Rec}

/-- A record adds to the members of the chains and drops none. -/
theorem isChainMember_of_applyM3 (h : (s.applyM3 seq r : Outcome Empty M3State) = .ok s')
    {a : Address} (ha : s.isChainMember a = true) : s'.isChainMember a = true := by
  cases r with
  | allocate addr pub => exact (isChainMember_allocate h a).2 (.inl ha)
  | allocateRange first count => exact (isChainMember_allocateRange h a).2 (.inl ha)
  | registerNode addr =>
    cases h
    exact ha
  | registerPrincipal pre id =>
    cases h
    exact ha

theorem isRegisteredDocument_of_applyM3 (h : (s.applyM3 seq r : Outcome Empty M3State) = .ok s')
    {d : Address} (hd : s.isRegisteredDocument d = true) : s'.isRegisteredDocument d = true := by
  rw [isRegisteredDocument_iff] at hd ⊢
  exact ⟨hd.1, isChainMember_of_applyM3 h hd.2⟩

theorem effectiveFrontier_of_applyM3 (h : (s.applyM3 seq r : Outcome Empty M3State) = .ok s')
    {key : NsKey} (hkey : r.chain ≠ some key) : s'.effectiveFrontier key = s.effectiveFrontier key := by
  cases r with
  | allocate addr pub =>
    obtain ⟨k, hk, -, rfl⟩ := applyM3_allocate_iff.1 h
    have hne : key ≠ k := fun heq => hkey (heq ▸ hk)
    simp only [effectiveFrontier, OrdMap.get_insert_of_ne _ _ hne]
  | allocateRange first count =>
    obtain ⟨k, hk, -, rfl⟩ := applyM3_allocateRange_iff.1 h
    have hne : key ≠ k := fun heq => hkey (heq ▸ hk)
    simp only [effectiveFrontier, OrdMap.get_insert_of_ne _ _ hne]
  | registerNode addr =>
    cases h
    rfl
  | registerPrincipal pre id =>
    cases h
    rfl

theorem linkNs_injective {home home' : Address} (h : linkNs home = linkNs home') : home = home' := by
  have hcomps : home.comps ++ [0, linkSubspace] = home'.comps ++ [0, linkSubspace] := by
    rw [← linkNs_comps, ← linkNs_comps, h]
  exact Address.ext (List.append_cancel_right hcomps)

theorem level_of_linkNs {a home : Address} (hhome : home.level = .document)
    (h : namespaceOf a = some (linkNs home)) : a.level = .element :=
  (element_of_namespaceOf hhome (show linkSubspace ≠ 0 by decide) (linkNs_comps home) rfl h).2.1

/-- An address of a document's link chain is that document's. -/
theorem documentOf_of_linkNs {a home : Address} (hhome : home.level = .document)
    (h : namespaceOf a = some (linkNs home)) : documentOf a = some home :=
  (element_of_namespaceOf hhome (show linkSubspace ≠ 0 by decide) (linkNs_comps home) rfl h).2.2.1

end M3State

namespace LinkState

variable {reg : TypeRegistry} {s s' : LinkState} {addr : Address} {value : Link}

theorem applyLink_eq_ok (h : (s.applyLink reg (.deposit addr value) : Outcome Empty LinkState) = .ok s') :
    s.readlink addr = none ∧ (∃ c, coverageClass value.typeSlot = .ok c) ∧
      s' = ⟨s.links.insert addr value⟩ := by
  simp only [applyLink, Outcome.bind_eq_ok_iff, Outcome.require_eq_ok_iff, Outcome.expect_eq_ok_iff,
    Outcome.pure_eq, Outcome.ok.injEq, exists_const] at h
  obtain ⟨hfresh, c, hc, -, -, -, -, rfl⟩ := h
  rw [OrdMap.contains, Option.isSome_eq_false_iff, Option.isNone_iff_eq_none] at hfresh
  exact ⟨hfresh, ⟨c, hc⟩, rfl⟩

theorem readlink_deposit
    (h : (s.applyLink reg (.deposit addr value) : Outcome Empty LinkState) = .ok s') (a : Address) :
    s'.readlink a = if a = addr then some value else s.readlink a := by
  obtain ⟨-, -, rfl⟩ := applyLink_eq_ok h
  exact OrdMap.get_insert s.links addr a value

theorem homeFrontier_deposit
    (h : (s.applyLink reg (.deposit addr value) : Outcome Empty LinkState) = .ok s') (home : Address) :
    s'.homeFrontier home = s.homeFrontier home + if documentOf addr = some home then 1 else 0 := by
  obtain ⟨hfresh, -, rfl⟩ := applyLink_eq_ok h
  rw [homeFrontier, ((OrdMap.insert_entries_perm value hfresh).filter _).length_eq, List.filter_cons]
  by_cases hdoc : documentOf addr = some home
  · simp [hdoc, homeFrontier]
  · simp [hdoc, homeFrontier]

end LinkState

namespace LinkWorld

/-- Every link stands on the link chain of a registered document, and the chain has
issued as many addresses as the document homes links. -/
structure Sound (w : LinkWorld) : Prop where
  homed : ∀ a l, w.links.readlink a = some l → ∃ home, w.m3.isRegisteredDocument home = true ∧
    namespaceOf a = some (linkNs home) ∧ w.m3.isChainMember a = true
  chained : ∀ home : Address, home.level = .document →
    w.m3.effectiveFrontier (linkNs home) = w.links.homeFrontier home

/-- The later world has every link and every registered document of the earlier. -/
structure Grows (w w' : LinkWorld) : Prop where
  links : ∀ a l, w.links.readlink a = some l → w'.links.readlink a = some l
  documents : ∀ d, w.m3.isRegisteredDocument d = true → w'.m3.isRegisteredDocument d = true

theorem Grows.refl (w : LinkWorld) : w.Grows w := ⟨fun _ _ h => h, fun _ h => h⟩

theorem Grows.trans {w w' w'' : LinkWorld} (h : w.Grows w') (h' : w'.Grows w'') : w.Grows w'' :=
  ⟨fun a l ha => h'.links a l (h.links a l ha), fun d hd => h'.documents d (h.documents d hd)⟩

def genesis : LinkWorld := ⟨LinkState.genesis, M3State.genesis⟩

theorem seed_chain {r : M3Rec} (hr : r ∈ M3State.seed) {home : Address} (hlv : home.level = .document) :
    r.chain ≠ some (linkNs home) := by
  have hne : ∀ a : Address, a.level ≠ .element → namespaceOf a ≠ some (linkNs home) := fun a ha h =>
    ha (M3State.element_of_namespaceOf hlv (show linkSubspace ≠ 0 by decide)
      (M3State.linkNs_comps home) rfl h).2.1
  simp only [M3State.seed, List.mem_cons, List.not_mem_nil, or_false] at hr
  rcases hr with rfl | rfl | rfl | rfl | rfl
  · exact Option.some_ne_none _ ∘ Eq.symm
  · exact hne systemAccount (by decide)
  · exact Option.some_ne_none _ ∘ Eq.symm
  · exact hne ghostHomeDocument (by decide)
  · exact hne headDocument (by decide)

theorem sound_genesis : genesis.Sound := by
  refine ⟨(fun a l h => by cases h), fun home hlv => ?_⟩
  have hroots : M3State.roots.effectiveFrontier (linkNs home) = 0 := by
    have hne : linkNs home ≠ contentNs ghostHomeDocument := fun h => by
      have hcomps : home.comps ++ [0, linkSubspace] = ghostHomeDocument.comps ++ [0, contentSubspace] := by
        rw [← M3State.linkNs_comps, ← M3State.contentNs_comps, h]
      have hlast := congrArg List.getLast? hcomps
      simp [linkSubspace, contentSubspace] at hlast
    rw [M3State.effectiveFrontier, ghostFloor, if_neg hne]
    rfl
  show M3State.genesis.effectiveFrontier (linkNs home) = 0
  refine Outcome.foldlM_invariant (P := fun s : M3State => s.effectiveFrontier (linkNs home) = 0)
    (fun s r hr s' hs' hP => ?_) M3State.applyAll_seed hroots
  rw [M3State.effectiveFrontier_of_applyM3 hs' (seed_chain hr hlv), hP]

theorem Sound.documentOf {w : LinkWorld} (hs : w.Sound) {a : Address} {l : Link}
    (h : w.links.readlink a = some l) :
    ∃ home, documentOf a = some home ∧ w.m3.isRegisteredDocument home = true ∧
      ordinal a.tumbler ≤ w.links.homeFrontier home := by
  obtain ⟨home, hreg, hns, hmem⟩ := hs.homed a l h
  have hlv := (M3State.isRegisteredDocument_iff.1 hreg).1
  refine ⟨home, M3State.documentOf_of_linkNs hlv hns, hreg, ?_⟩
  rw [← hs.chained home hlv]
  exact ((M3State.isChainMember_iff hns).1 hmem).2.trans (le_max_left _ _)

/-- How far a link lies behind its home's newest. -/
def ageOf (w : LinkWorld) (a : Address) : ℕ :=
  w.links.homeFrontier ((documentOf a).getD a) - ordinal a.tumbler

theorem Sound.age_eq {ε : Type} {w : LinkWorld} (hs : w.Sound) {a : Address} {l : Link}
    (h : w.links.readlink a = some l) : (w.links.age a : Outcome ε (Option ℕ)) = .ok (some (w.ageOf a)) := by
  obtain ⟨home, hdoc, -, hord⟩ := hs.documentOf h
  have hres : w.links.resident a = true := OrdMap.contains_iff.2 ⟨l, h⟩
  have hage : ¬ w.links.homeFrontier home < ordinal a.tumbler := not_lt.2 hord
  rw [LinkState.age, if_neg (by simp [hres])]
  simp [hdoc, Outcome.expectSome, Outcome.natSub, hage, ageOf]

/-- The stale links of a class are its old active ones. -/
theorem Sound.stale_eq {reg : TypeRegistry} {w : LinkWorld} (hs : w.Sound) {ty : Endset}
    {c : CoverageClass} (hc : coverageClass ty = .ok c) (hage : reg.declares c .age = true)
    (horizon : ℕ) : w.links.stale reg ty horizon =
      .ok (((w.links.typedLinks reg c .active).map Prod.fst).filter
        fun a => decide (horizon < w.ageOf a)) := by
  have hkeep := Outcome.keepM_eq_filter (ε := NotBh4) (p := fun a => do
      let age ← (w.links.age a).bind Outcome.expectSome
      return decide (horizon < age)) (q := fun a => decide (horizon < w.ageOf a))
      (l := (w.links.typedLinks reg c .active).map Prod.fst) (fun a ha => by
    obtain ⟨e, he, rfl⟩ := List.mem_map.1 ha
    rw [hs.age_eq (LinkState.mem_typedLinks.1 he).1]
    rfl)
  rw [LinkState.stale, hc]
  simp only [Outcome.expect_ok, Outcome.ok_bind, hage, Outcome.refuseIf, reduceCtorEq, if_false]
  exact hkeep

end LinkWorld

namespace LinkStep

variable {reg : TypeRegistry} {w w' : LinkWorld}

/-- A step keeps every link and every registered document. -/
theorem grows (h : LinkStep reg w w') : w.Grows w' := by
  cases h with
  | deposit hmint hm3 hlinks =>
    refine ⟨fun a l ha => ?_, fun d hd => M3State.isRegisteredDocument_of_applyM3 hm3 hd⟩
    have hfresh := (LinkState.applyLink_eq_ok hlinks).1
    rw [LinkState.readlink_deposit hlinks, if_neg]
    · exact ha
    · rintro rfl
      rw [hfresh] at ha
      cases ha
  | record hr hm3 => exact ⟨fun _ _ h => h, fun d hd => M3State.isRegisteredDocument_of_applyM3 hm3 hd⟩

theorem sound (h : LinkStep reg w w') (hs : w.Sound) : w'.Sound := by
  cases h with
  | record hr hm3 =>
    refine ⟨fun a l ha => ?_, fun home hlv => ?_⟩
    · obtain ⟨home, hreg, hns, hmem⟩ := hs.homed a l ha
      exact ⟨home, M3State.isRegisteredDocument_of_applyM3 hm3 hreg, hns,
        M3State.isChainMember_of_applyM3 hm3 hmem⟩
    · rw [← hs.chained home hlv]
      exact M3State.effectiveFrontier_of_applyM3 hm3 (hr home hlv)
  | @deposit home addr value r seq m3 links hmint hm3 hlinks =>
    obtain ⟨hreg, rfl, hns, hord⟩ := M3State.mintLink_eq_ok hmint
    have hlv := (M3State.isRegisteredDocument_iff.1 hreg).1
    refine ⟨fun a l ha => ?_, fun home' hlv' => ?_⟩
    · rw [LinkState.readlink_deposit hlinks] at ha
      by_cases haddr : a = addr
      · subst haddr
        exact ⟨home, M3State.isRegisteredDocument_of_applyM3 hm3 hreg, hns,
          (M3State.isChainMember_allocate hm3 a).2 (.inr rfl)⟩
      · rw [if_neg haddr] at ha
        obtain ⟨h₀, hreg₀, hns₀, hmem₀⟩ := hs.homed a l ha
        exact ⟨h₀, M3State.isRegisteredDocument_of_applyM3 hm3 hreg₀, hns₀,
          M3State.isChainMember_of_applyM3 hm3 hmem₀⟩
    · obtain ⟨key, hkey, -, hm3'⟩ := M3State.applyM3_allocate_iff.1 hm3
      rw [hns, Option.some.injEq] at hkey
      subst hkey
      have hinsert : m3.frontiers = w.m3.frontiers.insert (linkNs home) (ordinal addr.tumbler) := by
        rw [hm3']
      have hfront := M3State.effectiveFrontier_insert hinsert (by omega) (linkNs home')
      rw [hfront, LinkState.homeFrontier_deposit hlinks, M3State.documentOf_of_linkNs hlv hns]
      by_cases hhome : home' = home
      · subst hhome
        rw [if_pos rfl, if_pos rfl, hord, hs.chained home' hlv']
      · have hne : linkNs home' ≠ linkNs home := fun h => hhome (M3State.linkNs_injective h)
        rw [if_neg hne, if_neg fun h => hhome (Option.some.inj h).symm, hs.chained home' hlv',
          Nat.add_zero]

end LinkStep

namespace LinkWorld

/-- The worlds that a run of committed steps from genesis reaches. -/
def Reachable (reg : TypeRegistry) (w : LinkWorld) : Prop :=
  Relation.ReflTransGen (LinkStep reg) genesis w

theorem Reachable.sound {reg : TypeRegistry} {w : LinkWorld} (h : Reachable reg w) : w.Sound := by
  induction h with
  | refl => exact sound_genesis
  | tail _ hstep ih => exact hstep.sound ih

end LinkWorld
