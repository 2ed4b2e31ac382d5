import Skep.Namespace.Ops

/-!
# Allocation

Which addresses a run of mints issues. A chain's frontier is all that is stored
of them, so an address is allocated exactly where its chain has counted past it,
and every call issues the next addresses of the one chain it reads.

## Main results

- `Family.chain_injective` — the families share no chain
- `M3State.foldCall_spec` — what an accepted call issues and moves
- `mintContents_eq` — a content range is as many single mints
- `allocation_exact` — the allocated addresses are those issued, chain by chain
-/

-- Families

/-- The families of chains, by what their addresses are. -/
inductive Family where
  | account
  | subAccount
  | document
  | version
  | content
  | link
  deriving DecidableEq, Repr

namespace Family

/-- The level a family's anchors stand at. -/
def anchorLevel : Family → Level
  | account => .node
  | subAccount => .account
  | document => .account
  | version => .document
  | content => .document
  | link => .document

/-- The chain of the family at an anchor. -/
def chain : Family → Address → NsKey
  | account => accountNs
  | subAccount => accountNs
  | document => documentNs
  | version => versionNs
  | content => contentNs
  | link => linkNs

/-- The addresses of a family. -/
def Issues (f : Family) (a : Address) : Prop :=
  ∃ p, p.level = f.anchorLevel ∧ namespaceOf a = some (f.chain p)

/-- The generator of a family, and what its chains' anchors add to their address. -/
theorem chain_parts (f : Family) {p : Address} (hp : p.level = f.anchorLevel) :
    (f.chain p).g = (if f = account ∨ f = document then .nextField else .sameField) ∧
      (f.chain p).parent.comps = p.comps ++
        (if f = content then [0, contentSubspace] else if f = link then [0, linkSubspace]
          else []) := by
  cases f with
  | account =>
    have : p.level = .node := hp
    simp [chain, accountNs, generator, this, Address.comps]
  | subAccount =>
    have : p.level = .account := hp
    simp [chain, accountNs, generator, this, Address.comps]
  | document => simp [chain, documentNs, Address.comps]
  | version => simp [chain, versionNs, Address.comps]
  | content => exact ⟨rfl, M3State.contentNs_comps p⟩
  | link => exact ⟨rfl, M3State.linkNs_comps p⟩

/-- A chain belongs to one family, at one anchor. -/
theorem chain_injective {f f' : Family} {p p' : Address} (hp : p.level = f.anchorLevel)
    (hp' : p'.level = f'.anchorLevel) (h : f.chain p = f'.chain p') : f = f' ∧ p = p' := by
  obtain ⟨hg, hcomps⟩ := f.chain_parts hp
  obtain ⟨hg', hcomps'⟩ := f'.chain_parts hp'
  rw [h, hg'] at hg
  rw [h, hcomps'] at hcomps
  -- the separators of the anchor tell the levels apart
  have hzeros := congrArg (List.count 0) hcomps
  simp only [List.count_append, Address.count_zero, hp, hp'] at hzeros
  have hf : f = f' := by
    cases f <;> cases f' <;>
      simp_all [anchorLevel, Level.zeros, contentSubspace, linkSubspace]
    all_goals
      have hlast := congrArg List.getLast? hcomps
      simp at hlast
  subst hf
  exact ⟨rfl, Address.comps_inj.1 (List.append_cancel_right hcomps).symm⟩

theorem issues_unique {f f' : Family} {a : Address} (h : f.Issues a) (h' : f'.Issues a) :
    f = f' := by
  obtain ⟨p, hp, hns⟩ := h
  obtain ⟨p', hp', hns'⟩ := h'
  exact (chain_injective hp hp' (Option.some.inj (hns.symm.trans hns'))).1

end Family

-- The calls

/-- The calls that issue addresses. -/
inductive MintCall where
  | registerNode (addr : Tumbler)
  | delegate (delegator : PrincipalId) (newPrefix : Tumbler) (newId : PrincipalId)
  | document (account : Address) (published : Bool)
  | version (source : Address) (published : Bool)
  | content (home : Address)
  | contentRange (home : Address) (count : ℕ)
  | link (home : Address)

/-- Why a call was refused. -/
inductive MintRefusal where
  | node (e : RegisterNodeError)
  | delegation (e : DelegateError)
  | mint (e : MintError)
  deriving DecidableEq, Repr

/-- The chain a call reads. -/
def MintCall.chain : MintCall → Option NsKey
  | registerNode _ => none
  | delegate _ newPrefix _ =>
      match validate newPrefix with
      | .ok a => (parent a).map accountNs
      | .err _ | .fault => none
  | document account _ => some (documentNs account)
  | version source _ => some (versionNs source)
  | content home | contentRange home _ => some (contentNs home)
  | link home => some (linkNs home)

/-- How many addresses an accepted call issues. -/
def MintCall.count : MintCall → ℕ
  | contentRange _ count => count
  | _ => 1

/-- The mints whose home is registered. -/
def MintCall.Homed (s : M3State) : MintCall → Prop
  | document account _ => s.isRegisteredAccount account = true
  | version home _ | content home | link home => s.isRegisteredDocument home = true
  | contentRange home count => s.isRegisteredDocument home = true ∧ count ≠ 0
  | registerNode _ | delegate _ _ _ => False

namespace M3State

/-- What a call issues, and the records it stages. -/
def stageCall (s : M3State) : MintCall → Outcome MintRefusal (List Address × List M3Rec)
  | .registerNode addr => do
      let (a, recs) ← (registerNode s addr).mapErr .node
      return ([a], recs)
  | .delegate delegator newPrefix newId => do
      let (a, recs) ← (delegate s s delegator newPrefix newId).mapErr .delegation
      return ([a], recs)
  | .document account published => do
      let (a, r) ← (s.mintDocument account published).mapErr .mint
      return ([a], [r])
  | .version source published => do
      let (a, r) ← (s.mintVersion source published).mapErr .mint
      return ([a], [r])
  | .content home => do
      let (a, r) ← (s.mintContent home).mapErr .mint
      return ([a], [r])
  | .contentRange home count => do
      let (first, r) ← (s.mintContentRange home count).mapErr .mint
      return ((List.range count).map first.advance, [r])
  | .link home => do
      let (a, r) ← (s.mintLink home).mapErr .mint
      return ([a], [r])

/-- A call, its records folded at a position. -/
def foldCall (s : M3State) (seq : ℕ) (c : MintCall) :
    Outcome MintRefusal (List Address × M3State) := do
  let (addrs, recs) ← s.stageCall c
  let s' ← s.applyAll seq recs
  return (addrs, s')

end M3State

/-- A state and the addresses it has issued. -/
structure Allocations where
  state : M3State
  issued : List Address

namespace Allocations

/-- Genesis issues its node, its account and its two documents under the root. -/
def genesis : Allocations :=
  ⟨M3State.genesis,
    [bootstrapRoot, systemNode, systemAccount, ghostHomeDocument, headDocument]⟩

/-- One call at a position; a refused one changes nothing. -/
def step (r : Allocations) (c : ℕ × MintCall) : Allocations :=
  match r.state.foldCall c.1 c.2 with
  | .ok (addrs, s') => ⟨s', r.issued ++ addrs⟩
  | .err _ | .fault => r

def run (calls : List (ℕ × MintCall)) : Allocations := calls.foldl step genesis

end Allocations

-- What a record does to the members

namespace M3State

theorem isAllocated_of_level {s : M3State} {a : Address} (h : a.level ≠ .node) :
    s.isAllocated a = s.isChainMember a := by
  rw [isAllocated]
  cases hlv : a.level <;> simp_all

theorem eq_iff_ordinal {a b : Address} {key : NsKey} (ha : namespaceOf a = some key)
    (hb : namespaceOf b = some key) : a = b ↔ ordinal a.tumbler = ordinal b.tumbler := by
  refine ⟨fun h => h ▸ rfl, fun h => ?_⟩
  have hca := (namespaceOf_eq_some ha).1
  rw [h] at hca
  exact hca.eq (namespaceOf_eq_some hb).1

theorem namespaceOf_advance {a : Address} {key : NsKey} (h : namespaceOf a = some key) (k : ℕ) :
    namespaceOf (a.advance k) = some key := by
  obtain ⟨hchild, p, hp⟩ := namespaceOf_eq_some h
  obtain ⟨t, g⟩ := key
  cases hp
  have hsnoc : a.tumbler = Tumbler.snoc (p.tumbler.comps ++ g.sep) (ordinal a.tumbler) :=
    Tumbler.ext hchild
  have hshift : (a.advance k).ChildOf ⟨p.tumbler, g⟩ (ordinal a.tumbler + k) :=
    congrArg (fun t => (Tumbler.shift t k).comps) hsnoc |>.trans (by
      rw [Tumbler.shift_snoc, Tumbler.comps_snoc])
  exact hshift.namespaceOf_eq

/-- A range adds the addresses it names to the members and no other. -/
theorem isChainMember_allocateRange {ε : Type} {s s' : M3State} {seq : ℕ} {first : Address}
    {count : ℕ} (h : (s.applyM3 seq (.allocateRange first count) : Outcome ε M3State) = .ok s')
    (a : Address) : s'.isChainMember a = true ↔
      s.isChainMember a = true ∨ a ∈ (List.range count).map first.advance := by
  obtain ⟨key, hkey, hn, rfl⟩ := applyM3_allocateRange_iff.1 h
  simp only [List.mem_map, List.mem_range]
  cases ha : namespaceOf a with
  | none =>
    have hnone : ¬ ∃ k < count, first.advance k = a := by
      rintro ⟨k, -, rfl⟩
      simp [namespaceOf_advance hkey] at ha
    simp [isChainMember, ha, hnone]
  | some k =>
    rw [isChainMember_iff ha, isChainMember_iff ha]
    simp only [OrdMap.get_insert]
    split
    · next hk =>
      subst hk
      have hmem : (∃ j < count, first.advance j = a) ↔
          ∃ j < count, ordinal first.tumbler + j = ordinal a.tumbler := by
        simp only [eq_iff_ordinal (namespaceOf_advance hkey _) ha, Address.tumbler_advance,
          ordinal_shift]
      rw [hmem, hn, effectiveFrontier, Option.getD_some]
      constructor
      · rintro ⟨hfloor, hle⟩
        by_cases hold : ordinal a.tumbler ≤ (s.frontiers.get k).getD 0
        · exact .inl ⟨hfloor, hold⟩
        · exact .inr ⟨ordinal a.tumbler - (max ((s.frontiers.get k).getD 0) (ghostFloor k) + 1),
            by omega, by omega⟩
      · rintro (⟨hfloor, hle⟩ | ⟨j, hj, hord⟩) <;> omega
    · next hk =>
      have hnone : ¬ ∃ j < count, first.advance j = a := by
        rintro ⟨j, -, rfl⟩
        rw [namespaceOf_advance hkey] at ha
        exact hk (Option.some.inj ha).symm
      simp [hnone]

theorem not_isChainMember_of_range {s : M3State} {first : Address} {key : NsKey}
    (h : namespaceOf first = some key) (hn : ordinal first.tumbler = s.effectiveFrontier key + 1)
    (k : ℕ) : s.isChainMember (first.advance k) = false := by
  rw [← Bool.not_eq_true, isChainMember_iff (namespaceOf_advance h k), Address.tumbler_advance,
    ordinal_shift, hn, effectiveFrontier]
  omega

/-- The frontier of every chain after one of them moves. -/
theorem effectiveFrontier_insert {s s' : M3State} {key : NsKey} {n : ℕ}
    (h : s'.frontiers = s.frontiers.insert key n) (hn : s.effectiveFrontier key ≤ n) (k : NsKey) :
    s'.effectiveFrontier k = if k = key then n else s.effectiveFrontier k := by
  rw [effectiveFrontier, h, OrdMap.get_insert]
  split
  · next hk =>
    subst hk
    rw [Option.getD_some]
    rw [effectiveFrontier] at hn
    omega
  · rfl

end M3State

-- What a call does

/-- What an accepted call issues and moves: addresses no one had, the next ones of
the chain it reads, which moves past them. -/
structure Issued (s s' : M3State) (chain : Option NsKey) (addrs : List Address) : Prop where
  valid : ∀ a ∈ addrs, isT4Valid a.tumbler = true
  fresh : ∀ a ∈ addrs, s.isAllocated a = false
  nodup : addrs.Nodup
  allocated : ∀ a, s'.isAllocated a = true ↔ s.isAllocated a = true ∨ a ∈ addrs
  family : ∀ a ∈ addrs, a.level = .node ∨ ∃ f : Family, f.Issues a
  next : ∀ key, chain = some key → (∀ a ∈ addrs, namespaceOf a = some key) ∧
    addrs.map (fun a => ordinal a.tumbler) =
      (List.range addrs.length).map fun k => s.effectiveFrontier key + 1 + k
  frontier : ∀ key, s'.effectiveFrontier key =
    if chain = some key then s.effectiveFrontier key + addrs.length else s.effectiveFrontier key

namespace M3State

theorem issued_allocate (s : M3State) (seq : ℕ) {a : Address} {key : NsKey} (pub : Bool)
    (hlv : a.level ≠ .node) (hkey : namespaceOf a = some key)
    (hn : ordinal a.tumbler = s.effectiveFrontier key + 1) (hfam : ∃ f : Family, f.Issues a) :
    ∃ s', (∀ ε : Type, (s.applyM3 seq (.allocate a pub) : Outcome ε M3State) = .ok s') ∧
      Issued s s' (some key) [a] := by
  refine ⟨_, fun ε => applyM3_allocate_iff.2 ⟨key, hkey, hn, rfl⟩, ?_⟩
  have happ : (s.applyM3 seq (.allocate a pub) : Outcome Empty M3State) = .ok _ :=
    applyM3_allocate_iff.2 ⟨key, hkey, hn, rfl⟩
  refine ⟨?_, ?_, List.nodup_singleton a, fun b => ?_, ?_, ?_, fun k => ?_⟩
  · exact fun b _ => isT4Valid_of_admits b.admitted
  · intro b hb
    cases List.mem_singleton.1 hb
    rw [isAllocated_of_level hlv]
    exact not_isChainMember_of_next hkey hn
  · by_cases hb : b.level = .node
    · have hne : b ≠ a := fun h => hlv (h ▸ hb)
      simp [isAllocated, hb, hne]
    · rw [isAllocated_of_level hb, isAllocated_of_level hb, isChainMember_allocate happ,
        List.mem_singleton]
  · intro b hb
    cases List.mem_singleton.1 hb
    exact .inr hfam
  · rintro k ⟨⟩
    simp [hkey, hn]
  · rw [effectiveFrontier_insert rfl (by omega) k]
    simp only [Option.some.injEq, List.length_singleton, eq_comm (a := key)]
    split
    · next hk => rw [hn, hk]
    · rfl

/-- The issue of the next addresses of a content chain. -/
theorem issued_allocateRange (s : M3State) (seq : ℕ) {first : Address} {key : NsKey} {count : ℕ}
    (hlv : first.level = .element) (hkey : namespaceOf first = some key)
    (hn : ordinal first.tumbler = s.effectiveFrontier key + 1)
    (hfam : ∃ f : Family, f.Issues first) :
    ∃ s', (∀ ε : Type, (s.applyM3 seq (.allocateRange first count) : Outcome ε M3State) = .ok s') ∧
      Issued s s' (some key) ((List.range count).map first.advance) := by
  refine ⟨_, fun ε => applyM3_allocateRange_iff.2 ⟨key, hkey, hn, rfl⟩, ?_⟩
  have happ : (s.applyM3 seq (.allocateRange first count) : Outcome Empty M3State) = .ok _ :=
    applyM3_allocateRange_iff.2 ⟨key, hkey, hn, rfl⟩
  have hmem : ∀ a ∈ (List.range count).map first.advance, a.level = .element ∧
      namespaceOf a = some key ∧ s.isChainMember a = false := by
    intro a ha
    obtain ⟨k, -, rfl⟩ := List.mem_map.1 ha
    exact ⟨hlv, namespaceOf_advance hkey k, not_isChainMember_of_range hkey hn k⟩
  refine ⟨?_, ?_, ?_, fun b => ?_, ?_, ?_, fun k => ?_⟩
  · exact fun b _ => isT4Valid_of_admits b.admitted
  · intro b hb
    obtain ⟨hblv, -, hfresh⟩ := hmem b hb
    rw [isAllocated_of_level (by simp [hblv])]
    exact hfresh
  · exact List.nodup_range.map fun _ _ h => Address.advance_inj.1 h
  · by_cases hb : b.level = .node
    · have hne : b ∉ (List.range count).map first.advance := fun h => by
        simp [(hmem b h).1] at hb
      simp only [isAllocated, hb, hne, or_false]
    · rw [isAllocated_of_level hb, isAllocated_of_level hb, isChainMember_allocateRange happ]
  · intro b hb
    obtain ⟨f, p, hp, hns⟩ := hfam
    exact .inr ⟨f, p, hp, (hmem b hb).2.1.trans (hkey.symm.trans hns)⟩
  · rintro k ⟨⟩
    refine ⟨fun a ha => (hmem a ha).2.1, ?_⟩
    rw [List.map_map, List.length_map, List.length_range]
    refine List.map_congr_left fun j _ => ?_
    rw [Function.comp_apply, Address.tumbler_advance, ordinal_shift, hn]
  · rw [effectiveFrontier_insert rfl (by omega) k]
    simp only [Option.some.injEq, List.length_map, List.length_range, eq_comm (a := key)]
    split
    · next hk =>
      rw [hn, hk]
      omega
    · rfl

end M3State

/-- What moves neither a chain nor the nodes adds nothing to what was issued. -/
theorem Issued.of_same {s s' s'' : M3State} {chain : Option NsKey} {addrs : List Address}
    (h : Issued s s' chain addrs) (hfrontiers : s''.frontiers = s'.frontiers)
    (hnodes : s''.nodes = s'.nodes) : Issued s s'' chain addrs := by
  have hmember : s''.isChainMember = s'.isChainMember := by
    funext a
    rw [M3State.isChainMember, M3State.isChainMember, hfrontiers]
  refine ⟨h.valid, h.fresh, h.nodup, fun a => ?_, h.family, h.next, fun key => ?_⟩
  · rw [← h.allocated a, M3State.isAllocated, M3State.isAllocated, hmember, hnodes]
  · rw [← h.frontier key, M3State.effectiveFrontier, M3State.effectiveFrontier, hfrontiers]

namespace M3State

theorem issued_registerNode (s : M3State) (seq : ℕ) {a : Address} (hlv : a.level = .node)
    (hfresh : s.isAllocated a = false) :
    ∃ s', (∀ ε : Type, (s.applyM3 seq (.registerNode a) : Outcome ε M3State) = .ok s') ∧
      Issued s s' none [a] := by
  refine ⟨_, fun ε => rfl, ?_, ?_, List.nodup_singleton a, fun b => ?_, ?_, ?_, fun key => rfl⟩
  · exact fun b _ => isT4Valid_of_admits b.admitted
  · intro b hb
    cases List.mem_singleton.1 hb
    exact hfresh
  · rw [isAllocated, isAllocated, List.mem_singleton]
    cases hb : b.level with
    | node =>
      simp only [OrdMap.contains, OrdMap.get_insert]
      by_cases heq : b = a <;> simp [heq]
    | _ =>
      have hne : b ≠ a := fun h => by simp [h, hlv] at hb
      simp [hne, isChainMember]
  · intro b hb
    cases List.mem_singleton.1 hb
    exact .inl hlv
  · rintro key ⟨⟩

theorem entityLevel_eq_some {s : M3State} {a : Address} {lv : Level}
    (h : s.entityLevel a = some lv) : a.level = lv := by
  rw [entityLevel] at h
  split at h
  · exact Option.some.inj h
  · cases h

/-- The families a single mint issues of, with the level of what it issues. -/
theorem issues_of_mint {s : M3State} {home : Address} {key : NsKey} {a : Address}
    (hkey : namespaceOf a = some key)
    (h : (s.isRegisteredAccount home = true ∧ key = documentNs home) ∨
      (s.isRegisteredDocument home = true ∧
        (key = versionNs home ∨ key = contentNs home ∨ key = linkNs home))) :
    a.level ≠ .node ∧ (∃ f : Family, f.Issues a) ∧ (key = contentNs home → a.level = .element) := by
  have helem : ∀ {sub : ℕ}, s.isRegisteredDocument home = true → sub ≠ 0 →
      key.parent.comps = home.comps ++ [0, sub] → key.g = .sameField → a.level = .element :=
    fun hhome hsub hcomps hg =>
      (element_of_namespaceOf (level_of_isRegisteredDocument hhome) hsub hcomps hg hkey).2.1
  rcases h with ⟨hhome, rfl⟩ | ⟨hhome, hcase⟩
  · have hp := level_of_isRegisteredAccount hhome
    have hlv := (trunkOf_childOf_account hp (namespaceOf_eq_some hkey).1).1
    refine ⟨by simp [hlv], ⟨.document, home, hp, hkey⟩, fun heq => ?_⟩
    exact absurd (congrArg NsKey.g heq) (by simp [documentNs, contentNs])
  · have hp := level_of_isRegisteredDocument hhome
    rcases hcase with rfl | rfl | rfl
    · have hlv := (trunkOf_childOf hp (namespaceOf_eq_some hkey).1).1
      refine ⟨by simp [hlv], ⟨.version, home, hp, hkey⟩, fun heq => ?_⟩
      have hlen := congrArg (fun k : NsKey => k.parent.comps.length) heq
      simp [versionNs, contentNs_comps, Address.comps] at hlen
    · have hlv := helem hhome (show contentSubspace ≠ 0 by decide) (contentNs_comps home) rfl
      exact ⟨by simp [hlv], ⟨.content, home, hp, hkey⟩, fun _ => hlv⟩
    · have hlv := helem hhome (show linkSubspace ≠ 0 by decide) (linkNs_comps home) rfl
      exact ⟨by simp [hlv], ⟨.link, home, hp, hkey⟩, fun _ => hlv⟩

/-- An accepted call folds, and issues the next addresses of the chain it reads. -/
theorem foldCall_spec {s : M3State} {c : MintCall} {addrs : List Address} {recs : List M3Rec}
    (seq : ℕ) (h : s.stageCall c = .ok (addrs, recs)) :
    ∃ s', s.foldCall seq c = .ok (addrs, s') ∧ Issued s s' c.chain addrs := by
  have hone : ∀ {r : M3Rec} {key : Option NsKey}, recs = [r] → c.chain = key →
      (∃ s', (∀ ε : Type, (s.applyM3 seq r : Outcome ε M3State) = .ok s') ∧
        Issued s s' key addrs) →
      ∃ s', s.foldCall seq c = .ok (addrs, s') ∧ Issued s s' c.chain addrs := by
    rintro r key rfl rfl ⟨s', happ, hissued⟩
    refine ⟨s', ?_, hissued⟩
    rw [foldCall, h, Outcome.ok_bind]
    simp [applyAll, happ]
  cases c with
  | registerNode addr =>
    simp only [stageCall, Outcome.bind_eq_ok_iff, Outcome.mapErr_eq_ok_iff, Outcome.pure_eq,
      Outcome.ok.injEq, Prod.exists, Prod.mk.injEq] at h
    obtain ⟨a, recs, hcall, rfl, rfl⟩ := h
    obtain ⟨hlv, hfresh, rfl⟩ := registerNode_eq_ok hcall
    exact hone rfl rfl (issued_registerNode s seq hlv hfresh)
  | delegate delegator newPrefix newId =>
    have hstage := h
    simp only [stageCall, Outcome.bind_eq_ok_iff, Outcome.mapErr_eq_ok_iff, Outcome.pure_eq,
      Outcome.ok.injEq, Prod.exists, Prod.mk.injEq] at h
    obtain ⟨a, recs, hcall, rfl, rfl⟩ := h
    obtain ⟨hvalid, anchor, hanchor, hdel, rfl⟩ := delegate_eq_ok hcall
    have hfam : ∃ f : Family, f.Issues a := by
      rcases hdel.anchor_registered with hreg | hreg
      · exact ⟨.account, anchor, entityLevel_eq_some hreg, hdel.next⟩
      · exact ⟨.subAccount, anchor, entityLevel_eq_some hreg, hdel.next⟩
    obtain ⟨s', happ, hissued⟩ :=
      s.issued_allocate seq false (by simp [hdel.account]) hdel.next hdel.next_ordinal hfam
    have hchain : (MintCall.delegate delegator newPrefix newId).chain = some (accountNs anchor) := by
      rw [MintCall.chain, hvalid]
      show (parent a).map accountNs = _
      rw [hanchor]
      rfl
    let seated : M3State := { s' with
      principals := if s'.principals.contains a then s'.principals
        else s'.principals.insert a newId }
    have hseated : Issued s seated (some (accountNs anchor)) [a] := hissued.of_same rfl rfl
    refine ⟨seated, ?_, hchain ▸ hseated⟩
    rw [foldCall, hstage, Outcome.ok_bind]
    show (s.applyAll seq _ >>= fun s' => pure ([a], s')) = _
    rw [applyAll, List.foldlM_cons, happ]
    rfl
  | document account published =>
    simp only [stageCall, Outcome.bind_eq_ok_iff, Outcome.mapErr_eq_ok_iff, Outcome.pure_eq,
      Outcome.ok.injEq, Prod.exists, Prod.mk.injEq] at h
    obtain ⟨a, r, hmint, rfl, rfl⟩ := h
    obtain ⟨hreg, rfl, hkey, hord⟩ := mintDocument_eq_ok hmint
    obtain ⟨hlv, hfam, -⟩ := issues_of_mint hkey (.inl ⟨hreg, rfl⟩)
    exact hone rfl rfl (s.issued_allocate seq published hlv hkey hord hfam)
  | version source published =>
    simp only [stageCall, Outcome.bind_eq_ok_iff, Outcome.mapErr_eq_ok_iff, Outcome.pure_eq,
      Outcome.ok.injEq, Prod.exists, Prod.mk.injEq] at h
    obtain ⟨a, r, hmint, rfl, rfl⟩ := h
    obtain ⟨hreg, rfl, hkey, hord⟩ := mintVersion_eq_ok hmint
    obtain ⟨hlv, hfam, -⟩ := issues_of_mint hkey (.inr ⟨hreg, .inl rfl⟩)
    exact hone rfl rfl (s.issued_allocate seq published hlv hkey hord hfam)
  | content home =>
    simp only [stageCall, Outcome.bind_eq_ok_iff, Outcome.mapErr_eq_ok_iff, Outcome.pure_eq,
      Outcome.ok.injEq, Prod.exists, Prod.mk.injEq] at h
    obtain ⟨a, r, hmint, rfl, rfl⟩ := h
    obtain ⟨hreg, rfl, hkey, hord⟩ := mintContent_eq_ok hmint
    obtain ⟨hlv, hfam, -⟩ := issues_of_mint hkey (.inr ⟨hreg, .inr (.inl rfl)⟩)
    exact hone rfl rfl (s.issued_allocate seq false hlv hkey hord hfam)
  | contentRange home count =>
    simp only [stageCall, Outcome.bind_eq_ok_iff, Outcome.mapErr_eq_ok_iff, Outcome.pure_eq,
      Outcome.ok.injEq, Prod.exists, Prod.mk.injEq] at h
    obtain ⟨first, r, hmint, rfl, rfl⟩ := h
    obtain ⟨-, hreg, rfl, hkey, hord⟩ := mintContentRange_eq_ok hmint
    obtain ⟨-, hfam, hlv⟩ := issues_of_mint hkey (.inr ⟨hreg, .inr (.inl rfl)⟩)
    exact hone rfl rfl (s.issued_allocateRange seq (hlv rfl) hkey hord hfam)
  | link home =>
    simp only [stageCall, Outcome.bind_eq_ok_iff, Outcome.mapErr_eq_ok_iff, Outcome.pure_eq,
      Outcome.ok.injEq, Prod.exists, Prod.mk.injEq] at h
    obtain ⟨a, r, hmint, rfl, rfl⟩ := h
    obtain ⟨hreg, rfl, hkey, hord⟩ := mintLink_eq_ok hmint
    obtain ⟨hlv, hfam, -⟩ := issues_of_mint hkey (.inr ⟨hreg, .inr (.inr rfl)⟩)
    exact hone rfl rfl (s.issued_allocate seq false hlv hkey hord hfam)

/-- An accepted call issues as many addresses as it asks for, and all but the
registration of a node read a chain. -/
theorem stageCall_count {s : M3State} {c : MintCall} {addrs : List Address} {recs : List M3Rec}
    (h : s.stageCall c = .ok (addrs, recs)) :
    addrs.length = c.count ∧ 0 < c.count ∧ (c.chain = none ↔ ∃ addr, c = .registerNode addr) := by
  cases c with
  | contentRange home count =>
    simp only [stageCall, Outcome.bind_eq_ok_iff, Outcome.mapErr_eq_ok_iff, Outcome.pure_eq,
      Outcome.ok.injEq, Prod.exists, Prod.mk.injEq] at h
    obtain ⟨first, r, hmint, rfl, -⟩ := h
    have hcount := (mintContentRange_eq_ok hmint).1
    exact ⟨by simp [MintCall.count], Nat.pos_of_ne_zero hcount, by simp [MintCall.chain]⟩
  | delegate delegator newPrefix newId =>
    simp only [stageCall, Outcome.bind_eq_ok_iff, Outcome.mapErr_eq_ok_iff, Outcome.pure_eq,
      Outcome.ok.injEq, Prod.exists, Prod.mk.injEq] at h
    obtain ⟨a, recs, hcall, rfl, -⟩ := h
    obtain ⟨hvalid, anchor, hanchor, -⟩ := delegate_eq_ok hcall
    exact ⟨rfl, one_pos, by simp [MintCall.chain, hvalid, hanchor]⟩
  | _ =>
    simp only [stageCall, Outcome.bind_eq_ok_iff, Outcome.mapErr_eq_ok_iff, Outcome.pure_eq,
      Outcome.ok.injEq, Prod.exists, Prod.mk.injEq] at h
    obtain ⟨a, r, -, rfl, -⟩ := h
    exact ⟨rfl, one_pos, by simp [MintCall.chain]⟩

end M3State

-- The chains have no end

/-- An address has a child in its field at every ordinal, one past another. -/
theorem exists_nthIn_sameField (p : Address) :
    ∃ c : Address, ∀ n, n ≠ 0 → nthIn ⟨p.tumbler, .sameField⟩ n = .ok (c.advance (n - 1)) := by
  have hadm : (t4Scan (inc p.tumbler 1)).admittedLevel = some p.level :=
    (admits_same (p := p.tumbler) (e := [1]) (by simp) (by simp [inc]) p.getLast?_ne_zero).2 p.admitted
  exact ⟨⟨_, p.level, hadm⟩, fun n hn => nthIn_eq_ok (p := p) rfl rfl rfl hn⟩

/-- An address above the documents has a child in the next field at every ordinal. -/
theorem exists_nthIn_nextField {p : Address} {lv : Level} (hlv : lv.zeros = p.level.zeros + 1) :
    ∃ c : Address, ∀ n, n ≠ 0 → nthIn ⟨p.tumbler, .nextField⟩ n = .ok (c.advance (n - 1)) := by
  have hadm : (t4Scan (inc p.tumbler 2)).admittedLevel = some lv :=
    (admits_field (p := p.tumbler) (e := [1]) (by simp) (by simp) (by simp [inc]) hlv).2 p.admitted
  have hgate : incPreservesT4 p 2 = true := by
    cases hp : p.level <;> simp_all [incPreservesT4]
    cases lv <;> simp [Level.zeros] at hlv
  exact ⟨⟨_, lv, hadm⟩, fun n hn => nthIn_eq_ok (p := p) rfl hgate rfl hn⟩

/-- A chain of a family has an address at every ordinal, one past another. -/
theorem Family.exists_nthIn (f : Family) {p : Address} (hp : p.level = f.anchorLevel) :
    ∃ c : Address, ∀ n, n ≠ 0 → nthIn (f.chain p) n = .ok (c.advance (n - 1)) := by
  have hanchor : ∀ {sub : ℕ} {t : Tumbler}, sub ≠ 0 → p.level = .document →
      t.comps = p.comps ++ [0, sub] → ∃ q : Address, q.tumbler = t := by
    intro sub t hsub hlv ht
    have hadm : (t4Scan t).admittedLevel = some .element :=
      (admits_field (p := p.tumbler) (e := [sub]) (by simp) (by simpa using hsub.symm) ht
        (show _ = Level.document.zeros + 1 from rfl)).2 (hlv ▸ p.admitted)
    exact ⟨⟨t, _, hadm⟩, rfl⟩
  cases f with
  | account =>
    have hp : p.level = .node := hp
    have hkey : account.chain p = ⟨p.tumbler, .nextField⟩ := by simp [chain, accountNs, generator, hp]
    rw [hkey]
    exact exists_nthIn_nextField (show Level.account.zeros = p.level.zeros + 1 by rw [hp]; rfl)
  | subAccount =>
    have hp : p.level = .account := hp
    have hkey : subAccount.chain p = ⟨p.tumbler, .sameField⟩ := by simp [chain, accountNs, generator, hp]
    rw [hkey]
    exact exists_nthIn_sameField p
  | document =>
    have hp : p.level = .account := hp
    exact exists_nthIn_nextField (show Level.document.zeros = p.level.zeros + 1 by rw [hp]; rfl)
  | version => exact exists_nthIn_sameField p
  | content =>
    obtain ⟨q, hq⟩ := hanchor (show contentSubspace ≠ 0 by decide) hp (M3State.contentNs_comps p)
    have hkey : content.chain p = ⟨q.tumbler, .sameField⟩ := by rw [hq]; rfl
    rw [hkey]
    exact exists_nthIn_sameField q
  | link =>
    obtain ⟨q, hq⟩ := hanchor (show linkSubspace ≠ 0 by decide) hp (M3State.linkNs_comps p)
    have hkey : link.chain p = ⟨q.tumbler, .sameField⟩ := by rw [hq]; rfl
    rw [hkey]
    exact exists_nthIn_sameField q

/-- The chains of content and of links issue elements of their document, the
others no element. -/
theorem Family.slot (f : Family) {p a : Address} (hp : p.level = f.anchorLevel)
    (h : namespaceOf a = some (f.chain p)) :
    a.level ≠ .element ∨ isContentOrLinkSlot a = true := by
  have hslot : ∀ {sub : ℕ}, sub = contentSubspace ∨ sub = linkSubspace → p.level = .document →
      (f.chain p).parent.comps = p.comps ++ [0, sub] → (f.chain p).g = .sameField →
      isContentOrLinkSlot a = true := by
    intro sub hsub hlv hcomps hg
    have hne : sub ≠ 0 := by rcases hsub with rfl | rfl <;> decide
    rw [isContentOrLinkSlot, (M3State.element_of_namespaceOf hlv hne hcomps hg h).2.2.2]
    simpa using hsub
  have hzeros := congrArg (List.count 0) (namespaceOf_eq_some h).1
  rw [Address.count_zero, (f.chain_parts hp).1, (f.chain_parts hp).2] at hzeros
  cases f with
  | content => exact .inr (hslot (.inl rfl) hp (M3State.contentNs_comps p) rfl)
  | link => exact .inr (hslot (.inr rfl) hp (M3State.linkNs_comps p) rfl)
  | _ =>
    refine .inl fun ha => ?_
    have hn := (namespaceOf_eq_some h).1.pos.ne'
    simp [ha, hp, anchorLevel, Level.zeros, Generator.sep, Address.count_zero, hn] at hzeros

namespace M3State

theorem nextIn_eq (s : M3State) (f : Family) {p c : Address} (hp : p.level = f.anchorLevel)
    (hc : ∀ n, n ≠ 0 → nthIn (f.chain p) n = .ok (c.advance (n - 1))) :
    s.nextIn (f.chain p) = .ok (c.advance (s.effectiveFrontier (f.chain p))) := by
  have hnth := hc (s.effectiveFrontier (f.chain p) + 1) (Nat.succ_ne_zero _)
  rw [nextIn, hnth, Outcome.ok_bind, Outcome.require, if_pos (f.slot hp (namespaceOf_nthIn hnth).1)]
  rfl

theorem exists_nextIn (s : M3State) (f : Family) {p : Address} (hp : p.level = f.anchorLevel) :
    ∃ a, s.nextIn (f.chain p) = .ok a := by
  obtain ⟨c, hc⟩ := f.exists_nthIn hp
  exact ⟨_, s.nextIn_eq f hp hc⟩

theorem exists_stageCall {s : M3State} {c : MintCall} (h : c.Homed s) :
    ∃ addrs recs, s.stageCall c = .ok (addrs, recs) := by
  cases c with
  | registerNode _ => exact h.elim
  | delegate _ _ _ => exact h.elim
  | document account published =>
    obtain ⟨a, ha⟩ := s.exists_nextIn .document (level_of_isRegisteredAccount h)
    have ha : s.nextIn (documentNs account) = .ok a := ha
    have h : s.isRegisteredAccount account = true := h
    simp [stageCall, mintDocument, mintOn, ha, h, Outcome.refuseIf, Outcome.mapErr]
  | version home published =>
    obtain ⟨a, ha⟩ := s.exists_nextIn .version (level_of_isRegisteredDocument h)
    have ha : s.nextIn (versionNs home) = .ok a := ha
    have h : s.isRegisteredDocument home = true := h
    simp [stageCall, mintVersion, mintOn, ha, h, Outcome.refuseIf, Outcome.mapErr]
  | content home =>
    obtain ⟨a, ha⟩ := s.exists_nextIn .content (level_of_isRegisteredDocument h)
    have ha : s.nextIn (contentNs home) = .ok a := ha
    have h : s.isRegisteredDocument home = true := h
    simp [stageCall, mintContent, mintOn, ha, h, Outcome.refuseIf, Outcome.mapErr]
  | contentRange home count =>
    obtain ⟨h, hcount⟩ := h
    obtain ⟨a, ha⟩ := s.exists_nextIn .content (level_of_isRegisteredDocument h)
    have ha : s.nextIn (contentNs home) = .ok a := ha
    simp [stageCall, mintContentRange, ha, h, hcount, Outcome.require, Outcome.refuseIf, Outcome.mapErr]
  | link home =>
    obtain ⟨a, ha⟩ := s.exists_nextIn .link (level_of_isRegisteredDocument h)
    have ha : s.nextIn (linkNs home) = .ok a := ha
    have h : s.isRegisteredDocument home = true := h
    simp [stageCall, mintLink, mintOn, ha, h, Outcome.refuseIf, Outcome.mapErr]

end M3State

-- Ranges

namespace M3State

/-- Content mints in a row, the `k`-th at position `seqs k`. -/
def mintContents (s : M3State) (seqs : ℕ → ℕ) (home : Address) :
    ℕ → Outcome MintRefusal (List Address × M3State)
  | 0 => return ([], s)
  | n + 1 => do
      let (addrs, s) ← s.mintContents seqs home n
      let (more, s) ← s.foldCall (seqs n) (.content home)
      return (addrs ++ more, s)

/-- What the content mints of a registered document issue. -/
structure ContentChain (home c : Address) : Prop where
  element : c.level = .element
  notLink : ∀ n, isLinkSlot (c.advance n) = false
  next : ∀ s : M3State,
    s.nextIn (contentNs home) = .ok (c.advance (s.effectiveFrontier (contentNs home)))

theorem exists_contentChain {home : Address} (hlv : home.level = .document) :
    ∃ c, ContentChain home c := by
  obtain ⟨c, hc⟩ := Family.content.exists_nthIn hlv
  have hparts : ∀ n, (c.advance n).level = .element ∧
      (c.advance n).elementField = some [contentSubspace, ordinal (c.advance n).tumbler] := by
    intro n
    have hkey := (namespaceOf_nthIn (hc (n + 1) (Nat.succ_ne_zero n))).1
    obtain ⟨-, h1, -, h2⟩ := element_of_namespaceOf hlv (show contentSubspace ≠ 0 by decide)
      (contentNs_comps home) rfl hkey
    exact ⟨h1, h2⟩
  refine ⟨c, (hparts 0).1, fun n => ?_, fun s => s.nextIn_eq .content hlv hc⟩
  rw [isLinkSlot, (hparts n).2]
  rfl

/-- The slice with a content chain moved on. -/
def withFrontier (s : M3State) (key : NsKey) (n : ℕ) : M3State :=
  { s with frontiers := s.frontiers.insert key n }

theorem effectiveFrontier_withFrontier {s : M3State} {key : NsKey} {n : ℕ}
    (hn : s.effectiveFrontier key ≤ n) : (s.withFrontier key n).effectiveFrontier key = n := by
  rw [effectiveFrontier_insert (s := s) rfl hn key, if_pos rfl]

theorem isRegisteredDocument_withFrontier {s : M3State} {home d : Address} {n : ℕ}
    (hhome : home.level = .document) :
    (s.withFrontier (contentNs home) n).isRegisteredDocument d = s.isRegisteredDocument d := by
  have hmember : d.level = .document →
      (s.withFrontier (contentNs home) n).isChainMember d = s.isChainMember d := by
    intro hd
    rw [isChainMember, isChainMember, withFrontier]
    cases hkey : namespaceOf d with
    | none => rfl
    | some key =>
      have hne : key ≠ contentNs home := by
        rintro rfl
        have := (element_of_namespaceOf hhome (show contentSubspace ≠ 0 by decide)
          (contentNs_comps home) rfl hkey).2.1
        simp [hd] at this
      simp only [OrdMap.get_insert_of_ne _ _ hne]
  rw [Bool.eq_iff_iff, isRegisteredDocument_iff, isRegisteredDocument_iff]
  exact and_congr_right fun hd => by rw [hmember hd]

theorem withFrontier_withFrontier (s : M3State) (key : NsKey) (m n : ℕ) :
    (s.withFrontier key m).withFrontier key n = s.withFrontier key n := by
  have hinsert : (s.frontiers.insert key m).insert key n = s.frontiers.insert key n := by
    refine OrdMap.ext_get fun k => ?_
    simp only [OrdMap.get_insert]
    split <;> rfl
  simp only [withFrontier, hinsert]

section ContentMints

variable {home c : Address} (hc : ContentChain home c)

include hc

theorem foldCall_content {s : M3State} (seq : ℕ) (h : s.isRegisteredDocument home = true) :
    s.foldCall seq (.content home) = .ok ([c.advance (s.effectiveFrontier (contentNs home))],
      s.withFrontier (contentNs home) (s.effectiveFrontier (contentNs home) + 1)) := by
  have hmint : s.mintContent home = .ok (c.advance (s.effectiveFrontier (contentNs home)),
      .allocate (c.advance (s.effectiveFrontier (contentNs home))) false) := by
    simp [mintContent, mintOn, hc.next, h, Outcome.refuseIf, Outcome.mapErr]
  obtain ⟨-, -, hkey, hord⟩ := mintContent_eq_ok hmint
  have hfold : (s.applyM3 seq (.allocate (c.advance (s.effectiveFrontier (contentNs home))) false) :
      Outcome MintRefusal M3State) =
        .ok (s.withFrontier (contentNs home) (s.effectiveFrontier (contentNs home) + 1)) := by
    refine applyM3_allocate_iff.2 ⟨_, hkey, hord, ?_⟩
    rw [withFrontier, hord]
    simp [hc.element, hc.notLink]
  rw [foldCall, stageCall, hmint]
  simp [Outcome.mapErr, applyAll, hfold]

theorem foldCall_contentRange {s : M3State} (seq : ℕ) {count : ℕ} (hcount : count ≠ 0)
    (h : s.isRegisteredDocument home = true) :
    s.foldCall seq (.contentRange home count) =
      .ok ((List.range count).map (c.advance (s.effectiveFrontier (contentNs home))).advance,
        s.withFrontier (contentNs home) (s.effectiveFrontier (contentNs home) + count)) := by
  have hmint : s.mintContentRange home count =
      .ok (c.advance (s.effectiveFrontier (contentNs home)),
        .allocateRange (c.advance (s.effectiveFrontier (contentNs home))) count) := by
    simp [mintContentRange, hc.next, h, hcount, Outcome.require, Outcome.refuseIf, Outcome.mapErr]
  obtain ⟨-, -, -, hkey, hord⟩ := mintContentRange_eq_ok hmint
  have hfold : (s.applyM3 seq
      (.allocateRange (c.advance (s.effectiveFrontier (contentNs home))) count) :
      Outcome MintRefusal M3State) =
        .ok (s.withFrontier (contentNs home) (s.effectiveFrontier (contentNs home) + count)) := by
    refine applyM3_allocateRange_iff.2 ⟨_, hkey, hord, ?_⟩
    rw [withFrontier, hord]
    congr 2
    omega
  rw [foldCall, stageCall, hmint]
  simp [Outcome.mapErr, applyAll, hfold]

/-- Single mints issue the addresses of a range one by one. -/
theorem mintContents_succ {s : M3State} (seqs : ℕ → ℕ) (h : s.isRegisteredDocument home = true)
    (n : ℕ) : s.mintContents seqs home (n + 1) =
      .ok ((List.range (n + 1)).map (c.advance (s.effectiveFrontier (contentNs home))).advance,
        s.withFrontier (contentNs home) (s.effectiveFrontier (contentNs home) + (n + 1))) := by
  induction n with
  | zero =>
    rw [mintContents, mintContents, Outcome.pure_eq, Outcome.ok_bind]
    simp only [foldCall_content hc _ h, Outcome.ok_bind, Outcome.pure_eq]
    simp
  | succ n ih =>
    have hlv := level_of_isRegisteredDocument h
    have hmid : (s.withFrontier (contentNs home)
        (s.effectiveFrontier (contentNs home) + (n + 1))).isRegisteredDocument home = true := by
      rw [isRegisteredDocument_withFrontier hlv, h]
    rw [mintContents, ih, Outcome.ok_bind]
    simp only [foldCall_content hc _ hmid, Outcome.ok_bind, Outcome.pure_eq,
      effectiveFrontier_withFrontier (Nat.le_add_right _ _), withFrontier_withFrontier]
    rw [List.range_succ (n := n + 1), List.map_append, List.map_singleton,
      Address.advance_advance]
    rfl

end ContentMints

/-- A content range is as many single mints: it issues their addresses and leaves
their slice, or is refused as they are. -/
theorem mintContents_eq (s : M3State) (seqs : ℕ → ℕ) (seq : ℕ) (home : Address) {count : ℕ}
    (hcount : count ≠ 0) :
    s.mintContents seqs home count = s.foldCall seq (.contentRange home count) := by
  obtain ⟨n, rfl⟩ := Nat.exists_eq_succ_of_ne_zero hcount
  by_cases h : s.isRegisteredDocument home = true
  · obtain ⟨c, hc⟩ := exists_contentChain (level_of_isRegisteredDocument h)
    exact (mintContents_succ hc seqs h n).trans (foldCall_contentRange hc seq hcount h).symm
  · rw [Bool.not_eq_true] at h
    have hrange : s.foldCall seq (.contentRange home (n + 1)) =
        .err (.mint .homeNotRegistered) := by
      simp [foldCall, stageCall, mintContentRange, h, Outcome.require, Outcome.refuseIf,
        Outcome.mapErr]
    have hone : ∀ k, s.foldCall k (.content home) = .err (.mint .homeNotRegistered) := fun k => by
      simp [foldCall, stageCall, mintContent, h, Outcome.refuseIf, Outcome.mapErr]
    rw [Nat.succ_eq_add_one, hrange]
    clear hcount hrange
    induction n with
    | zero =>
      rw [mintContents, mintContents, Outcome.pure_eq, Outcome.ok_bind]
      simp only [hone, Outcome.err_bind]
    | succ n ih =>
      rw [mintContents, ih]
      rfl

end M3State

-- Runs

namespace Allocations

/-- What every run keeps: the allocated addresses are the issued ones, each of
them once, each of a family or a node, and every chain is issued without a gap. -/
structure Exact (r : Allocations) : Prop where
  allocated : ∀ a, r.state.isAllocated a = true ↔ a ∈ r.issued
  nodup : r.issued.Nodup
  family : ∀ a ∈ r.issued, a.level = .node ∨ ∃ f : Family, f.Issues a
  filled : ∀ key n, ghostFloor key < n → n ≤ r.state.effectiveFrontier key →
    ∃ a ∈ r.issued, namespaceOf a = some key ∧ ordinal a.tumbler = n

theorem Exact.issued {r : Allocations} (h : r.Exact) {s' : M3State} {chain : Option NsKey}
    {addrs : List Address} (hi : Issued r.state s' chain addrs) :
    (⟨s', r.issued ++ addrs⟩ : Allocations).Exact := by
  refine ⟨fun a => ?_, ?_, fun a ha => ?_, fun key n hfloor hle => ?_⟩
  · rw [hi.allocated, h.allocated, List.mem_append]
  · refine List.nodup_append.2 ⟨h.nodup, hi.nodup, fun a ha b hb hab => ?_⟩
    subst hab
    have := hi.fresh a hb
    rw [(h.allocated a).2 ha] at this
    cases this
  · rcases List.mem_append.1 ha with ha | ha
    · exact h.family a ha
    · exact hi.family a ha
  · by_cases hold : n ≤ r.state.effectiveFrontier key
    · obtain ⟨a, ha, hns, hord⟩ := h.filled key n hfloor hold
      exact ⟨a, List.mem_append_left _ ha, hns, hord⟩
    · -- past the old frontier, the call's own addresses stand
      have hle : n ≤ s'.effectiveFrontier key := hle
      rw [hi.frontier] at hle
      split at hle
      · next hchain =>
        obtain ⟨hns, hord⟩ := hi.next key hchain
        have hmem : n ∈ addrs.map fun a => ordinal a.tumbler := by
          rw [hord, List.mem_map]
          exact ⟨n - (r.state.effectiveFrontier key + 1), List.mem_range.2 (by omega), by omega⟩
        obtain ⟨a, ha, hn⟩ := List.mem_map.1 hmem
        exact ⟨a, List.mem_append_right _ ha, hns a ha, hn⟩
      · exact absurd hle hold

theorem exact_roots : (⟨M3State.roots, [bootstrapRoot]⟩ : Allocations).Exact := by
  have hfrontier : ∀ key, M3State.roots.effectiveFrontier key = ghostFloor key := fun key =>
    Nat.max_eq_right (Nat.zero_le _)
  refine ⟨fun a => ?_, List.nodup_singleton _, fun a ha => ?_, fun key n hfloor hle => ?_⟩
  · rw [List.mem_singleton, M3State.isAllocated]
    have hmember : M3State.roots.isChainMember a = false := by
      cases hkey : namespaceOf a with
      | none => simp [M3State.isChainMember, hkey]
      | some key =>
        rw [← Bool.not_eq_true, M3State.isChainMember_iff hkey]
        show ¬ (_ ∧ _ ≤ 0)
        omega
    have hroot : a.level ≠ .node → a ≠ bootstrapRoot := fun hne heq => hne (heq ▸ rfl)
    cases hlv : a.level with
    | node =>
      show (OrdMap.contains _ a = true) ↔ _
      rw [OrdMap.contains, M3State.roots, OrdMap.get_insert]
      by_cases heq : a = bootstrapRoot
      · simp [heq]
      · simp [heq]
    | _ => simp [hmember, hroot (by simp [hlv])]
  · cases List.mem_singleton.1 ha
    exact .inl rfl
  · have hle : n ≤ M3State.roots.effectiveFrontier key := hle
    rw [hfrontier] at hle
    omega

/-- A record that issues the next address of a chain keeps the run exact. -/
theorem Exact.allocate {s s' : M3State} {issued : List Address} {a : Address} {pub : Bool}
    {seq : ℕ} (h : (⟨s, issued⟩ : Allocations).Exact) (hlv : a.level ≠ .node)
    (hfam : ∃ f : Family, f.Issues a)
    (happ : (s.applyM3 seq (.allocate a pub) : Outcome Empty M3State) = .ok s') :
    (⟨s', issued ++ [a]⟩ : Allocations).Exact := by
  obtain ⟨key, hkey, hn, -⟩ := M3State.applyM3_allocate_iff.1 happ
  obtain ⟨s'', happ', hissued⟩ := s.issued_allocate seq pub hlv hkey hn hfam
  cases (happ' Empty).symm.trans happ
  exact h.issued hissued

theorem exact_genesis : genesis.Exact := by
  have h := M3State.applyAll_seed
  simp only [M3State.applyAll, M3State.seed, List.foldlM_cons, List.foldlM_nil,
    Outcome.bind_eq_ok_iff, Outcome.pure_eq, Outcome.ok.injEq] at h
  obtain ⟨s1, h1, s2, h2, s3, h3, s4, h4, s5, h5, rfl⟩ := h
  have hfresh : M3State.roots.isAllocated systemNode = false := by decide
  have e1 : (⟨s1, [bootstrapRoot, systemNode]⟩ : Allocations).Exact := by
    obtain ⟨s, happ, hissued⟩ := M3State.roots.issued_registerNode 0 rfl hfresh
    cases (happ Empty).symm.trans h1
    exact exact_roots.issued hissued
  have e2 := e1.allocate (by decide) ⟨.account, systemNode, rfl, by decide⟩ h2
  have e3 : (⟨s3, [bootstrapRoot, systemNode, systemAccount]⟩ : Allocations).Exact := by
    cases h3
    exact ⟨e2.allocated, e2.nodup, e2.family, e2.filled⟩
  have e4 := e3.allocate (by decide) ⟨.document, systemAccount, rfl, by decide⟩ h4
  exact e4.allocate (by decide) ⟨.document, systemAccount, rfl, by decide⟩ h5

theorem Exact.step {r : Allocations} (h : r.Exact) (c : ℕ × MintCall) : (r.step c).Exact := by
  rw [Allocations.step]
  split
  · next addrs s' hfold =>
    have hstage := hfold
    simp only [M3State.foldCall, Outcome.bind_eq_ok_iff, Prod.exists] at hstage
    obtain ⟨addrs', recs, hstage, s'', -, hok⟩ := hstage
    cases hok
    obtain ⟨s3, hfold', hissued⟩ := M3State.foldCall_spec c.1 hstage
    cases hfold.symm.trans hfold'
    exact h.issued hissued
  · exact h
  · exact h

theorem exact_run (calls : List (ℕ × MintCall)) : (run calls).Exact := by
  induction calls using List.reverseRecOn with
  | nil => exact exact_genesis
  | append_singleton calls c ih =>
    rw [run, List.foldl_append]
    exact ih.step c

theorem issued_subset_step (r : Allocations) (c : ℕ × MintCall) : r.issued ⊆ (r.step c).issued := by
  rw [step]
  split
  · exact List.subset_append_left _ _
  · exact List.Subset.refl _
  · exact List.Subset.refl _

theorem issued_subset_foldl (r : Allocations) (calls : List (ℕ × MintCall)) :
    r.issued ⊆ (calls.foldl step r).issued := by
  induction calls generalizing r with
  | nil => exact List.Subset.refl _
  | cons c calls ih => exact List.Subset.trans (r.issued_subset_step c) (ih _)

end Allocations

/-- Over any run of mints: the allocated addresses are the valid ones it issued,
each once and for good; a chain's are the ordinals past its reserved ones up to
its frontier; the families share no address; an accepted call issues the next
addresses of the one chain it reads, one of them or as many as a range counts, and
moves that chain past them and no other; a mint off a registered home is accepted;
and a content range is as many single mints. -/
theorem allocation_exact (calls : List (ℕ × MintCall)) :
    let r := Allocations.run calls
    r.issued.Nodup ∧
    (∀ a, r.state.isAllocated a = true ↔ a ∈ r.issued) ∧
    (∀ more a, r.state.isAllocated a = true →
      (Allocations.run (calls ++ more)).state.isAllocated a = true) ∧
    (∀ a ∈ r.issued, a.level = .node ∨ ∃ f : Family, f.Issues a) ∧
    (∀ (f f' : Family) (a : Address), f.Issues a → f'.Issues a → f = f') ∧
    (∀ (f : Family) (p : Address), p.level = f.anchorLevel → ∀ n,
      (∃ a, namespaceOf a = some (f.chain p) ∧ ordinal a.tumbler = n ∧
        r.state.isAllocated a = true) ↔
        ghostFloor (f.chain p) < n ∧ n ≤ r.state.effectiveFrontier (f.chain p)) ∧
    (∀ seq c addrs recs, r.state.stageCall c = .ok (addrs, recs) →
      ∃ s', r.state.foldCall seq c = .ok (addrs, s') ∧ Issued r.state s' c.chain addrs ∧
        addrs.length = c.count ∧ 0 < c.count ∧
        (c.chain = none ↔ ∃ addr, c = .registerNode addr) ∧
        (∀ key, s'.effectiveFrontier key = r.state.effectiveFrontier key +
          if c.chain = some key then c.count else 0) ∧
        Allocations.run (calls ++ [(seq, c)]) = ⟨s', r.issued ++ addrs⟩) ∧
    (∀ c : MintCall, c.Homed r.state → ∃ addrs recs, r.state.stageCall c = .ok (addrs, recs)) ∧
    (∀ seqs seq home count, count ≠ 0 →
      r.state.mintContents seqs home count = r.state.foldCall seq (.contentRange home count)) := by
  intro r
  have hexact := Allocations.exact_run calls
  refine ⟨hexact.nodup, hexact.allocated, fun more a ha => ?_, hexact.family,
    fun f f' a => Family.issues_unique, fun f p hp n => ?_,
    fun seq c addrs recs hstage => ?_, fun c hc => M3State.exists_stageCall hc,
    fun seqs seq home count => M3State.mintContents_eq r.state seqs seq home⟩
  · refine ((Allocations.exact_run (calls ++ more)).allocated a).2 ?_
    rw [Allocations.run, List.foldl_append]
    exact Allocations.issued_subset_foldl _ more ((hexact.allocated a).1 ha)
  · constructor
    · rintro ⟨a, hns, rfl, ha⟩
      have hlv : a.level ≠ .node := fun hnode => by
        obtain ⟨hg, hcomps⟩ := f.chain_parts hp
        have hcount := congrArg (List.count 0) (namespaceOf_eq_some hns).1
        rw [Address.count_zero, hnode, hg, hcomps] at hcount
        simp only [List.count_append, Address.count_zero, hp] at hcount
        cases f <;> simp [Family.anchorLevel, Level.zeros, Generator.sep] at hcount <;> omega
      rw [M3State.isAllocated_of_level hlv, M3State.isChainMember_iff hns] at ha
      exact ⟨ha.1, ha.2.trans (le_max_left _ _)⟩
    · rintro ⟨hfloor, hle⟩
      obtain ⟨a, ha, hns, hord⟩ := hexact.filled _ n hfloor hle
      exact ⟨a, hns, hord, (hexact.allocated a).2 ha⟩
  · obtain ⟨s', hfold, hissued⟩ := M3State.foldCall_spec seq hstage
    obtain ⟨hlength, hpos, hchain⟩ := M3State.stageCall_count hstage
    refine ⟨s', hfold, hissued, hlength, hpos, hchain, fun key => ?_, ?_⟩
    · rw [hissued.frontier key, hlength]
      split <;> rfl
    · rw [Allocations.run, List.foldl_append]
      show Allocations.step r (seq, c) = _
      rw [Allocations.step, hfold]
