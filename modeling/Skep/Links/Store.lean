import Skep.Links.Filed
import Skep.Links.Steps

/-!
# The link store with its spanfilade

Links, and the spanfilade the fold of a deposit maintains. The keys of a document's links
stand in one range, its link chain, and the chains stand in the order of the documents,
so a walk over the keys that leaps from chain to chain meets each home once, in order.
-/

/-- The bounds of a document's link keys. -/
def linkChainBounds (home : Address) : Tumbler × Tumbler :=
  (.snoc (home.comps ++ [0]) linkSubspace, .snoc (home.comps ++ [0]) (linkSubspace + 1))

/-- The document of a link key. -/
def homeOfKey {ε : Type} (key : Address) : Outcome ε Address := Outcome.expectSome (documentOf key)

/-- The homes of the keys from a cursor on, up to one to stop at. Each turn leaps past the
chain of a key's home, so as many turns as there are keys are enough. -/
def homesFrom {ε : Type} (keys : List Address) (stop : Address → Bool) :
    ℕ → Option Tumbler → Outcome ε (List Address)
  | 0, _ => return []
  | turns + 1, cursor =>
      match keys.find? fun key => cursor.all fun c => decide (c ≤ key.tumbler) with
      | none => return []
      | some key => do
          let home ← homeOfKey key
          if stop home then return []
          else do
            let rest ← homesFrom keys stop turns (some (linkChainBounds home).2)
            return home :: rest

/-- Whether a link's slot has a span that shares a tumbler with the query's. -/
def slotOverlaps (link : Link) (slot : ℕ) (query : Endset) : Bool :=
  (link.slot slot).any fun endset => query.spans.any fun q => endset.spans.any fun s => overlaps q s

/-- The link slice with its spanfilade. -/
structure LinkStore where
  state : LinkState
  spanfilade : Spanfilade

namespace LinkStore

def genesis : LinkStore := ⟨LinkState.genesis, .empty⟩

variable (reg : TypeRegistry)

/-- Fold a deposit, filing the link. -/
def applyLink {ε : Type} (st : LinkStore) : LinkRec → Outcome ε LinkStore
  | .deposit addr value => do
      let state ← st.state.applyLink reg (.deposit addr value)
      let home ← Outcome.expectSome (documentOf addr)
      return ⟨state, st.spanfilade.file addr home value⟩

/-- The stores that a run of committed steps from genesis reaches, with the names. -/
inductive Reachable : LinkStore → M3State → Prop
  | genesis : Reachable genesis M3State.genesis
  | deposit {st st' : LinkStore} {m3 m3' : M3State} {home addr : Address} {value : Link} {r : M3Rec}
      {seq : ℕ} (h : Reachable st m3) (hmint : m3.mintLink home = .ok (addr, r))
      (hm3 : (m3.applyM3 seq r : Outcome Empty M3State) = .ok m3')
      (hlinks : (st.applyLink reg (.deposit addr value) : Outcome Empty LinkStore) = .ok st') :
      Reachable st' m3'
  | record {st : LinkStore} {m3 m3' : M3State} {r : M3Rec} {seq : ℕ} (h : Reachable st m3)
      (hr : ∀ home : Address, home.level = .document → r.chain ≠ some (linkNs home))
      (hm3 : (m3.applyM3 seq r : Outcome Empty M3State) = .ok m3') : Reachable st m3'

variable (st : LinkStore)

def keys : List Address := st.state.links.entries.map Prod.fst

/-- Whether a view meets a link. -/
def met (view : View) (a : Address) : Bool := !(view.isActive && st.state.nullified reg a.tumbler)

/-- The documents some link is homed in. -/
def homes {ε : Type} : Outcome ε (OrdSet Address) := do
  let homes ← homesFrom st.keys (fun _ => false) st.keys.length none
  return .ofList homes

/-- The homes in a span: the walk starts at the span's start and stops at its reach. -/
def homesIn {ε : Type} (span : Span) : Outcome ε (List Address) := do
  let homes ← homesFrom st.keys (fun at' => decide (span.reach ≤ at'.tumbler)) st.keys.length span.start
  return homes.filter fun at' => decide (span.start ≤ at'.tumbler)

/-- The homes in the spans of a query. -/
def homesUnder {ε : Type} (home : Endset) : Outcome ε (OrdSet Address) := do
  let homes ← home.spans.mapM st.homesIn
  return .ofList homes.flatten

/-- The links of a home that satisfy every constraint. The home is a document. -/
def homedIn {ε : Type} (home : Address) (constraints : List (ℕ × Endset)) (view : View) :
    Outcome ε (OrdSet Address) := do
  Outcome.require (documentOf home = some home)
  let (lo, hi) := linkChainBounds home
  return .ofList ((st.state.links.entries.filter fun e =>
    decide (lo ≤ e.1.tumbler ∧ e.1.tumbler < hi) && st.met reg view e.1 &&
      constraints.all fun c => slotOverlaps e.2 c.1 c.2).map Prod.fst)

/-- The links of a home whose slot has a span that shares a tumbler with one given. -/
def stabIn (home : Address) (slot : ℕ) (query : List Span) (view : View) : OrdSet Address :=
  if home ∈ st.spanfilade.homes then
    match st.spanfilade.slot slot with
    | none => ∅
    | some idx => .ofList ((query.flatMap (idx.stabIn home)).filter (st.met reg view))
  else ∅

/-- The links of a stab that satisfy the other constraints. -/
def matchLinksIn {ε : Type} (home : Address) (driver : ℕ × List Span) (rest : List (ℕ × Endset))
    (view : View) : Outcome ε (OrdSet Address) :=
  rest.foldlM (fun acc c => do
      let kept ← Outcome.keepM (fun a => do
        let link ← Outcome.expectSome (st.state.readlink a)
        return slotOverlaps link c.1 c.2) acc.elems
      return .ofList kept)
    (st.stabIn reg home driver.1 driver.2 view)

end LinkStore

section

variable {home home' a : Address}

/-- The range of a document's link keys holds the addresses of its link subspace. -/
theorem mem_linkChain : (linkChainBounds home).1 ≤ a.tumbler ∧ a.tumbler < (linkChainBounds home).2 ↔
    ∃ rest, a.comps = home.comps ++ 0 :: linkSubspace :: rest := by
  rw [Tumbler.between_siblings (p := home.comps ++ [0]) rfl rfl]
  constructor
  · rintro ⟨c, rest, hcomps, hlo, hhi⟩
    obtain rfl : c = linkSubspace := by omega
    exact ⟨rest, by rw [Address.comps, hcomps, List.append_assoc, List.singleton_append]⟩
  · rintro ⟨rest, hcomps⟩
    refine ⟨linkSubspace, rest, ?_, le_rfl, Nat.lt_succ_self _⟩
    rw [List.append_assoc, List.singleton_append]
    exact hcomps

theorem documentOf_of_linkChain (hlv : home.level = .document)
    (h : (linkChainBounds home).1 ≤ a.tumbler ∧ a.tumbler < (linkChainBounds home).2) :
    documentOf a = some home := by
  obtain ⟨rest, hcomps⟩ := mem_linkChain.1 h
  obtain ⟨hne, hzero⟩ := zeroFree_of_parts hlv hcomps
  exact (element_of_parts hlv hne hzero hcomps).2.1

/-- Nothing that extends a document by a zero stands past an address after the document's
subtree or within it by a positive component. -/
theorem chain_lt_of_lt (home : Address) {t : Tumbler} {rest : List ℕ}
    (h : (∃ x s, t.comps = home.comps ++ x :: s ∧ 0 < x) ∨
      ∃ p x y s r, home.comps = p ++ x :: s ∧ t.comps = p ++ y :: r ∧ x < y)
    {u : Tumbler} (hu : u.comps = home.comps ++ 0 :: rest) : u < t := by
  rw [Tumbler.lt_def, Tumbler.comps_lt_iff]
  rcases h with ⟨x, s, ht, hx⟩ | ⟨p, x, y, s, r, hhome, ht, hxy⟩
  · exact .inr ⟨home.comps, 0, x, rest, s, hu, ht, hx⟩
  · exact .inr ⟨p, x, y, s ++ 0 :: rest, r, by rw [hu, hhome, List.append_assoc, List.cons_append], ht, hxy⟩

/-- What stands after a document's address either parts from it or extends it by a positive
component, unless it is an element of it. -/
theorem parts_of_lt {t : Address} (hlt : home < t) (hlv : home.level = .document)
    (ht : ¬ t.level = .element ∨ documentOf t ≠ some home) :
    (∃ x s, t.comps = home.comps ++ x :: s ∧ 0 < x) ∨
      ∃ p x y s r, home.comps = p ++ x :: s ∧ t.comps = p ++ y :: r ∧ x < y := by
  rcases Tumbler.comps_lt_iff.1 hlt with ⟨x, s, hcomps⟩ | ⟨p, x, y, s, r, h₁, h₂, hxy⟩
  · refine .inl ⟨x, s, hcomps, Nat.pos_of_ne_zero ?_⟩
    rintro rfl
    obtain ⟨hne, hzero⟩ := zeroFree_of_parts hlv hcomps
    obtain ⟨hlevel, hdoc, -⟩ := element_of_parts hlv hne hzero hcomps
    exact ht.elim (fun h => h hlevel) fun h => h hdoc
  · exact .inr ⟨p, x, y, s, r, h₁, h₂, hxy⟩

/-- The chains stand in the order of their documents. -/
theorem chain_lt_chain (hlv : home.level = .document) (hlv' : home'.level = .document)
    (hlt : home < home') {t : Tumbler} (ht : (linkChainBounds home').1 ≤ t) :
    (linkChainBounds home).2 < t := by
  have hparts := parts_of_lt hlt hlv (.inl (by rw [hlv']; decide))
  refine lt_of_lt_of_le (chain_lt_of_lt home ?_ (show _ = _ ++ 0 :: [linkSubspace + 1] from ?_)) ht
  · rcases hparts with ⟨x, s, hcomps, hx⟩ | ⟨p, x, y, s, r, h₁, h₂, hxy⟩
    · exact .inl ⟨x, s ++ [0, linkSubspace], by simp [linkChainBounds, hcomps], hx⟩
    · exact .inr ⟨p, x, y, s, r ++ [0, linkSubspace], h₁, by simp [linkChainBounds, h₂], hxy⟩
  · simp [linkChainBounds]

theorem lt_linkChain (home : Address) : home.tumbler < (linkChainBounds home).1 :=
  Tumbler.lt_of_extends (show (linkChainBounds home).1.comps = home.tumbler.comps ++ 0 :: [linkSubspace] by
    simp [linkChainBounds, Address.comps])

end

namespace LinkStore

/-- A link at its address in its home. -/
def Stored (state : LinkState) : Spanfilade.Filed := fun home a v =>
  state.readlink a = some v ∧ documentOf a = some home

/-- Every link stands on the chain of a document, is of a class, and is filed. -/
structure Sound (st : LinkStore) : Prop where
  homed : ∀ a l, st.state.readlink a = some l → ∃ home : Address, home.level = .document ∧
    documentOf a = some home ∧ (linkChainBounds home).1 ≤ a.tumbler ∧ a.tumbler < (linkChainBounds home).2
  classed : ∀ a l, st.state.readlink a = some l → ∃ c, coverageClass l.typeSlot = .ok c
  filed : st.spanfilade.Files (Stored st.state)

variable {reg : TypeRegistry} {st : LinkStore} {m3 : M3State}

theorem applyLink_eq_ok {addr : Address} {value : Link} {st' : LinkStore}
    (h : (st.applyLink reg (.deposit addr value) : Outcome Empty LinkStore) = .ok st') :
    ∃ state home, (st.state.applyLink reg (.deposit addr value) : Outcome Empty LinkState) = .ok state ∧
      documentOf addr = some home ∧ st' = ⟨state, st.spanfilade.file addr home value⟩ := by
  simp only [applyLink, Outcome.bind_eq_ok_iff, Outcome.expectSome_eq_ok_iff, Outcome.pure_eq,
    Outcome.ok.injEq] at h
  obtain ⟨state, hstate, home, hhome, rfl⟩ := h
  exact ⟨state, home, hstate, hhome, rfl⟩

/-- The link slice of a run is that of a run without the spanfilade. -/
theorem Reachable.world (h : Reachable reg st m3) : LinkWorld.Reachable reg ⟨st.state, m3⟩ := by
  induction h with
  | genesis => exact .refl
  | deposit h hmint hm3 hlinks ih =>
    obtain ⟨state, home, hstate, -, rfl⟩ := applyLink_eq_ok hlinks
    exact ih.tail (.deposit hmint hm3 hstate)
  | record h hr hm3 ih => exact ih.tail (.record hr hm3)

theorem Reachable.homed (h : Reachable reg st m3) : ∀ a l, st.state.readlink a = some l →
    ∃ home : Address, home.level = .document ∧ documentOf a = some home ∧
      (linkChainBounds home).1 ≤ a.tumbler ∧ a.tumbler < (linkChainBounds home).2 := by
  intro a l ha
  obtain ⟨home, hreg, hns, -⟩ := h.world.sound.homed a l ha
  have hlv := (M3State.isRegisteredDocument_iff.1 hreg).1
  obtain ⟨hcomps, -, hdoc, -⟩ := M3State.element_of_namespaceOf hlv (show linkSubspace ≠ 0 by decide)
    (M3State.linkNs_comps home) rfl hns
  exact ⟨home, hlv, hdoc, mem_linkChain.2 ⟨[ordinal a.tumbler], hcomps⟩⟩

theorem Reachable.sound (h : Reachable reg st m3) : st.Sound := by
  have hhomed := h.homed
  induction h with
  | genesis =>
    refine ⟨hhomed, (fun a l h => nomatch h), ?_⟩
    have hnone : Stored LinkStore.genesis.state = fun _ _ _ => False := by
      funext home a v
      exact propext ⟨fun h => (nomatch h.1), False.elim⟩
    rw [hnone]
    exact Spanfilade.files_empty
  | record h hr hm3 ih => exact ih h.homed
  | @deposit st st' m3 m3' home addr value r seq h hmint hm3 hlinks ih =>
    obtain ⟨state, home', hstate, hdoc, rfl⟩ := applyLink_eq_ok hlinks
    obtain ⟨hfresh, hclass, -⟩ := LinkState.applyLink_eq_ok hstate
    have hs := ih h.homed
    refine ⟨hhomed, fun a l ha => ?_, ?_⟩
    · rw [LinkState.readlink_deposit hstate] at ha
      by_cases haddr : a = addr
      · rw [if_pos haddr] at ha
        cases ha
        exact hclass
      · rw [if_neg haddr] at ha
        exact hs.classed a l ha
    · have hfile := hs.filed.file addr home' value (fun v hv => by
        have := hv.1
        rw [hfresh] at this
        cases this)
      have hstored : Stored state = fun h l v =>
          Stored st.state h l v ∨ h = home' ∧ l = addr ∧ v = value := by
        funext h l v
        refine propext ?_
        rw [Stored, Stored, LinkState.readlink_deposit hstate]
        by_cases haddr : l = addr
        · subst haddr
          rw [if_pos rfl, hfresh, hdoc]
          simp [eq_comm, and_comm]
        · simp [haddr]
      rw [hstored]
      exact hfile

end LinkStore

/-- The keys stand on link chains, in order. -/
structure Chained (keys : List Address) : Prop where
  ascending : keys.Pairwise (· < ·)
  homed : ∀ key ∈ keys, ∃ home : Address, home.level = .document ∧ documentOf key = some home ∧
    (linkChainBounds home).1 ≤ key.tumbler ∧ key.tumbler < (linkChainBounds home).2

theorem LinkStore.Sound.chained {st : LinkStore} (hs : st.Sound) : Chained st.keys := by
  refine ⟨OrdMap.keys_ascending _, fun key hkey => ?_⟩
  obtain ⟨⟨a, l⟩, hmem, rfl⟩ := List.mem_map.1 hkey
  exact hs.homed a l (OrdMap.get_eq_some_iff.2 hmem)

/-- The walk meets, in order, the homes of the keys from the cursor on that it does not stop at. -/
theorem homesFrom_spec {ε : Type} {keys : List Address} (hkeys : Chained keys) (stop : Address → Bool)
    (hstop : ∀ a b, a ≤ b → stop a = true → stop b = true) (turns : ℕ) (cursor : Option Tumbler)
    (hturns : (keys.filter fun key => cursor.all fun c => decide (c ≤ key.tumbler)).length ≤ turns) :
    ∃ homes, (homesFrom keys stop turns cursor : Outcome ε (List Address)) = .ok homes ∧
      homes.Pairwise (· < ·) ∧ ∀ home, home ∈ homes ↔ stop home = false ∧
        ∃ key ∈ keys, (∀ c ∈ cursor, c ≤ key.tumbler) ∧ documentOf key = some home := by
  have hcursor : ∀ (cursor : Option Tumbler) (key : Address),
      (cursor.all fun c => decide (c ≤ key.tumbler)) = true ↔ ∀ c ∈ cursor, c ≤ key.tumbler := by
    intro cursor key
    cases cursor <;> simp
  induction turns generalizing cursor with
  | zero =>
    refine ⟨[], rfl, List.Pairwise.nil, fun home => ?_⟩
    have hnil := List.eq_nil_of_length_eq_zero (Nat.le_zero.1 hturns)
    simp only [List.not_mem_nil, false_iff, not_and, not_exists]
    intro _ key hkey hc
    have : key ∈ keys.filter fun key => cursor.all fun c => decide (c ≤ key.tumbler) :=
      List.mem_filter.2 ⟨hkey, (hcursor cursor key).2 hc⟩
    rw [hnil] at this
    cases this
  | succ turns ih =>
    rw [homesFrom]
    cases hfind : keys.find? fun key => cursor.all fun c => decide (c ≤ key.tumbler) with
    | none =>
      refine ⟨[], rfl, List.Pairwise.nil, fun home => ?_⟩
      simp only [List.not_mem_nil, false_iff, not_and, not_exists]
      intro _ key hkey hc
      exact absurd ((hcursor cursor key).2 hc) (List.find?_eq_none.1 hfind key hkey)
    | some key =>
      obtain ⟨hkc, before, after, hsplit, hbefore⟩ := List.find?_eq_some_iff_append.1 hfind
      have hmem : key ∈ keys := by
        rw [hsplit]
        simp
      obtain ⟨home, hlv, hdoc, hlo, hhi⟩ := hkeys.homed key hmem
      -- a later key of the cursor's range is homed at or after this one's document
      have hlater : ∀ k ∈ keys, (∀ c ∈ cursor, c ≤ k.tumbler) → key ≤ k := by
        intro k hk hc
        have hasc := hkeys.ascending
        rw [hsplit] at hk hasc
        rcases List.mem_append.1 hk with hk | hk
        · have := hbefore k hk
          rw [(hcursor cursor k).2 hc] at this
          cases this
        · rcases List.mem_cons.1 hk with rfl | hk
          · exact le_rfl
          · exact (List.rel_of_pairwise_cons (List.pairwise_append.1 hasc).2.1 hk).le
      have hhome_le : ∀ k ∈ keys, (∀ c ∈ cursor, c ≤ k.tumbler) → ∀ home', documentOf k = some home' →
          home ≤ home' := by
        intro k hk hc home' hdoc'
        obtain ⟨home'', hlv'', hdoc'', hlo'', hhi''⟩ := hkeys.homed k hk
        rw [hdoc'] at hdoc''
        cases hdoc''
        by_contra hlt
        have := chain_lt_chain hlv'' hlv (lt_of_not_ge hlt) hlo
        exact absurd (hlater k hk hc) (not_le.2 (hhi''.trans this))
      simp only [homeOfKey, hdoc, Outcome.expectSome, Outcome.ok_bind]
      by_cases hstopped : stop home = true
      · rw [if_pos hstopped]
        refine ⟨[], rfl, List.Pairwise.nil, fun home' => ?_⟩
        simp only [List.not_mem_nil, false_iff, not_and, not_exists]
        intro hgo k hk hc hdoc'
        rw [hstop home home' (hhome_le k hk hc home' hdoc') hstopped] at hgo
        cases hgo
      · rw [if_neg hstopped]
        have hpast : ∀ k ∈ keys, (linkChainBounds home).2 ≤ k.tumbler → ∀ c ∈ cursor, c ≤ k.tumbler :=
          fun k _ hle c hc => ((hcursor cursor key).1 hkc c hc).trans (hhi.le.trans hle)
        -- past the chain there are fewer keys
        have hfewer : (keys.filter fun k => (some (linkChainBounds home).2).all
            fun c => decide (c ≤ k.tumbler)).length ≤ turns := by
          have hsub : (keys.filter fun k => (some (linkChainBounds home).2).all
              fun c => decide (c ≤ k.tumbler)) =
                (keys.filter fun k => cursor.all fun c => decide (c ≤ k.tumbler)).filter
                  fun k => decide ((linkChainBounds home).2 ≤ k.tumbler) := by
            rw [List.filter_filter]
            refine List.filter_congr fun k hk => ?_
            rw [Bool.eq_iff_iff, Bool.and_eq_true, hcursor, hcursor, decide_eq_true_eq]
            exact ⟨fun h => ⟨h _ rfl, hpast k hk (h _ rfl)⟩, fun h c hc => by cases hc; exact h.1⟩
          have hlt : (keys.filter fun k => (some (linkChainBounds home).2).all
              fun c => decide (c ≤ k.tumbler)).length <
                (keys.filter fun k => cursor.all fun c => decide (c ≤ k.tumbler)).length := by
            rw [hsub, List.length_filter_lt_length_iff_exists]
            exact ⟨key, List.mem_filter.2 ⟨hmem, hkc⟩, fun h => absurd hhi (not_lt.2 (of_decide_eq_true h))⟩
          omega
        obtain ⟨rest, hrest, hasc, hiff⟩ := ih _ hfewer
        have hpos : ∀ home' ∈ rest, home < home' := by
          intro home' hmem'
          obtain ⟨-, k, hk, hc, hdoc'⟩ := (hiff home').1 hmem'
          refine lt_of_le_of_ne (hhome_le k hk (hpast k hk (hc _ rfl)) home' hdoc') ?_
          rintro rfl
          obtain ⟨home'', -, hdoc'', -, hhi''⟩ := hkeys.homed k hk
          rw [hdoc'] at hdoc''
          cases hdoc''
          exact absurd (hc _ rfl) (not_le.2 hhi'')
        rw [hrest]
        refine ⟨home :: rest, rfl, List.pairwise_cons.2 ⟨hpos, hasc⟩, fun home' => ?_⟩
        rw [List.mem_cons, hiff]
        constructor
        · rintro (rfl | ⟨hgo, k, hk, hc, hdoc'⟩)
          · exact ⟨by simpa using hstopped, key, hmem, (hcursor cursor key).1 hkc, hdoc⟩
          · exact ⟨hgo, k, hk, hpast k hk (hc _ rfl), hdoc'⟩
        · rintro ⟨hgo, k, hk, hc, hdoc'⟩
          rcases (hhome_le k hk hc home' hdoc').eq_or_lt with rfl | hlt
          · exact .inl rfl
          · obtain ⟨home'', hlv'', hdoc'', hlo'', -⟩ := hkeys.homed k hk
            rw [hdoc'] at hdoc''
            cases hdoc''
            refine .inr ⟨hgo, k, hk, fun c hc => ?_, hdoc'⟩
            cases hc
            exact (chain_lt_chain hlv hlv'' hlt hlo'').le
