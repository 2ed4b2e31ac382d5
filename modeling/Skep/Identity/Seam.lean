import Skep.Identity.Filter
import Skep.Namespace.Ownership

/-!
# What the board answers the fold

The facts of the world the fold reads, as the namespace has them: the owner of an address
is the deepest seat above it, and an account is a registered one. The bootstrap
principal's is the one seat at a node and stands above every other, so that an account's
delegator is the account above it, or the bootstrap principal.
-/

namespace M3State

variable {s s' : M3State}

/-- The bootstrap principal's is the one seat at a node, and above every seat. -/
structure Rooted (s : M3State) : Prop where
  root : s.principals.get bootstrapRoot = some bootstrapPrincipal
  node : ∀ p, s.principals.contains p = true → p.level = .node → p = bootstrapRoot
  above : ∀ p, s.principals.contains p = true → prefixContains bootstrapRoot p = true

theorem Rooted.of_same (h : s.Rooted) (hprincipals : s'.principals = s.principals) : s'.Rooted := by
  constructor
  · rw [hprincipals]
    exact h.root
  · rw [hprincipals]
    exact h.node
  · rw [hprincipals]
    exact h.above

theorem principals_allocate {seq : ℕ} {a : Address} {pub : Bool}
    (h : (s.applyM3 seq (.allocate a pub) : Outcome Empty M3State) = .ok s') : s'.principals = s.principals := by
  obtain ⟨key, -, -, rfl⟩ := applyM3_allocate_iff.1 h
  rfl

theorem Rooted.account (h : s.Rooted) {seq : ℕ} {anchor a : Address} {id : PrincipalId}
    (hd : s.Delegable s anchor a id)
    (happ : (s.applyAll seq [.allocate a false, .registerPrincipal a id] : Outcome Empty M3State) = .ok s') :
    s'.Rooted := by
  obtain ⟨mid, halloc, hrest⟩ := applyAll_cons_eq_ok.1 happ
  have hsame := principals_allocate halloc
  cases hrest
  by_cases hseated : mid.principals.contains a = true
  · rw [if_pos hseated]
    exact h.of_same hsame
  · rw [if_neg hseated, hsame]
    have hcontains : ∀ p, (s.principals.insert a id).contains p = true ↔ p = a ∨ s.principals.contains p = true := by
      intro p
      rw [OrdMap.contains, OrdMap.contains, OrdMap.get_insert]
      by_cases hp : p = a
      · simp [hp]
      · simp [hp]
    constructor
    · show (s.principals.insert a id).get bootstrapRoot = _
      rw [OrdMap.get_insert_of_ne]
      · exact h.root
      · rintro rfl
        cases hd.account
    · intro p hp hnode
      obtain rfl | hp := (hcontains p).1 hp
      · rw [hd.account] at hnode
        cases hnode
      · exact h.node p hp hnode
    · intro p hp
      obtain rfl | hp := (hcontains p).1 hp
      · obtain ⟨q, hq, hle⟩ := hd.ancestor
        exact prefixContains_iff.2 ((prefixContains_iff.1 (h.above q hq)).trans (prefixContains_iff.1 hle))
      · exact h.above p hp

theorem Rooted.step (h : s.Rooted) {seq : ℕ} {recs : List M3Rec} (hr : EntityRecs s recs)
    (happ : (s.applyAll seq recs : Outcome Empty M3State) = .ok s') : s'.Rooted := by
  cases hr with
  | node hlevel =>
    cases happ
    exact h.of_same rfl
  | document pub haccount ha =>
    obtain ⟨mid, halloc, hrest⟩ := applyAll_cons_eq_ok.1 happ
    cases hrest
    exact h.of_same (principals_allocate halloc)
  | account hd => exact h.account hd happ

theorem rooted_genesis : genesis.Rooted := by
  have hprincipals : genesis.principals = roots.principals.insert systemAccount systemPrincipal := by decide +kernel
  have hcontains : ∀ p, genesis.principals.contains p = true → p = systemAccount ∨ p = bootstrapRoot := by
    intro p hp
    rw [hprincipals, OrdMap.contains, OrdMap.get_insert] at hp
    by_contra hne
    push Not at hne
    rw [if_neg hne.1, roots, OrdMap.get_insert_of_ne _ _ hne.2] at hp
    cases hp
  refine ⟨by decide +kernel, ?_, ?_⟩
  · intro p hp hnode
    obtain rfl | rfl := hcontains p hp
    · cases hnode
    · rfl
  · intro p hp
    obtain rfl | rfl := hcontains p hp
    · decide
    · decide

theorem prefixContains_of_parent {a p : Address} (h : parent a = some p) : prefixContains p a = true := by
  rw [prefixContains_iff]
  obtain ⟨n, hcomps | hcomps⟩ := parent_eq_some_iff.1 h
  · exact ⟨[n], hcomps.symm⟩
  · exact ⟨[0, n], hcomps.symm⟩

theorem exists_account_above {d : Address} (h : d.level = .document) :
    ∃ p : Address, p.level = .account ∧ prefixContains p d = true := by
  -- by induction on the components: a document's parent is a document or its account
  induction hn : d.comps.length using Nat.strong_induction_on generalizing d with
  | _ n ih =>
    have hlength : d.comps.length ≠ 1 := by
      have hcount := d.count_zero
      have hle := List.count_le_length (a := 0) (l := d.comps)
      rw [h] at hcount
      simp only [Level.zeros] at hcount
      omega
    obtain ⟨p, m, -, ⟨hcomps, hlevel⟩ | ⟨hcomps, hzeros⟩⟩ := Address.exists_parent hlength
    · obtain ⟨q, hq, hpre⟩ := ih p.comps.length (by simp [← hn, hcomps]) (hlevel.trans h) rfl
      exact ⟨q, hq, prefixContains_iff.2 ((prefixContains_iff.1 hpre).trans ⟨[m], hcomps.symm⟩)⟩
    · refine ⟨p, Level.zeros_injective ?_, prefixContains_iff.2 ⟨[0, m], hcomps.symm⟩⟩
      rw [h] at hzeros
      simpa [Level.zeros] using hzeros.symm

/-- What stands in a registered account is owned by an account. -/
theorem Seated.omega_account (h : s.Seated) {p d : Address} (hp : s.isRegisteredAccount p = true)
    (hpre : prefixContains p d = true) {owner : Address} {id : PrincipalId} (howner : s.omega d = some (owner, id)) :
    owner.level = .account := by
  obtain ⟨hlevel, -⟩ := isRegisteredAccount_iff.1 hp
  obtain ⟨hget, ⟨hseat, htier, habove⟩, hdeepest⟩ := omega_eq_some_iff.1 howner
  have hle := hdeepest p ⟨(h.seat p hlevel).1 hp, .inr hlevel, hpre⟩
  have hpo : prefixContains p owner = true :=
    prefixContains_iff.2 (List.prefix_of_prefix_length_le (prefixContains_iff.1 hpre) (prefixContains_iff.1 habove) hle)
  apply htier.resolve_left
  intro hnode
  have hzeros := zeros_le_of_prefixContains hpo
  rw [hlevel, hnode] at hzeros
  simp [Level.zeros] at hzeros

end M3State

namespace Identity

/-- What the world answers the fold, beside the values. -/
def boardCtx (values : Values) (s : M3State) : FoldCtx where
  toValues := values
  ownerOf a := (s.omega a).map fun seat => ⟨seat.1, s.isEffectiveOwner bootstrapPrincipal a⟩
  isAccount := s.isRegisteredAccount
  isPublished doc := decide (s.publication.get doc ≠ some false)

open FilteredTable M3State

variable {s : M3State}

theorem ownerOf_boardCtx {values : Values} {a p : Address} {id : PrincipalId} (h : s.omega a = some (p, id)) :
    (boardCtx values s).ownerOf a = some ⟨p, decide (id = bootstrapPrincipal)⟩ := by
  simp [boardCtx, h, isEffectiveOwner, effectiveOwner, beq_eq_decide]

/-- The delegator of a registered account is the account above it, or the bootstrap
principal. -/
theorem delegator_boardCtx (h : s.Seated) (hroot : s.Rooted) (values : Values) {a : Address}
    (ha : s.isRegisteredAccount a = true) :
    delegator (boardCtx values s).ownerOf a = some (delegatorByAddress a) := by
  obtain ⟨hlevel, -⟩ := isRegisteredAccount_iff.1 ha
  have hrooted := hroot.above a ((h.seat a hlevel).1 ha)
  have hlength : a.comps.length ≠ 1 := by
    intro hone
    have heq := (prefixContains_iff.1 hrooted).eq_of_length hone.symm
    rw [← Address.comps_inj.1 heq] at hlevel
    cases hlevel
  obtain ⟨p, n, -, hp⟩ := Address.exists_parent hlength
  have hparent := parent_eq_some_iff.2 ⟨n, hp.imp And.left And.left⟩
  have hpre := prefixContains_of_parent hparent
  have hself : prefixContains p p = true := prefixContains_iff.2 List.prefix_rfl
  rw [delegator, hparent, delegatorByAddress, accountAbove, hparent, Option.filter_some]
  by_cases hpl : p.level = .account
  · -- the account above is seated, and is its own owner
    have hp := h.above p a hpl hpre (.inl ha)
    obtain ⟨id, hid⟩ := OrdMap.contains_iff.1 ((h.seat p hpl).1 hp)
    have homega : s.omega p = some (p, id) := omega_eq_some_iff.2
      ⟨hid, ⟨(h.seat p hpl).1 hp, .inr hpl, hself⟩, fun q hq => (prefixContains_iff.1 hq.2.2).length_le⟩
    have hid : id ≠ bootstrapPrincipal := by
      rintro rfl
      rw [h.ids p bootstrapRoot _ hid hroot.root] at hpl
      cases hpl
    simp [ownerOf_boardCtx homega, hpl, hid]
  · -- a node, under the root's one seat
    have hnode : p.level = .node := by
      obtain ⟨-, heq⟩ | ⟨-, hzeros⟩ := hp
      · exact absurd (heq.trans hlevel) hpl
      · rw [hlevel] at hzeros
        exact Level.zeros_injective (by simpa [Level.zeros] using hzeros.symm)
    have hle : prefixContains bootstrapRoot p = true :=
      prefixContains_iff.2 (List.prefix_of_prefix_length_le (prefixContains_iff.1 hrooted) (prefixContains_iff.1 hpre)
        (List.length_pos_of_ne_nil p.comps_ne_nil))
    have homega : s.omega p = some (bootstrapRoot, bootstrapPrincipal) := by
      refine omega_eq_some_iff.2 ⟨hroot.root, ⟨OrdMap.contains_iff.2 ⟨_, hroot.root⟩, .inl rfl, hle⟩, ?_⟩
      rintro q ⟨hseat, -, hq⟩
      have hzeros := zeros_le_of_prefixContains hq
      rw [hnode] at hzeros
      have hqnode : q.level = .node := Level.zeros_injective (Nat.le_zero.1 hzeros)
      rw [hroot.node q hseat hqnode]
    simp [ownerOf_boardCtx homega, hpl]

/-- A deposit homed in a registered document that is not private is well formed. -/
theorem wellFormed_boardCtx (h : s.Seated) (hroot : s.Rooted) {values : Values} {d : Deposited}
    (hctx : d.ctx = boardCtx values s) (hhome : s.isRegisteredDocument d.dep.home = true)
    (hpublished : s.publication.get d.dep.home ≠ some false) : d.WellFormed where
  published := by
    rw [hctx]
    exact decide_eq_true hpublished
  home := (isRegisteredDocument_iff.1 hhome).1
  homeAccount a ha := by
    rw [hctx] at ha ⊢
    obtain ⟨owner, howner, rfl⟩ := Option.map_eq_some_iff.1 ha
    obtain ⟨⟨p, id⟩, homega, rfl⟩ := Option.map_eq_some_iff.1 howner
    obtain ⟨q, hq, hpre⟩ := exists_account_above (isRegisteredDocument_iff.1 hhome).1
    have hlevel := h.omega_account (h.above q _ hq hpre (.inr hhome)) hpre homega
    exact (h.seat p hlevel).2 (omega_eq_some_iff.1 homega).2.1.1
  accounts a ha := by
    rw [hctx] at ha
    exact (isRegisteredAccount_iff.1 ha).1
  above a p ha habove := by
    rw [hctx] at ha ⊢
    obtain ⟨hparent, hlevel⟩ := accountAbove_eq_some_iff.1 habove
    exact h.above p a hlevel (prefixContains_of_parent hparent) (.inl ha)
  delegators a ha := by
    rw [hctx] at ha ⊢
    exact delegator_boardCtx h hroot values ha

end Identity

namespace Namespace

theorem run_rooted (requests : List NamespaceRequest) : ∀ c ∈ (run requests).commits, c.world.Rooted := by
  induction requests using List.reverseRecOn with
  | nil =>
    intro c hc
    cases List.mem_singleton.1 hc
    exact M3State.rooted_genesis
  | append_singleton requests r ih =>
    rw [run, List.foldl_append, List.foldl_cons, List.foldl_nil, ← run]
    obtain heq | ⟨recs, seq, s', hrecs, hfold, heq⟩ := step_cases (run requests) r
    · rw [heq]
      exact ih
    · rw [heq]
      intro c hc
      obtain rfl | hc := List.mem_cons.1 hc
      · exact (ih _ List.mem_cons_self).step hrecs hfold
      · exact ih c hc

end Namespace

/-- Over every run, a deposit homed in a document then registered and not private is well
formed. -/
theorem Identity.wellFormed_run (requests : List NamespaceRequest) {c : Commit M3State}
    (hc : c ∈ (Namespace.run requests).commits) {values : Values} {d : Deposited}
    (hctx : d.ctx = boardCtx values c.world) (hhome : c.world.isRegisteredDocument d.dep.home = true)
    (hpublished : c.world.publication.get d.dep.home ≠ some false) : d.WellFormed :=
  wellFormed_boardCtx ((Namespace.run_seated requests).1 c hc) (Namespace.run_rooted requests c hc) hctx hhome hpublished
