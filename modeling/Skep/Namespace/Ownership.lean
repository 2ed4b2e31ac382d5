import Skep.Namespace.Allocation
import Skep.Kernel.Kernel

/-!
# Ownership

Who owns an address: the deepest seat above it. A seat is taken together with
its account and never given up, and no account is delegated above one that is
already allocated, so what is allocated never changes hands.

## Main results

- `M3State.effectiveOwner_eq_some_iff` — the owner is the deepest seat's
- `M3State.Seated.step` — every operation keeps the coupling, and every owner
- `ownership_permanent` — over every run, owners are unique and permanent
-/

theorem prefixContains_iff {p a : Address} : prefixContains p a = true ↔ p.comps <+: a.comps := by
  rw [prefixContains, isPrefix]
  exact List.isPrefixOf_iff_prefix

/-- Two prefixes of one address are as long only where they are equal. -/
theorem eq_of_prefixContains {p q a : Address} (hp : prefixContains p a = true)
    (hq : prefixContains q a = true) (h : p.tumbler.len = q.tumbler.len) : p = q :=
  Address.comps_inj.1
    ((List.prefix_of_prefix_length_le (prefixContains_iff.1 hp) (prefixContains_iff.1 hq) h.le).eq_of_length h)

theorem zeros_le_of_prefixContains {p a : Address} (h : prefixContains p a = true) :
    p.level.zeros ≤ a.level.zeros := by
  rw [← p.count_zero, ← a.count_zero]
  exact (prefixContains_iff.1 h).sublist.count_le 0

/-- An address above a child of an anchor is the child or above the anchor. -/
theorem prefixContains_child {p a anchor : Address} {g : Generator} {n : ℕ}
    (h : a.ChildOf ⟨anchor.tumbler, g⟩ n) (hp : prefixContains p a = true) :
    p = a ∨ prefixContains p anchor = true := by
  rw [prefixContains_iff, h] at hp
  rcases List.prefix_concat_iff.1 hp with heq | hp
  · exact .inl (Address.comps_inj.1 (heq.trans h.symm))
  · refine .inr (prefixContains_iff.2 ?_)
    cases g with
    | sameField => simpa [Generator.sep, Address.comps] using hp
    | nextField =>
      -- no address ends in a separator
      rcases List.prefix_concat_iff.1 (show p.comps <+: anchor.comps ++ [0] from hp) with heq | hp
      · exact absurd (by rw [heq]; simp) p.getLast?_ne_zero
      · exact hp

namespace M3State

theorem foldl_deepest (l : List (Address × PrincipalId)) (best : Option (Address × PrincipalId)) :
    (l.foldl (fun best e =>
        match best with
        | none => some e
        | some b => if b.1.tumbler.len ≤ e.1.tumbler.len then some e else some b) best = none ↔
      best = none ∧ l = []) ∧
    ∀ e, l.foldl (fun best e =>
        match best with
        | none => some e
        | some b => if b.1.tumbler.len ≤ e.1.tumbler.len then some e else some b) best = some e →
      (best = some e ∨ e ∈ l) ∧
        ∀ x, best = some x ∨ x ∈ l → x.1.tumbler.len ≤ e.1.tumbler.len := by
  induction l generalizing best with
  | nil =>
    refine ⟨by simp, fun e he => ⟨.inl he, fun x hx => ?_⟩⟩
    cases hx.resolve_right (by simp) |>.symm.trans he
    exact le_rfl
  | cons a l ih =>
    obtain ⟨hnone, hsome⟩ := ih (match best with
      | none => some a
      | some b => if b.1.tumbler.len ≤ a.1.tumbler.len then some a else some b)
    refine ⟨?_, fun e he => ?_⟩
    · rw [List.foldl_cons, hnone]
      cases best with
      | none => simp
      | some b =>
        simp only [reduceCtorEq, false_and, iff_false, not_and]
        split <;> simp
    · rw [List.foldl_cons] at he
      obtain ⟨hmem, hmax⟩ := hsome e he
      cases best with
      | none =>
        simp only [Option.some.injEq, reduceCtorEq, false_or, List.mem_cons] at hmem hmax ⊢
        exact ⟨hmem.imp_left Eq.symm, fun x hx => hmax x (hx.imp_left Eq.symm)⟩
      | some b =>
        simp only at hmem hmax
        by_cases hab : b.1.tumbler.len ≤ a.1.tumbler.len
        · simp only [hab, if_true, Option.some.injEq] at hmem hmax
          refine ⟨.inr (List.mem_cons.2 (hmem.imp_left Eq.symm)), fun x hx => ?_⟩
          rcases hx with hx | hx
          · cases hx
            exact hab.trans (hmax a (.inl rfl))
          · exact hmax x ((List.mem_cons.1 hx).imp_left Eq.symm)
        · simp only [hab, if_false, Option.some.injEq] at hmem hmax
          refine ⟨hmem.imp (congrArg some) (List.mem_cons_of_mem a), fun x hx => ?_⟩
          rcases hx with hx | hx
          · exact hmax x (.inl (Option.some.inj hx))
          · rcases List.mem_cons.1 hx with rfl | hx
            · exact (not_le.1 hab).le.trans (hmax b (.inl rfl))
            · exact hmax x (.inr hx)

/-- A seat above an address. -/
def SeatAbove (s : M3State) (p a : Address) : Prop :=
  s.principals.contains p = true ∧ (p.level = .node ∨ p.level = .account) ∧
    prefixContains p a = true

theorem omega_eq_some_iff {s : M3State} {a p : Address} {id : PrincipalId} :
    s.omega a = some (p, id) ↔ s.principals.get p = some id ∧ s.SeatAbove p a ∧
      ∀ q, s.SeatAbove q a → q.tumbler.len ≤ p.tumbler.len := by
  have hmem : ∀ e : Address × PrincipalId, e ∈ s.principals.entries.filter (fun e =>
      (e.1.level == .node || e.1.level == .account) && prefixContains e.1 a) ↔
      s.principals.get e.1 = some e.2 ∧ s.SeatAbove e.1 a := by
    intro e
    rw [List.mem_filter, SeatAbove, OrdMap.contains_iff, OrdMap.get_eq_some_iff]
    simp only [Bool.and_eq_true, Bool.or_eq_true, beq_iff_eq]
    exact ⟨fun h => ⟨h.1, ⟨e.2, OrdMap.get_eq_some_iff.2 h.1⟩, h.2⟩, fun h => ⟨h.1, h.2.2⟩⟩
  have hseat : ∀ q, s.SeatAbove q a → ∃ i, (q, i) ∈ s.principals.entries.filter (fun e =>
      (e.1.level == .node || e.1.level == .account) && prefixContains e.1 a) := fun q hq => by
    obtain ⟨i, hi⟩ := OrdMap.contains_iff.1 hq.1
    exact ⟨i, (hmem (q, i)).2 ⟨hi, hq⟩⟩
  obtain ⟨hnone, hsome⟩ := foldl_deepest (s.principals.entries.filter fun e =>
    (e.1.level == .node || e.1.level == .account) && prefixContains e.1 a) none
  constructor
  · intro h
    obtain ⟨hin, hmax⟩ := hsome _ h
    obtain ⟨hget, habove⟩ := (hmem _).1 (hin.resolve_left (by simp))
    refine ⟨hget, habove, fun q hq => ?_⟩
    obtain ⟨i, hi⟩ := hseat q hq
    exact hmax _ (.inr hi)
  · rintro ⟨hget, habove, hmax⟩
    cases homega : s.omega a with
    | none =>
      have hin := (hmem (p, id)).2 ⟨hget, habove⟩
      rw [(hnone.1 homega).2] at hin
      simp at hin
    | some e =>
      obtain ⟨hin, hlongest⟩ := hsome e homega
      obtain ⟨hget', habove'⟩ := (hmem e).1 (hin.resolve_left (by simp))
      have heq : e.1 = p := eq_of_prefixContains habove'.2.2 habove.2.2
        (le_antisymm (hmax _ habove') (hlongest (p, id) (.inr ((hmem _).2 ⟨hget, habove⟩))))
      obtain ⟨q, i⟩ := e
      cases heq
      cases hget.symm.trans hget'
      rfl

/-- Slices with the same seats above an address have the same owner of it. -/
theorem omega_congr {s s' : M3State} {a : Address}
    (hget : ∀ p, prefixContains p a = true → s'.principals.get p = s.principals.get p) :
    s'.omega a = s.omega a := by
  have habove : ∀ p, s'.SeatAbove p a ↔ s.SeatAbove p a := fun p => by
    rw [SeatAbove, SeatAbove, OrdMap.contains, OrdMap.contains]
    constructor
    · rintro ⟨h1, h2, h3⟩
      exact ⟨by rwa [← hget p h3], h2, h3⟩
    · rintro ⟨h1, h2, h3⟩
      exact ⟨by rwa [hget p h3], h2, h3⟩
  refine Option.ext fun e => ?_
  obtain ⟨p, id⟩ := e
  rw [omega_eq_some_iff, omega_eq_some_iff, habove]
  simp only [habove]
  constructor
  · rintro ⟨h1, h2, h3⟩
    exact ⟨by rwa [← hget p h2.2.2], h2, h3⟩
  · rintro ⟨h1, h2, h3⟩
    exact ⟨by rwa [hget p h2.2.2], h2, h3⟩

theorem effectiveOwner_eq_some_iff {s : M3State} {a : Address} {id : PrincipalId} :
    s.effectiveOwner a = some id ↔ ∃ p, s.principals.get p = some id ∧ s.SeatAbove p a ∧
      ∀ q, s.SeatAbove q a → q ≠ p → q.tumbler.len < p.tumbler.len := by
  rw [effectiveOwner, Option.map_eq_some_iff]
  constructor
  · rintro ⟨⟨p, i⟩, h, rfl⟩
    obtain ⟨hget, habove, hmax⟩ := omega_eq_some_iff.1 h
    refine ⟨p, hget, habove, fun q hq hne => (hmax q hq).lt_of_ne fun heq => hne ?_⟩
    exact eq_of_prefixContains hq.2.2 habove.2.2 heq
  · rintro ⟨p, hget, habove, hmax⟩
    refine ⟨(p, id), omega_eq_some_iff.2 ⟨hget, habove, fun q hq => ?_⟩, rfl⟩
    by_cases hq' : q = p
    · exact hq' ▸ le_rfl
    · exact (hmax q hq hq').le

/-- Accounts and seats come together, one principal each, and everything above an
allocated account or document is an allocated account. -/
structure Seated (s : M3State) : Prop where
  tier : ∀ p, s.principals.contains p = true → p.level = .node ∨ p.level = .account
  seat : ∀ a, a.level = .account →
    (s.isRegisteredAccount a = true ↔ s.principals.contains a = true)
  ids : ∀ p q id, s.principals.get p = some id → s.principals.get q = some id → p = q
  above : ∀ p a, p.level = .account → prefixContains p a = true →
    s.isRegisteredAccount a = true ∨ s.isRegisteredDocument a = true →
      s.isRegisteredAccount p = true

/-- Accounts and documents stay, each with the owner it has. -/
structure KeepsOwners (s s' : M3State) : Prop where
  account : ∀ a, s.isRegisteredAccount a = true →
    s'.isRegisteredAccount a = true ∧ s'.omega a = s.omega a
  document : ∀ a, s.isRegisteredDocument a = true →
    s'.isRegisteredDocument a = true ∧ s'.omega a = s.omega a

theorem KeepsOwners.refl (s : M3State) : s.KeepsOwners s := ⟨fun _ h => ⟨h, rfl⟩, fun _ h => ⟨h, rfl⟩⟩

theorem KeepsOwners.trans {s s' s'' : M3State} (h : s.KeepsOwners s') (h' : s'.KeepsOwners s'') :
    s.KeepsOwners s'' := by
  refine ⟨fun a ha => ?_, fun a ha => ?_⟩
  · obtain ⟨h1, h2⟩ := h.account a ha
    obtain ⟨h3, h4⟩ := h'.account a h1
    exact ⟨h3, h4.trans h2⟩
  · obtain ⟨h1, h2⟩ := h.document a ha
    obtain ⟨h3, h4⟩ := h'.document a h1
    exact ⟨h3, h4.trans h2⟩

theorem isRegisteredAccount_iff {s : M3State} {a : Address} :
    s.isRegisteredAccount a = true ↔ a.level = .account ∧ s.isChainMember a = true := by
  rw [isRegisteredAccount, entityLevel, beq_iff_eq]
  constructor
  · intro h
    split at h
    · next hc =>
      rw [Option.some.injEq] at h
      refine ⟨h, ?_⟩
      simpa [isAllocated, h] using hc.2
    · cases h
  · rintro ⟨hlv, hm⟩
    rw [if_pos ⟨by simp [hlv], by simpa [isAllocated, hlv] using hm⟩, hlv]

theorem principalPrefix_eq_none_iff {s : M3State} {id : PrincipalId} :
    s.principalPrefix id = none ↔ ∀ p, s.principals.get p ≠ some id := by
  rw [principalPrefix, Option.map_eq_none_iff, List.find?_eq_none]
  simp only [beq_iff_eq, Prod.forall, ne_eq, OrdMap.get_eq_some_iff]
  exact ⟨fun h p hp => h p id hp rfl, fun h p i hp heq => h p (heq ▸ hp)⟩

/-- Members and seats left alone leave the coupling and the owners alone. -/
theorem Seated.of_same {s s' : M3State} (h : s.Seated)
    (hmember : ∀ a, a.level ≠ .node → a.level ≠ .element → s'.isChainMember a = s.isChainMember a)
    (hprincipals : s'.principals = s.principals) : s'.Seated ∧ s.KeepsOwners s' := by
  have haccount : ∀ a, s'.isRegisteredAccount a = true ↔ s.isRegisteredAccount a = true := fun a => by
    rw [isRegisteredAccount_iff, isRegisteredAccount_iff]
    exact and_congr_right fun hlv => by rw [hmember a (by simp [hlv]) (by simp [hlv])]
  have hdocument : ∀ a, s'.isRegisteredDocument a = true ↔ s.isRegisteredDocument a = true :=
    fun a => by
      rw [isRegisteredDocument_iff, isRegisteredDocument_iff]
      exact and_congr_right fun hlv => by rw [hmember a (by simp [hlv]) (by simp [hlv])]
  have homega : ∀ a, s'.omega a = s.omega a := fun a => omega_congr fun p _ => by rw [hprincipals]
  refine ⟨⟨?_, ?_, ?_, ?_⟩, ⟨fun a ha => ⟨(haccount a).2 ha, homega a⟩,
    fun a ha => ⟨(hdocument a).2 ha, homega a⟩⟩⟩
  · rw [hprincipals]
    exact h.tier
  · intro a ha
    rw [haccount, hprincipals]
    exact h.seat a ha
  · rw [hprincipals]
    exact h.ids
  · intro p a hp hpre ha
    rw [haccount, hdocument] at ha
    exact (haccount p).2 (h.above p a hp hpre ha)

theorem Seated.element {s s' : M3State} {seq : ℕ} {a : Address} {pub : Bool} (h : s.Seated)
    (ha : a.level = .element) (happ : (s.applyM3 seq (.allocate a pub) : Outcome Empty M3State) = .ok s') :
    s'.Seated ∧ s.KeepsOwners s' := by
  refine h.of_same (fun b _ hb => ?_) ?_
  · have hne : b ≠ a := fun heq => hb (heq ▸ ha)
    rw [Bool.eq_iff_iff, isChainMember_allocate happ, or_iff_left hne]
  · obtain ⟨key, -, -, rfl⟩ := applyM3_allocate_iff.1 happ
    rfl

theorem Seated.document {s s' : M3State} {seq : ℕ} {account a : Address} {pub : Bool}
    (h : s.Seated) (haccount : s.isRegisteredAccount account = true)
    (ha : namespaceOf a = some (documentNs account))
    (happ : (s.applyM3 seq (.allocate a pub) : Outcome Empty M3State) = .ok s') :
    s'.Seated ∧ s.KeepsOwners s' := by
  have hlv := (trunkOf_childOf_account (level_of_isRegisteredAccount haccount)
    (namespaceOf_eq_some ha).1).1
  have hprincipals : s'.principals = s.principals := by
    obtain ⟨key, -, -, rfl⟩ := applyM3_allocate_iff.1 happ
    rfl
  have haccounts : ∀ b, s'.isRegisteredAccount b = true ↔ s.isRegisteredAccount b = true := fun b => by
    rw [isRegisteredAccount_iff, isRegisteredAccount_iff, isChainMember_allocate happ]
    refine and_congr_right fun hb => or_iff_left fun heq => ?_
    simp [heq, hlv] at hb
  have homega : ∀ b, s'.omega b = s.omega b := fun b => omega_congr fun p _ => by rw [hprincipals]
  refine ⟨⟨?_, ?_, ?_, ?_⟩, ⟨fun b hb => ⟨(haccounts b).2 hb, homega b⟩,
    fun b hb => ⟨(isRegisteredDocument_allocate happ b).2 (.inl hb), homega b⟩⟩⟩
  · rw [hprincipals]
    exact h.tier
  · intro b hb
    rw [haccounts, hprincipals]
    exact h.seat b hb
  · rw [hprincipals]
    exact h.ids
  · intro p b hp hpre hb
    rw [haccounts, isRegisteredDocument_allocate happ] at hb
    rw [haccounts]
    rcases hb with hb | hb | ⟨rfl, -⟩
    · exact h.above p b hp hpre (.inl hb)
    · exact h.above p b hp hpre (.inr hb)
    · rcases prefixContains_child (namespaceOf_eq_some ha).1 hpre with rfl | hpre
      · simp [hp] at hlv
      · exact h.above p account hp hpre (.inl haccount)

theorem Seated.account {s s' : M3State} {seq : ℕ} {anchor a : Address} {id : PrincipalId}
    (h : s.Seated) (hd : s.Delegable s anchor a id)
    (happ : (s.applyAll seq [.allocate a false, .registerPrincipal a id] :
      Outcome Empty M3State) = .ok s') : s'.Seated ∧ s.KeepsOwners s' := by
  simp only [applyAll, List.foldlM_cons, List.foldlM_nil, Outcome.bind_eq_ok_iff, Outcome.pure_eq,
    Outcome.ok.injEq] at happ
  obtain ⟨s1, h1, s2, h2, rfl⟩ := happ
  cases h2
  have hprincipals : s1.principals = s.principals := by
    obtain ⟨key, -, -, rfl⟩ := applyM3_allocate_iff.1 h1
    rfl
  have hunregistered : s.isRegisteredAccount a = false := by
    rw [← Bool.not_eq_true, isRegisteredAccount_iff]
    rintro ⟨hlv, hm⟩
    have := hd.fresh
    rw [isAllocated_of_level (by simp [hlv]), hm] at this
    cases this
  have hunseated : s.principals.contains a = false := by
    rw [← Bool.not_eq_true, ← h.seat a hd.account, hunregistered]
    exact Bool.false_ne_true
  simp only [hprincipals, hunseated, Bool.false_eq_true, if_false]
  generalize hs' : ({ s1 with principals := s.principals.insert a id } : M3State) = s'
  have hget : ∀ p, s'.principals.get p = if p = a then some id else s.principals.get p := fun p => by
    rw [← hs']
    exact OrdMap.get_insert ..
  have hcontains : ∀ p, s'.principals.contains p = true ↔
      s.principals.contains p = true ∨ p = a := fun p => by
    rw [OrdMap.contains, OrdMap.contains, hget]
    by_cases hp : p = a <;> simp [hp]
  have hmember : s'.isChainMember = s1.isChainMember := by
    rw [← hs']
    rfl
  have haccounts : ∀ b, s'.isRegisteredAccount b = true ↔
      s.isRegisteredAccount b = true ∨ b = a := fun b => by
    rw [isRegisteredAccount_iff, isRegisteredAccount_iff, hmember, isChainMember_allocate h1,
      and_or_left]
    refine or_congr_right ⟨And.right, fun hb => ⟨hb ▸ hd.account, hb⟩⟩
  have hdocuments : ∀ b, s'.isRegisteredDocument b = true ↔ s.isRegisteredDocument b = true :=
    fun b => by
      rw [isRegisteredDocument_iff, isRegisteredDocument_iff, hmember, isChainMember_allocate h1]
      refine and_congr_right fun hb => or_iff_left fun heq => ?_
      simp [heq, hd.account] at hb
  -- nothing allocated lies under the new seat
  have homega : ∀ b, s.isRegisteredAccount b = true ∨ s.isRegisteredDocument b = true →
      s'.omega b = s.omega b := by
    intro b hb
    refine omega_congr fun p hp => ?_
    rw [hget, if_neg]
    rintro rfl
    rw [h.above p b hd.account hp hb] at hunregistered
    cases hunregistered
  refine ⟨⟨fun p hp => ?_, fun b hb => ?_, fun p q i hp hq => ?_, fun p b hp hpre hb => ?_⟩,
    ⟨fun b hb => ⟨(haccounts b).2 (.inl hb), homega b (.inl hb)⟩,
      fun b hb => ⟨(hdocuments b).2 hb, homega b (.inr hb)⟩⟩⟩
  · rcases (hcontains p).1 hp with hp | rfl
    · exact h.tier p hp
    · exact .inr hd.account
  · rw [haccounts, hcontains, h.seat b hb]
  · have hunused := principalPrefix_eq_none_iff.1 hd.newId_unused
    rw [hget] at hp hq
    split at hp <;> split at hq
    · next h1 h2 => exact h1.trans h2.symm
    · cases hp
      exact absurd hq (hunused q)
    · cases hq
      exact absurd hp (hunused p)
    · exact h.ids p q i hp hq
  · rw [haccounts] at hb ⊢
    rw [hdocuments] at hb
    rcases hb with (hb | rfl) | hb
    · exact .inl (h.above p b hp hpre (.inl hb))
    · rcases prefixContains_child (namespaceOf_eq_some hd.next).1 hpre with rfl | hpre
      · exact .inr rfl
      · rcases hd.anchor_registered with hreg | hreg
        · have := zeros_le_of_prefixContains hpre
          rw [hp, entityLevel_eq_some hreg] at this
          simp [Level.zeros] at this
        · exact .inl (h.above p anchor hp hpre (.inl (by simp [isRegisteredAccount, hreg])))
    · exact .inl (h.above p b hp hpre (.inr hb))

/-- Every operation keeps the coupling, and every owner. -/
theorem Seated.step {s s' : M3State} {seq : ℕ} {recs : List M3Rec} (h : s.Seated)
    (hr : EntityRecs s recs) (happ : (s.applyAll seq recs : Outcome Empty M3State) = .ok s') :
    s'.Seated ∧ s.KeepsOwners s' := by
  cases hr with
  | node hlv =>
    cases happ
    exact h.of_same (fun _ _ _ => rfl) rfl
  | document pub haccount ha =>
    rw [applyAll, List.foldlM_cons, Outcome.bind_eq_ok_iff] at happ
    obtain ⟨s1, h1, h2⟩ := happ
    cases h2
    exact h.document haccount ha h1
  | account hd => exact h.account hd happ

end M3State

namespace M3State

theorem seated_roots : roots.Seated := by
  have hget : ∀ p, roots.principals.get p =
      if p = bootstrapRoot then some bootstrapPrincipal else none := fun p =>
    OrdMap.get_insert ..
  have hcontains : ∀ p, roots.principals.contains p = true → p = bootstrapRoot := fun p hp => by
    rw [OrdMap.contains, hget] at hp
    by_contra hne
    simp [hne] at hp
  have hmember : ∀ a, a.level ≠ .node → roots.isChainMember a = false := fun a ha => by
    have hexact := Allocations.exact_roots.allocated a
    rw [isAllocated_of_level ha, List.mem_singleton] at hexact
    rw [← Bool.not_eq_true, hexact]
    rintro rfl
    exact ha rfl
  have haccount : ∀ a, roots.isRegisteredAccount a = false := fun a => by
    rw [← Bool.not_eq_true, isRegisteredAccount_iff]
    rintro ⟨hlv, hm⟩
    simp [hmember a (by simp [hlv])] at hm
  have hdocument : ∀ a, roots.isRegisteredDocument a = false := fun a => by
    rw [← Bool.not_eq_true, isRegisteredDocument_iff]
    rintro ⟨hlv, hm⟩
    simp [hmember a (by simp [hlv])] at hm
  refine ⟨fun p hp => ?_, fun a ha => ?_, fun p q id hp hq => ?_, fun p a _ _ ha => ?_⟩
  · rw [hcontains p hp]
    exact .inl rfl
  · rw [haccount]
    refine iff_of_false Bool.false_ne_true fun hp => ?_
    rw [hcontains a hp] at ha
    cases ha
  · rw [hcontains p (by simp [OrdMap.contains, hp]), hcontains q (by simp [OrdMap.contains, hq])]
  · simp [haccount, hdocument] at ha

theorem applyAll_cons_eq_ok {s s' : M3State} {seq : ℕ} {r : M3Rec} {recs : List M3Rec} :
    (s.applyAll seq (r :: recs) : Outcome Empty M3State) = .ok s' ↔
      ∃ mid, (s.applyM3 seq r : Outcome Empty M3State) = .ok mid ∧
        (mid.applyAll seq recs : Outcome Empty M3State) = .ok s' := by
  rw [applyAll, List.foldlM_cons, Outcome.bind_eq_ok_iff]
  rfl

theorem seated_genesis : genesis.Seated := by
  obtain ⟨s1, h1, hrest⟩ := applyAll_cons_eq_ok.1 applyAll_seed
  obtain ⟨s2, h2, hrest⟩ := applyAll_cons_eq_ok.1 hrest
  obtain ⟨s3, h3, hrest⟩ := applyAll_cons_eq_ok.1 hrest
  obtain ⟨s4, h4, hrest⟩ := applyAll_cons_eq_ok.1 hrest
  obtain ⟨s5, h5, hrest⟩ := applyAll_cons_eq_ok.1 hrest
  cases hrest
  have e1 : s1.Seated := by
    cases h1
    exact And.left (seated_roots.of_same (fun _ _ _ => rfl) rfl)
  have e3 : s3.Seated := by
    have hd : s1.Delegable s1 systemNode systemAccount systemPrincipal := by
      cases h1
      exact ⟨rfl, .inl (by decide), by decide, by decide, by decide, by decide, ⟨bootstrapRoot, by decide, by decide⟩,
        by decide⟩
    exact (e1.account hd (applyAll_cons_eq_ok.2 ⟨s2, h2, applyAll_cons_eq_ok.2 ⟨s3, h3, rfl⟩⟩)).1
  have hseat3 : s3.isRegisteredAccount systemAccount = true := by
    rw [e3.seat _ rfl]
    cases h3
    show OrdMap.contains (if _ then _ else _) _ = true
    split
    · assumption
    · rw [OrdMap.contains, OrdMap.get_insert_self]
      rfl
  obtain ⟨e4, k4⟩ := e3.document (a := ghostHomeDocument) hseat3 (by decide) h4
  exact (e4.document (a := headDocument) (k4.account _ hseat3).1 (by decide) h5).1

end M3State

instance : WorldState M3State := ⟨M3Rec, fun s seq r => s.applyM3 seq r⟩

inductive NamespaceError where
  | createDocument (e : CreateDocumentError)
  | delegate (e : DelegateError)
  | registerNode (e : RegisterNodeError)
  deriving DecidableEq, Repr

/-- The operations of the namespace. -/
inductive NamespaceCall where
  | createNewDocument (caller : PrincipalId) (account : Address) (published : Option Bool)
  | delegate (delegator : PrincipalId) (newPrefix : Tumbler) (newId : PrincipalId)
  | registerNode (addr : Tumbler)
  | fork (caller : PrincipalId) (published : Option Bool)

/-- What an operation answers and the records it stages, `snapshot` being what it
read before its transaction. -/
def NamespaceCall.recs (snapshot base working : M3State) :
    NamespaceCall → Outcome NamespaceError (Address × List M3Rec)
  | createNewDocument caller account published =>
      (base.createNewDocument working caller account published).mapErr .createDocument
  | delegate delegator newPrefix newId =>
      (base.delegate working delegator newPrefix newId).mapErr .delegate
  | registerNode addr => (base.registerNode addr).mapErr .registerNode
  | fork caller published => (snapshot.fork base working caller published).mapErr .createDocument

/-- A call, the age of the snapshot it reads, and how far the order has passed the
newest commit. -/
structure NamespaceRequest where
  call : NamespaceCall
  age : ℕ
  gap : ℕ

/-- An operation's transaction. -/
def NamespaceCall.perform (c : NamespaceCall) (snapshot : M3State) (stg : Staging M3State) :
    Outcome NamespaceError (Address × Staging M3State) := do
  let (addr, recs) ← c.recs snapshot stg.base stg.working
  let stg ← stg.pushAll recs
  return (addr, stg)

namespace Namespace

def step (h : History M3State) (r : NamespaceRequest) : History M3State :=
  h.attempt r.gap (r.call.perform (h.commits[r.age]?.getD h.head).world)

/-- A run from genesis. -/
def run (requests : List NamespaceRequest) : History M3State :=
  requests.foldl step (.initial M3State.genesis)

end Namespace

/-- An accepted operation stages the records of a node, a document or an account. -/
theorem NamespaceCall.entityRecs {snapshot s : M3State} {c : NamespaceCall} {a : Address}
    {recs : List M3Rec} (h : c.recs snapshot s s = .ok (a, recs)) : EntityRecs s recs := by
  have hdocument : ∀ {caller account published},
      s.createNewDocument s caller account published = .ok (a, recs) → EntityRecs s recs := by
    intro caller account published h
    obtain ⟨haccount, hns, -, pub, rfl⟩ := M3State.createNewDocument_eq_ok h
    exact .document pub haccount hns
  cases c with
  | createNewDocument caller account published => exact hdocument (Outcome.mapErr_eq_ok_iff.1 h)
  | delegate delegator newPrefix newId =>
    obtain ⟨-, anchor, -, hd, rfl⟩ := M3State.delegate_eq_ok (Outcome.mapErr_eq_ok_iff.1 h)
    exact .account hd
  | registerNode addr =>
    obtain ⟨hlv, -, rfl⟩ := M3State.registerNode_eq_ok (Outcome.mapErr_eq_ok_iff.1 h)
    exact .node hlv
  | fork caller published =>
    obtain ⟨account, h⟩ := M3State.fork_eq_ok (Outcome.mapErr_eq_ok_iff.1 h)
    exact hdocument h

theorem NamespaceCall.perform_eq_ok {c : NamespaceCall} {snapshot : M3State}
    {stg stg' : Staging M3State} {a : Address} (h : c.perform snapshot stg = .ok (a, stg')) :
    ∃ recs, c.recs snapshot stg.base stg.working = .ok (a, recs) ∧ stg.Pushed recs stg' := by
  simp only [perform, Outcome.bind_eq_ok_iff, Outcome.pure_eq, Outcome.ok.injEq, Prod.exists,
    Prod.mk.injEq] at h
  obtain ⟨a, recs, hrecs, s2, hpush, rfl, rfl⟩ := h
  exact ⟨recs, hrecs, Staging.pushed_of_pushAll hpush⟩

namespace Namespace

/-- A step commits the records of an operation over the newest slice, or nothing. -/
theorem step_cases (h : History M3State) (r : NamespaceRequest) :
    step h r = h ∨ ∃ recs seq s', EntityRecs h.head.world recs ∧
      (h.head.world.applyAll seq recs : Outcome Empty M3State) = .ok s' ∧
      step h r = h.commit ⟨seq, recs, s'⟩ := by
  rcases h.attempt_cases r.gap fun stg value hrun =>
      (NamespaceCall.perform_eq_ok hrun).imp fun _ => And.right with
    hkeep | ⟨value, stg, recs, w, hrun, hpushed, -, hfold, hcommit⟩
  · exact .inl hkeep
  · obtain ⟨recs', hrecs, hpushed'⟩ := NamespaceCall.perform_eq_ok hrun
    have hsame : recs = recs' := by
      have h1 := hpushed.fields.2.2
      have h2 := hpushed'.fields.2.2
      exact List.append_cancel_left (h1.symm.trans h2)
    subst hsame
    exact .inr ⟨recs, _, w, NamespaceCall.entityRecs hrecs, hfold, hcommit⟩

/-- Every commit of a run is coupled, and keeps the owners of the earlier ones. -/
theorem run_seated (requests : List NamespaceRequest) :
    (∀ c ∈ (run requests).commits, c.world.Seated) ∧
      (run requests).commits.Pairwise fun later earlier =>
        earlier.world.KeepsOwners later.world := by
  induction requests using List.reverseRecOn with
  | nil =>
    refine ⟨fun c hc => ?_, List.pairwise_singleton _ _⟩
    cases List.mem_singleton.1 hc
    exact M3State.seated_genesis
  | append_singleton requests r ih =>
    obtain ⟨hseated, hkeeps⟩ := ih
    rw [run, List.foldl_append, List.foldl_cons, List.foldl_nil, ← run]
    rcases step_cases (run requests) r with heq | ⟨recs, seq, s', hrecs, hfold, heq⟩
    · rw [heq]
      exact ⟨hseated, hkeeps⟩
    · obtain ⟨hs', hstep⟩ := (hseated _ List.mem_cons_self).step hrecs hfold
      rw [heq]
      refine ⟨fun c hc => ?_, History.pairwise_commit (R := M3State.KeepsOwners) .trans hkeeps hstep⟩
      rcases List.mem_cons.1 hc with rfl | hc
      · exact hs'
      · exact hseated c hc

end Namespace

/-- Over every run of the namespace's operations: an account is registered exactly
where a principal is seated, no two seats share an address or a principal, the
owner of an address is that of the one deepest seat above it, and an account or a
document once registered stays so under the owner it has. -/
theorem ownership_permanent (requests : List NamespaceRequest) :
    (∀ c ∈ (Namespace.run requests).commits,
      (∀ a : Address, a.level = .account →
        (c.world.isRegisteredAccount a = true ↔ c.world.principals.contains a = true)) ∧
      (c.world.principals.entries.map Prod.fst).Nodup ∧
      (c.world.principals.entries.map Prod.snd).Nodup ∧
      ∀ (a : Address) (id : PrincipalId), c.world.effectiveOwner a = some id ↔
        ∃ p, c.world.principals.get p = some id ∧ prefixContains p a = true ∧
          ∀ q, c.world.principals.contains q = true → prefixContains q a = true → q ≠ p →
            q.tumbler.len < p.tumbler.len) ∧
    (Namespace.run requests).commits.Pairwise fun later earlier => ∀ a : Address,
      (earlier.world.isRegisteredAccount a = true → later.world.isRegisteredAccount a = true ∧
        later.world.effectiveOwner a = earlier.world.effectiveOwner a) ∧
      (earlier.world.isRegisteredDocument a = true → later.world.isRegisteredDocument a = true ∧
        later.world.effectiveOwner a = earlier.world.effectiveOwner a) := by
  obtain ⟨hseated, hkeeps⟩ := Namespace.run_seated requests
  refine ⟨fun c hc => ?_, hkeeps.imp fun hkeep a => ⟨fun ha => ?_, fun ha => ?_⟩⟩
  · have hs := hseated c hc
    have hkeys := c.world.principals.keys_ascending.imp (fun h => ne_of_lt h)
    refine ⟨hs.seat, hkeys, ?_, fun a id => ?_⟩
    · rw [List.nodup_iff_pairwise_ne, List.pairwise_map] at *
      have hentries := c.world.principals.keys_ascending
      rw [List.pairwise_map] at hentries
      refine (List.Pairwise.and_mem.1 hentries).imp fun {e e'} h heq => ?_
      obtain ⟨he, he', hlt⟩ := h
      have := hs.ids e.1 e'.1 e.2 (OrdMap.get_eq_some_iff.2 he)
        (by rw [heq]; exact OrdMap.get_eq_some_iff.2 he')
      exact hlt.ne this
    · rw [M3State.effectiveOwner_eq_some_iff]
      have habove : ∀ q, c.world.SeatAbove q a ↔
          c.world.principals.contains q = true ∧ prefixContains q a = true := fun q =>
        ⟨fun h => ⟨h.1, h.2.2⟩, fun h => ⟨h.1, hs.tier q h.1, h.2⟩⟩
      simp only [habove, and_imp]
      refine exists_congr fun p => and_congr_right fun hget => ?_
      have hcontains : c.world.principals.contains p = true := OrdMap.contains_iff.2 ⟨id, hget⟩
      simp [hcontains]
  · obtain ⟨h1, h2⟩ := hkeep.account a ha
    exact ⟨h1, congrArg (Option.map Prod.snd) h2⟩
  · obtain ⟨h1, h2⟩ := hkeep.document a ha
    exact ⟨h1, congrArg (Option.map Prod.snd) h2⟩
