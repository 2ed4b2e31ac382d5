import Skep.Address.Address
import Skep.Library.Lineage

/-!
# The base of two members

A document's versions are its members. A trunk member was minted against the one before it,
a daughter against its trunk. The base of two members is where the two chains first meet.

## Main results

- `Composition.memberParts_eq_some_iff` — which addresses are members
- `Composition.baseOf_meet` — the base is the nearest common ancestor
- `Composition.baseOf_nearest` — when there is a base, and its algebra
-/

namespace Composition

/-- A member split at its document number. -/
def memberParts (a : Address) : Option (List ℕ × List ℕ) :=
  if a.level ≠ .document then none
  else do
    let field ← a.documentField
    if field.length < 2 then none
    else
      let head := a.comps.length - field.length + 1
      return (a.comps.take head, a.comps.drop head)

/-- What the version components were minted against. A member has one at least. -/
def against : List ℕ → Option (List ℕ)
  | [] => none
  | [v] => if 1 < v then some [v - 1] else none
  | v :: w :: rest => some (v :: w :: rest).dropLast

/-- The chains of one document's members. -/
def versions : Forest (List ℕ) where
  parent := against
  rank vs := vs.length + vs.headD 0
  descends := by
    intro vs us h
    match vs with
    | [] => cases h
    | [v] =>
      rw [against, Option.ite_none_right_eq_some] at h
      obtain ⟨hv, heq⟩ := h
      cases heq
      simp only [List.length_singleton, List.headD_cons]
      omega
    | v :: w :: rest =>
      cases h
      simp

/-- The version components of a member and of each ancestor, nearest first. -/
def ancestry (vs : List ℕ) : List (List ℕ) := versions.lineage vs

def baseOf (a b : Address) : Option Address := do
  let (headA, versionsA) ← memberParts a
  let (headB, versionsB) ← memberParts b
  if headA ≠ headB then none
  else
    let chainB := ancestry versionsB
    let shared ← (ancestry versionsA).find? fun v => chainB.contains v
    if h : headA ++ shared = [] then none else (validate ⟨headA ++ shared, h⟩).toOption

/-- The member `D.v₁…vₙ` of a bare document. -/
structure IsMember (doc : Address) (vs : List ℕ) (a : Address) : Prop where
  bare : doc.level = .document ∧ ∃ n, doc.documentField = some [n]
  level : a.level = .document
  comps : a.comps = doc.comps ++ vs
  versioned : vs ≠ []

/-- The ancestors of `D.v₁…vₙ`: itself, its prefixes down to `D.v₁`, and `D.j` for `1 ≤ j < v₁`. -/
def IsAncestor (c a : Address) : Prop :=
  ∃ doc vs us, IsMember doc vs a ∧ IsMember doc us c ∧
    (us <+: vs ∨ ∃ j v rest, us = [j] ∧ vs = v :: rest ∧ 1 ≤ j ∧ j < v)

/-- The document address is what stands before its last separator, the separator, and its field. -/
theorem exists_documentField {a : Address} (h : a.level = .document) :
    ∃ p : Tumbler, ∃ e, e ≠ [] ∧ 0 ∉ e ∧ a.comps = p.comps ++ 0 :: e ∧ p.comps.count 0 = 1 ∧
      a.documentField = some e := by
  obtain ⟨p, e, he, hz, hcomps⟩ := Address.exists_lastField (a := a) (by simp [h])
  have hp := Address.admits_beforeLast he hz hcomps (show a.level.zeros = Level.account.zeros + 1 by rw [h]; rfl)
  have hcount : p.comps.count 0 = 1 := (admits_iff.1 hp).2.2.2
  have hfield : a.documentField = some e := by
    rw [Address.documentField, ← Address.field_eq hcomps hz, hcount]
  exact ⟨p, e, he, hz, hcomps, hcount, hfield⟩

theorem IsMember.zeroFree {doc a : Address} {vs : List ℕ} (h : IsMember doc vs a) : 0 ∉ vs := by
  have hcount := a.count_zero
  have hdoc := doc.count_zero
  rw [h.comps, List.count_append, hdoc, h.bare.1, h.level] at hcount
  rw [← List.count_eq_zero]
  omega

theorem exists_member {doc a : Address} {vs : List ℕ} (h : IsMember doc vs a) {us : List ℕ} (hz : 0 ∉ us)
    (hne : us ≠ []) : ∃ c, IsMember doc us c := by
  let t : Tumbler := ⟨doc.comps ++ us, List.append_ne_nil_of_left_ne_nil doc.comps_ne_nil us⟩
  have hadm : (t4Scan t).admittedLevel = some .document :=
    (admits_same (p := doc.tumbler) hz rfl doc.getLast?_ne_zero).2 (h.bare.1 ▸ doc.admitted)
  exact ⟨⟨t, .document, hadm⟩, h.bare, rfl, rfl, hne⟩

/-- The members are the document addresses of two components and more in their document field. -/
theorem memberParts_eq_some_iff {a : Address} {head vs : List ℕ} :
    memberParts a = some (head, vs) ↔ ∃ doc, doc.comps = head ∧ IsMember doc vs a := by
  constructor
  · intro h
    rw [memberParts] at h
    by_cases hlv : a.level = .document
    · obtain ⟨p, e, he, hz, hcomps, hcount, hfield⟩ := exists_documentField hlv
      rw [if_neg (not_not.2 hlv), hfield] at h
      simp only [Option.bind_eq_bind, Option.bind_some, Option.ite_none_left_eq_some, not_lt] at h
      obtain ⟨hlen, hsplit⟩ := h
      obtain ⟨n, e, rfl⟩ := List.exists_cons_of_ne_nil he
      have hlength : a.comps.length - (n :: e).length + 1 = (p.comps ++ [0, n]).length := by
        rw [hcomps]
        simp only [List.length_append, List.length_cons, List.length_nil]
        omega
      have hshape : a.comps = (p.comps ++ [0, n]) ++ e := by
        rw [hcomps, List.append_assoc]
        rfl
      have hparts := Option.some.inj hsplit
      rw [hlength, hshape, List.take_left, List.drop_left, Prod.mk.injEq] at hparts
      obtain ⟨rfl, rfl⟩ := hparts
      have hz' : 0 ∉ e := fun h => hz (List.mem_cons_of_mem _ h)
      have hn : n ≠ 0 := fun h => hz (by simp [h])
      have hadm : (t4Scan ⟨p.comps ++ [0, n], by simp⟩).admittedLevel = some .document :=
        (admits_same (e := e) hz' hshape (by simpa using hn)).1 (hlv ▸ a.admitted)
      refine ⟨⟨_, .document, hadm⟩, rfl, ⟨rfl, n, ?_⟩, hlv, hshape, ?_⟩
      · have hone : Address.field ⟨⟨p.comps ++ [0, n], by simp⟩, .document, hadm⟩ (p.comps.count 0 + 1) = some [n] :=
          Address.field_eq rfl (by simpa using Ne.symm hn)
        rwa [hcount] at hone
      · rintro rfl
        simp at hlen
    · rw [if_pos hlv] at h
      cases h
  · rintro ⟨doc, rfl, h⟩
    obtain ⟨hdoc, n, hn⟩ := h.bare
    obtain ⟨p, e, he, hz, hcomps, hcount, hfield⟩ := exists_documentField hdoc
    rw [hn, Option.some.injEq] at hfield
    subst hfield
    have hshape : a.comps = p.comps ++ 0 :: (n :: vs) := by
      rw [h.comps, hcomps, List.append_assoc]
      rfl
    have hzero : 0 ∉ n :: vs := by
      rw [List.mem_cons, not_or]
      exact ⟨fun h => hz (by simp [h]), h.zeroFree⟩
    have hfielda : a.documentField = some (n :: vs) := by
      rw [Address.documentField, ← Address.field_eq hshape hzero, hcount]
    have hpos := List.length_pos_iff.2 h.versioned
    have hlength : a.comps.length - (n :: vs).length + 1 = doc.comps.length := by
      rw [hshape, hcomps]
      simp only [List.length_append, List.length_cons, List.length_nil]
      omega
    have hlen : ¬ (n :: vs).length < 2 := by
      rw [List.length_cons]
      omega
    rw [memberParts, if_neg (not_not.2 h.level), hfielda, Option.bind_eq_bind, Option.bind_some, if_neg hlen, hlength,
      h.comps]
    dsimp only
    rw [List.take_left, List.drop_left]
    rfl

theorem IsMember.memberParts {doc a : Address} {vs : List ℕ} (h : IsMember doc vs a) :
    memberParts a = some (doc.comps, vs) :=
  memberParts_eq_some_iff.2 ⟨doc, rfl, h⟩

/-- A member has one document and one sequence of versions. -/
theorem IsMember.unique {doc doc' a : Address} {vs vs' : List ℕ} (h : IsMember doc vs a) (h' : IsMember doc' vs' a) :
    doc = doc' ∧ vs = vs' := by
  have hparts := h.memberParts.symm.trans h'.memberParts
  rw [Option.some.injEq, Prod.mk.injEq] at hparts
  exact ⟨Address.ext hparts.1, hparts.2⟩

theorem IsMember.eq {doc a b : Address} {vs : List ℕ} (h : IsMember doc vs a) (h' : IsMember doc vs b) : a = b :=
  Address.ext (h.comps.trans h'.comps.symm)

theorem versions_ancestor_member {vs us : List ℕ} (h : versions.IsAncestor us vs) (hz : 0 ∉ vs) (hne : vs ≠ []) :
    0 ∉ us ∧ us ≠ [] := by
  induction h with
  | refl => exact ⟨hz, hne⟩
  | @tail us ws _ hstep ih =>
    obtain ⟨hz, hne⟩ := ih
    match us with
    | [] => exact absurd rfl hne
    | [v] =>
      obtain ⟨hv, heq⟩ := Option.ite_none_right_eq_some.1 hstep
      cases heq
      exact ⟨by simp; omega, by simp⟩
    | v :: w :: rest =>
      cases hstep
      exact ⟨fun h => hz (List.mem_of_mem_dropLast h), by simp⟩

theorem versions_ancestor_iff {vs us : List ℕ} (hz : 0 ∉ vs) (hus : us ≠ []) : versions.IsAncestor us vs ↔
    us <+: vs ∨ ∃ j v rest, us = [j] ∧ vs = v :: rest ∧ 1 ≤ j ∧ j < v := by
  induction vs using Forest.lineage.induct versions with
  | case1 vs ih =>
    rcases vs with _ | ⟨v, _ | ⟨w, rest⟩⟩
    · constructor
      · intro h
        refine .inl (h.eq_or_of_parent.elim (fun h => h ▸ List.prefix_rfl) ?_)
        rintro ⟨y, hy, -⟩
        cases hy
      · rintro (h | ⟨j, v, rest, -, h, -⟩)
        · exact absurd (List.prefix_nil.1 h) hus
        · cases h
    · by_cases hv : 1 < v
      · have hparent : versions.parent [v] = some [v - 1] := if_pos hv
        have hz' : 0 ∉ [v - 1] := by
          simp only [List.mem_singleton]
          omega
        constructor
        · intro h
          refine h.eq_or_of_parent.elim (fun h => .inl (h ▸ List.prefix_rfl)) ?_
          rintro ⟨ws, hws, h⟩
          rw [hparent, Option.some.injEq] at hws
          subst hws
          right
          rcases (ih [v - 1] hparent hz').1 h with hpre | ⟨j, v', rest, rfl, heq, hj, hlt⟩
          · refine ⟨v - 1, v, [], ?_, rfl, by omega, by omega⟩
            exact (List.prefix_cons_iff.1 hpre).resolve_left hus |>.elim fun t ht => by
              rw [ht.1, List.prefix_nil.1 ht.2]
          · cases heq
            exact ⟨j, v, [], rfl, rfl, hj, by omega⟩
        · intro h
          by_cases heq : us = [v]
          · rw [heq]
          · refine Forest.IsAncestor.of_parent hparent ((ih [v - 1] hparent hz').2 ?_)
            rcases h with hpre | ⟨j, v', rest, rfl, hcons, hj, hlt⟩
            · obtain ⟨t, ht, hnil⟩ := (List.prefix_cons_iff.1 hpre).resolve_left hus
              exact absurd (by rw [ht, List.prefix_nil.1 hnil]) heq
            · cases hcons
              by_cases hlast : j = v - 1
              · exact .inl (hlast ▸ List.prefix_rfl)
              · exact .inr ⟨j, v - 1, [], rfl, rfl, hj, by omega⟩
      · have hparent : versions.parent [v] = none := if_neg hv
        constructor
        · intro h
          refine .inl (h.eq_or_of_parent.elim (fun h => h ▸ List.prefix_rfl) ?_)
          rintro ⟨y, hy, -⟩
          exact Option.some_ne_none _ (hy.symm.trans hparent) |>.elim
        · rintro (hpre | ⟨j, v', rest, -, hcons, hj, hlt⟩)
          · obtain ⟨t, ht, hnil⟩ := (List.prefix_cons_iff.1 hpre).resolve_left hus
            rw [ht, List.prefix_nil.1 hnil]
          · cases hcons
            omega
    · have hparent : versions.parent (v :: w :: rest) = some (v :: w :: rest).dropLast := rfl
      have hz' : 0 ∉ (v :: w :: rest).dropLast := fun h => hz (List.mem_of_mem_dropLast h)
      have hup := ih _ hparent hz'
      have hhead : (v :: w :: rest).dropLast = v :: (w :: rest).dropLast := rfl
      have hprefix : (v :: w :: rest).dropLast <+: v :: w :: rest := List.dropLast_prefix _
      constructor
      · intro h
        refine h.eq_or_of_parent.elim (fun h => .inl (h ▸ List.prefix_rfl)) ?_
        rintro ⟨ws, hws, h⟩
        rw [hparent, Option.some.injEq] at hws
        subst hws
        rcases hup.1 h with hpre | ⟨j, v', rest', rfl, heq, hj, hlt⟩
        · exact .inl (hpre.trans hprefix)
        · rw [hhead, List.cons.injEq] at heq
          exact .inr ⟨j, v, w :: rest, rfl, rfl, hj, heq.1 ▸ hlt⟩
      · intro h
        by_cases heq : us = v :: w :: rest
        · rw [heq]
        · refine Forest.IsAncestor.of_parent hparent (hup.2 ?_)
          rcases h with hpre | ⟨j, v', rest', rfl, hcons, hj, hlt⟩
          · have hlen : us.length < (v :: w :: rest).length :=
              lt_of_le_of_ne hpre.length_le fun h => heq (hpre.eq_of_length h)
            refine .inl (List.prefix_of_prefix_length_le hpre hprefix ?_)
            rw [List.length_dropLast]
            omega
          · cases hcons
            exact .inr ⟨j, v, _, rfl, hhead, hj, hlt⟩

theorem IsMember.isAncestor_iff {doc a c : Address} {vs : List ℕ} (h : IsMember doc vs a) :
    IsAncestor c a ↔ ∃ us, IsMember doc us c ∧ versions.IsAncestor us vs := by
  constructor
  · rintro ⟨doc', vs', us, ha, hc, hanc⟩
    obtain ⟨rfl, rfl⟩ := h.unique ha
    exact ⟨us, hc, (versions_ancestor_iff h.zeroFree hc.versioned).2 hanc⟩
  · rintro ⟨us, hc, hanc⟩
    exact ⟨doc, vs, us, h, hc, (versions_ancestor_iff h.zeroFree hc.versioned).1 hanc⟩

/-- The first trunk member is an ancestor of every member. -/
theorem IsMember.first_isAncestor {doc a : Address} {vs : List ℕ} (h : IsMember doc vs a) :
    versions.IsAncestor [1] vs := by
  rw [versions_ancestor_iff h.zeroFree (by simp)]
  obtain ⟨v, rest, rfl⟩ := List.exists_cons_of_ne_nil h.versioned
  have hv : v ≠ 0 := fun hv => h.zeroFree (by simp [hv])
  by_cases hone : v = 1
  · exact .inl ⟨rest, by rw [hone]; rfl⟩
  · exact .inr ⟨1, v, rest, rfl, rfl, le_rfl, by omega⟩

/-- Members of one document have a base, where their chains first meet. -/
theorem IsMember.exists_baseOf {doc a b : Address} {vs ws : List ℕ} (ha : IsMember doc vs a) (hb : IsMember doc ws b) :
    ∃ c us, baseOf a b = some c ∧ IsMember doc us c ∧ versions.IsNearest vs ws us := by
  obtain ⟨us, hus⟩ := Forest.exists_nearest ha.first_isAncestor hb.first_isAncestor
  have hnear := Forest.nearest_eq_some_iff.1 hus
  obtain ⟨hz, hne⟩ := versions_ancestor_member hnear.1.1 ha.zeroFree ha.versioned
  obtain ⟨c, hc⟩ := exists_member ha hz hne
  refine ⟨c, us, ?_, hc, hnear⟩
  have hcomps : doc.comps ++ us ≠ [] := List.append_ne_nil_of_left_ne_nil doc.comps_ne_nil us
  have hfind : ((ancestry vs).find? fun v => (ancestry ws).contains v) = some us := hus
  rw [baseOf, ha.memberParts, hb.memberParts]
  simp only [Option.bind_eq_bind, Option.bind_some, ne_eq, not_true_eq_false, if_false, hfind, dif_neg hcomps,
    Outcome.toOption_eq_some_iff]
  exact validate_eq_ok_iff.2 (Tumbler.ext hc.comps)

theorem baseOf_eq_some {a b c : Address} (h : baseOf a b = some c) :
    ∃ doc vs ws, IsMember doc vs a ∧ IsMember doc ws b := by
  rw [baseOf] at h
  obtain ⟨⟨headA, versionsA⟩, ha, h⟩ := Option.bind_eq_some_iff.1 h
  obtain ⟨⟨headB, versionsB⟩, hb, h⟩ := Option.bind_eq_some_iff.1 h
  obtain ⟨doc, hdoc, ha⟩ := memberParts_eq_some_iff.1 ha
  obtain ⟨doc', hdoc', hb⟩ := memberParts_eq_some_iff.1 hb
  by_cases hhead : headA = headB
  · obtain rfl : doc = doc' := Address.ext (hdoc.trans (hhead.trans hdoc'.symm))
    exact ⟨doc, versionsA, versionsB, ha, hb⟩
  · dsimp only at h
    rw [if_pos hhead] at h
    cases h

/-- The base is the nearest common ancestor. -/
theorem baseOf_meet : PartialMeet IsAncestor baseOf where
  refl := by
    rintro a x ⟨doc, vs, us, hx, ha, -⟩
    exact ⟨ha.isAncestor_iff.2 ⟨us, ha, .refl us⟩, hx.isAncestor_iff.2 ⟨vs, hx, .refl vs⟩⟩
  trans := by
    rintro a b x hab ⟨doc, vs, us, hx, hb, hanc⟩
    obtain ⟨ws, ha, hws⟩ := hb.isAncestor_iff.1 hab
    exact hx.isAncestor_iff.2 ⟨ws, ha, hws.trans ((versions_ancestor_iff hx.zeroFree hb.versioned).2 hanc)⟩
  some_iff := by
    intro a b c
    constructor
    · intro h
      obtain ⟨doc, vs, ws, ha, hb⟩ := baseOf_eq_some h
      obtain ⟨c', us, hbase, hc, ⟨hus, hus'⟩, hmin⟩ := ha.exists_baseOf hb
      obtain rfl : c' = c := Option.some.inj (hbase.symm.trans h)
      refine ⟨⟨ha.isAncestor_iff.2 ⟨us, hc, hus⟩, hb.isAncestor_iff.2 ⟨us, hc, hus'⟩⟩, fun e hea heb => ?_⟩
      obtain ⟨es, he, hes⟩ := ha.isAncestor_iff.1 hea
      obtain ⟨es', he', hes'⟩ := hb.isAncestor_iff.1 heb
      obtain ⟨-, rfl⟩ := he.unique he'
      exact hc.isAncestor_iff.2 ⟨es, he, hmin es hes hes'⟩
    · rintro ⟨⟨hca, hcb⟩, hmin⟩
      obtain ⟨doc, vs, us, ha, hc, -⟩ := id hca
      obtain ⟨doc', ws, us', hb, hc', -⟩ := id hcb
      obtain ⟨rfl, -⟩ := hc.unique hc'
      obtain ⟨base, bs, hbase, hbs, ⟨hbv, hbw⟩, hnear⟩ := ha.exists_baseOf hb
      -- each of the two is an ancestor of the other
      obtain ⟨us₁, hc₁, hus₁⟩ := ha.isAncestor_iff.1 hca
      obtain ⟨us₂, hc₂, hus₂⟩ := hb.isAncestor_iff.1 hcb
      obtain ⟨-, rfl⟩ := hc₁.unique hc₂
      have hbc := hmin base (ha.isAncestor_iff.2 ⟨bs, hbs, hbv⟩) (hb.isAncestor_iff.2 ⟨bs, hbs, hbw⟩)
      obtain ⟨bs', hbs', hup⟩ := hc₁.isAncestor_iff.1 hbc
      obtain ⟨-, rfl⟩ := hbs.unique hbs'
      obtain rfl : bs = us₁ := hup.antisymm (hnear us₁ hus₁ hus₂)
      rw [hbase, hbs.eq hc₁]
  total := by
    rintro a b c ⟨doc, vs, us, ha, hc, -⟩ ⟨doc', ws, us', hb, hc', -⟩
    obtain ⟨rfl, -⟩ := hc.unique hc'
    obtain ⟨base, -, hbase, -⟩ := ha.exists_baseOf hb
    exact ⟨base, hbase⟩

/-- Two addresses have a base exactly when both are members of one document. It is then a
common ancestor of both that every other is an ancestor of. So a base does not depend on the
order of the two, a member is its own base, a fold over any sides gives one base in any
order, and the first of two is their base exactly when it is an ancestor of the other. -/
theorem baseOf_nearest (a b : Address) :
    ((∃ c, baseOf a b = some c) ↔ ∃ doc vs ws, IsMember doc vs a ∧ IsMember doc ws b) ∧
    (∀ c, baseOf a b = some c ↔ (IsAncestor c a ∧ IsAncestor c b) ∧
      ∀ e, IsAncestor e a → IsAncestor e b → IsAncestor e c) ∧
    baseOf a b = baseOf b a ∧
    (baseOf a a = some a ↔ ∃ doc vs, IsMember doc vs a) ∧
    (∀ c, (baseOf a b).bind (baseOf · c) = (baseOf b c).bind (baseOf a ·)) ∧
    (∀ sides sides' : List Address, sides.Perm sides' → foldPartial baseOf sides = foldPartial baseOf sides') ∧
    (baseOf a b = some a ↔ IsAncestor a b) := by
  refine ⟨⟨?_, ?_⟩, fun c => baseOf_meet.some_iff, baseOf_meet.comm a b, ?_, baseOf_meet.assoc a b,
    fun _ _ => baseOf_meet.foldPartial_perm, baseOf_meet.eq_left_iff⟩
  · rintro ⟨c, h⟩
    exact baseOf_eq_some h
  · rintro ⟨doc, vs, ws, ha, hb⟩
    obtain ⟨c, -, h, -⟩ := ha.exists_baseOf hb
    exact ⟨c, h⟩
  · rw [baseOf_meet.eq_left_iff]
    constructor
    · rintro ⟨doc, vs, -, ha, -⟩
      exact ⟨doc, vs, ha⟩
    · rintro ⟨doc, vs, ha⟩
      exact ha.isAncestor_iff.2 ⟨vs, ha, .refl vs⟩

end Composition
