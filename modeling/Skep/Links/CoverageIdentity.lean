import Skep.Address.Displacement
import Skep.Address.SpanSetAlgebra
import Skep.Library.PrefixCode
import Skep.Links.Writes

/-!
# The coverage class as an identity

The class of an endset tells which tumblers it covers. Where every span denotes an
address the class is the denoted addresses that extend no other, so it is the coverage
itself; elsewhere it is the canonical form of each level, which may part one coverage
but never merges two. The three classes of a link are spelled into one lock key.

## Main results

- `mem_retainMinimal_iff` — the antichain an address-denoting class keeps
- `covers_iff_of_class`, `class_eq_iff_covers` — the class and the coverage
- `class_eq_of_mem_iff` — order and repetition of spans do not matter
- `DedupKey.lockKey_inj` — two keys of one spelling are one
- `coverageClass_identity` — the class is an identity
-/

/-- The big-endian bytes of a natural, one zero byte for zero. -/
def natBytes (n : ℕ) : List UInt8 :=
  if n = 0 then [0] else ((Nat.digits 256 n).map UInt8.ofNat).reverse

/-- The lock's spelling of a tumbler, behind its length. -/
def tumblerBytes (t : Tumbler) : List UInt8 :=
  beBytes 8 t.len ++ t.comps.flatMap fun component =>
    beBytes 8 (natBytes component).length ++ natBytes component

/-- The lock's spelling of a class. Only a denoted class has one. -/
def pushClass {ε : Type} : CoverageClass → Outcome ε (List UInt8)
  | .addrs denoted => return beBytes 8 denoted.elems.length ++ denoted.elems.flatMap tumblerBytes
  | .extents _ => .fault

/-- The tag of the lock space of dedup keys. -/
def coverageClassSpace : UInt8 := 2

/-- The lock key of a dedup key. -/
def DedupKey.lockKey {ε : Type} (key : DedupKey) : Outcome ε (List UInt8) := do
  let ty ← pushClass key.ty
  let fromClass ← pushClass key.fromClass
  let toClass ← pushClass key.toClass
  return coverageClassSpace :: (ty ++ fromClass ++ toClass)

namespace Tumbler

/-- What stands between a tumbler and one that extends it extends it too. -/
theorem isPrefix_of_between {p t u : Tumbler} (hpt : isPrefix p t = true) (hlo : p ≤ u) (hhi : u ≤ t) :
    isPrefix p u = true := by
  have ht := Span.contains_subtreeOf_iff.2 hpt
  rw [Span.contains_iff] at ht
  exact Span.contains_subtreeOf_iff.1 (Span.contains_iff.2 ⟨by simpa using hlo, lt_of_le_of_lt hhi ht.2⟩)

theorem le_of_isPrefix {p t : Tumbler} (h : isPrefix p t = true) : p ≤ t := by
  have := Span.contains_iff.1 (Span.contains_subtreeOf_iff.2 h)
  simpa using this.1

theorem isPrefix_refl (t : Tumbler) : isPrefix t t = true := isPrefix_iff.2 (List.prefix_refl _)

theorem isPrefix_trans {a b c : Tumbler} (hab : isPrefix a b = true) (hbc : isPrefix b c = true) :
    isPrefix a c = true :=
  isPrefix_iff.2 ((isPrefix_iff.1 hab).trans (isPrefix_iff.1 hbc))

theorem isPrefix_antisymm {a b : Tumbler} (hab : isPrefix a b = true) (hba : isPrefix b a = true) : a = b :=
  le_antisymm (le_of_isPrefix hab) (le_of_isPrefix hba)

end Tumbler

/-- A tumbler of a list that extends no other of it. -/
def MinimalIn (l : List Tumbler) (t : Tumbler) : Prop := t ∈ l ∧ ∀ u ∈ l, isPrefix u t = true → u = t

/-- Under every tumbler of a list stands a minimal one. -/
theorem exists_minimalIn {l : List Tumbler} {t : Tumbler} (h : t ∈ l) :
    ∃ u, MinimalIn l u ∧ isPrefix u t = true := by
  -- by the length of the tumbler
  induction hn : t.len using Nat.strong_induction_on generalizing t with
  | _ n ih =>
    by_cases hmin : ∀ u ∈ l, isPrefix u t = true → u = t
    · exact ⟨t, ⟨h, hmin⟩, t.isPrefix_refl⟩
    · push Not at hmin
      obtain ⟨u, hu, hpre, hne⟩ := hmin
      have hlt : u.len < n := by
        obtain ⟨rest, hrest⟩ := isPrefix_iff.1 hpre
        rcases rest with _ | ⟨x, rest⟩
        · exact absurd (Tumbler.ext (by rw [← hrest, List.append_nil])) hne
        · rw [← hn, Tumbler.len, Tumbler.len, ← hrest, List.length_append, List.length_cons]
          omega
      obtain ⟨v, hv, hvu⟩ := ih u.len hlt hu rfl
      exact ⟨v, hv, Tumbler.isPrefix_trans hvu hpre⟩

/-- What the walk holds once it has read some tumblers: those of them that are minimal, and the
last of these. -/
structure Retained (done : List Tumbler) (acc : OrdSet Tumbler × Option Tumbler) : Prop where
  kept : ∀ t, t ∈ acc.1 ↔ MinimalIn done t
  last : ∀ y ∈ acc.2, y ∈ acc.1 ∧ ∀ u ∈ acc.1, u ≤ y
  some_of_mem : ∀ t ∈ acc.1, ∃ y, acc.2 = some y

/-- A tumbler past those read has one of them over it exactly where the last kept one is. -/
theorem Retained.over_iff {done : List Tumbler} {acc : OrdSet Tumbler × Option Tumbler}
    (h : Retained done acc) {t : Tumbler} (hpast : ∀ u ∈ done, u < t) :
    (acc.2.any fun y => isPrefix y t) = true ↔ ∃ u ∈ done, isPrefix u t = true := by
  rw [Option.any_eq_true]
  constructor
  · rintro ⟨y, hy, hpre⟩
    exact ⟨y, ((h.kept y).1 (h.last y hy).1).1, hpre⟩
  · rintro ⟨u, hu, hpre⟩
    obtain ⟨v, hv, hvu⟩ := exists_minimalIn hu
    obtain ⟨y, hy⟩ := h.some_of_mem v ((h.kept v).2 hv)
    obtain ⟨hymem, hmax⟩ := h.last y hy
    have hymin := (h.kept y).1 hymem
    -- the last kept one stands between a minimal one over the tumbler and the tumbler
    have hvy := Tumbler.isPrefix_of_between (Tumbler.isPrefix_trans hvu hpre)
      (hmax v ((h.kept v).2 hv)) (hpast y hymin.1).le
    obtain rfl : v = y := hymin.2 v hv.1 hvy
    exact ⟨v, hy, Tumbler.isPrefix_trans hvu hpre⟩

theorem Retained.step {done : List Tumbler} {acc : OrdSet Tumbler × Option Tumbler}
    (h : Retained done acc) {t : Tumbler} (hpast : ∀ u ∈ done, u < t) :
    Retained (done ++ [t]) (retainMinimal acc t) := by
  -- the tumblers read stay minimal, since none of them extends a later one
  have hold : ∀ u ∈ done, (MinimalIn (done ++ [t]) u ↔ MinimalIn done u) := by
    intro u hu
    constructor
    · exact fun hmin => ⟨hu, fun v hv => hmin.2 v (List.mem_append.2 (.inl hv))⟩
    · refine fun hmin => ⟨List.mem_append.2 (.inl hu), fun v hv hpre => ?_⟩
      rcases List.mem_append.1 hv with hv | hv
      · exact hmin.2 v hv hpre
      · cases List.mem_singleton.1 hv
        exact absurd (hpast u hu) (Tumbler.le_of_isPrefix hpre).not_gt
  by_cases hover : (acc.2.any fun y => isPrefix y t) = true
  · have hstep : retainMinimal acc t = acc := if_pos hover
    obtain ⟨u, hu, hpre⟩ := (h.over_iff hpast).1 hover
    rw [hstep]
    refine ⟨fun v => ?_, h.last, h.some_of_mem⟩
    rw [h.kept]
    constructor
    · exact fun hmin => (hold v hmin.1).2 hmin
    · intro hmin
      rcases List.mem_append.1 hmin.1 with hv | hv
      · exact (hold v hv).1 hmin
      · cases List.mem_singleton.1 hv
        have := hmin.2 u (List.mem_append.2 (.inl hu)) hpre
        exact absurd (hpast u hu) (by rw [this]; exact lt_irrefl _)
  · have hstep : retainMinimal acc t = (acc.1.insert t, some t) := if_neg hover
    have hnone := mt (h.over_iff hpast).2 hover
    have hkept : ∀ v, v ∈ acc.1.insert t ↔ MinimalIn (done ++ [t]) v := by
      intro v
      rw [OrdSet.mem_insert, h.kept]
      constructor
      · rintro (rfl | hmin)
        · refine ⟨List.mem_append.2 (.inr (List.mem_singleton_self _)), fun u hu hpre => ?_⟩
          rcases List.mem_append.1 hu with hu | hu
          · exact absurd ⟨u, hu, hpre⟩ hnone
          · exact List.mem_singleton.1 hu
        · exact (hold v hmin.1).2 hmin
      · intro hmin
        rcases List.mem_append.1 hmin.1 with hv | hv
        · exact .inr ((hold v hv).1 hmin)
        · exact .inl (List.mem_singleton.1 hv)
    rw [hstep]
    refine ⟨hkept, fun y hy => ?_, fun _ _ => ⟨t, rfl⟩⟩
    cases hy
    refine ⟨OrdSet.mem_insert.2 (.inl rfl), fun u hu => ?_⟩
    rcases OrdSet.mem_insert.1 hu with rfl | hu
    · exact le_rfl
    · exact (hpast u ((h.kept u).1 hu).1).le

/-- The walk over ascending tumblers keeps the minimal ones. -/
theorem mem_retainMinimal_iff {l : List Tumbler} (hl : l.Pairwise (· < ·)) {t : Tumbler} :
    t ∈ (l.foldl retainMinimal (∅, none)).1 ↔ MinimalIn l t := by
  suffices h : ∀ (l done : List Tumbler) (acc : OrdSet Tumbler × Option Tumbler),
      (done ++ l).Pairwise (· < ·) → Retained done acc → Retained (done ++ l) (l.foldl retainMinimal acc) by
    have hnone : Retained [] (∅, none) :=
      ⟨fun t => ⟨fun h => absurd h (OrdSet.not_mem_empty t), fun h => nomatch h.1⟩, (fun y hy => nomatch hy),
        fun t h => absurd h (OrdSet.not_mem_empty t)⟩
    exact (h l [] (∅, none) hl hnone).kept t
  intro l
  induction l with
  | nil =>
    intro done acc _ h
    rwa [List.append_nil]
  | cons x l ih =>
    intro done acc hasc h
    rw [List.append_cons] at hasc ⊢
    refine ih (done ++ [x]) _ hasc (h.step fun u hu => ?_)
    exact (List.pairwise_append.1 (List.pairwise_append.1 hasc).1).2.2 u hu x (List.mem_singleton_self x)

namespace Endset

def IsLevelUniform (e : Endset) : Prop := ∀ s ∈ e.spans, s.isLevelUniform = true

theorem covers_iff {e : Endset} {t : Tumbler} :
    e.covers t = true ↔ ∃ s ∈ e.spans, s.contains t = true := List.any_eq_true

/-- An address-denoting endset covers what extends an address it denotes. -/
theorem covers_iff_of_denoting {e : Endset} (h : e.isAddressDenoting = true) {t : Tumbler} :
    e.covers t = true ↔ ∃ u ∈ e.spans.map Span.start, isPrefix u t = true := by
  rw [covers_iff]
  have hunit : ∀ s ∈ e.spans, s = Span.subtreeOf s.start := fun s hs =>
    eq_of_beq (List.all_eq_true.1 h s hs)
  constructor
  · rintro ⟨s, hs, ht⟩
    rw [hunit s hs, Span.contains_subtreeOf_iff] at ht
    exact ⟨s.start, List.mem_map_of_mem hs, ht⟩
  · rintro ⟨u, hu, ht⟩
    obtain ⟨s, hs, rfl⟩ := List.mem_map.1 hu
    refine ⟨s, hs, ?_⟩
    rw [hunit s hs, Span.contains_subtreeOf_iff]
    exact ht

theorem addrs_of_denoting {e : Endset} (h : e.isAddressDenoting = true) : e.addrs = e.spans.map Span.start := by
  rw [addrs, List.filter_eq_self.2 fun s hs => List.all_eq_true.1 h s hs]

end Endset

theorem coverageClass_denoting {e : Endset} (h : e.isAddressDenoting = true) :
    ∃ minimal, coverageClass e = .ok (.addrs minimal) ∧ ∀ t, t ∈ minimal ↔ MinimalIn e.addrs t := by
  refine ⟨_, by rw [coverageClass, if_pos h]; rfl, fun t => ?_⟩
  rw [mem_retainMinimal_iff (OrdSet.ascending _), Endset.addrs_of_denoting h]
  simp only [MinimalIn, OrdSet.mem_elems, OrdSet.mem_ofList]

/-- The fold of canonical forms holds each part's, under its level. -/
theorem exists_foldlM_insert {κ ν μ ε : Type} [LinearOrder κ] (f : ν → Outcome ε μ) {l : List (κ × ν)}
    (hl : OrdMap.Ascending l) (hf : ∀ e ∈ l, ∃ c, f e.2 = .ok c) (acc : OrdMap κ μ) :
    ∃ m, (l.foldlM (fun acc e => do
        let c ← f e.2
        return acc.insert e.1 c) acc : Outcome ε (OrdMap κ μ)) = .ok m ∧
      (∀ e ∈ l, ∃ c, f e.2 = .ok c ∧ m.get e.1 = some c) ∧
      ∀ k, (∀ e ∈ l, e.1 ≠ k) → m.get k = acc.get k := by
  induction l generalizing acc with
  | nil => exact ⟨acc, rfl, (fun e h => nomatch h), fun k _ => rfl⟩
  | cons e l ih =>
    obtain ⟨hlt, hl⟩ := List.pairwise_cons.1 hl
    obtain ⟨c, hc⟩ := hf e List.mem_cons_self
    obtain ⟨m, hm, hget, hkeep⟩ := ih hl (fun e' he => hf e' (List.mem_cons_of_mem _ he)) (acc.insert e.1 c)
    refine ⟨m, by rw [List.foldlM_cons, hc]; exact hm, fun e' he' => ?_, fun k hk => ?_⟩
    · rcases List.mem_cons.1 he' with rfl | he'
      · refine ⟨c, hc, ?_⟩
        rw [hkeep _ fun e'' he'' => (hlt e'' he'').ne', OrdMap.get_insert_self]
      · exact hget e' he'
    · rw [hkeep k fun e' he' => hk e' (List.mem_cons_of_mem _ he'),
        OrdMap.get_insert_of_ne _ _ (hk e List.mem_cons_self).symm]

/-- The spans of an endset whose starts have one length. -/
def Endset.atLevel (e : Endset) (len : ℕ) : SpanSet := ⟨e.spans.filter fun s => s.start.len == len⟩

theorem Endset.IsLevelUniform.atLevel {e : Endset} (h : e.IsLevelUniform) (len : ℕ) :
    (e.atLevel len).InClass :=
  ⟨len, fun s hs => ⟨h s (List.mem_filter.1 hs).1, eq_of_beq (List.mem_filter.1 hs).2⟩⟩

theorem Endset.covers_iff_atLevel {e : Endset} {t : Tumbler} :
    e.covers t = true ↔ ∃ len, (e.atLevel len).denotes t = true := by
  simp only [Endset.covers_iff, SpanSet.denotes, List.any_eq_true, Endset.atLevel, List.mem_filter]
  constructor
  · rintro ⟨s, hs, ht⟩
    exact ⟨s.start.len, s, ⟨hs, beq_self_eq_true _⟩, ht⟩
  · rintro ⟨len, s, ⟨hs, -⟩, ht⟩
    exact ⟨s, hs, ht⟩

/-- The class of a level-uniform endset some span of which denotes no address: the normal form
of each level's spans. -/
theorem coverageClass_extents {e : Endset} (h : e.isAddressDenoting = false) (huni : e.IsLevelUniform) :
    ∃ forms, coverageClass e = .ok (.extents forms) ∧
      ∀ len, ((e.atLevel len).spans = [] → forms.get len = none) ∧
        ((e.atLevel len).spans ≠ [] → ∃ n, (e.atLevel len).normalize = .ok n ∧ forms.get len = some ⟨n⟩) := by
  have hkey : ∀ len, ∃ n, (e.atLevel len).normalize = .ok n := by
    intro len
    obtain ⟨k, hk⟩ := huni.atLevel len
    obtain ⟨n, hn, -⟩ := SpanSet.normalize_spec hk
    exact ⟨n, hn⟩
  have hlevels : ∀ len, e.toSpanset.byLevelClass.get len =
      if (e.atLevel len).spans = [] then none else some (e.atLevel len) :=
    fun len => SpanSet.get_byLevelClass _ len
  have hentry : ∀ part, part ∈ e.toSpanset.byLevelClass.entries ↔
      (e.atLevel part.1).spans ≠ [] ∧ part.2 = e.atLevel part.1 := by
    intro part
    rw [← OrdMap.get_eq_some_iff (k := part.1) (v := part.2), hlevels]
    by_cases hnil : (e.atLevel part.1).spans = []
    · rw [if_pos hnil]
      simp [hnil]
    · rw [if_neg hnil, Option.some.injEq]
      exact ⟨fun heq => ⟨hnil, heq.symm⟩, fun heq => heq.2.symm⟩
  obtain ⟨forms, hforms, hget, hkeep⟩ := exists_foldlM_insert
    (fun part : SpanSet => ((canonicalKey part).expect : Outcome Empty CanonicalForm))
    e.toSpanset.byLevelClass.ascending (fun part hpart => by
      obtain ⟨n, hn⟩ := hkey part.1
      rw [((hentry part).1 hpart).2]
      exact ⟨⟨n⟩, by rw [canonicalKey, hn]; rfl⟩) OrdMap.empty
  refine ⟨forms, ?_, fun len => ⟨fun hnil => ?_, fun hne => ?_⟩⟩
  · rw [coverageClass, if_neg (by rw [h]; decide)]
    rw [hforms]
    rfl
  · refine hkeep len fun part hpart hlen => ((hentry part).1 hpart).1 ?_
    rwa [hlen]
  · obtain ⟨c, hc, hcget⟩ := hget (len, e.atLevel len) ((hentry _).2 ⟨hne, rfl⟩)
    obtain ⟨n, hn⟩ := hkey len
    rw [canonicalKey, hn] at hc
    cases hc
    exact ⟨n, hn, hcget⟩

/-- The normal forms of the levels denote what the endset covers. -/
theorem Endset.IsLevelUniform.covers_iff_forms {e : Endset} (huni : e.IsLevelUniform)
    {forms : OrdMap ℕ CanonicalForm} (hforms : ∀ len, ((e.atLevel len).spans = [] → forms.get len = none) ∧
      ((e.atLevel len).spans ≠ [] → ∃ n, (e.atLevel len).normalize = .ok n ∧ forms.get len = some ⟨n⟩))
    (t : Tumbler) : e.covers t = true ↔ ∃ len c, forms.get len = some c ∧ c.asSet.denotes t = true := by
  rw [Endset.covers_iff_atLevel]
  refine exists_congr fun len => ?_
  by_cases hnil : (e.atLevel len).spans = []
  · rw [(hforms len).1 hnil]
    simp [SpanSet.denotes, hnil]
  · obtain ⟨n, hn, hget⟩ := (hforms len).2 hnil
    obtain ⟨k, hk⟩ := huni.atLevel len
    rw [hget, ← SpanSet.denotes_normalize hk hn t]
    simp

/-- One class, one coverage. -/
theorem covers_iff_of_class {e e' : Endset} (huni : e.IsLevelUniform) (huni' : e'.IsLevelUniform)
    (h : coverageClass e = coverageClass e') (t : Tumbler) : e.covers t = true ↔ e'.covers t = true := by
  -- the coverage of an address-denoting endset is what extends its antichain
  have hdenoted : ∀ {x : Endset} {minimal : OrdSet Tumbler}, x.isAddressDenoting = true →
      (∀ t, t ∈ minimal ↔ MinimalIn x.addrs t) →
        (x.covers t = true ↔ ∃ u ∈ minimal, isPrefix u t = true) := by
    intro x minimal hx hmin
    rw [Endset.covers_iff_of_denoting hx, ← Endset.addrs_of_denoting hx]
    constructor
    · rintro ⟨u, hu, hpre⟩
      obtain ⟨v, hv, hvu⟩ := exists_minimalIn hu
      exact ⟨v, (hmin v).2 hv, Tumbler.isPrefix_trans hvu hpre⟩
    · rintro ⟨u, hu, hpre⟩
      exact ⟨u, ((hmin u).1 hu).1, hpre⟩
  by_cases hden : e.isAddressDenoting = true
  · obtain ⟨minimal, hclass, hmin⟩ := coverageClass_denoting hden
    by_cases hden' : e'.isAddressDenoting = true
    · obtain ⟨minimal', hclass', hmin'⟩ := coverageClass_denoting hden'
      rw [hclass, hclass'] at h
      cases h
      rw [hdenoted hden hmin, hdenoted hden' hmin']
    · obtain ⟨forms, hclass', -⟩ := coverageClass_extents (Bool.eq_false_iff.2 hden') huni'
      rw [hclass, hclass'] at h
      cases h
  · obtain ⟨forms, hclass, hforms⟩ := coverageClass_extents (Bool.eq_false_iff.2 hden) huni
    by_cases hden' : e'.isAddressDenoting = true
    · obtain ⟨minimal', hclass', -⟩ := coverageClass_denoting hden'
      rw [hclass, hclass'] at h
      cases h
    · obtain ⟨forms', hclass', hforms'⟩ := coverageClass_extents (Bool.eq_false_iff.2 hden') huni'
      rw [hclass, hclass'] at h
      cases h
      rw [huni.covers_iff_forms hforms, huni'.covers_iff_forms hforms']

theorem minimal_eq_of_covers {e e' : Endset} (h : e.isAddressDenoting = true)
    (h' : e'.isAddressDenoting = true) (hcov : ∀ t, e.covers t = true ↔ e'.covers t = true) {t : Tumbler}
    (ht : MinimalIn e.addrs t) : MinimalIn e'.addrs t := by
  have hiff : ∀ u, (∃ v ∈ e.addrs, isPrefix v u = true) ↔ ∃ v ∈ e'.addrs, isPrefix v u = true := by
    intro u
    rw [Endset.addrs_of_denoting h, Endset.addrs_of_denoting h', ← Endset.covers_iff_of_denoting h,
      ← Endset.covers_iff_of_denoting h']
    exact hcov u
  -- each antichain's element under the other's is that one
  obtain ⟨u, hu, hut⟩ := (hiff t).1 ⟨t, ht.1, t.isPrefix_refl⟩
  obtain ⟨v, hv, hvu⟩ := (hiff u).2 ⟨u, hu, u.isPrefix_refl⟩
  obtain rfl : v = t := ht.2 v hv (Tumbler.isPrefix_trans hvu hut)
  obtain rfl : u = v := Tumbler.isPrefix_antisymm hut hvu
  refine ⟨hu, fun w hw hwu => ?_⟩
  obtain ⟨x, hx, hxw⟩ := (hiff w).2 ⟨w, hw, w.isPrefix_refl⟩
  obtain rfl : x = u := ht.2 x hx (Tumbler.isPrefix_trans hxw hwu)
  exact Tumbler.isPrefix_antisymm hwu hxw

/-- Address-denoting endsets are of one class exactly where they cover alike. -/
theorem class_eq_iff_covers {e e' : Endset} (h : e.isAddressDenoting = true)
    (h' : e'.isAddressDenoting = true) :
    coverageClass e = coverageClass e' ↔ ∀ t, e.covers t = e'.covers t := by
  have hsub : ∀ p : Tumbler, (Span.subtreeOf p).isLevelUniform = true := fun p => by
    rw [Span.isLevelUniform, ← Span.len_reach, Span.start_subtreeOf, Span.reach_subtreeOf,
      Tumbler.nextAtLength, Tumbler.len_shift, beq_self_eq_true]
  have huni : ∀ {x : Endset}, x.isAddressDenoting = true → x.IsLevelUniform := by
    intro x hx s hs
    rw [eq_of_beq (List.all_eq_true.1 hx s hs)]
    exact hsub s.start
  obtain ⟨minimal, hclass, hmin⟩ := coverageClass_denoting h
  obtain ⟨minimal', hclass', hmin'⟩ := coverageClass_denoting h'
  constructor
  · intro heq t
    exact Bool.eq_iff_iff.2 (covers_iff_of_class (huni h) (huni h') heq t)
  · intro hcov
    rw [hclass, hclass', Outcome.ok.injEq, CoverageClass.addrs.injEq]
    refine OrdSet.ext_mem fun t => ?_
    rw [hmin, hmin']
    exact ⟨minimal_eq_of_covers h h' fun u => by rw [hcov], minimal_eq_of_covers h' h fun u => by rw [hcov]⟩

/-- The class of an endset is its spans', in any order and however often. -/
theorem class_eq_of_mem_iff {e e' : Endset} (huni : e.IsLevelUniform) (h : ∀ s, s ∈ e.spans ↔ s ∈ e'.spans) :
    coverageClass e = coverageClass e' := by
  have huni' : e'.IsLevelUniform := fun s hs => huni s ((h s).2 hs)
  have hcov : ∀ t, e.covers t = e'.covers t := by
    intro t
    rw [Bool.eq_iff_iff, Endset.covers_iff, Endset.covers_iff]
    exact exists_congr fun s => and_congr_left fun _ => h s
  have hden : e.isAddressDenoting = e'.isAddressDenoting := by
    rw [Bool.eq_iff_iff, Endset.isAddressDenoting, Endset.isAddressDenoting, List.all_eq_true,
      List.all_eq_true]
    exact forall_congr' fun s => imp_congr_left (h s)
  by_cases hdenoting : e.isAddressDenoting = true
  · exact (class_eq_iff_covers hdenoting (hden ▸ hdenoting)).2 hcov
  · have hnot := Bool.eq_false_iff.2 hdenoting
    obtain ⟨forms, hclass, hforms⟩ := coverageClass_extents hnot huni
    obtain ⟨forms', hclass', hforms'⟩ := coverageClass_extents (hden ▸ hnot) huni'
    rw [hclass, hclass', Outcome.ok.injEq, CoverageClass.extents.injEq]
    refine OrdMap.ext_get fun len => ?_
    have hmem : ∀ s, s ∈ (e.atLevel len).spans ↔ s ∈ (e'.atLevel len).spans := fun s => by
      simp only [Endset.atLevel, List.mem_filter, h]
    have hnil : (e.atLevel len).spans = [] ↔ (e'.atLevel len).spans = [] := by
      simp only [List.eq_nil_iff_forall_not_mem, hmem]
    by_cases hnone : (e.atLevel len).spans = []
    · rw [(hforms len).1 hnone, (hforms' len).1 (hnil.1 hnone)]
    · obtain ⟨n, hn, hget⟩ := (hforms len).2 hnone
      obtain ⟨n', hn', hget'⟩ := (hforms' len).2 (mt hnil.2 hnone)
      have heq := (SpanSet.normalize_eq_iff (huni.atLevel len) (huni'.atLevel len)).2 fun t => by
        rw [Bool.eq_iff_iff, SpanSet.denotes, SpanSet.denotes, List.any_eq_true, List.any_eq_true]
        exact exists_congr fun s => and_congr_left fun _ => hmem s
      rw [hn, hn'] at heq
      cases heq
      rw [hget, hget']

theorem leNat_map_ofNat {digits : List ℕ} (h : ∀ d ∈ digits, d < 256) :
    leNat (digits.map UInt8.ofNat) = Nat.ofDigits 256 digits := by
  induction digits with
  | nil => rfl
  | cons d digits ih =>
    have hd : (UInt8.ofNat d).toNat = d := Nat.mod_eq_of_lt (h d List.mem_cons_self)
    rw [List.map_cons, leNat, Nat.ofDigits_cons, hd, ih fun x hx => h x (List.mem_cons_of_mem _ hx)]

theorem leNat_natBytes (n : ℕ) : leNat (natBytes n).reverse = n := by
  rw [natBytes]
  by_cases hn : n = 0
  · rw [if_pos hn, hn]
    rfl
  · rw [if_neg hn, List.reverse_reverse, leNat_map_ofNat fun d hd => Nat.digits_lt_base (by decide) hd,
      Nat.ofDigits_digits]

theorem natBytes_injective : Function.Injective natBytes := by
  intro m n h
  rw [← leNat_natBytes m, ← leNat_natBytes n, h]

/-- A component as the lock spells it, behind its length. -/
def componentCode : PrefixCode (256 ^ 8) ℕ := (PrefixCode.delimited 8 le_rfl).comap natBytes natBytes_injective

theorem componentCode_ne_nil (n : ℕ) : componentCode.encode n ≠ [] := by
  intro h
  have hlen := congrArg List.length h
  simp [componentCode, PrefixCode.comap, PrefixCode.delimited, length_beBytes] at hlen

def lockedTumbler : PrefixCode (256 ^ 8) Tumbler :=
  (PrefixCode.counted 8 le_rfl componentCode componentCode_ne_nil).comap Tumbler.comps Tumbler.comps_injective

theorem lockedTumbler_ne_nil (t : Tumbler) : lockedTumbler.encode t ≠ [] := by
  intro h
  have hlen := congrArg List.length h
  simp [lockedTumbler, PrefixCode.comap, PrefixCode.counted, length_beBytes] at hlen

theorem OrdSet.elems_injective {κ : Type} [LinearOrder κ] : Function.Injective (OrdSet.elems (κ := κ)) :=
  fun s t h => OrdSet.ext_mem fun k => by rw [← OrdSet.mem_elems, ← OrdSet.mem_elems, h]

def denotedCode : PrefixCode (256 ^ 8) (OrdSet Tumbler) :=
  (PrefixCode.counted 8 le_rfl lockedTumbler lockedTumbler_ne_nil).comap OrdSet.elems OrdSet.elems_injective

theorem pushClass_eq_ok_iff {ε : Type} {c : CoverageClass} {bytes : List UInt8} :
    (pushClass c : Outcome ε (List UInt8)) = .ok bytes ↔
      ∃ denoted, c = .addrs denoted ∧ bytes = denotedCode.encode denoted := by
  cases c with
  | addrs denoted =>
    simp only [pushClass, Outcome.pure_eq, Outcome.ok.injEq, CoverageClass.addrs.injEq, exists_eq_left']
    exact eq_comm
  | extents forms => simp [pushClass]

namespace DedupKey

/-- The three classes of a dedup key, one after another. -/
def keyCode : PrefixCode (256 ^ 8) ((OrdSet Tumbler × OrdSet Tumbler) × OrdSet Tumbler) :=
  (denotedCode.prod denotedCode).prod denotedCode

theorem lockKey_eq_ok_iff {ε : Type} {key : DedupKey} {bytes : List UInt8} :
    (key.lockKey : Outcome ε (List UInt8)) = .ok bytes ↔ ∃ ty fromClass toClass,
      key = ⟨.addrs ty, .addrs fromClass, .addrs toClass⟩ ∧
        bytes = coverageClassSpace :: keyCode.encode ((ty, fromClass), toClass) := by
  simp only [lockKey, Outcome.bind_eq_ok_iff, pushClass_eq_ok_iff, Outcome.pure_eq, Outcome.ok.injEq]
  constructor
  · rintro ⟨_, ⟨ty, hty, rfl⟩, _, ⟨fromClass, hfrom, rfl⟩, _, ⟨toClass, hto, rfl⟩, rfl⟩
    refine ⟨ty, fromClass, toClass, ?_, rfl⟩
    cases key
    simp only at hty hfrom hto
    rw [hty, hfrom, hto]
  · rintro ⟨ty, fromClass, toClass, rfl, rfl⟩
    exact ⟨_, ⟨ty, rfl, rfl⟩, _, ⟨fromClass, rfl, rfl⟩, _, ⟨toClass, rfl, rfl⟩, rfl⟩

/-- A lock key there is room for spells one dedup key. -/
theorem lockKey_inj {ε : Type} {key key' : DedupKey} {bytes : List UInt8} (hlen : bytes.length < 2 ^ 64)
    (h : (key.lockKey : Outcome ε (List UInt8)) = .ok bytes)
    (h' : (key'.lockKey : Outcome ε (List UInt8)) = .ok bytes) : key = key' := by
  obtain ⟨ty, fromClass, toClass, rfl, rfl⟩ := lockKey_eq_ok_iff.1 h
  obtain ⟨ty', from', to', rfl, heq⟩ := lockKey_eq_ok_iff.1 h'
  rw [List.length_cons] at hlen
  have hshort : (keyCode.encode ((ty, fromClass), toClass)).length < 256 ^ 8 := by
    refine lt_of_lt_of_le (Nat.lt_of_succ_lt hlen) (le_of_eq ?_)
    norm_num
  have hsame := keyCode.encode_inj hshort (List.cons.inj heq).2
  simp only [Prod.mk.injEq] at hsame
  obtain ⟨⟨rfl, rfl⟩, rfl⟩ := hsame
  rfl

/-- Every dedup key of denoted classes has a lock key. -/
theorem exists_lockKey {ε : Type} {key : DedupKey} {ty fromClass toClass : OrdSet Tumbler}
    (hty : key.ty = .addrs ty) (hfrom : key.fromClass = .addrs fromClass)
    (hto : key.toClass = .addrs toClass) :
    ∃ bytes, (key.lockKey : Outcome ε (List UInt8)) = .ok bytes := by
  rw [lockKey, hty, hfrom, hto]
  exact ⟨_, rfl⟩

end DedupKey

/-- The coverage class is an identity: over level-uniform endsets one class covers one set of
tumblers, over address-denoting ones the class is the coverage, and it is blind to the order and
the repetition of spans; the antichain it keeps is the denoted addresses that extend no other; and
a lock key, whose length is a machine word, spells the three denoted classes of one dedup key, so
two keys share no incumbent. -/
theorem coverageClass_identity :
    (∀ e e' : Endset, e.IsLevelUniform → e'.IsLevelUniform → coverageClass e = coverageClass e' →
      ∀ t, e.covers t = e'.covers t) ∧
    (∀ e e' : Endset, e.isAddressDenoting = true → e'.isAddressDenoting = true →
      (coverageClass e = coverageClass e' ↔ ∀ t, e.covers t = e'.covers t)) ∧
    (∀ e e' : Endset, e.IsLevelUniform → (∀ s, s ∈ e.spans ↔ s ∈ e'.spans) →
      coverageClass e = coverageClass e') ∧
    (∀ e : Endset, e.isAddressDenoting = true → ∃ minimal, coverageClass e = .ok (.addrs minimal) ∧
      ∀ t, t ∈ minimal ↔ t ∈ e.addrs ∧ ∀ u ∈ e.addrs, isPrefix u t = true → u = t) ∧
    (∀ (key : DedupKey) (ty fromClass toClass : OrdSet Tumbler), key.ty = .addrs ty →
      key.fromClass = .addrs fromClass → key.toClass = .addrs toClass →
        ∃ bytes, (key.lockKey : Outcome Empty (List UInt8)) = .ok bytes) ∧
    (∀ (key key' : DedupKey) (bytes : List UInt8), bytes.length < 2 ^ 64 →
      (key.lockKey : Outcome Empty (List UInt8)) = .ok bytes →
        (key'.lockKey : Outcome Empty (List UInt8)) = .ok bytes → key = key') ∧
    ∀ (reg : TypeRegistry) (s : LinkState) (key key' : DedupKey) (readable readable' : Address → Bool)
      (a : Address), s.activeIncumbent reg key readable = .ok (some a) →
        s.activeIncumbent reg key' readable' = .ok (some a) → key = key' := by
  refine ⟨fun e e' huni huni' h t => ?_, fun e e' => class_eq_iff_covers, fun e e' => class_eq_of_mem_iff,
    fun e => coverageClass_denoting, fun key ty fromClass toClass => DedupKey.exists_lockKey,
    fun key key' bytes => DedupKey.lockKey_inj, fun reg s key key' readable readable' a h h' => ?_⟩
  · exact Bool.eq_iff_iff.2 (covers_iff_of_class huni huni' h t)
  · obtain ⟨l, hl, hkey, -⟩ := activeIncumbent_spec h
    obtain ⟨l', hl', hkey', -⟩ := activeIncumbent_spec h'
    rw [hl] at hl'
    cases hl'
    rw [hkey] at hkey'
    exact Outcome.ok.inj hkey'

theorem coverageClass_identity_head : coverageClass (enc [headDocument, systemAccount]) =
    coverageClass (enc [systemAccount, headDocument, systemAccount]) := by
  refine (coverageClass_identity.2.1 _ _ ?_ ?_).2 fun t => ?_
  · exact isAddressDenoting_enc _
  · exact isAddressDenoting_enc _
  · simp only [Endset.covers, enc, List.map_cons, List.map_nil, List.any_cons, List.any_nil, Bool.or_false]
    cases (Span.subtreeOf headDocument.tumbler).contains t <;>
      cases (Span.subtreeOf systemAccount.tumbler).contains t <;> rfl
