import Skep.Address.SpanSet

/-!
# Span-set algebra

Inside one length class the set operations are the Boolean ones on the
tumblers denoted, of every length, and their results are in normal form.
Outside it they refuse. The normal form is the denotational identity, across
length classes too.

## Main results

- `spanSetAlgebra_exact` — the three operations denote what they should, in
  normal form, and refuse outside the class
- `canonicalForm_denotational` — equality of normal forms is equality of the
  denoted tumblers
-/

namespace SpanSet

/-- Starts ascend and each span ends strictly below the next one's start. -/
def SortedSeparated (a : SpanSet) : Prop :=
  a.spans.Pairwise (fun s s' => s.start < s'.start) ∧
    a.spans.IsChain (fun prev next => prev.reach < next.start)

/-- Inside a class the normal form is the rebuild of what the sweep leaves. -/
theorem normalize_eq_spansFrom {a : SpanSet} (h : a.InClass) :
    a.normalize = spansFrom (HalfOpen.normalize a.endpoints) := by
  obtain ⟨len, h⟩ := h
  rw [normalize, levelClass_of_atLength h]
  by_cases hnil : a.spans = []
  · simp only [hnil, if_true, endpoints, List.map_nil]
    rfl
  · simp [hnil]

theorem normalize_spec {len : ℕ} {a : SpanSet} (h : a.AtLength len) :
    ∃ n, a.normalize = .ok n ∧ n.endpoints = HalfOpen.normalize a.endpoints ∧ n.AtLength len := by
  rw [normalize_eq_spansFrom h.inClass]
  exact spansFrom_spec h.endsAt.normalize

theorem normalize_of_not_inClass {a : SpanSet} (h : ¬ a.InClass) : a.normalize = .err .mk := by
  rw [normalize, levelClass_of_not_inClass h]
  rfl

/-- Sets rebuilt from canonical endpoint lists are sorted and separated. -/
theorem sortedSeparated_of_canonical {a : SpanSet} (h : HalfOpen.Canonical a.endpoints) :
    a.SortedSeparated := by
  have hgap : a.spans.Pairwise (fun s s' => s.reach < s'.start) := List.pairwise_map.1 h
  exact ⟨hgap.imp fun {s _} hlt => s.start_lt_reach.trans hlt, hgap.isChain⟩

/-- A set rebuilt from a canonical endpoint list is its own normal form. -/
theorem normalize_of_canonical {a : SpanSet} (h : a.InClass)
    (hc : HalfOpen.Canonical a.endpoints) (hbuilt : spansFrom a.endpoints = .ok a) :
    a.normalize = .ok a := by
  rw [normalize_eq_spansFrom h, hc.normalize_eq, hbuilt]

theorem isNormalized_of_normalize {a : SpanSet} (h : a.normalize = .ok a) :
    a.isNormalized = .ok true := by
  simp [isNormalized, h]

/-- The gate passes two sets of one class through to their normal forms' endpoints. -/
theorem normalizedEndpoints_spec {len : ℕ} {a b : SpanSet} (ha : a.AtLength len)
    (hb : b.AtLength len) : normalizedEndpoints a b =
      .ok (HalfOpen.normalize a.endpoints, HalfOpen.normalize b.endpoints) := by
  obtain ⟨na, hna, hea, hla⟩ := normalize_spec ha
  obtain ⟨nb, hnb, heb, hlb⟩ := normalize_spec hb
  rw [normalizedEndpoints, hna, hnb, Outcome.ok_bind, Outcome.ok_bind, levelClass_of_atLength hla,
    levelClass_of_atLength hlb, ← hea, ← heb]
  by_cases h : na.spans = [] <;> by_cases h' : nb.spans = [] <;> simp [h, h']

theorem endpoints_eq_nil_iff {a : SpanSet} : a.endpoints = [] ↔ a.spans = [] := by
  simp [endpoints]

/-- Two sets in no shared class do not pass the gate. -/
theorem normalizedEndpoints_of_not_sharedClass {a b : SpanSet} (h : ¬ a.SharedClass b) :
    normalizedEndpoints a b = .err .mk := by
  by_cases ha : a.InClass
  · by_cases hb : b.InClass
    · obtain ⟨la, ha⟩ := ha
      obtain ⟨lb, hb⟩ := hb
      obtain ⟨na, hna, hea, hla⟩ := normalize_spec ha
      obtain ⟨nb, hnb, heb, hlb⟩ := normalize_spec hb
      -- an empty operand belongs to every class, so both are nonempty here
      have hne : la ≠ lb := fun heq => h ⟨la, ha, heq ▸ hb⟩
      have hane : na.spans ≠ [] := by
        rw [ne_eq, ← endpoints_eq_nil_iff, hea, HalfOpen.normalize_eq_nil_iff, endpoints_eq_nil_iff]
        exact fun hnil => h ⟨lb, fun s hs => by simp [hnil] at hs, hb⟩
      have hbne : nb.spans ≠ [] := by
        rw [ne_eq, ← endpoints_eq_nil_iff, heb, HalfOpen.normalize_eq_nil_iff, endpoints_eq_nil_iff]
        exact fun hnil => h ⟨la, ha, fun s hs => by simp [hnil] at hs⟩
      rw [normalizedEndpoints, hna, hnb, Outcome.ok_bind, Outcome.ok_bind,
        levelClass_of_atLength hla, levelClass_of_atLength hlb, if_neg hane, if_neg hbne]
      simp [hne]
    · obtain ⟨la, ha⟩ := ha
      obtain ⟨na, hna, -⟩ := normalize_spec ha
      rw [normalizedEndpoints, hna, normalize_of_not_inClass hb]
      rfl
  · rw [normalizedEndpoints, normalize_of_not_inClass ha]
    rfl

/-- A canonical endpoint list at one length rebuilds to a set in normal form. -/
theorem spansFrom_canonical {len : ℕ} {l : List (HalfOpen Tumbler)}
    (hends : HalfOpen.EndsIn (fun t => t.len = len) l) (hc : HalfOpen.Canonical l) :
    ∃ a, spansFrom l = .ok a ∧ a.endpoints = l ∧ a.normalize = .ok a := by
  obtain ⟨a, hok, hend, hlen⟩ := spansFrom_spec hends
  refine ⟨a, hok, hend, normalize_of_canonical hlen.inClass (hend ▸ hc) ?_⟩
  rw [hend, hok]

theorem denotes_normalize {len : ℕ} {a n : SpanSet} (ha : a.AtLength len)
    (h : a.normalize = .ok n) (t : Tumbler) : n.denotes t = a.denotes t := by
  obtain ⟨n', hn', hend, -⟩ := normalize_spec ha
  cases h.symm.trans hn'
  rw [denotes_eq_iff, hend, HalfOpen.covers_normalize]

/-- Inside one class the difference succeeds and is exact. -/
theorem differenceSets_spec {len : ℕ} {a b : SpanSet} (ha : a.AtLength len) (hb : b.AtLength len) :
    ∃ d, differenceSets a b = .ok d ∧ (∀ t, d.denotes t = (a.denotes t && !b.denotes t)) ∧
      d.len ≤ a.len + b.len ∧ d.normalize = .ok d := by
  obtain ⟨hc, hcov, hlen⟩ := HalfOpen.diff_exact (HalfOpen.normalize_canonical a.endpoints)
    (HalfOpen.normalize_canonical b.endpoints)
  obtain ⟨d, hd, hend, hnorm⟩ :=
    spansFrom_canonical (ha.endsAt.normalize.diff hb.endsAt.normalize) hc
  refine ⟨d, ?_, fun t => ?_, ?_, hnorm⟩
  · rw [differenceSets, normalizedEndpoints_spec ha hb]
    exact hd
  · rw [Bool.eq_iff_iff, Bool.and_eq_true, Bool.not_eq_true', ← Bool.not_eq_true, denotes_iff,
      denotes_iff, denotes_iff, hend, hcov, HalfOpen.covers_normalize,
      HalfOpen.covers_normalize]
  · have hda := HalfOpen.length_normalize_le a.endpoints
    have hdb := HalfOpen.length_normalize_le b.endpoints
    rw [length_endpoints] at hda hdb
    rw [← length_endpoints, hend]
    omega

end SpanSet

open SpanSet

/-- **The set operations are the Boolean ones, in normal form.** Normalization
needs its operand in a class, the two binary operations need theirs in one
shared class; there all three succeed, and anywhere else they refuse. -/
theorem spanSetAlgebra_exact (a b : SpanSet) :
    (a.InClass → ∃ n, a.normalize = .ok n ∧ (∀ t, n.denotes t = a.denotes t) ∧
      n.SortedSeparated) ∧
    (a.SharedClass b → ∃ i, intersectSets a b = .ok i ∧
      (∀ t, i.denotes t = (a.denotes t && b.denotes t)) ∧ i.isNormalized = .ok true) ∧
    (a.SharedClass b → ∃ d, differenceSets a b = .ok d ∧
      (∀ t, d.denotes t = (a.denotes t && !b.denotes t)) ∧ d.len ≤ a.len + b.len ∧
      d.isNormalized = .ok true) ∧
    (¬ a.InClass → a.normalize = .err .mk) ∧
    (¬ a.SharedClass b → intersectSets a b = .err .mk ∧ differenceSets a b = .err .mk) := by
  refine ⟨?_, ?_, ?_, normalize_of_not_inClass, ?_⟩
  · rintro ⟨len, ha⟩
    obtain ⟨n, hn, hend, -⟩ := normalize_spec ha
    refine ⟨n, hn, denotes_normalize ha hn, sortedSeparated_of_canonical ?_⟩
    rw [hend]
    exact HalfOpen.normalize_canonical _
  · rintro ⟨len, ha, hb⟩
    obtain ⟨hc, hcov, -⟩ := HalfOpen.meet_spec (HalfOpen.normalize_canonical a.endpoints)
      (HalfOpen.normalize_canonical b.endpoints)
    obtain ⟨i, hi, hend, hnorm⟩ :=
      spansFrom_canonical (ha.endsAt.normalize.meet hb.endsAt.normalize) hc
    refine ⟨i, ?_, fun t => ?_, isNormalized_of_normalize hnorm⟩
    · rw [intersectSets, normalizedEndpoints_spec ha hb]
      exact hi
    · rw [Bool.eq_iff_iff, Bool.and_eq_true, denotes_iff, denotes_iff, denotes_iff, hend, hcov,
        HalfOpen.covers_normalize, HalfOpen.covers_normalize]
  · rintro ⟨len, ha, hb⟩
    obtain ⟨d, hd, hcov, hlen, hnorm⟩ := differenceSets_spec ha hb
    exact ⟨d, hd, hcov, hlen, isNormalized_of_normalize hnorm⟩
  · intro h
    rw [intersectSets, differenceSets, normalizedEndpoints_of_not_sharedClass h]
    exact ⟨rfl, rfl⟩

namespace SpanSet

/-- Two sets, each in a class of its own, have equal normal forms exactly where
they denote alike. -/
theorem normalize_eq_iff {a b : SpanSet} (ha : a.InClass) (hb : b.InClass) :
    a.normalize = b.normalize ↔ ∀ t, a.denotes t = b.denotes t := by
  have hpoints : (∀ t, a.denotes t = b.denotes t) ↔
      HalfOpen.normalize a.endpoints = HalfOpen.normalize b.endpoints := by
    rw [HalfOpen.normalize_eq_iff]
    exact forall_congr' fun t => denotes_eq_iff
  rw [hpoints]
  constructor
  · intro h
    obtain ⟨la, hla⟩ := ha
    obtain ⟨lb, hlb⟩ := hb
    obtain ⟨na, hna, hea, -⟩ := normalize_spec hla
    obtain ⟨nb, hnb, heb, -⟩ := normalize_spec hlb
    rw [hna, hnb, Outcome.ok.injEq] at h
    rw [← hea, ← heb, h]
  · intro h
    rw [normalize_eq_spansFrom ha, normalize_eq_spansFrom hb, h]

theorem normalize_idempotent {a n : SpanSet} (ha : a.InClass) (h : a.normalize = .ok n) :
    n.normalize = .ok n := by
  obtain ⟨len, ha⟩ := ha
  obtain ⟨n', hn', hend, hnorm⟩ :=
    spansFrom_canonical ha.endsAt.normalize (HalfOpen.normalize_canonical a.endpoints)
  rw [normalize_eq_spansFrom ha.inClass, hn', Outcome.ok.injEq] at h
  exact h ▸ hnorm

end SpanSet

/-- A union of operands in some order, grouping and repetition. -/
inductive UnionTree where
  | operand (a : SpanSet)
  | node (left right : UnionTree)

namespace UnionTree

/-- The union the tree spells. -/
def value : UnionTree → SpanSet
  | operand a => a
  | node left right => union left.value right.value

/-- The operands of the tree. -/
def operands : UnionTree → List SpanSet
  | operand a => [a]
  | node left right => left.operands ++ right.operands

theorem denotes_value {tree : UnionTree} {t : Tumbler} :
    tree.value.denotes t = true ↔ ∃ a ∈ tree.operands, a.denotes t = true := by
  induction tree with
  | operand a => simp [value, operands]
  | node left right ihl ihr =>
    have hjoin : (union left.value right.value).denotes t =
        (left.value.denotes t || right.value.denotes t) := List.any_append
    rw [value, hjoin, Bool.or_eq_true, ihl, ihr]
    simp only [operands, List.mem_append, or_and_right, exists_or]

/-- A union of operands at one length is at that length. -/
theorem atLength_value {len : ℕ} {tree : UnionTree} (h : ∀ a ∈ tree.operands, a.AtLength len) :
    tree.value.AtLength len := by
  induction tree with
  | operand a => exact h a (by simp [operands])
  | node left right ihl ihr =>
    intro s hs
    rcases List.mem_append.1 hs with hs | hs
    · exact ihl (fun a ha => h a (List.mem_append_left _ ha)) s hs
    · exact ihr (fun a ha => h a (List.mem_append_right _ ha)) s hs

end UnionTree

/-- **The normal form is the denotational identity.** For any two sets that are
each in a class, whatever the two classes, equivalence and equality of keys
say that the sets denote the same tumblers; normalization is idempotent; and
unions of the same operands, at one length, have one normal form. -/
theorem canonicalForm_denotational (a b : SpanSet) (ha : a.InClass) (hb : b.InClass) :
    (equiv a b = .ok true ↔ ∀ t, a.denotes t = b.denotes t) ∧
    (equiv a b = .ok false ↔ ∃ t, a.denotes t ≠ b.denotes t) ∧
    (canonicalKey a = canonicalKey b ↔ ∀ t, a.denotes t = b.denotes t) ∧
    (∃ n, a.normalize = .ok n ∧ canonicalKey a = .ok ⟨n⟩ ∧ n.normalize = .ok n) ∧
    ∀ (len : ℕ) (u v : UnionTree), (∀ x, x ∈ u.operands ↔ x ∈ v.operands) →
      (∀ x ∈ u.operands, x.AtLength len) →
      ∃ n, u.value.normalize = .ok n ∧ v.value.normalize = .ok n := by
  obtain ⟨na, hna, -⟩ := normalize_spec ha.choose_spec
  obtain ⟨nb, hnb, -⟩ := normalize_spec hb.choose_spec
  have hequiv : equiv a b = .ok (na == nb) := by
    rw [equiv, hna, hnb]
    rfl
  have hkey : ∀ {x n : SpanSet}, x.normalize = .ok n → canonicalKey x = .ok ⟨n⟩ := fun h => by
    rw [canonicalKey, h]
    rfl
  have hden : na = nb ↔ ∀ t, a.denotes t = b.denotes t := by
    rw [← normalize_eq_iff ha hb, hna, hnb, Outcome.ok.injEq]
  refine ⟨?_, ?_, ?_, ⟨na, hna, hkey hna, normalize_idempotent ha hna⟩, ?_⟩
  · rw [hequiv, ← hden, Outcome.ok.injEq, beq_iff_eq]
  · rw [hequiv, ← not_forall, ← hden, Outcome.ok.injEq, beq_eq_false_iff_ne]
  · rw [hkey hna, hkey hnb, ← hden, Outcome.ok.injEq, CanonicalForm.mk.injEq]
  · intro len u v hoperands hlen
    have hu := UnionTree.atLength_value hlen
    have hv := UnionTree.atLength_value fun x hx => hlen x ((hoperands x).2 hx)
    obtain ⟨n, hn, -⟩ := normalize_spec hu
    refine ⟨n, hn, ?_⟩
    rw [← (normalize_eq_iff hu.inClass hv.inClass).2 fun t => ?_, hn]
    rw [Bool.eq_iff_iff, UnionTree.denotes_value, UnionTree.denotes_value]
    simp only [hoperands]

/-- Two abutting spans and their join are equivalent, and so share their key. -/
theorem canonicalForm_denotational_abutting :
    canonicalKey ⟨[⟨⟨[1, 5], by simp⟩, ⟨[0, 2], by simp⟩, 2, by decide⟩,
        ⟨⟨[1, 7], by simp⟩, ⟨[0, 1], by simp⟩, 2, by decide⟩]⟩ =
      canonicalKey ⟨[⟨⟨[1, 5], by simp⟩, ⟨[0, 3], by simp⟩, 2, by decide⟩]⟩ := by
  obtain ⟨hequiv, -, hkey, -⟩ := canonicalForm_denotational
    ⟨[⟨⟨[1, 5], by simp⟩, ⟨[0, 2], by simp⟩, 2, by decide⟩,
      ⟨⟨[1, 7], by simp⟩, ⟨[0, 1], by simp⟩, 2, by decide⟩]⟩
    ⟨[⟨⟨[1, 5], by simp⟩, ⟨[0, 3], by simp⟩, 2, by decide⟩]⟩
    ⟨2, by simp [AtLength, Span.isLevelUniform, Tumbler.len]⟩
    ⟨2, by simp [AtLength, Span.isLevelUniform, Tumbler.len]⟩
  exact hkey.2 (hequiv.1 (by decide))
