import Skep.Address.Span

/-!
# The displacement between two tumblers

The difference of two tumblers, answered only where adding it back gives the
upper one: where they part at a component of the lower, which is no longer than
the upper. The difference itself is there wherever its precondition holds, since
the padded views part downwards only.

## Main results

- `exists_sub` — the difference of tumblers in order
- `displacement_spec` — where the displacement is there, and that it adds back
- `Span.contains_subtreeOf_iff` — a subtree's span holds what extends its root
- `arithmetic_roundTrips` — the arithmetic of tumblers and spans round-trips
-/

/-- `b ⊖ a`, where adding it to `a` gives `b` again. -/
def displacement {ε : Type} (a b : Tumbler) : Outcome ε (Option Tumbler) :=
  if b ≤ a then return none
  else if b.len < a.len then return none
  else if isPrefix a b then return none
  else do
    let w ← (sub b a).expect
    return some w

namespace Tumbler

/-- Past the shared components, what the first tumbler has at the parting is more. -/
theorem padded_lt_of_lt {a b : Tumbler} (hlt : a < b) {d : ℕ} (hne : paddedComp b d ≠ paddedComp a d)
    (heq : ∀ j < d, paddedComp b j = paddedComp a j) : paddedComp a d < paddedComp b d := by
  rcases comps_lt_iff.1 (lt_def.1 hlt) with ⟨z, rest, hb⟩ | ⟨p, x, y, s, r, ha, hb, hxy⟩
  · by_cases hd : d < a.comps.length
    · refine absurd ?_ hne
      simp [paddedComp, hb, List.getElem?_append_left hd]
    · have hzero : paddedComp a d = 0 := by
        simp [paddedComp, List.getElem?_eq_none (not_lt.1 hd)]
      omega
  · have hax : paddedComp a p.length = x := by simp [paddedComp, ha]
    have hby : paddedComp b p.length = y := by simp [paddedComp, hb]
    rcases lt_trichotomy d p.length with hd | rfl | hd
    · refine absurd ?_ hne
      simp [paddedComp, ha, hb, List.getElem?_append_left hd]
    · rwa [hax, hby]
    · have := heq p.length hd
      omega

end Tumbler

/-- The difference is there for every pair in order, at the length of the longer. -/
theorem exists_sub {a w : Tumbler} (h : w ≤ a) : ∃ t, sub a w = .ok t ∧ t.len = max a.len w.len := by
  have hge : Outcome.refuseIf (a < w) SubPrecond.mk = .ok () :=
    Outcome.refuseIf_eq_ok_iff.2 h.not_gt
  have hpos : 0 < max a.len w.len := lt_of_lt_of_le a.len_pos (le_max_left _ _)
  simp only [sub, hge, Outcome.ok_bind]
  cases hfind : (List.range (max a.len w.len)).find? fun i => paddedComp a i ≠ paddedComp w i with
  | none =>
    have hne : List.replicate (max a.len w.len) 0 ≠ [] := by
      intro hnil
      have := congrArg List.length hnil
      rw [List.length_replicate, List.length_nil] at this
      omega
    refine ⟨⟨List.replicate (max a.len w.len) 0, hne⟩, ?_, ?_⟩
    · simp only [Tumbler.new, dif_pos hne]
      rfl
    · exact List.length_replicate
  | some d =>
    rw [List.find?_range_eq_some] at hfind
    obtain ⟨hne, hlt, hbefore⟩ := hfind
    have hne : paddedComp a d ≠ paddedComp w d := of_decide_eq_true hne
    have heq : ∀ j < d, paddedComp a j = paddedComp w j := fun j hj => by
      simpa using hbefore j hj
    have hparts : ¬ paddedComp a d < paddedComp w d := by
      rcases h.lt_or_eq with hlt' | rfl
      · exact (Tumbler.padded_lt_of_lt hlt' hne heq).not_gt
      · exact lt_irrefl _
    refine ⟨_, if_neg hparts, ?_⟩
    have hd : d < max a.len w.len := List.mem_range.1 hlt
    simp only [Tumbler.len, List.length_append, List.length_replicate, List.length_cons,
      List.length_map, List.length_range'] at hd ⊢
    omega

/-- Where two tumblers part at a component of the lower, which is no longer, the difference. -/
theorem sub_of_parts {a b : Tumbler} {p u v : List ℕ} {x y : ℕ} (ha : a.comps = p ++ x :: u)
    (hb : b.comps = p ++ y :: v) (hxy : x < y) (hlen : a.len ≤ b.len) :
    sub b a = .ok ⟨List.replicate p.length 0 ++ (y - x) :: v, by simp⟩ := by
  have hlt : a < b := Tumbler.lt_def.2 (Tumbler.comps_lt_iff.2 (.inr ⟨p, x, y, u, v, ha, hb, hxy⟩))
  have hge : Outcome.refuseIf (b < a) SubPrecond.mk = .ok () :=
    Outcome.refuseIf_eq_ok_iff.2 hlt.not_gt
  have hx : paddedComp a p.length = x := by simp [paddedComp, ha]
  have hy : paddedComp b p.length = y := by simp [paddedComp, hb]
  have hdiv : (List.range (max b.len a.len)).find?
      (fun i => paddedComp b i ≠ paddedComp a i) = some p.length := by
    rw [List.find?_range_eq_some]
    refine ⟨?_, ?_, fun j hj => ?_⟩
    · rw [hx, hy]
      exact decide_eq_true hxy.ne'
    · simp [Tumbler.len, hb]
    · simp [paddedComp, ha, hb, List.getElem?_append_left hj]
  have htail : (List.range' (p.length + 1) (max b.len a.len - (p.length + 1))).map (paddedComp b) =
      v := by
    rw [max_eq_left hlen]
    apply List.ext_getElem
    · simp [Tumbler.len, hb]
      omega
    · intro i h1 h2
      simp only [List.getElem_map, List.getElem_range', paddedComp, hb, Nat.one_mul]
      rw [List.getD_eq_getElem?_getD, List.getElem?_append_right (by omega)]
      simp [show p.length + 1 + i - p.length = i + 1 by omega, h2]
  simp only [sub, hge, Outcome.ok_bind, hdiv, hx, hy, htail, if_neg hxy.not_gt, Outcome.pure_eq]

/-- The displacement is there exactly where the tumblers stand in order, the lower no longer
than the upper and no prefix of it, and adding it to the lower gives the upper. -/
theorem displacement_spec {ε : Type} (a b : Tumbler) :
    ∃ d : Option Tumbler, (displacement a b : Outcome ε (Option Tumbler)) = .ok d ∧
      ((∃ w, d = some w) ↔ a < b ∧ a.len ≤ b.len ∧ isPrefix a b = false) ∧
      ∀ w, d = some w → add a w = .ok b := by
  rw [displacement]
  by_cases hlt : b ≤ a
  · rw [if_pos hlt]
    exact ⟨none, rfl, by simp [hlt.not_gt], fun w h => nomatch h⟩
  rw [if_neg hlt]
  by_cases hlen : b.len < a.len
  · rw [if_pos hlen]
    exact ⟨none, rfl, by simp [hlen.not_ge], fun w h => nomatch h⟩
  rw [if_neg hlen]
  by_cases hpre : isPrefix a b = true
  · rw [if_pos hpre]
    exact ⟨none, rfl, by simp [hpre], fun w h => nomatch h⟩
  rw [if_neg hpre]
  have hlt := not_le.1 hlt
  have hlen := not_lt.1 hlen
  rcases Tumbler.comps_lt_iff.1 (Tumbler.lt_def.1 hlt) with ⟨z, rest, hb⟩ | ⟨p, x, y, u, v, ha, hb, hxy⟩
  · exact absurd (isPrefix_iff.2 ⟨z :: rest, hb.symm⟩) hpre
  · rw [sub_of_parts ha hb hxy hlen]
    refine ⟨some ⟨List.replicate p.length 0 ++ (y - x) :: v, by simp⟩, rfl, ?_, fun w hw => ?_⟩
    · exact ⟨fun _ => ⟨hlt, hlen, Bool.eq_false_iff.2 hpre⟩, fun _ => ⟨_, rfl⟩⟩
    · cases hw
      have hak : actionPoint ⟨List.replicate p.length 0 ++ (y - x) :: v, by simp⟩ =
          some (p.length + 1) := actionPoint_of_parts rfl (by omega)
      have hdeep : p.length + 1 ≤ a.len := by simp [Tumbler.len, ha]
      rw [add_of_addDomain (addDomain_eq_ok_iff.2 ⟨hak, hdeep⟩), Outcome.ok.injEq]
      ext1
      simp [sumAt, ha, hb, List.drop_append, Nat.add_sub_of_le hxy.le]

namespace Span

theorem new_eq_ok_iff {start width : Tumbler} {s : Span} :
    new start width = .ok s ↔ s.start = start ∧ s.width = width := by
  constructor
  · intro h
    rw [new] at h
    split at h
    · cases h
      exact ⟨rfl, rfl⟩
    all_goals cases h
  · rintro ⟨rfl, rfl⟩
    obtain ⟨k, hk⟩ := s.t12
    exact new_eq_ok hk

/-- The reach recomputed from a span built between endpoints is the upper endpoint. -/
theorem add_of_fromEndpoints {s r : Tumbler} {span : Span} (h : fromEndpoints s r = .ok span) :
    span.start = s ∧ add span.start span.width = .ok r ∧ span.reach = r := by
  have h' := h
  simp only [fromEndpoints, Outcome.bind_eq_ok_iff, Outcome.refuseIf_eq_ok_iff, not_not, not_le] at h'
  obtain ⟨-, hlen, -, hlt, -⟩ := h'
  obtain ⟨span', hok, hstart, hreach⟩ := fromEndpoints_spec hlen hlt
  rw [h] at hok
  cases hok
  exact ⟨hstart, by rw [add_eq_reach, hreach], hreach⟩

/-- The span of a subtree holds exactly what extends its root. -/
theorem contains_subtreeOf_iff {p t : Tumbler} : (subtreeOf p).contains t = true ↔ isPrefix p t = true := by
  obtain ⟨front, last, rfl⟩ := p.exists_snoc
  rw [contains, Bool.and_eq_true, decide_eq_true_eq, decide_eq_true_eq, start_subtreeOf, reach_subtreeOf,
    Tumbler.nextAtLength, Tumbler.shift_snoc, Tumbler.between_siblings rfl rfl, isPrefix_iff]
  constructor
  · rintro ⟨k, rest, hcomps, hlo, hhi⟩
    obtain rfl : k = last := by omega
    exact ⟨rest, by rw [hcomps, Tumbler.comps_snoc, List.append_assoc]; rfl⟩
  · rintro ⟨rest, hcomps⟩
    refine ⟨last, rest, ?_, le_rfl, Nat.lt_succ_self last⟩
    rw [← hcomps, Tumbler.comps_snoc, List.append_assoc]
    rfl

end Span

/-- The arithmetic of tumblers round-trips: the displacement of two tumblers is there exactly
where they stand in order, the lower no longer and no prefix of the upper, and leads from the
one to the other; a difference within its precondition never underflows; a span between
endpoints gives its reach back, every span's reach stands past its start, and the span of a
subtree holds exactly what extends its root. -/
theorem arithmetic_roundTrips :
    (∀ a b : Tumbler, ∃ d : Option Tumbler, (displacement a b : Outcome Empty (Option Tumbler)) = .ok d ∧
      ((∃ w, d = some w) ↔ a < b ∧ a.len ≤ b.len ∧ isPrefix a b = false) ∧
      ∀ w, d = some w → add a w = .ok b) ∧
    (∀ a w : Tumbler, w ≤ a → ∃ t, sub a w = .ok t) ∧
    (∀ (s r : Tumbler) (span : Span), Span.fromEndpoints s r = .ok span →
      span.start = s ∧ add span.start span.width = .ok r ∧ span.reach = r) ∧
    (∀ (start width : Tumbler) (span : Span), Span.new start width = .ok span →
      span.start = start ∧ span.width = width ∧ add start width = .ok span.reach ∧ start < span.reach) ∧
    ∀ p t : Tumbler, (Span.subtreeOf p).contains t = true ↔ isPrefix p t = true := by
  refine ⟨displacement_spec, fun a w h => ?_, fun s r span => Span.add_of_fromEndpoints,
    fun start width span h => ?_, fun p t => Span.contains_subtreeOf_iff⟩
  · obtain ⟨t, ht, -⟩ := exists_sub h
    exact ⟨t, ht⟩
  · obtain ⟨rfl, rfl⟩ := Span.new_eq_ok_iff.1 h
    exact ⟨rfl, rfl, span.add_eq_reach, span.start_lt_reach⟩

private def onePointTwo : Tumbler := ⟨[1, 2], by decide⟩

private def onePointFive : Tumbler := ⟨[1, 5], by decide⟩

theorem arithmetic_roundTrips_siblings :
    (∃ t, sub onePointFive onePointTwo = .ok t) ∧
      ∃ span, Span.fromEndpoints onePointTwo onePointFive = .ok span ∧ span.reach = onePointFive := by
  obtain ⟨-, hsub, hends, -⟩ := arithmetic_roundTrips
  refine ⟨hsub _ _ (by decide), ?_⟩
  obtain ⟨span, hspan, -⟩ := Span.fromEndpoints_spec (s := onePointTwo) (r := onePointFive) rfl (by decide)
  exact ⟨span, hspan, (hends _ _ span hspan).2.2⟩
