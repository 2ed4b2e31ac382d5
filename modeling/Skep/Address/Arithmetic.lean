import Skep.Address.Tumbler

/-!
# Position arithmetic

Displacement addition and subtraction from their constructive definitions:
the sum keeps the start up to the action point and takes the displacement's
tail past it, the difference is zero up to the padded divergence.
-/

/-- The first nonzero position of `w`, 1-based. -/
def actionPoint (w : Tumbler) : Option ℕ :=
  (w.comps.findIdx? (· ≠ 0)).map (· + 1)

/-- The clause that puts a displacement outside the sum's domain. -/
inductive AddDomainClause where
  | zeroDisplacement
  | actionPointTooDeep
  deriving DecidableEq, Repr

/-- Decides the sum's domain, returning the action point. -/
def addDomain (a w : Tumbler) : Outcome AddDomainClause ℕ := do
  let k ← Outcome.okOr (actionPoint w) .zeroDisplacement
  Outcome.refuseIf (a.len < k) .actionPointTooDeep
  return k

/-- The sum's precondition failed. -/
inductive AddPrecond where
  | mk
  deriving DecidableEq, Repr

/-- The sum at the action point `k`: the start below it, the displacement past it. -/
def sumAt (k : ℕ) (a w : Tumbler) : Tumbler :=
  ⟨a.comps.take (k - 1) ++ (a.comps.getD (k - 1) 0 + w.comps.getD (k - 1) 0) :: w.comps.drop k,
    by simp⟩

/-- `a ⊕ w`. -/
def add (a w : Tumbler) : Outcome AddPrecond Tumbler := do
  let k ← (addDomain a w).mapErr fun _ => .mk
  return sumAt k a w

/-- The zero-padded component at a 0-based position. -/
def paddedComp (t : Tumbler) (i : ℕ) : ℕ := t.comps.getD i 0

/-- The difference's precondition failed. -/
inductive SubPrecond where
  | mk
  deriving DecidableEq, Repr

/-- `a ⊖ w`. The unsigned subtraction at the divergence faults on underflow. -/
def sub (a w : Tumbler) : Outcome SubPrecond Tumbler := do
  Outcome.refuseIf (a < w) .mk
  let paddedLen := max a.len w.len
  match (List.range paddedLen).find? (fun i => paddedComp a i ≠ paddedComp w i) with
  | none => Outcome.expectSome (Tumbler.new (List.replicate paddedLen 0))
  | some d =>
      if paddedComp a d < paddedComp w d then .fault
      else
        return ⟨List.replicate d 0 ++ (paddedComp a d - paddedComp w d) ::
          (List.range' (d + 1) (paddedLen - (d + 1))).map (paddedComp a), by simp⟩

/-- The action point of a sequence of zeros followed by a nonzero component. -/
theorem actionPoint_of_parts {w : Tumbler} {n z : ℕ} {rest : List ℕ}
    (h : w.comps = List.replicate n 0 ++ z :: rest) (hz : z ≠ 0) : actionPoint w = some (n + 1) := by
  have hidx : w.comps.findIdx? (· ≠ 0) = some n := by
    rw [h, List.findIdx?_append]
    simp [List.findIdx?_cons, hz]
  rw [actionPoint, hidx]
  rfl

theorem addDomain_eq_ok_iff {a w : Tumbler} {k : ℕ} :
    addDomain a w = .ok k ↔ actionPoint w = some k ∧ k ≤ a.len := by
  simp only [addDomain, Outcome.bind_eq_ok_iff, Outcome.okOr_eq_ok_iff,
    Outcome.refuseIf_eq_ok_iff, not_lt, Outcome.pure_eq, Outcome.ok.injEq]
  constructor
  · rintro ⟨k', h, -, hle, rfl⟩
    exact ⟨h, hle⟩
  · rintro ⟨h, hle⟩
    exact ⟨k, h, (), hle, rfl⟩

theorem add_of_addDomain {a w : Tumbler} {k : ℕ} (h : addDomain a w = .ok k) :
    add a w = .ok (sumAt k a w) := by
  rw [add, Outcome.mapErr_eq_ok_iff.2 h]
  rfl

theorem actionPoint_parts {w : Tumbler} {k : ℕ} (h : actionPoint w = some k) :
    0 < k ∧ k ≤ w.len ∧ w.comps.getD (k - 1) 0 ≠ 0 := by
  obtain ⟨i, hi, rfl⟩ := Option.map_eq_some_iff.1 h
  obtain ⟨hlt, hne, -⟩ := List.findIdx?_eq_some_iff_getElem.1 hi
  refine ⟨Nat.succ_pos i, hlt, ?_⟩
  simpa [List.getD_eq_getElem?_getD, hlt] using hne

theorem len_sumAt {a w : Tumbler} {k : ℕ} (h : addDomain a w = .ok k) :
    (sumAt k a w).len = w.len := by
  obtain ⟨hk, hle⟩ := addDomain_eq_ok_iff.1 h
  obtain ⟨hpos, hw, -⟩ := actionPoint_parts hk
  simp only [Tumbler.len] at hle hw ⊢
  simp only [sumAt, List.length_append, List.length_take, List.length_cons, List.length_drop]
  omega

theorem lt_sumAt {a w : Tumbler} {k : ℕ} (h : addDomain a w = .ok k) : a < sumAt k a w := by
  obtain ⟨hk, hle⟩ := addDomain_eq_ok_iff.1 h
  obtain ⟨hpos, -, hne⟩ := actionPoint_parts hk
  have hlt : k - 1 < a.comps.length := by
    have : k ≤ a.comps.length := hle
    omega
  have hparts : a.comps = a.comps.take (k - 1) ++ a.comps.getD (k - 1) 0 :: a.comps.drop k := by
    conv_lhs => rw [← List.take_append_drop (k - 1) a.comps, List.drop_eq_getElem_cons hlt]
    simp [List.getD_eq_getElem?_getD, hlt, Nat.sub_add_cancel hpos]
  refine Tumbler.lt_def.2 (Tumbler.comps_lt_iff.2 (.inr ⟨_, _, _, _, _, hparts, rfl, ?_⟩))
  exact Nat.lt_add_of_pos_right (Nat.pos_of_ne_zero hne)

/-- Between endpoints of one length, the difference and its shape. -/
theorem sub_of_lt {s r : Tumbler} (hlen : s.len = r.len) (hlt : s < r) :
    ∃ w : Tumbler, ∃ p x y u v, sub r s = .ok w ∧ s.comps = p ++ x :: u ∧ r.comps = p ++ y :: v ∧
      x < y ∧ w.comps = List.replicate p.length 0 ++ (y - x) :: v := by
  obtain ⟨p, x, y, u, v, hs, hr, hxy⟩ := (Tumbler.lt_iff_of_len_eq hlen).1 hlt
  have hdiv : (List.range (max r.len s.len)).find?
      (fun i => paddedComp r i ≠ paddedComp s i) = some p.length := by
    rw [List.find?_range_eq_some]
    refine ⟨?_, ?_, fun j hj => ?_⟩
    · simp [paddedComp, hs, hr, hxy.ne']
    · simp [Tumbler.len, hr]
    · simp [paddedComp, hs, hr, List.getElem?_append_left hj]
  have htail : (List.range' (p.length + 1) (max r.len s.len - (p.length + 1))).map (paddedComp r) =
      v := by
    rw [hlen, max_self]
    apply List.ext_getElem
    · simp [Tumbler.len, hr]
      omega
    · intro i h1 h2
      simp only [List.getElem_map, List.getElem_range', paddedComp, hr, Nat.one_mul]
      rw [List.getD_eq_getElem?_getD, List.getElem?_append_right (by omega)]
      simp [show p.length + 1 + i - p.length = i + 1 by omega, h2]
  refine ⟨⟨List.replicate p.length 0 ++ (y - x) :: v, by simp⟩, p, x, y, u, v, ?_, hs, hr, hxy, rfl⟩
  have hx : paddedComp s p.length = x := by simp [paddedComp, hs]
  have hy : paddedComp r p.length = y := by simp [paddedComp, hr]
  have hge : Outcome.refuseIf (r < s) SubPrecond.mk = .ok () :=
    Outcome.refuseIf_eq_ok_iff.2 hlt.not_gt
  simp only [sub, hge, Outcome.ok_bind, hdiv, hx, hy, htail, if_neg hxy.not_gt, Outcome.pure_eq]

/-- Between endpoints of one length the difference is a displacement of that
length that leads from the lower to the upper. -/
theorem sub_spec {s r : Tumbler} (hlen : s.len = r.len) (hlt : s < r) :
    ∃ w k, sub r s = .ok w ∧ addDomain s w = .ok k ∧ w.len = s.len ∧ sumAt k s w = r := by
  obtain ⟨w, p, x, y, u, v, hsub, hs, hr, hxy, hw⟩ := sub_of_lt hlen hlt
  have hak : actionPoint w = some (p.length + 1) := actionPoint_of_parts hw (by omega)
  have hlens : s.comps.length = r.comps.length := hlen
  refine ⟨w, p.length + 1, hsub, addDomain_eq_ok_iff.2 ⟨hak, ?_⟩, ?_, ?_⟩
  · simp [Tumbler.len, hs]
  · simp only [hs, hr, List.length_append, List.length_cons] at hlens
    simp [Tumbler.len, hw, hs]
    omega
  · ext1
    simp [sumAt, hs, hw, hr, List.drop_append, Nat.add_sub_of_le hxy.le]
