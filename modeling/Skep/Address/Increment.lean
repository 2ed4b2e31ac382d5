import Skep.Address.Address

/-!
# The allocation step

The next sibling, the first child in the same field and the first child in the
next one; the gate under which the step keeps an address admitted; and the
parent it steps away from.
-/

/-- The last nonzero position, the length where there is none. -/
def sig (t : Tumbler) : ℕ :=
  match t.comps.reverse.findIdx? (· ≠ 0) with
  | some i => t.len - i
  | none => t.len

/-- The next sibling for `k = 0`, the first child `k` levels of separation down
otherwise. -/
def inc (t : Tumbler) (k : ℕ) : Tumbler :=
  if k = 0 then
    ⟨t.comps.modify (sig t - 1) (· + 1), by
      rw [← List.length_pos_iff, List.length_modify]
      exact t.len_pos⟩
  else ⟨t.comps ++ List.replicate (k - 1) 0 ++ [1], by simp⟩

/-- Whether the step keeps the address admitted. -/
def incPreservesT4 (a : Address) (k : ℕ) : Bool :=
  match k with
  | 0 | 1 => true
  | 2 => a.level != .element
  | _ => false

/-- The step would leave the admitted tumblers. -/
inductive GateViolation where
  | mk
  deriving DecidableEq, Repr

/-- The gated step. -/
def checkedInc (a : Address) (k : ℕ) : Outcome GateViolation Address := do
  Outcome.refuseIf (incPreservesT4 a k = false) .mk
  (validate (inc a.tumbler k)).expect

theorem checkedInc_eq_ok {a b : Address} {k : ℕ} (h : checkedInc a k = .ok b) :
    b.tumbler = inc a.tumbler k := by
  simp only [checkedInc, Outcome.bind_eq_ok_iff, Outcome.expect_eq_ok_iff] at h
  obtain ⟨-, -, h⟩ := h
  exact validate_eq_ok_iff.1 h

/-- The components left once the last is dropped, an exposed separator too. -/
def parentComps (l : List ℕ) : List ℕ :=
  if l[l.length - 2]? = some 0 then l.take (l.length - 2) else l.take (l.length - 1)

theorem parentComps_same {p : List ℕ} {n : ℕ} (hp : p.getLast? ≠ some 0) (hne : p ≠ []) :
    parentComps (p ++ [n]) = p := by
  have hlen := List.length_pos_of_ne_nil hne
  have hlast : (p ++ [n])[(p ++ [n]).length - 2]? = p.getLast? := by
    rw [List.getLast?_eq_getElem?, List.getElem?_append_left (by simp; omega)]
    simp
  rw [parentComps, hlast, if_neg hp]
  simp

theorem parentComps_field (p : List ℕ) (n : ℕ) : parentComps (p ++ [0, n]) = p := by
  have hlast : (p ++ [0, n])[(p ++ [0, n]).length - 2]? = some 0 := by simp
  rw [parentComps, if_pos hlast]
  simp

/-- An address of two components or more is a shorter address, perhaps a
separator, and one positive component. -/
theorem Address.exists_parent {a : Address} (h : a.comps.length ≠ 1) :
    ∃ p : Address, ∃ n, 0 < n ∧
      (a.comps = p.comps ++ [n] ∧ p.level = a.level ∨
        a.comps = p.comps ++ [0, n] ∧ a.level.zeros = p.level.zeros + 1) := by
  obtain ⟨front, n, ht⟩ := a.tumbler.exists_snoc
  have hcomps : a.comps = front ++ [n] := by rw [Address.comps, ht, Tumbler.comps_snoc]
  have hn : n ≠ 0 := fun hn => a.getLast?_ne_zero (by simp [hcomps, hn])
  have hfront : front ≠ [] := fun hf => h (by simp [hcomps, hf])
  by_cases hlast : front.getLast? = some 0
  · obtain ⟨p, rfl⟩ := List.getLast?_eq_some_iff.1 hlast
    have hp : p ≠ [] := fun hp => a.admits_clauses.1 (by simp [hcomps, hp])
    have hfield : a.tumbler.comps = (⟨p, hp⟩ : Tumbler).comps ++ 0 :: [n] := by
      rw [← Address.comps, hcomps]
      simp
    have hcount := a.count_zero
    rw [hcomps, List.count_append, List.count_append, List.count_singleton_self,
      List.count_singleton, beq_eq_false_iff_ne.2 hn] at hcount
    obtain ⟨lv, hlv⟩ : ∃ lv : Level, a.level.zeros = lv.zeros + 1 := by
      cases hl : a.level
      · simp [hl, Level.zeros] at hcount
      · exact ⟨.node, rfl⟩
      · exact ⟨.account, rfl⟩
      · exact ⟨.document, rfl⟩
    have hadm := (admits_field (by simp) (by simpa using hn.symm) hfield hlv).1 a.admitted
    exact ⟨⟨⟨p, hp⟩, lv, hadm⟩, n, Nat.pos_of_ne_zero hn, .inr ⟨hfield, hlv⟩⟩
  · have hadm := (admits_same (p := ⟨front, hfront⟩) (e := [n]) (by simpa using hn.symm)
      (t := a.tumbler) hcomps hlast).1 a.admitted
    exact ⟨⟨⟨front, hfront⟩, a.level, hadm⟩, n, Nat.pos_of_ne_zero hn, .inl ⟨hcomps, rfl⟩⟩

theorem Address.parentComps_eq {a p : Address} {n : ℕ}
    (h : a.comps = p.comps ++ [n] ∨ a.comps = p.comps ++ [0, n]) :
    parentComps a.comps = p.comps := by
  rcases h with h | h
  · rw [h, parentComps_same p.getLast?_ne_zero p.comps_ne_nil]
  · rw [h, parentComps_field]

theorem Address.isT4Valid_parentComps {a : Address} (h : a.comps.length ≠ 1) :
    ∃ hne : parentComps a.comps ≠ [], isT4Valid ⟨parentComps a.comps, hne⟩ = true := by
  obtain ⟨p, n, -, hp⟩ := Address.exists_parent h
  have heq := Address.parentComps_eq (hp.imp And.left And.left)
  refine ⟨heq ▸ p.comps_ne_nil, ?_⟩
  simp only [heq]
  exact isT4Valid_of_admits p.admitted

/-- The address one component up, none above a single component. -/
def parent (a : Address) : Option Address :=
  if h : a.comps.length = 1 then none
  else some (Address.ofValid ⟨parentComps a.comps, (Address.isT4Valid_parentComps h).choose⟩
    (Address.isT4Valid_parentComps h).choose_spec)

/-- A child is its parent's components, perhaps a separator, and one component. -/
theorem parent_eq_some_iff {a p : Address} :
    parent a = some p ↔ ∃ n, a.comps = p.comps ++ [n] ∨ a.comps = p.comps ++ [0, n] := by
  rw [parent]
  constructor
  · intro h
    split at h
    · cases h
    · next hlen =>
      obtain ⟨q, n, -, hq⟩ := Address.exists_parent hlen
      have heq := Address.parentComps_eq (hq.imp And.left And.left)
      have hpq : p = q := Address.ext (by
        rw [← Option.some.inj h]
        exact heq)
      exact ⟨n, hpq ▸ hq.imp And.left And.left⟩
  · rintro ⟨n, h⟩
    have hlen : a.comps.length ≠ 1 := by
      have := List.length_pos_of_ne_nil p.comps_ne_nil
      rcases h with h | h <;> rw [h, List.length_append] <;>
        simp only [List.length_cons, List.length_nil] <;> omega
    rw [dif_neg hlen]
    exact congrArg some (Address.ext (Address.parentComps_eq h))

theorem length_lt_of_parent {a p : Address} (h : parent a = some p) :
    p.comps.length < a.comps.length := by
  obtain ⟨n, h | h⟩ := parent_eq_some_iff.1 h
  · simp [h]
  · simp [h]

/-- The first `n` addresses above an address, nearest first. -/
def ancestorsUpTo : ℕ → Address → List Address
  | 0, _ => []
  | n + 1, a =>
    match parent a with
    | some p => p :: ancestorsUpTo n p
    | none => []

/-- The addresses above an address, nearest first. -/
def ancestors (a : Address) : List Address := ancestorsUpTo a.comps.length a

theorem ancestorsUpTo_enough {m n : ℕ} {a : Address} (hm : a.comps.length ≤ m)
    (hn : a.comps.length ≤ n) : ancestorsUpTo m a = ancestorsUpTo n a := by
  induction m generalizing n a with
  | zero => exact absurd (List.length_eq_zero_iff.1 (Nat.le_zero.1 hm)) a.comps_ne_nil
  | succ m ih =>
    cases n with
    | zero => exact absurd (List.length_eq_zero_iff.1 (Nat.le_zero.1 hn)) a.comps_ne_nil
    | succ n =>
      rw [ancestorsUpTo, ancestorsUpTo]
      cases hp : parent a with
      | none => rfl
      | some p =>
        have hlt := length_lt_of_parent hp
        exact congrArg (p :: ·) (ih (by omega) (by omega))

/-- The addresses above an address are its parent and those above the parent. -/
theorem ancestors_eq (a : Address) : ancestors a =
    match parent a with
    | some p => p :: ancestors p
    | none => [] := by
  obtain ⟨n, hn⟩ : ∃ n, a.comps.length = n + 1 :=
    Nat.exists_eq_succ_of_ne_zero fun h => a.comps_ne_nil (List.length_eq_zero_iff.1 h)
  rw [ancestors, hn, ancestorsUpTo]
  cases hp : parent a with
  | none => rfl
  | some p =>
    have hlt := length_lt_of_parent hp
    exact congrArg (p :: ·) (ancestorsUpTo_enough (by omega) le_rfl)

/-- An element position. -/
structure ElemPos where
  doc : Address
  subspace : ℕ
  ordinal : ℕ

/-- Why an element position has no address. -/
inductive ElemError where
  | docNotDocument
  | subspaceZero
  | ordinalZero
  deriving DecidableEq, Repr

/-- The address of an element position. -/
def elemAddr (p : ElemPos) : Outcome ElemError Address := do
  Outcome.refuseIf (p.doc.level ≠ .document) .docNotDocument
  Outcome.refuseIf (p.subspace = 0) .subspaceZero
  Outcome.refuseIf (p.ordinal = 0) .ordinalZero
  (validate ⟨p.doc.comps ++ [0, p.subspace, p.ordinal], by simp⟩).expect

/-- The content subspace. -/
def contentSubspace : ℕ := 1

/-- The link subspace. -/
def linkSubspace : ℕ := 2
