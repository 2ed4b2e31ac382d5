import Skep.Library.Outcome

/-!
# Tumblers

The address algebra's carrier: a nonempty sequence of unbounded components in
lexicographic order, a proper prefix standing below its extensions. Every
interval of this order is infinite, since the extensions of a point by any
number of components stand between it and its next sibling.
-/

/-- A nonempty sequence of components. -/
structure Tumbler where
  comps : List ℕ
  nonempty : comps ≠ []

namespace Tumbler

theorem comps_injective : Function.Injective Tumbler.comps := by
  rintro ⟨a, ha⟩ ⟨b, hb⟩ h
  cases h
  rfl

@[ext] theorem ext {a b : Tumbler} (h : a.comps = b.comps) : a = b := comps_injective h

instance : LinearOrder Tumbler := LinearOrder.lift' comps comps_injective

/-- The number of components. -/
def len (t : Tumbler) : ℕ := t.comps.length

/-- The constructor: none of an empty sequence. -/
def new (comps : List ℕ) : Option Tumbler :=
  if h : comps ≠ [] then some ⟨comps, h⟩ else none

/-- The component at a 1-based position. -/
def get (t : Tumbler) (i : ℕ) : Option ℕ :=
  if i = 0 then none else t.comps[i - 1]?

theorem lt_def {a b : Tumbler} : a < b ↔ a.comps < b.comps := Iff.rfl

theorem le_def {a b : Tumbler} : a ≤ b ↔ a.comps ≤ b.comps := Iff.rfl

theorem len_pos (t : Tumbler) : 0 < t.len := List.length_pos_of_ne_nil t.nonempty

/-- Lexicographic order read off the sequences: one extends the other, or the
two part at a component. -/
theorem comps_lt_iff {a b : List ℕ} :
    a < b ↔ (∃ x rest, b = a ++ x :: rest) ∨
      ∃ p x y s r, a = p ++ x :: s ∧ b = p ++ y :: r ∧ x < y := by
  induction a generalizing b with
  | nil =>
    cases b with
    | nil => simp
    | cons y b => simp
  | cons x a ih =>
    cases b with
    | nil => simp
    | cons y b =>
      rw [List.cons_lt_cons_iff, ih]
      constructor
      · rintro (h | ⟨rfl, ⟨z, rest, rfl⟩ | ⟨p, z, w, s, r, rfl, rfl, h⟩⟩)
        · exact .inr ⟨[], x, y, a, b, rfl, rfl, h⟩
        · exact .inl ⟨z, rest, rfl⟩
        · exact .inr ⟨x :: p, z, w, s, r, rfl, rfl, h⟩
      · rintro (⟨z, rest, h⟩ | ⟨p, z, w, s, r, h1, h2, h⟩)
        · obtain ⟨rfl, rfl⟩ := List.cons.inj h
          exact .inr ⟨rfl, .inl ⟨z, rest, rfl⟩⟩
        · cases p with
          | nil =>
            obtain ⟨rfl, rfl⟩ := List.cons.inj h1
            obtain ⟨rfl, rfl⟩ := List.cons.inj h2
            exact .inl h
          | cons u p =>
            obtain ⟨rfl, rfl⟩ := List.cons.inj h1
            obtain ⟨rfl, rfl⟩ := List.cons.inj h2
            exact .inr ⟨rfl, .inr ⟨p, z, w, s, r, rfl, rfl, h⟩⟩

/-- Tumblers of one length stand in order exactly where they part upwards. -/
theorem lt_iff_of_len_eq {a b : Tumbler} (hlen : a.len = b.len) :
    a < b ↔ ∃ p x y s r, a.comps = p ++ x :: s ∧ b.comps = p ++ y :: r ∧ x < y := by
  rw [lt_def, comps_lt_iff]
  refine or_iff_right ?_
  rintro ⟨x, rest, h⟩
  have : a.comps.length = b.comps.length := hlen
  simp [h] at this

theorem lt_of_extends {a b : Tumbler} {x : ℕ} {rest : List ℕ} (h : b.comps = a.comps ++ x :: rest) :
    a < b :=
  lt_def.2 (comps_lt_iff.2 (.inl ⟨x, rest, h⟩))

private theorem comps_between_siblings {p : List ℕ} {x y : ℕ} {c : List ℕ} :
    ¬ c < p ++ [x] ∧ c < p ++ [y] ↔ ∃ k rest, c = p ++ k :: rest ∧ x ≤ k ∧ k < y := by
  induction p generalizing c with
  | nil =>
    cases c with
    | nil => simp
    | cons k c =>
      simp only [List.nil_append, List.cons_lt_cons_iff, List.not_lt_nil, and_false, or_false,
        List.cons.injEq]
      constructor
      · rintro ⟨h1, h2⟩
        exact ⟨k, c, ⟨rfl, rfl⟩, not_lt.1 h1, h2⟩
      · rintro ⟨_, _, ⟨rfl, rfl⟩, h1, h2⟩
        exact ⟨not_lt.2 h1, h2⟩
  | cons u p ih =>
    cases c with
    | nil => simp
    | cons k c =>
      simp only [List.cons_append, List.cons_lt_cons_iff, List.cons.injEq]
      by_cases hk : k = u
      · subst hk
        simpa using ih
      · simp only [hk, false_and, or_false, exists_false, iff_false]
        omega

/-- The points from one sibling up to another are the extensions of the
siblings in between. -/
theorem between_siblings {p : List ℕ} {x y : ℕ} {a b t : Tumbler} (ha : a.comps = p ++ [x])
    (hb : b.comps = p ++ [y]) :
    a ≤ t ∧ t < b ↔ ∃ k rest, t.comps = p ++ k :: rest ∧ x ≤ k ∧ k < y := by
  rw [← not_lt, lt_def, lt_def, ha, hb, comps_between_siblings]

/-- Advance the last component by `n`. -/
def shift (v : Tumbler) (n : ℕ) : Tumbler :=
  ⟨v.comps.dropLast ++ [v.comps.getLast v.nonempty + n], by simp⟩

/-- The immediate next sibling. -/
def nextAtLength (t : Tumbler) : Tumbler := t.shift 1

/-- The tumbler `front ++ [last]`. -/
def snoc (front : List ℕ) (last : ℕ) : Tumbler := ⟨front ++ [last], by simp⟩

@[simp] theorem comps_snoc (front : List ℕ) (last : ℕ) :
    (snoc front last).comps = front ++ [last] := rfl

/-- Each tumbler is its front and its last component. -/
theorem exists_snoc (t : Tumbler) : ∃ front last, t = snoc front last :=
  ⟨t.comps.dropLast, t.comps.getLast t.nonempty,
    Tumbler.ext (List.dropLast_append_getLast t.nonempty).symm⟩

@[simp] theorem shift_snoc (front : List ℕ) (last n : ℕ) :
    (snoc front last).shift n = snoc front (last + n) := by
  simp [shift, snoc]

theorem snoc_inj {p q : List ℕ} {x y : ℕ} : snoc p x = snoc q y ↔ p = q ∧ x = y := by
  rw [Tumbler.ext_iff, comps_snoc, comps_snoc]
  exact ⟨fun h => by simpa using List.append_inj' h rfl, fun ⟨h1, h2⟩ => by rw [h1, h2]⟩

@[simp] theorem snoc_lt_snoc {p : List ℕ} {x y : ℕ} : snoc p x < snoc p y ↔ x < y := by
  rw [lt_def, comps_snoc, comps_snoc]
  induction p with
  | nil => simp [List.cons_lt_cons_iff]
  | cons u p ih => simpa [List.cons_lt_cons_iff] using ih

@[simp] theorem snoc_le_snoc {p : List ℕ} {x y : ℕ} : snoc p x ≤ snoc p y ↔ x ≤ y := by
  rw [← not_lt, snoc_lt_snoc, not_lt]

@[simp] theorem len_shift (t : Tumbler) (n : ℕ) : (t.shift n).len = t.len := by
  obtain ⟨front, last, rfl⟩ := t.exists_snoc
  simp [len]

@[simp] theorem shift_zero (t : Tumbler) : t.shift 0 = t := by
  obtain ⟨front, last, rfl⟩ := t.exists_snoc
  simp

theorem shift_shift (t : Tumbler) (m n : ℕ) : (t.shift m).shift n = t.shift (m + n) := by
  obtain ⟨front, last, rfl⟩ := t.exists_snoc
  simp [Nat.add_assoc]

@[simp] theorem shift_lt_shift {t : Tumbler} {m n : ℕ} : t.shift m < t.shift n ↔ m < n := by
  obtain ⟨front, last, rfl⟩ := t.exists_snoc
  simp

theorem shift_inj {t : Tumbler} {m n : ℕ} : t.shift m = t.shift n ↔ m = n := by
  obtain ⟨front, last, rfl⟩ := t.exists_snoc
  simp [snoc_inj]

@[simp] theorem shift_le_shift {t : Tumbler} {m n : ℕ} : t.shift m ≤ t.shift n ↔ m ≤ n := by
  rw [← not_lt, shift_lt_shift, not_lt]

/-- The tumblers of a sibling's length between two siblings are the siblings. -/
theorem exists_shift_of_between {t u : Tumbler} {n : ℕ} (hlen : u.len = t.len) (hlo : t ≤ u)
    (hhi : u ≤ t.shift n) : ∃ j ≤ n, u = t.shift j := by
  rcases hhi.lt_or_eq with hlt | heq
  · obtain ⟨front, last, rfl⟩ := t.exists_snoc
    rw [shift_snoc] at hlt
    obtain ⟨k, rest, hcomps, hk, hk'⟩ := (between_siblings rfl rfl).1 ⟨hlo, hlt⟩
    have hrest : rest = [] := by
      simp only [len, hcomps, comps_snoc, List.length_append, List.length_cons] at hlen
      exact List.length_eq_zero_iff.1 (by simpa using hlen)
    refine ⟨k - last, by omega, Tumbler.ext ?_⟩
    rw [hcomps, hrest, shift_snoc, comps_snoc, Nat.add_sub_cancel' hk]
  · exact ⟨n, le_rfl, heq⟩

theorem lt_nextAtLength (t : Tumbler) : t < t.nextAtLength := by
  obtain ⟨front, last, rfl⟩ := t.exists_snoc
  simp [nextAtLength]

end Tumbler

/-- Whether `q` extends `p`. -/
def isPrefix (p q : Tumbler) : Bool := p.comps.isPrefixOf q.comps

@[simp] theorem isPrefix_iff {p q : Tumbler} : isPrefix p q = true ↔ p.comps <+: q.comps :=
  List.isPrefixOf_iff_prefix
