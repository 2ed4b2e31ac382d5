import Mathlib

/-!
# Lists of half-open intervals over a linear order

A list of half-open intervals denotes the union of its members. Among the
lists with one denotation there is exactly one whose consecutive members leave
a gap, and three sweeps work on those lists: coalescing after a sort, the meet
of two lists and their difference. Nothing is assumed of the order beyond
linearity: it need be neither discrete nor dense.
-/

/-- A nonempty half-open interval `[lo, hi)`. -/
structure HalfOpen (α : Type*) [LinearOrder α] where
  lo : α
  hi : α
  lt : lo < hi

namespace HalfOpen

variable {α : Type*} [LinearOrder α]

instance : DecidableEq (HalfOpen α) := fun I J =>
  decidable_of_iff (I.lo = J.lo ∧ I.hi = J.hi)
    ⟨fun h => by cases I; cases J; simp_all, fun h => h ▸ ⟨rfl, rfl⟩⟩

@[ext] theorem ext {I J : HalfOpen α} (hlo : I.lo = J.lo) (hhi : I.hi = J.hi) : I = J := by
  cases I
  cases J
  simp_all

/-- `x` lies in `[lo, hi)`. -/
def Mem (I : HalfOpen α) (x : α) : Prop := I.lo ≤ x ∧ x < I.hi

/-- `x` lies in some member of the list. -/
def Covers (l : List (HalfOpen α)) (x : α) : Prop := ∃ I ∈ l, I.Mem x

/-- Each member of the list ends strictly below the start of every later one. -/
def Canonical (l : List (HalfOpen α)) : Prop := l.Pairwise (fun I J => I.hi < J.lo)

/-- The intervals neither share a point nor touch. -/
def Separated (I J : HalfOpen α) : Prop := min I.hi J.hi < max I.lo J.lo

instance (I J : HalfOpen α) : Decidable (Separated I J) :=
  inferInstanceAs (Decidable (_ < _))

/-- The interval from `lo` to `hi`, where there is one. -/
def between (lo hi : α) : List (HalfOpen α) :=
  if h : lo < hi then [⟨lo, hi, h⟩] else []

@[simp] theorem covers_nil (x : α) : ¬ Covers [] x := by
  simp [Covers]

@[simp] theorem covers_cons {I : HalfOpen α} {l : List (HalfOpen α)} {x : α} :
    Covers (I :: l) x ↔ I.Mem x ∨ Covers l x := by
  simp [Covers]

@[simp] theorem covers_append {l l' : List (HalfOpen α)} {x : α} :
    Covers (l ++ l') x ↔ Covers l x ∨ Covers l' x := by
  simp only [Covers, List.mem_append, or_and_right, exists_or]

@[simp] theorem covers_between {lo hi x : α} : Covers (between lo hi) x ↔ lo ≤ x ∧ x < hi := by
  rw [between]
  split
  · simp [Mem]
  · next h =>
    simp only [covers_nil, false_iff]
    exact fun ⟨h1, h2⟩ => h (h1.trans_lt h2)

theorem mem_between {lo hi : α} {I : HalfOpen α} (h : I ∈ between lo hi) :
    I.lo = lo ∧ I.hi = hi := by
  rw [between] at h
  split at h
  · rw [List.mem_singleton.1 h]
    exact ⟨rfl, rfl⟩
  · simp at h

theorem covers_of_perm {l l' : List (HalfOpen α)} (h : l.Perm l') {x : α} :
    Covers l x ↔ Covers l' x := by
  simp only [Covers, h.mem_iff]

theorem lo_mem (I : HalfOpen α) : I.Mem I.lo := ⟨le_rfl, I.lt⟩

/-- A point of a later member of a canonical list lies past the first member. -/
theorem Canonical.lt_of_covers {I : HalfOpen α} {l : List (HalfOpen α)}
    (h : Canonical (I :: l)) {x : α} (hx : Covers l x) : I.hi < x := by
  obtain ⟨J, hJ, hJx⟩ := hx
  exact ((List.pairwise_cons.1 h).1 J hJ).trans_le hJx.1

/-- The first start of a canonical list is its least point. -/
theorem Canonical.lo_le_of_covers {I : HalfOpen α} {l : List (HalfOpen α)}
    (h : Canonical (I :: l)) {x : α} (hx : Covers (I :: l) x) : I.lo ≤ x := by
  rcases covers_cons.1 hx with hx | hx
  · exact hx.1
  · exact I.lt.le.trans (h.lt_of_covers hx).le

/-- The first end of a canonical list is a point it leaves out. -/
theorem Canonical.not_covers_hi {I : HalfOpen α} {l : List (HalfOpen α)}
    (h : Canonical (I :: l)) : ¬ Covers (I :: l) I.hi := by
  intro hx
  rcases covers_cons.1 hx with hx | hx
  · exact lt_irrefl _ hx.2
  · exact lt_irrefl _ (h.lt_of_covers hx)

private theorem hi_le_of_covers_iff {I J : HalfOpen α} {l l' : List (HalfOpen α)}
    (h : Canonical (I :: l)) (hlo : I.lo = J.lo)
    (hcov : ∀ x, Covers (J :: l') x → Covers (I :: l) x) : J.hi ≤ I.hi := by
  by_contra hlt
  refine h.not_covers_hi (hcov _ (covers_cons.2 (.inl ⟨?_, not_le.1 hlt⟩)))
  exact hlo ▸ I.lt.le

/-- Two canonical lists with the same points are equal. -/
theorem Canonical.eq_of_covers {l l' : List (HalfOpen α)} (h : Canonical l) (h' : Canonical l')
    (hcov : ∀ x, Covers l x ↔ Covers l' x) : l = l' := by
  induction l generalizing l' with
  | nil =>
    cases l' with
    | nil => rfl
    | cons J l' => exact absurd ((hcov J.lo).2 (covers_cons.2 (.inl J.lo_mem))) (covers_nil _)
  | cons I l ih =>
    cases l' with
    | nil => exact absurd ((hcov I.lo).1 (covers_cons.2 (.inl I.lo_mem))) (covers_nil _)
    | cons J l' =>
      have hlo : I.lo = J.lo := le_antisymm
        (h.lo_le_of_covers ((hcov _).2 (covers_cons.2 (.inl J.lo_mem))))
        (h'.lo_le_of_covers ((hcov _).1 (covers_cons.2 (.inl I.lo_mem))))
      have hhi : I.hi = J.hi := le_antisymm
        (hi_le_of_covers_iff h' hlo.symm fun x => (hcov x).1)
        (hi_le_of_covers_iff h hlo fun x => (hcov x).2)
      have hIJ : I = J := HalfOpen.ext hlo hhi
      subst hIJ
      -- past the shared first member the two tails cover the same points
      refine congrArg _ (ih h.of_cons h'.of_cons fun x => ?_)
      constructor
      · intro hx
        have hne : ¬ I.Mem x := fun hm => lt_asymm hm.2 (h.lt_of_covers hx)
        exact (covers_cons.1 ((hcov x).1 (covers_cons.2 (.inr hx)))).resolve_left hne
      · intro hx
        have hne : ¬ I.Mem x := fun hm => lt_asymm hm.2 (h'.lt_of_covers hx)
        exact (covers_cons.1 ((hcov x).2 (covers_cons.2 (.inr hx)))).resolve_left hne

/-- The sweep over intervals in start order, `run` being the open one. -/
def coalesceFrom (run : HalfOpen α) : List (HalfOpen α) → List (HalfOpen α)
  | [] => [run]
  | following :: rest =>
      if Separated run following then run :: coalesceFrom following rest
      else if h : run.hi < following.hi then
        coalesceFrom ⟨run.lo, following.hi, run.lt.trans h⟩ rest
      else coalesceFrom run rest

/-- Sort by start, then coalesce. -/
def normalize (l : List (HalfOpen α)) : List (HalfOpen α) :=
  match l.insertionSort (fun I J => I.lo ≤ J.lo) with
  | [] => []
  | run :: rest => coalesceFrom run rest

theorem Separated.not_mem {I J : HalfOpen α} (h : Separated I J) {x : α} (hI : I.Mem x) :
    ¬ J.Mem x := fun hJ =>
  lt_irrefl x ((lt_min hI.2 hJ.2).trans (h.trans_le (max_le hI.1 hJ.1)))

/-- Where the starts ascend, separation is a gap between the two. -/
theorem separated_iff {I J : HalfOpen α} (h : I.lo ≤ J.lo) : Separated I J ↔ I.hi < J.lo := by
  rw [Separated, max_eq_right h, min_lt_iff]
  exact ⟨fun h => h.resolve_right (not_lt.2 J.lt.le), .inl⟩

/-- Two intervals that are not separated cover what their join covers. -/
theorem mem_join {I J : HalfOpen α} (h : I.lo ≤ J.lo) (hs : ¬ Separated I J) {x : α} :
    I.Mem x ∨ J.Mem x ↔ I.lo ≤ x ∧ x < max I.hi J.hi := by
  have hgap : J.lo ≤ I.hi := not_lt.1 fun hlt => hs ((separated_iff h).2 hlt)
  rw [lt_max_iff]
  constructor
  · rintro (⟨h1, h2⟩ | ⟨h1, h2⟩)
    · exact ⟨h1, .inl h2⟩
    · exact ⟨h.trans h1, .inr h2⟩
  · rintro ⟨h1, h2⟩
    rcases lt_or_ge x I.hi with hx | hx
    · exact .inl ⟨h1, hx⟩
    · exact .inr ⟨hgap.trans hx, h2.resolve_left (not_lt.2 hx)⟩

/-- What one pass of the coalescing sweep keeps: canonicity, the points, a
lower bound on the starts, and the count. -/
theorem coalesceFrom_spec (run : HalfOpen α) (rest : List (HalfOpen α))
    (hsort : (run :: rest).Pairwise (fun I J => I.lo ≤ J.lo)) :
    Canonical (coalesceFrom run rest) ∧
      (∀ x, Covers (coalesceFrom run rest) x ↔ Covers (run :: rest) x) ∧
      (∀ I ∈ coalesceFrom run rest, run.lo ≤ I.lo) ∧
      (coalesceFrom run rest).length ≤ rest.length + 1 := by
  induction rest generalizing run with
  | nil => simp [coalesceFrom, Canonical]
  | cons following rest ih =>
    obtain ⟨hle, hrest⟩ := List.pairwise_cons.1 hsort
    have hlo : run.lo ≤ following.lo := hle following (by simp)
    rw [coalesceFrom]
    split
    · next hs =>
      obtain ⟨hc, hcov, hlb, hlen⟩ := ih following hrest
      refine ⟨List.pairwise_cons.2 ⟨fun I hI => ?_, hc⟩, fun x => ?_, fun I hI => ?_, ?_⟩
      · exact ((separated_iff hlo).1 hs).trans_le (hlb I hI)
      · rw [covers_cons, hcov, covers_cons (I := run)]
      · rcases List.mem_cons.1 hI with rfl | hI
        · exact le_rfl
        · exact hlo.trans (hlb I hI)
      · simp only [List.length_cons] at hlen ⊢
        omega
    · next hs =>
      -- the open run grows to the join of the two
      have hgrown : ∀ run' : HalfOpen α, run'.lo = run.lo →
          run'.hi = max run.hi following.hi →
          Canonical (coalesceFrom run' rest) ∧
            (∀ x, Covers (coalesceFrom run' rest) x ↔ Covers (run :: following :: rest) x) ∧
            (∀ I ∈ coalesceFrom run' rest, run.lo ≤ I.lo) ∧
            (coalesceFrom run' rest).length ≤ (following :: rest).length + 1 := by
        intro run' hlo' hhi'
        have hsort' : (run' :: rest).Pairwise (fun I J => I.lo ≤ J.lo) :=
          List.pairwise_cons.2
            ⟨fun I hI => hlo' ▸ hle I (List.mem_cons_of_mem _ hI), hrest.of_cons⟩
        obtain ⟨hc, hcov, hlb, hlen⟩ := ih run' hsort'
        refine ⟨hc, fun x => ?_, fun I hI => hlo' ▸ hlb I hI, hlen.trans (by simp)⟩
        rw [hcov, covers_cons, covers_cons, covers_cons, ← or_assoc, mem_join hlo hs, Mem,
          hlo', hhi']
      split
      · next h => exact hgrown _ rfl (max_eq_right h.le).symm
      · next h => exact hgrown _ rfl (max_eq_left (not_lt.1 h)).symm

private theorem sorted_insertionSort (l : List (HalfOpen α)) :
    (l.insertionSort (fun I J => I.lo ≤ J.lo)).Pairwise (fun I J => I.lo ≤ J.lo) :=
  haveI : Std.Total (fun I J : HalfOpen α => I.lo ≤ J.lo) := ⟨fun I J => le_total I.lo J.lo⟩
  haveI : IsTrans (HalfOpen α) (fun I J => I.lo ≤ J.lo) := ⟨fun _ _ _ => le_trans⟩
  List.pairwise_insertionSort _ l

theorem normalize_spec (l : List (HalfOpen α)) :
    Canonical (normalize l) ∧ (∀ x, Covers (normalize l) x ↔ Covers l x) ∧
      (normalize l).length ≤ l.length := by
  have hperm := l.perm_insertionSort (fun I J => I.lo ≤ J.lo)
  have hsort := sorted_insertionSort l
  rw [normalize]
  split
  · next heq =>
    rw [heq] at hperm
    simp [hperm.symm.eq_nil, Canonical]
  · next run rest heq =>
    rw [heq] at hperm hsort
    obtain ⟨hc, hcov, -, hlen⟩ := coalesceFrom_spec run rest hsort
    refine ⟨hc, fun x => (hcov x).trans (covers_of_perm hperm), ?_⟩
    rw [← hperm.length_eq]
    exact hlen

theorem normalize_canonical (l : List (HalfOpen α)) : Canonical (normalize l) :=
  (normalize_spec l).1

theorem covers_normalize {l : List (HalfOpen α)} {x : α} : Covers (normalize l) x ↔ Covers l x :=
  (normalize_spec l).2.1 x

theorem length_normalize_le (l : List (HalfOpen α)) : (normalize l).length ≤ l.length :=
  (normalize_spec l).2.2

theorem normalize_eq_nil_iff {l : List (HalfOpen α)} : normalize l = [] ↔ l = [] := by
  refine ⟨fun h => ?_, by rintro rfl; rfl⟩
  by_contra hne
  obtain ⟨I, hI⟩ := List.exists_mem_of_ne_nil l hne
  have : Covers (normalize l) I.lo := covers_normalize.2 ⟨I, hI, I.lo_mem⟩
  rw [h] at this
  exact covers_nil _ this

theorem Canonical.normalize_eq {l : List (HalfOpen α)} (h : Canonical l) : normalize l = l :=
  (normalize_canonical l).eq_of_covers h fun _ => covers_normalize

/-- Normal forms coincide exactly where the points do. -/
theorem normalize_eq_iff {l l' : List (HalfOpen α)} :
    normalize l = normalize l' ↔ ∀ x, Covers l x ↔ Covers l' x := by
  constructor
  · intro h x
    rw [← covers_normalize, h, covers_normalize]
  · intro h
    refine (normalize_canonical l).eq_of_covers (normalize_canonical l') fun x => ?_
    rw [covers_normalize, covers_normalize, h]

/-- The shared part of two intervals. -/
def overlap (I J : HalfOpen α) : List (HalfOpen α) :=
  between (max I.lo J.lo) (min I.hi J.hi)

/-- The inner cursor of the meet sweep: `advance` moves the outer one past `I`. -/
def meetWith (I : HalfOpen α) (advance : List (HalfOpen α) → List (HalfOpen α)) :
    List (HalfOpen α) → List (HalfOpen α)
  | [] => []
  | J :: js =>
      overlap I J ++ (if I.hi ≤ J.hi then advance (J :: js) else meetWith I advance js)

/-- The two-cursor sweep: the cursor on the interval that ends first advances. -/
def meet : List (HalfOpen α) → List (HalfOpen α) → List (HalfOpen α)
  | [] => fun _ => []
  | I :: is => meetWith I (meet is)

@[simp] theorem meet_nil_left (js : List (HalfOpen α)) : meet [] js = [] := rfl

@[simp] theorem meet_nil_right (is : List (HalfOpen α)) : meet is [] = [] := by
  cases is <;> rfl

theorem meet_cons_cons (I J : HalfOpen α) (is js : List (HalfOpen α)) :
    meet (I :: is) (J :: js) =
      overlap I J ++ (if I.hi ≤ J.hi then meet is (J :: js) else meet (I :: is) js) := rfl

@[simp] theorem covers_overlap {I J : HalfOpen α} {x : α} :
    Covers (overlap I J) x ↔ I.Mem x ∧ J.Mem x := by
  rw [overlap, covers_between, max_le_iff, lt_min_iff, Mem, Mem]
  tauto

theorem canonical_between (lo hi : α) : Canonical (between lo hi) := by
  rw [between]
  split <;> simp [Canonical]

/-- One step of the meet sweep, whichever cursor moved: what stands after the
overlap starts past its end. -/
private theorem Canonical.overlap_append {I J : HalfOpen α} {rest : List (HalfOpen α)}
    (hrest : Canonical rest) (hpast : ∀ K ∈ rest, min I.hi J.hi < K.lo) :
    Canonical (overlap I J ++ rest) := by
  refine List.pairwise_append.2 ⟨canonical_between _ _, hrest, fun K hK K' hK' => ?_⟩
  rw [(mem_between hK).2]
  exact hpast K' hK'

/-- What the meet sweep keeps: canonicity, the shared points, and that each
member starts within a member of either operand. -/
theorem meet_spec {is js : List (HalfOpen α)} (hi : Canonical is) (hj : Canonical js) :
    Canonical (meet is js) ∧ (∀ x, Covers (meet is js) x ↔ Covers is x ∧ Covers js x) ∧
      (∀ K ∈ meet is js, (∃ I ∈ is, I.lo ≤ K.lo) ∧ ∃ J ∈ js, J.lo ≤ K.lo) := by
  induction is generalizing js with
  | nil => simp [Canonical]
  | cons I is ihi =>
    induction js with
    | nil => simp [Canonical]
    | cons J js ihj =>
      rw [meet_cons_cons]
      have hstart : ∀ K ∈ overlap I J,
          (∃ I' ∈ I :: is, I'.lo ≤ K.lo) ∧ ∃ J' ∈ J :: js, J'.lo ≤ K.lo := by
        intro K hK
        rw [(mem_between hK).1]
        exact ⟨⟨I, by simp, le_max_left _ _⟩, ⟨J, by simp, le_max_right _ _⟩⟩
      split
      · next hle =>
        obtain ⟨hc, hcov, hlo⟩ := ihi hi.of_cons hj
        refine ⟨hc.overlap_append fun K hK => ?_, fun x => ?_, fun K hK => ?_⟩
        · obtain ⟨I', hI', hle'⟩ := (hlo K hK).1
          rw [min_eq_left hle]
          exact ((List.pairwise_cons.1 hi).1 I' hI').trans_le hle'
        · -- past `I` no later member of `js` can meet it
          rw [covers_append, covers_overlap, hcov, covers_cons, covers_cons]
          constructor
          · rintro (⟨h1, h2⟩ | ⟨h1, h2⟩)
            · exact ⟨.inl h1, .inl h2⟩
            · exact ⟨.inr h1, h2⟩
          · rintro ⟨h1 | h1, h2⟩
            · rcases h2 with h2 | h2
              · exact .inl ⟨h1, h2⟩
              · exact absurd (hj.lt_of_covers h2) (not_lt.2 (h1.2.le.trans hle))
            · exact .inr ⟨h1, h2⟩
        · rcases List.mem_append.1 hK with hK | hK
          · exact hstart K hK
          · obtain ⟨⟨I', hI', h1⟩, h2⟩ := hlo K hK
            exact ⟨⟨I', List.mem_cons_of_mem _ hI', h1⟩, h2⟩
      · next hle =>
        obtain ⟨hc, hcov, hlo⟩ := ihj hj.of_cons
        have hlt : J.hi < I.hi := not_le.1 hle
        refine ⟨hc.overlap_append fun K hK => ?_, fun x => ?_, fun K hK => ?_⟩
        · obtain ⟨J', hJ', hle'⟩ := (hlo K hK).2
          rw [min_eq_right hlt.le]
          exact ((List.pairwise_cons.1 hj).1 J' hJ').trans_le hle'
        · rw [covers_append, covers_overlap, hcov, covers_cons, covers_cons]
          constructor
          · rintro (⟨h1, h2⟩ | ⟨h1, h2⟩)
            · exact ⟨.inl h1, .inl h2⟩
            · exact ⟨h1, .inr h2⟩
          · rintro ⟨h1, h2 | h2⟩
            · rcases h1 with h1 | h1
              · exact .inl ⟨h1, h2⟩
              · exact absurd (hi.lt_of_covers h1) (not_lt.2 (h2.2.le.trans hlt.le))
            · exact .inr ⟨h1, h2⟩
        · rcases List.mem_append.1 hK with hK | hK
          · exact hstart K hK
          · obtain ⟨h1, J', hJ', h2⟩ := hlo K hK
            exact ⟨h1, J', List.mem_cons_of_mem _ hJ', h2⟩

/-- What `[lo, hi)` keeps outside `bs`, `lo` moving up past each member. -/
def carve (lo hi : α) : List (HalfOpen α) → List (HalfOpen α)
  | [] => between lo hi
  | b :: bs =>
      if b.lo < hi then
        between lo b.lo ++
          (if hi ≤ max lo b.hi then between (max lo b.hi) hi else carve (max lo b.hi) hi bs)
      else between lo hi

/-- Carve each member of `as` in turn, the members of `bs` behind it dropped
for good. -/
def diff : List (HalfOpen α) → List (HalfOpen α) → List (HalfOpen α)
  | [], _ => []
  | a :: as, bs =>
      carve a.lo a.hi (bs.dropWhile fun b => b.hi ≤ a.lo) ++
        diff as (bs.dropWhile fun b => b.hi ≤ a.lo)

@[simp] theorem between_of_le {lo hi : α} (h : hi ≤ lo) : between lo hi = [] := by
  rw [between, dif_neg (not_lt.2 h)]

theorem length_between_le (lo hi : α) : (between lo hi).length ≤ 1 := by
  rw [between]
  split <;> simp

theorem carve_of_le {lo hi : α} (h : hi ≤ lo) (bs : List (HalfOpen α)) : carve lo hi bs = [] := by
  induction bs with
  | nil => simp [carve, h]
  | cons b bs ih =>
    rw [carve]
    split
    · next hb => simp [h, hb.le.trans h]
    · simp [h]

/-- The walk's early exit changes nothing: past `hi` no piece is left. -/
theorem carve_cons (lo hi : α) (b : HalfOpen α) (bs : List (HalfOpen α)) :
    carve lo hi (b :: bs) =
      if b.lo < hi then between lo b.lo ++ carve (max lo b.hi) hi bs else between lo hi := by
  rw [carve]
  split
  · split
    · next hpast => rw [carve_of_le hpast, between_of_le hpast]
    · rfl
  · rfl

/-- What one carve keeps: canonicity, the points outside `bs`, its bounds, and
at most one piece more than there are starts inside. -/
theorem carve_spec (lo hi : α) {bs : List (HalfOpen α)} (h : Canonical bs) :
    Canonical (carve lo hi bs) ∧
      (∀ x, Covers (carve lo hi bs) x ↔ (lo ≤ x ∧ x < hi) ∧ ¬ Covers bs x) ∧
      (∀ K ∈ carve lo hi bs, lo ≤ K.lo ∧ K.hi ≤ hi) ∧
      (carve lo hi bs).length ≤ bs.countP (fun b => lo < b.lo ∧ b.lo < hi) + 1 := by
  induction bs generalizing lo with
  | nil =>
    refine ⟨canonical_between _ _, by simp [carve], fun K hK => ?_, length_between_le _ _⟩
    rw [(mem_between hK).1, (mem_between hK).2]
    exact ⟨le_rfl, le_rfl⟩
  | cons b bs ih =>
    rw [carve_cons]
    split
    · next hb =>
      obtain ⟨hc, hcov, hbd, hlen⟩ := ih (max lo b.hi) h.of_cons
      refine ⟨List.pairwise_append.2 ⟨canonical_between _ _, hc, fun K hK K' hK' => ?_⟩,
        fun x => ?_, fun K hK => ?_, ?_⟩
      · rw [(mem_between hK).2]
        exact b.lt.trans_le ((le_max_right lo b.hi).trans (hbd K' hK').1)
      · -- below `b` nothing of `bs` is covered; inside `b` everything is
        rw [covers_append, covers_between, hcov, covers_cons, max_le_iff]
        constructor
        · rintro (⟨h1, h2⟩ | ⟨⟨⟨h1, h2⟩, h3⟩, h4⟩)
          · refine ⟨⟨h1, h2.trans hb⟩, fun hx => ?_⟩
            exact not_lt.2 (h.lo_le_of_covers (covers_cons.2 hx)) h2
          · exact ⟨⟨h1, h3⟩, fun hx => hx.elim (fun hm => not_lt.2 h2 hm.2) h4⟩
        · rintro ⟨⟨h1, h2⟩, h3⟩
          rcases lt_or_ge x b.lo with hx | hx
          · exact .inl ⟨h1, hx⟩
          · exact .inr ⟨⟨⟨h1, not_lt.1 fun hx' => h3 (.inl ⟨hx, hx'⟩)⟩, h2⟩, fun hm => h3 (.inr hm)⟩
      · rcases List.mem_append.1 hK with hK | hK
        · rw [(mem_between hK).1, (mem_between hK).2]
          exact ⟨le_rfl, hb.le⟩
        · exact ⟨(le_max_left _ _).trans (hbd K hK).1, (hbd K hK).2⟩
      · have hfewer : bs.countP (fun c => max lo b.hi < c.lo ∧ c.lo < hi) ≤
            bs.countP (fun c => lo < c.lo ∧ c.lo < hi) :=
          List.countP_mono_left fun c _ hc => by
            simp only [decide_eq_true_eq, max_lt_iff] at hc ⊢
            exact ⟨hc.1.1, hc.2⟩
        rw [List.length_append, List.countP_cons]
        by_cases hlo : lo < b.lo
        · have := length_between_le lo b.lo
          simp only [hlo, hb, and_self, decide_true, if_true]
          omega
        · simp only [between_of_le (not_lt.1 hlo), List.length_nil]
          omega
    · next hb =>
      refine ⟨canonical_between _ _, fun x => ?_, fun K hK => ?_,
        (length_between_le _ _).trans (Nat.le_add_left _ _)⟩
      · rw [covers_between, iff_self_and]
        exact fun hx hm => hb ((h.lo_le_of_covers hm).trans_lt hx.2)
      · rw [(mem_between hK).1, (mem_between hK).2]
        exact ⟨le_rfl, le_rfl⟩

theorem covers_dropWhile {bs : List (HalfOpen α)} (h : Canonical bs) {lo x : α} (hx : lo ≤ x) :
    Covers (bs.dropWhile fun b => b.hi ≤ lo) x ↔ Covers bs x := by
  induction bs with
  | nil => simp
  | cons b bs ih =>
    rw [List.dropWhile_cons]
    split
    · next hb =>
      rw [ih h.of_cons, covers_cons, iff_or_self]
      exact fun hm => absurd (hx.trans_lt hm.2) (not_lt.2 (of_decide_eq_true hb))
    · rfl

private theorem countP_add_countP_le {β : Type*} (p q r : β → Bool) (l : List β)
    (hp : ∀ x, p x → r x ∧ q x = false) (hq : ∀ x, q x → r x) :
    l.countP p + l.countP q ≤ l.countP r := by
  induction l with
  | nil => simp
  | cons x l ih =>
    rw [List.countP_cons, List.countP_cons, List.countP_cons]
    have := hp x
    have := hq x
    grind

/-- What the difference sweep keeps: canonicity, the points of `as` outside
`bs`, that each member starts within one of `as`, and at most one piece more
per start of `bs`. -/
theorem diff_spec {as bs : List (HalfOpen α)} (ha : Canonical as) (hb : Canonical bs) {c : α}
    (hc : ∀ a ∈ as, c ≤ a.lo) :
    Canonical (diff as bs) ∧
      (∀ x, Covers (diff as bs) x ↔ Covers as x ∧ ¬ Covers bs x) ∧
      (∀ K ∈ diff as bs, ∃ a ∈ as, a.lo ≤ K.lo) ∧
      (diff as bs).length ≤ as.length + bs.countP (fun b => c ≤ b.lo) := by
  induction as generalizing bs c with
  | nil => simp [diff, Canonical]
  | cons a as ih =>
    have hsub : (bs.dropWhile fun b => b.hi ≤ a.lo).Sublist bs := List.dropWhile_sublist _
    obtain ⟨hafter, has⟩ := List.pairwise_cons.1 ha
    have hca : c ≤ a.lo := hc a (by simp)
    obtain ⟨hc1, hcov1, hbd1, hlen1⟩ := carve_spec a.lo a.hi (hb.sublist hsub)
    obtain ⟨hc2, hcov2, hlo2, hlen2⟩ :=
      ih has (hb.sublist hsub) (c := a.hi) fun a' h => (hafter a' h).le
    rw [diff]
    refine ⟨List.pairwise_append.2 ⟨hc1, hc2, fun K hK K' hK' => ?_⟩, fun x => ?_,
      fun K hK => ?_, ?_⟩
    · obtain ⟨a', ha', hle⟩ := hlo2 K' hK'
      exact (hbd1 K hK).2.trans_lt ((hafter a' ha').trans_le hle)
    · -- what was dropped lies below every point still to come
      have hdrop : ∀ {x}, a.lo ≤ x →
          (Covers (bs.dropWhile fun b => b.hi ≤ a.lo) x ↔ Covers bs x) :=
        fun hx => covers_dropWhile hb hx
      rw [covers_append, hcov1, hcov2, covers_cons, or_and_right]
      refine or_congr (and_congr_right fun hm => not_congr (hdrop hm.1))
        (and_congr_right fun hm => not_congr (hdrop ?_))
      exact a.lt.le.trans (ha.lt_of_covers hm).le
    · rcases List.mem_append.1 hK with hK | hK
      · exact ⟨a, by simp, (hbd1 K hK).1⟩
      · obtain ⟨a', ha', hle⟩ := hlo2 K hK
        exact ⟨a', List.mem_cons_of_mem _ ha', hle⟩
    · have hsplit := countP_add_countP_le (fun b : HalfOpen α => decide (a.lo < b.lo ∧ b.lo < a.hi))
        (fun b => decide (a.hi ≤ b.lo)) (fun b => decide (c ≤ b.lo))
        (bs.dropWhile fun b => b.hi ≤ a.lo)
        (fun b hb => by
          simp only [decide_eq_true_eq, decide_eq_false_iff_not] at hb ⊢
          exact ⟨hca.trans hb.1.le, not_le.2 hb.2⟩)
        (fun b hb => by
          simp only [decide_eq_true_eq] at hb ⊢
          exact hca.trans (a.lt.le.trans hb))
      have hfewer := hsub.countP_le (p := fun b => decide (c ≤ b.lo))
      rw [List.length_append, List.length_cons]
      omega

theorem diff_exact {as bs : List (HalfOpen α)} (ha : Canonical as) (hb : Canonical bs) :
    Canonical (diff as bs) ∧ (∀ x, Covers (diff as bs) x ↔ Covers as x ∧ ¬ Covers bs x) ∧
      (diff as bs).length ≤ as.length + bs.length := by
  cases as with
  | nil => simp [diff, Canonical]
  | cons a as =>
    obtain ⟨hc, hcov, -, hlen⟩ := diff_spec ha hb (c := a.lo) fun a' h =>
      ha.lo_le_of_covers ⟨a', h, a'.lo_mem⟩
    exact ⟨hc, hcov, hlen.trans (Nat.add_le_add_left List.countP_le_length _)⟩

/-- Every end of every member satisfies `P`. -/
def EndsIn (P : α → Prop) (l : List (HalfOpen α)) : Prop := ∀ I ∈ l, P I.lo ∧ P I.hi

section EndsIn

variable {P : α → Prop}

theorem endsIn_cons {I : HalfOpen α} {l : List (HalfOpen α)} :
    EndsIn P (I :: l) ↔ (P I.lo ∧ P I.hi) ∧ EndsIn P l := List.forall_mem_cons

theorem EndsIn.append {l l' : List (HalfOpen α)} (h : EndsIn P l) (h' : EndsIn P l') :
    EndsIn P (l ++ l') := fun I hI => (List.mem_append.1 hI).elim (h I) (h' I)

theorem endsIn_between {lo hi : α} (hlo : P lo) (hhi : P hi) : EndsIn P (between lo hi) := by
  intro I hI
  obtain ⟨rfl, rfl⟩ := mem_between hI
  exact ⟨hlo, hhi⟩

private theorem max_of_both {a b : α} (ha : P a) (hb : P b) : P (max a b) := by
  rcases max_choice a b with h | h <;> rwa [h]

private theorem min_of_both {a b : α} (ha : P a) (hb : P b) : P (min a b) := by
  rcases min_choice a b with h | h <;> rwa [h]

theorem EndsIn.coalesceFrom {run : HalfOpen α} {rest : List (HalfOpen α)}
    (h : EndsIn P (run :: rest)) : EndsIn P (coalesceFrom run rest) := by
  induction rest generalizing run with
  | nil => exact h
  | cons following rest ih =>
    obtain ⟨hrun, hrest⟩ := endsIn_cons.1 h
    obtain ⟨hfollowing, hrest'⟩ := endsIn_cons.1 hrest
    rw [HalfOpen.coalesceFrom]
    split
    · exact endsIn_cons.2 ⟨hrun, ih hrest⟩
    · split
      · exact ih (endsIn_cons.2 ⟨⟨hrun.1, hfollowing.2⟩, hrest'⟩)
      · exact ih (endsIn_cons.2 ⟨hrun, hrest'⟩)

theorem EndsIn.normalize {l : List (HalfOpen α)} (h : EndsIn P l) : EndsIn P (normalize l) := by
  have hperm := l.perm_insertionSort (fun I J => I.lo ≤ J.lo)
  have hsorted : EndsIn P (l.insertionSort (fun I J => I.lo ≤ J.lo)) :=
    fun I hI => h I (hperm.mem_iff.1 hI)
  rw [HalfOpen.normalize]
  split
  · exact fun I hI => absurd hI List.not_mem_nil
  · next heq => exact (heq ▸ hsorted).coalesceFrom

theorem EndsIn.meet {is js : List (HalfOpen α)} (hi : EndsIn P is) (hj : EndsIn P js) :
    EndsIn P (meet is js) := by
  induction is generalizing js with
  | nil => exact hi
  | cons I is ihi =>
    obtain ⟨hI, his⟩ := endsIn_cons.1 hi
    induction js with
    | nil => exact hj
    | cons J js ihj =>
      obtain ⟨hJ, hjs⟩ := endsIn_cons.1 hj
      rw [meet_cons_cons]
      refine (endsIn_between (max_of_both hI.1 hJ.1) (min_of_both hI.2 hJ.2)).append ?_
      split
      · exact ihi his hj
      · exact ihj hjs

theorem EndsIn.carve {lo hi : α} {bs : List (HalfOpen α)} (hb : EndsIn P bs) (hlo : P lo)
    (hhi : P hi) : EndsIn P (carve lo hi bs) := by
  induction bs generalizing lo with
  | nil => exact endsIn_between hlo hhi
  | cons b bs ih =>
    obtain ⟨hb', hbs⟩ := endsIn_cons.1 hb
    rw [carve_cons]
    split
    · exact (endsIn_between hlo hb'.1).append (ih hbs (max_of_both hlo hb'.2))
    · exact endsIn_between hlo hhi

theorem EndsIn.diff {as bs : List (HalfOpen α)} (ha : EndsIn P as) (hb : EndsIn P bs) :
    EndsIn P (diff as bs) := by
  induction as generalizing bs with
  | nil => exact ha
  | cons a as ih =>
    obtain ⟨ha', has⟩ := endsIn_cons.1 ha
    have hdrop : EndsIn P (bs.dropWhile fun b => b.hi ≤ a.lo) :=
      fun I hI => hb I ((List.dropWhile_sublist _).subset hI)
    exact (hdrop.carve ha'.1 ha'.2).append (ih has hdrop)

end EndsIn

end HalfOpen
