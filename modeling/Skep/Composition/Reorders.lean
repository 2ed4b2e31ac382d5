import Skep.Library.CommonSubsequence
import Skep.Library.OrdSet

/-!
# Composing reorders

Sides that each reorder the surviving base material are composed into one order. What a
side moved is what stands outside a longest part of its order that keeps the base's. What
no side moved keeps the base's order; each moved survivor keeps its slot among it; and two
moved survivors stand as the side that changed their order has them, else as the base.

## Main results

- `Composition.movedSet_least` — nothing smaller can be taken out to leave the base's order
- `Composition.composeReorders_exact` — what a composed order keeps, and when there is one
-/

namespace Composition

open ListOrder

/-- The base indices an order moved, relative to the base's order of the survivors. -/
def movedSet (surv order : List ℕ) : OrdSet ℕ :=
  let kept := Patience.longest (CommonSubsequence.keys surv order)
  .ofList ((order.zipIdx.filter fun e => !kept.contains e.2).map Prod.fst)

/-- The side that moved each survivor, none where an overlap was met: a survivor two sides moved. -/
def noteMoved (surv : List ℕ) (movedBy : ℕ → Option ℕ) (side : List ℕ × ℕ) : Option (ℕ → Option ℕ) :=
  let moved := movedSet surv side.1
  if moved.elems.any fun bi => (movedBy bi).isSome then none
  else some fun bi => if bi ∈ moved then some side.2 else movedBy bi

def movers (surv : List ℕ) (orders : List (List ℕ)) : Option (ℕ → Option ℕ) :=
  orders.zipIdx.foldlM (noteMoved surv) fun _ => none

section

variable (surv : List ℕ) (orders : List (List ℕ)) (movedBy : ℕ → Option ℕ)

/-- Past the end of every position. -/
def unplaced : ℕ := 2 ^ 64 - 1

/-- Count the unmoved material of a side's order, and note where its own moved survivors stand. -/
def noteSlot (side : ℕ) (acc : (ℕ → ℕ) × ℕ) (bi : ℕ) : (ℕ → ℕ) × ℕ :=
  match movedBy bi with
  | none => (acc.1, acc.2 + 1)
  | some mover => if mover = side then (Function.update acc.1 bi acc.2, acc.2) else acc

def noteSlots (slot : ℕ → ℕ) (side : List ℕ × ℕ) : ℕ → ℕ :=
  (side.1.foldl (noteSlot movedBy side.2) (slot, 0)).1

/-- Each moved survivor's slot among the unmoved material. -/
def slots : ℕ → ℕ := orders.zipIdx.foldl (noteSlots movedBy) fun _ => unplaced

def kept : List ℕ := surv.filter fun bi => (movedBy bi).isNone

def moved : List ℕ := surv.filter fun bi => (movedBy bi).isSome

def posIn (order : List ℕ) (bi : ℕ) : ℕ := (place order bi).getD unplaced

/-- Whether a survivor comes before another: by the side that changed their order, else by the
base. -/
def before (x y : ℕ) : Bool :=
  let base := decide (posIn surv x < posIn surv y)
  let own := fun side => decide (posIn (orders.getD side []) x < posIn (orders.getD side []) y)
  match [movedBy x, movedBy y].reduceOption.find? fun side => own side != base with
  | some side => own side
  | none => base

/-- The moved survivors of each slot, in their order, before the unmoved one the slot precedes. -/
def spineFrom (slot : ℕ → ℕ) (moved : List ℕ) (before : ℕ → ℕ → Bool) : ℕ → List ℕ → Option (List ℕ)
  | s, [] => drain before moved.length (moved.filter fun bi => slot bi == s)
  | s, next :: kept => do
      let here ← drain before moved.length (moved.filter fun bi => slot bi == s)
      let rest ← spineFrom slot moved before (s + 1) kept
      some (here ++ next :: rest)

/-- Whether the slots stand as the pairs do. -/
def slotsAgree (slot : ℕ → ℕ) (moved : List ℕ) (before : ℕ → ℕ → Bool) : Bool :=
  decide (moved.Pairwise fun x y => slot x = slot y ∨ decide (slot x < slot y) = before x y)

/-- Compose two or more sides' reorders into one order of the survivors. -/
def composeReorders : Option (List ℕ) := do
  let movedBy ← movers surv orders
  let slot := slots orders movedBy
  let before := before surv orders movedBy
  if slotsAgree slot (moved surv movedBy) before then
    spineFrom slot (moved surv movedBy) before 0 (kept surv movedBy)
  else none

end

-- What an order moved

section

variable {surv order : List ℕ}

theorem mem_of_mem_movedSet {x : ℕ} (h : x ∈ movedSet surv order) : x ∈ order := by
  rw [movedSet, OrdSet.mem_ofList, List.mem_map] at h
  obtain ⟨e, he, rfl⟩ := h
  exact List.fst_mem_of_mem_zipIdx (List.mem_of_mem_filter he)

/-- What an order moved stands outside the longest part. -/
theorem mem_movedSet (horder : order.Nodup) {x : ℕ} : x ∈ movedSet surv order ↔
    x ∈ order ∧ x ∉ CommonSubsequence.longest surv order := by
  rw [CommonSubsequence.mem_longest, movedSet, OrdSet.mem_ofList, List.mem_map]
  simp only [List.mem_filter, List.mem_zipIdx_iff_getElem?, Bool.not_eq_true', List.contains_eq_mem,
    decide_eq_false_iff_not, Prod.exists, exists_and_right, exists_eq_right]
  constructor
  · rintro ⟨i, hi, hout⟩
    refine ⟨List.mem_of_getElem? hi, ?_⟩
    rintro ⟨j, hj, hx⟩
    rw [← place_eq_some_iff horder] at hi hx
    rw [hi, Option.some.injEq] at hx
    exact hout (hx ▸ hj)
  · rintro ⟨hx, hout⟩
    obtain ⟨i, hi⟩ := List.getElem?_of_mem hx
    exact ⟨i, hi, fun hkept => hout ⟨i, hkept, hi⟩⟩

variable (hsurv : surv.Nodup) (horder : order.Perm surv)

include hsurv horder

/-- What an order did not move keeps the base's order. -/
theorem before_of_unmoved {x y : ℕ} (hx : x ∉ movedSet surv order) (hy : y ∉ movedSet surv order)
    (h : Before order x y) : Before surv x y := by
  have hnodup := horder.nodup_iff.2 hsurv
  have hkept : ∀ z ∈ order, z ∉ movedSet surv order → z ∈ CommonSubsequence.longest surv order := by
    intro z hz hnot
    by_contra hout
    exact hnot ((mem_movedSet hnodup).2 ⟨hz, hout⟩)
  rcases before_total (hkept x h.mem_left hx) (hkept y h.mem_right hy) (h.ne hnodup) with hxy | hyx
  · exact hxy.of_sublist (CommonSubsequence.sublist_left hsurv hnodup)
  · exact absurd (hyx.of_sublist (CommonSubsequence.sublist_right hsurv hnodup)) (h.asymm hnodup)

/-- An order moved the least that can be taken out to leave the base's order. -/
theorem movedSet_least :
    (∀ x ∈ movedSet surv order, x ∈ order) ∧
      (order.filter fun x => decide (x ∉ movedSet surv order)).Pairwise (Before surv) ∧
      ∀ t : Finset ℕ, (order.filter fun x => decide (x ∉ t)).Pairwise (Before surv) →
        (movedSet surv order).elems.length ≤ t.card := by
  have hnodup := horder.nodup_iff.2 hsurv
  refine ⟨fun x => mem_of_mem_movedSet, ?_, fun t ht => ?_⟩
  · refine List.pairwise_iff_forall_sublist.2 fun {x y} hxy => ?_
    have hx : x ∉ movedSet surv order := of_decide_eq_true (List.mem_filter.1 (Before.mem_left hxy)).2
    have hy : y ∉ movedSet surv order := of_decide_eq_true (List.mem_filter.1 (Before.mem_right hxy)).2
    exact before_of_unmoved hsurv horder hx hy (hxy.trans List.filter_sublist)
  · -- what `t` leaves is common to both, so no longer than what the order kept
    have hleft : (order.filter fun x => decide (x ∉ t)).Sublist surv :=
      sublist_of_before (hnodup.filter _) hsurv
        (fun x hx => horder.mem_iff.1 (List.mem_of_mem_filter hx)) fun x y hxy => hxy.of_pairwise ht
    have hkept : (CommonSubsequence.longest surv order).length ≤
        (order.filter fun x => decide (x ∉ movedSet surv order)).length := by
      refine (List.subperm_of_subset (CommonSubsequence.nodup_longest hsurv hnodup) fun x hx => ?_).length_le
      rw [List.mem_filter, decide_eq_true_eq, mem_movedSet hnodup]
      exact ⟨(CommonSubsequence.sublist_right hsurv hnodup).subset hx, fun h => h.2 hx⟩
    have hle := (CommonSubsequence.length_le_longest hsurv hnodup hleft List.filter_sublist).trans hkept
    have hparts := (List.filter_append_perm (fun x => decide (x ∉ movedSet surv order)) order).length_eq
    have hparts' := (List.filter_append_perm (fun x => decide (x ∉ t)) order).length_eq
    have hmoved : (movedSet surv order).elems.length ≤
        (order.filter fun x => !decide (x ∉ movedSet surv order)).length := by
      refine (List.subperm_of_subset (movedSet surv order).nodup fun x hx => ?_).length_le
      rw [List.mem_filter]
      exact ⟨mem_of_mem_movedSet hx, by simpa using hx⟩
    have htaken : (order.filter fun x => !decide (x ∉ t)).length ≤ t.card := by
      rw [← List.toFinset_card_of_nodup (hnodup.filter _)]
      refine Finset.card_le_card fun x hx => ?_
      simpa using (List.mem_filter.1 (List.mem_toFinset.1 hx)).2
    rw [List.length_append] at hparts hparts'
    omega

end

-- What the sides ask

section

variable (surv : List ℕ) (orders : List (List ℕ))

/-- No side moved the survivor. -/
def isUnmoved (x : ℕ) : Bool := orders.all fun order => decide (x ∉ movedSet surv order)

/-- No two sides moved one survivor. -/
def MovedApart : Prop := orders.Pairwise fun order order' => ∀ x ∈ movedSet surv order, x ∉ movedSet surv order'

/-- The slot that a side's order gives a survivor among the unmoved material. -/
def slotIn (order : List ℕ) (x : ℕ) : ℕ :=
  ((order.takeWhile fun y => decide (y ≠ x)).filter (isUnmoved surv orders)).length

/-- An order has the two the other way about than the base. -/
def Changes (order : List ℕ) (x y : ℕ) : Prop := ¬ (Before order x y ↔ Before surv x y)

/-- The side that moved one of the two survivors changed their order. -/
def Changed (x y : ℕ) : Prop :=
  ∃ order ∈ orders, (x ∈ movedSet surv order ∨ y ∈ movedSet surv order) ∧ Changes surv order x y

/-- One moved survivor is to stand before another: by the side that changed their order, else by the
base. -/
def Demands (x y : ℕ) : Prop :=
  x ≠ y ∧ x ∈ surv ∧ y ∈ surv ∧ isUnmoved surv orders x = false ∧ isUnmoved surv orders y = false ∧
    (Before surv x y ↔ ¬ Changed surv orders x y)

/-- The slots stand as the survivors are to. -/
def SlotsAgree : Prop :=
  ∀ order ∈ orders, ∀ order' ∈ orders, ∀ x ∈ movedSet surv order, ∀ y ∈ movedSet surv order',
    slotIn surv orders order x < slotIn surv orders order' y → Demands surv orders x y

def Acyclic : Prop := ∀ x, ¬ Relation.TransGen (Demands surv orders) x x

end

-- Who moved what

section

variable {surv : List ℕ} {orders : List (List ℕ)}

theorem noteMoved_eq_some_iff {movedBy out : ℕ → Option ℕ} {side : List ℕ × ℕ} :
    noteMoved surv movedBy side = some out ↔ (∀ x ∈ movedSet surv side.1, movedBy x = none) ∧
      out = fun x => if x ∈ movedSet surv side.1 then some side.2 else movedBy x := by
  rw [noteMoved]
  by_cases hany : ((movedSet surv side.1).elems.any fun x => (movedBy x).isSome) = true
  · simp only [hany, if_true]
    refine ⟨(fun h => nomatch h), ?_⟩
    rintro ⟨hnone, -⟩
    obtain ⟨x, hx, hsome⟩ := List.any_eq_true.1 hany
    rw [hnone x hx] at hsome
    cases hsome
  · simp only [if_neg hany, Option.some.injEq]
    have hnone : ∀ x ∈ movedSet surv side.1, movedBy x = none := fun x hx => by
      cases hx' : movedBy x with
      | none => rfl
      | some k => exact absurd (List.any_eq_true.2 ⟨x, hx, by rw [hx']; rfl⟩) hany
    exact ⟨fun h => ⟨hnone, h.symm⟩, fun h => h.2.symm⟩

/-- The fold over the sides succeeds where no survivor is moved twice. -/
theorem foldlM_noteMoved (sides : List (List ℕ × ℕ)) (movedBy : ℕ → Option ℕ) :
    (∃ out, sides.foldlM (noteMoved surv) movedBy = some out) ↔
      (∀ side ∈ sides, ∀ x ∈ movedSet surv side.1, movedBy x = none) ∧
        sides.Pairwise fun side side' => ∀ x ∈ movedSet surv side.1, x ∉ movedSet surv side'.1 := by
  induction sides generalizing movedBy with
  | nil => simp
  | cons side sides ih =>
    rw [List.foldlM_cons, List.forall_mem_cons, List.pairwise_cons]
    by_cases hnone : ∀ x ∈ movedSet surv side.1, movedBy x = none
    · rw [noteMoved_eq_some_iff.2 ⟨hnone, rfl⟩, Option.bind_eq_bind, Option.bind_some, ih]
      constructor
      · rintro ⟨hall, hpair⟩
        refine ⟨⟨hnone, fun side' hside' x hx => ?_⟩, fun side' hside' x hx hx' => ?_, hpair⟩
        · have := hall side' hside' x hx
          split at this
          · cases this
          · exact this
        · have := hall side' hside' x hx'
          rw [if_pos hx] at this
          cases this
      · rintro ⟨⟨-, hall⟩, hdisj, hpair⟩
        refine ⟨fun side' hside' x hx => ?_, hpair⟩
        rw [if_neg fun hx' => hdisj side' hside' x hx' hx]
        exact hall side' hside' x hx
    · have hnote : noteMoved surv movedBy side = none := by
        rw [Option.eq_none_iff_forall_ne_some]
        exact fun out hout => hnone (noteMoved_eq_some_iff.1 hout).1
      rw [hnote, Option.bind_eq_bind, Option.bind_none]
      refine ⟨fun h => ?_, fun h => absurd h.1.1 hnone⟩
      obtain ⟨out, hout⟩ := h
      cases hout

theorem mover_iff {sides : List (List ℕ × ℕ)} {movedBy out : ℕ → Option ℕ}
    (h : sides.foldlM (noteMoved surv) movedBy = some out) {x k : ℕ} :
    out x = some k ↔ movedBy x = some k ∨ ∃ order, (order, k) ∈ sides ∧ x ∈ movedSet surv order := by
  induction sides generalizing movedBy with
  | nil =>
    cases h
    simp
  | cons side sides ih =>
    rw [List.foldlM_cons, Option.bind_eq_bind, Option.bind_eq_some_iff] at h
    obtain ⟨next, hnext, h⟩ := h
    obtain ⟨hnone, rfl⟩ := noteMoved_eq_some_iff.1 hnext
    rw [ih h]
    by_cases hx : x ∈ movedSet surv side.1
    · rw [if_pos hx, hnone x hx]
      constructor
      · rintro (hk | ⟨order, hside, hmem⟩)
        · cases hk
          exact .inr ⟨side.1, List.mem_cons_self, hx⟩
        · exact .inr ⟨order, List.mem_cons_of_mem _ hside, hmem⟩
      · rintro (hk | ⟨order, hside, hmem⟩)
        · cases hk
        · rcases List.mem_cons.1 hside with rfl | hside
          · exact .inl rfl
          · exact .inr ⟨order, hside, hmem⟩
    · rw [if_neg hx]
      refine or_congr_right ⟨?_, ?_⟩
      · rintro ⟨order, hside, hmem⟩
        exact ⟨order, List.mem_cons_of_mem _ hside, hmem⟩
      · rintro ⟨order, hside, hmem⟩
        rcases List.mem_cons.1 hside with rfl | hside
        · exact absurd hmem hx
        · exact ⟨order, hside, hmem⟩

/-- There is one mover of each survivor where no two sides moved one. -/
theorem exists_movers_iff : (∃ movedBy, movers surv orders = some movedBy) ↔ MovedApart surv orders := by
  rw [movers, foldlM_noteMoved, MovedApart]
  have hmap : orders = orders.zipIdx.map Prod.fst := (List.zipIdx_map_fst 0 orders).symm
  conv_rhs => rw [hmap, List.pairwise_map]
  simp

theorem movers_spec {movedBy : ℕ → Option ℕ} (h : movers surv orders = some movedBy) {x k : ℕ} :
    movedBy x = some k ↔ ∃ order, orders[k]? = some order ∧ x ∈ movedSet surv order := by
  rw [mover_iff h]
  simp [List.mem_zipIdx_iff_getElem?]

theorem movers_none_iff {movedBy : ℕ → Option ℕ} (h : movers surv orders = some movedBy) {x : ℕ} :
    movedBy x = none ↔ isUnmoved surv orders x = true := by
  rw [isUnmoved, List.all_eq_true, Option.eq_none_iff_forall_ne_some]
  simp only [decide_eq_true_eq, ne_eq, movers_spec h]
  constructor
  · intro hall order horder hx
    obtain ⟨k, hk⟩ := List.getElem?_of_mem horder
    exact hall k ⟨order, hk, hx⟩
  · rintro hall k ⟨order, hk, hx⟩
    exact hall order (List.mem_of_getElem? hk) hx

-- The slots

theorem foldl_noteSlot (movedBy : ℕ → Option ℕ) (k : ℕ) {l : List ℕ} (hl : l.Nodup) (slot : ℕ → ℕ) (seen : ℕ)
    (x : ℕ) : (l.foldl (noteSlot movedBy k) (slot, seen)).1 x = if x ∈ l ∧ movedBy x = some k then
      seen + ((l.takeWhile fun y => decide (y ≠ x)).filter fun y => (movedBy y).isNone).length
    else slot x := by
  induction l generalizing slot seen with
  | nil => simp
  | cons a l ih =>
    obtain ⟨ha, hl⟩ := List.nodup_cons.1 hl
    have hstep : (noteSlot movedBy k (slot, seen) a).2 = seen + if (movedBy a).isNone then 1 else 0 := by
      rw [noteSlot]
      cases movedBy a with
      | none => rfl
      | some mover =>
        by_cases hk : mover = k
        · simp [hk]
        · simp [hk]
    rw [List.foldl_cons, ← Prod.mk.eta (p := noteSlot movedBy k (slot, seen) a), ih hl, hstep]
    by_cases hax : a = x
    · subst hax
      rw [if_neg fun h => ha h.1, List.takeWhile_cons_of_neg (by simp), noteSlot]
      cases hm : movedBy a with
      | none => simp
      | some mover =>
        by_cases hk : mover = k
        · simp [hk]
        · simp [hk]
    · rw [List.takeWhile_cons_of_pos (by simpa using hax)]
      have hslot : (noteSlot movedBy k (slot, seen) a).1 x = slot x := by
        rw [noteSlot]
        cases movedBy a with
        | none => rfl
        | some mover =>
          by_cases hk : mover = k
          · simp [hk, Function.update_of_ne (Ne.symm hax)]
          · simp [hk]
      have hmem : x ∈ a :: l ↔ x ∈ l := by simp [Ne.symm hax]
      rw [hslot]
      refine if_congr (and_congr hmem.symm Iff.rfl) ?_ rfl
      cases hm : (movedBy a).isNone with
      | true =>
        rw [List.filter_cons_of_pos (p := fun y => (movedBy y).isNone) hm, List.length_cons, if_pos rfl]
        omega
      | false =>
        rw [List.filter_cons_of_neg (p := fun y => (movedBy y).isNone) (by simp [hm]), if_neg (by simp)]
        omega

/-- A side notes the slots of what it moved, and of nothing else. -/
theorem foldl_noteSlots {movedBy : ℕ → Option ℕ} {x k : ℕ} (hx : movedBy x = some k)
    {sides : List (List ℕ × ℕ)} (hnodup : ∀ side ∈ sides, side.1.Nodup) (slot : ℕ → ℕ) :
    (k ∉ sides.map Prod.snd → sides.foldl (noteSlots movedBy) slot x = slot x) ∧
      ∀ order, (order, k) ∈ sides → (sides.map Prod.snd).Nodup → x ∈ order →
        sides.foldl (noteSlots movedBy) slot x =
          ((order.takeWhile fun y => decide (y ≠ x)).filter fun y => (movedBy y).isNone).length := by
  induction sides generalizing slot with
  | nil => exact ⟨fun _ => rfl, fun order h => (nomatch h)⟩
  | cons side sides ih =>
    have hstep := foldl_noteSlot movedBy side.2 (hnodup side List.mem_cons_self) slot 0 x
    obtain ⟨hout, hin⟩ := ih (fun side' h => hnodup side' (List.mem_cons_of_mem _ h)) (noteSlots movedBy slot side)
    constructor
    · intro hk
      rw [List.map_cons, List.mem_cons, not_or] at hk
      rw [List.foldl_cons, hout hk.2, noteSlots, hstep, if_neg]
      rintro ⟨-, hmover⟩
      rw [hx, Option.some.injEq] at hmover
      exact hk.1 hmover
    · intro order hmem hks hxorder
      rw [List.map_cons, List.nodup_cons] at hks
      rcases List.mem_cons.1 hmem with rfl | hmem
      · rw [List.foldl_cons, hout hks.1, noteSlots, hstep, if_pos ⟨hxorder, hx⟩, Nat.zero_add]
      · exact hin order hmem hks.2 hxorder

theorem slots_spec (hnodup : ∀ order ∈ orders, order.Nodup) {movedBy : ℕ → Option ℕ}
    (h : movers surv orders = some movedBy) {order : List ℕ} (horder : order ∈ orders) {x : ℕ}
    (hx : x ∈ movedSet surv order) : slots orders movedBy x = slotIn surv orders order x := by
  obtain ⟨k, hk⟩ := List.getElem?_of_mem horder
  have hmover := (movers_spec h).2 ⟨order, hk, hx⟩
  have hnone : (fun y => (movedBy y).isNone) = isUnmoved surv orders := by
    funext y
    rw [Bool.eq_iff_iff, Option.isNone_iff_eq_none, movers_none_iff h]
  have hsides : ∀ side ∈ orders.zipIdx, side.1.Nodup := fun side hside =>
    hnodup _ (List.fst_mem_of_mem_zipIdx hside)
  rw [slots, (foldl_noteSlots hmover hsides _).2 order (List.mem_zipIdx_iff_getElem?.2 hk) ?_
    (mem_of_mem_movedSet hx), slotIn, hnone]
  rw [List.zipIdx_map_snd]
  exact List.nodup_range'

-- The pairs

theorem posIn_lt_iff {order : List ℕ} (horder : order.Nodup) {x y : ℕ} (hx : x ∈ order) (hy : y ∈ order) :
    posIn order x < posIn order y ↔ Before order x y := by
  obtain ⟨n, hn⟩ := exists_place horder hx
  obtain ⟨m, hm⟩ := exists_place horder hy
  rw [posIn, posIn, hn, hm]
  exact place_lt_iff horder hn hm

section

variable (hsurv : surv.Nodup) (horders : ∀ order ∈ orders, order.Perm surv) {movedBy : ℕ → Option ℕ}
  (h : movers surv orders = some movedBy) {x y : ℕ} (hx : x ∈ surv) (hy : y ∈ surv)

include hsurv horders h hx hy

theorem before_iff_changed : before surv orders movedBy x y = true ↔
    (Before surv x y ↔ ¬ Changed surv orders x y) := by
  have hbase := posIn_lt_iff hsurv hx hy
  have hown : ∀ {k order}, orders[k]? = some order →
      (posIn (orders.getD k []) x < posIn (orders.getD k []) y ↔ Before order x y) := by
    intro k order hk
    have hperm := horders order (List.mem_of_getElem? hk)
    rw [List.getD_eq_getElem?_getD, hk]
    exact posIn_lt_iff (hperm.nodup_iff.2 hsurv) (hperm.mem_iff.2 hx) (hperm.mem_iff.2 hy)
  have hmem : ∀ k, k ∈ [movedBy x, movedBy y].reduceOption ↔
      ∃ order, orders[k]? = some order ∧ (x ∈ movedSet surv order ∨ y ∈ movedSet surv order) := by
    intro k
    rw [List.reduceOption_mem_iff, List.mem_cons, List.mem_singleton, eq_comm (b := movedBy x),
      eq_comm (b := movedBy y), movers_spec h, movers_spec h, ← exists_or]
    simp only [and_or_left]
  have hdiffers : ∀ {k order}, orders[k]? = some order → (Changes surv order x y ↔
      (decide (posIn (orders.getD k []) x < posIn (orders.getD k []) y) !=
        decide (posIn surv x < posIn surv y)) = true) := by
    intro k order hk
    rw [Changes, ← hown hk, ← hbase, bne_iff_ne, ne_eq, decide_eq_decide]
  simp only [before]
  split
  · next k hfind =>
    obtain ⟨order, hk, hmoved⟩ := (hmem k).1 (List.mem_of_find?_eq_some hfind)
    have hdiff := List.find?_some hfind
    have hchange := (hdiffers hk).2 hdiff
    have hchanged : Changed surv orders x y := ⟨order, List.mem_of_getElem? hk, hmoved, hchange⟩
    rw [decide_eq_true_eq, hown hk]
    rw [Changes] at hchange
    tauto
  · next hfind =>
    have hkept : ¬ Changed surv orders x y := by
      rintro ⟨order, horder, hmoved, hchange⟩
      obtain ⟨k, hk⟩ := List.getElem?_of_mem horder
      exact List.find?_eq_none.1 hfind k ((hmem k).2 ⟨order, hk, hmoved⟩) ((hdiffers hk).1 hchange)
    rw [decide_eq_true_eq, hbase]
    tauto

omit h in
theorem changed_comm (hne : x ≠ y) : Changed surv orders x y ↔ Changed surv orders y x := by
  have hswap : ∀ {l : List ℕ}, l.Nodup → x ∈ l → y ∈ l → (Before l x y ↔ ¬ Before l y x) := fun hl hx hy =>
    (not_before_iff hl hy hx (Ne.symm hne)).symm
  have hchanges : ∀ order ∈ orders, (Changes surv order x y ↔ Changes surv order y x) := by
    intro order horder
    have hperm := horders order horder
    have horder := hswap (hperm.nodup_iff.2 hsurv) (hperm.mem_iff.2 hx) (hperm.mem_iff.2 hy)
    rw [Changes, Changes, horder, hswap hsurv hx hy]
    tauto
  constructor
  · rintro ⟨order, horder, hmoved, hchange⟩
    exact ⟨order, horder, hmoved.symm, (hchanges order horder).1 hchange⟩
  · rintro ⟨order, horder, hmoved, hchange⟩
    exact ⟨order, horder, hmoved.symm, (hchanges order horder).2 hchange⟩

theorem before_comm (hne : x ≠ y) : before surv orders movedBy x y = !before surv orders movedBy y x := by
  have hxy := before_iff_changed hsurv horders h hx hy
  have hyx := before_iff_changed hsurv horders h hy hx
  rw [← not_before_iff hsurv hx hy hne, changed_comm hsurv horders hy hx (Ne.symm hne)] at hyx
  rw [Bool.eq_iff_iff, Bool.not_eq_true', ← Bool.not_eq_true, hxy, hyx]
  tauto

end

-- The spine

section

variable {slot : ℕ → ℕ} {moved : List ℕ} {before : ℕ → ℕ → Bool}

/-- What a spine over the last of the unmoved material is. -/
structure Spine (slot : ℕ → ℕ) (moved : List ℕ) (before : ℕ → ℕ → Bool) (s : ℕ) (kept spine : List ℕ) :
    Prop where
  nodup : spine.Nodup
  mem_iff : ∀ x, x ∈ spine ↔ x ∈ kept ∨ x ∈ moved ∧ s ≤ slot x
  kept_iff : ∀ x ∈ kept, ∀ y ∈ kept, Before spine x y ↔ Before kept x y
  moved_before : ∀ x ∈ moved, ∀ y ∈ moved, Before spine x y → before x y = true
  slot_iff : ∀ u ∈ kept, ∀ x ∈ moved, Before spine u x ↔ ∃ i, kept[i]? = some u ∧ s + i < slot x

/-- The moved survivors of a slot, in an order that the pairs keep. -/
structure Slot (slot : ℕ → ℕ) (moved : List ℕ) (before : ℕ → ℕ → Bool) (s : ℕ) (here : List ℕ) : Prop where
  nodup : here.Nodup
  mem_iff : ∀ x, x ∈ here ↔ x ∈ moved ∧ slot x = s
  ordered : here.Pairwise fun x y => before x y = true

theorem slot_of_drain (hmoved : moved.Nodup) {s fuel : ℕ} {here : List ℕ}
    (h : drain before fuel (moved.filter fun x => slot x == s) = some here) : Slot slot moved before s here := by
  obtain ⟨hperm, hpair⟩ := drain_spec fuel (hmoved.filter _) h
  refine ⟨hperm.nodup_iff.2 (hmoved.filter _), fun x => ?_, hpair⟩
  rw [hperm.mem_iff, List.mem_filter, beq_iff_eq]

theorem Slot.spine {s : ℕ} {here : List ℕ} (h : Slot slot moved before s here)
    (hbound : ∀ x ∈ moved, slot x ≤ s) : Spine slot moved before s [] here := by
  refine ⟨h.nodup, fun x => ?_, (fun x hx => nomatch hx), fun x _ y _ hxy => hxy.of_pairwise h.ordered,
    (fun u hu => nomatch hu)⟩
  rw [h.mem_iff]
  constructor
  · rintro ⟨hx, hs⟩
    exact .inr ⟨hx, hs.ge⟩
  · rintro (hx | ⟨hx, hs⟩)
    · cases hx
    · exact ⟨hx, le_antisymm (hbound x hx) hs⟩

/-- A slot and the unmoved survivor after it, put before the spine from there. -/
theorem Spine.cons {s next : ℕ} {kept here rest : List ℕ} (hspine : Spine slot moved before (s + 1) kept rest)
    (hhere : Slot slot moved before s here) (hnext : next ∉ kept) (hnextmoved : next ∉ moved)
    (hdisj : ∀ x ∈ kept, x ∉ moved)
    (hagree : ∀ x ∈ moved, ∀ y ∈ moved, slot x < slot y → before x y = true) :
    Spine slot moved before s (next :: kept) (here ++ next :: rest) := by
  have hnotnext : ∀ x ∈ moved, x ≠ next := fun x hx hx' => hnextmoved (hx' ▸ hx)
  have hnothere : ∀ x, x ∉ moved → x ∉ here := fun x hx hx' => hx ((hhere.mem_iff x).1 hx').1
  have hnextrest : next ∉ rest := by
    rw [hspine.mem_iff]
    rintro (hx | ⟨hx, -⟩)
    · exact hnext hx
    · exact hnextmoved hx
  have hapart : ∀ x ∈ here, x ∉ rest := by
    intro x hx hx'
    obtain ⟨hx, hs⟩ := (hhere.mem_iff x).1 hx
    rcases (hspine.mem_iff x).1 hx' with hk | ⟨-, hs'⟩
    · exact hdisj x hk hx
    · omega
  -- an unmoved survivor stands in the rest, or is the next
  have hunmoved : ∀ {x y}, x ∉ moved → (Before (here ++ next :: rest) x y ↔
      (x = next ∧ y ∈ rest) ∨ Before rest x y) := by
    intro x y hx
    rw [before_append, before_cons]
    constructor
    · rintro (hxy | hxy | ⟨hx', -⟩)
      · exact absurd hxy.mem_left (hnothere x hx)
      · exact hxy
      · exact absurd hx' (hnothere x hx)
    · exact fun hxy => .inr (.inl hxy)
  refine ⟨?_, fun x => ?_, fun x hx y hy => ?_, fun x hx y hy hxy => ?_, fun u hu x hx => ?_⟩
  · rw [List.nodup_append, List.nodup_cons]
    refine ⟨hhere.nodup, ⟨hnextrest, hspine.nodup⟩, fun x hx y hy => ?_⟩
    rintro rfl
    rcases List.mem_cons.1 hy with rfl | hy
    · exact hnothere x hnextmoved hx
    · exact hapart x hx hy
  · rw [List.mem_append, List.mem_cons, List.mem_cons, hspine.mem_iff, hhere.mem_iff]
    constructor
    · rintro (⟨hx, hs⟩ | rfl | hx | ⟨hx, hs⟩)
      · exact .inr ⟨hx, hs.ge⟩
      · exact .inl (.inl rfl)
      · exact .inl (.inr hx)
      · exact .inr ⟨hx, by omega⟩
    · rintro ((rfl | hx) | ⟨hx, hs⟩)
      · exact .inr (.inl rfl)
      · exact .inr (.inr (.inl hx))
      · by_cases hs' : slot x = s
        · exact .inl ⟨hx, hs'⟩
        · exact .inr (.inr (.inr ⟨hx, by omega⟩))
  · have hnotmoved : ∀ z ∈ next :: kept, z ∉ moved := by
      intro z hz
      rcases List.mem_cons.1 hz with rfl | hz
      · exact hnextmoved
      · exact hdisj z hz
    rw [hunmoved (hnotmoved x hx), before_cons, hspine.mem_iff]
    rcases List.mem_cons.1 hx with rfl | hxkept
    · have hno : ∀ {l : List ℕ}, x ∉ l → ¬ Before l x y := fun hl hxy => hl hxy.mem_left
      have hy' : ¬ (y ∈ moved ∧ s + 1 ≤ slot y) := fun h => hnotmoved y hy h.1
      simp only [hno hnextrest, hno hnext, hy', or_false]
    · have hne : x ≠ next := fun hx' => hnext (hx' ▸ hxkept)
      simp only [hne, false_and, false_or]
      rcases List.mem_cons.1 hy with rfl | hykept
      · have hno : ∀ {l : List ℕ}, y ∉ l → ¬ Before l x y := fun hl hxy => hl hxy.mem_right
        simp only [hno hnextrest, hno hnext]
      · exact hspine.kept_iff x hxkept y hykept
  · rw [before_append, before_cons] at hxy
    rcases hxy with hxy | (⟨hx', -⟩ | hxy) | ⟨hx', hy'⟩
    · exact hxy.of_pairwise hhere.ordered
    · exact absurd hx' (hnotnext x hx)
    · exact hspine.moved_before x hx y hy hxy
    · have hs := ((hhere.mem_iff x).1 hx').2
      have hy' := (List.mem_cons.1 hy').resolve_left (hnotnext y hy)
      rcases (hspine.mem_iff y).1 hy' with hk | ⟨-, hs'⟩
      · exact absurd hy (hdisj y hk)
      · exact hagree x hx y hy (by omega)
  · rcases List.mem_cons.1 hu with rfl | hukept
    · rw [hunmoved hnextmoved, hspine.mem_iff]
      constructor
      · rintro (⟨-, hk | ⟨-, hs⟩⟩ | hxy)
        · exact absurd hx (hdisj x hk)
        · exact ⟨0, rfl, by omega⟩
        · exact absurd hxy.mem_left hnextrest
      · rintro ⟨i, -, hs⟩
        exact .inl ⟨rfl, .inr ⟨hx, by omega⟩⟩
    · have hne : u ≠ next := fun hu' => hnext (hu' ▸ hukept)
      rw [hunmoved (hdisj u hukept), hspine.slot_iff u hukept x hx]
      constructor
      · rintro (⟨hu', -⟩ | ⟨i, hi, hs⟩)
        · exact absurd hu' hne
        · exact ⟨i + 1, hi, by omega⟩
      · rintro ⟨i, hi, hs⟩
        cases i with
        | zero => exact absurd (Option.some.inj hi).symm hne
        | succ i => exact .inr ⟨i, hi, by omega⟩

theorem spine_of_spineFrom (hmoved : moved.Nodup)
    (hagree : ∀ x ∈ moved, ∀ y ∈ moved, slot x < slot y → before x y = true) {kept : List ℕ}
    (hkept : kept.Nodup) (hdisj : ∀ x ∈ kept, x ∉ moved) {s : ℕ}
    (hbound : ∀ x ∈ moved, slot x ≤ s + kept.length) {spine : List ℕ}
    (h : spineFrom slot moved before s kept = some spine) : Spine slot moved before s kept spine := by
  induction kept generalizing s spine with
  | nil => exact (slot_of_drain hmoved h).spine hbound
  | cons next kept ih =>
    obtain ⟨hnext, hkept⟩ := List.nodup_cons.1 hkept
    rw [spineFrom] at h
    obtain ⟨here, hhere, h⟩ := Option.bind_eq_some_iff.1 h
    obtain ⟨rest, hrest, h⟩ := Option.bind_eq_some_iff.1 h
    cases h
    have hlater : ∀ x ∈ moved, slot x ≤ s + 1 + kept.length := fun x hx => by
      have := hbound x hx
      rw [List.length_cons] at this
      omega
    have hdisj' : ∀ x ∈ kept, x ∉ moved := fun x hx => hdisj x (List.mem_cons_of_mem _ hx)
    exact (ih hkept hdisj' hlater hrest).cons (slot_of_drain hmoved hhere) hnext
      (hdisj next List.mem_cons_self) hdisj' hagree

theorem exists_spineFrom (h : ∀ s, ∃ here, drain before moved.length (moved.filter fun x => slot x == s) = some here)
    (s : ℕ) (kept : List ℕ) : ∃ spine, spineFrom slot moved before s kept = some spine := by
  induction kept generalizing s with
  | nil => exact h s
  | cons next kept ih =>
    obtain ⟨here, hhere⟩ := h s
    obtain ⟨rest, hrest⟩ := ih (s + 1)
    exact ⟨here ++ next :: rest, by rw [spineFrom, hhere, hrest]; rfl⟩

end

end

-- The composed order

section

variable {surv : List ℕ} {orders : List (List ℕ)} (hsurv : surv.Nodup)
  (horders : ∀ order ∈ orders, order.Perm surv)

theorem unmoved_of_isUnmoved {x : ℕ} (hx : isUnmoved surv orders x = true) {order : List ℕ}
    (horder : order ∈ orders) : x ∉ movedSet surv order :=
  of_decide_eq_true (List.all_eq_true.1 hx order horder)

theorem isUnmoved_eq_false_iff {x : ℕ} :
    isUnmoved surv orders x = false ↔ ∃ order ∈ orders, x ∈ movedSet surv order := by
  rw [← Bool.not_eq_true, isUnmoved, List.all_eq_true]
  push Not
  simp

include hsurv horders

/-- Every side has the unmoved material in the base's order. -/
theorem filter_isUnmoved {order : List ℕ} (horder : order ∈ orders) :
    order.filter (isUnmoved surv orders) = surv.filter (isUnmoved surv orders) := by
  have hperm := horders order horder
  refine eq_of_before ((hperm.nodup_iff.2 hsurv).filter _) (hsurv.filter _) (fun x => ?_) fun x y hxy => ?_
  · rw [List.mem_filter, List.mem_filter, hperm.mem_iff]
  · have hx := (List.mem_filter.1 hxy.mem_left).2
    have hy := (List.mem_filter.1 hxy.mem_right).2
    rw [before_filter hx hy] at hxy ⊢
    exact before_of_unmoved hsurv hperm (unmoved_of_isUnmoved hx horder) (unmoved_of_isUnmoved hy horder) hxy

/-- A side's slot parts the unmoved material before a survivor from that after it. -/
theorem take_slotIn {order : List ℕ} (horder : order ∈ orders) (x : ℕ) :
    (order.takeWhile fun y => decide (y ≠ x)).filter (isUnmoved surv orders) =
      (surv.filter (isUnmoved surv orders)).take (slotIn surv orders order x) := by
  have hprefix := (List.takeWhile_prefix (l := order) fun y => decide (y ≠ x)).filter (isUnmoved surv orders)
  rw [filter_isUnmoved hsurv horders horder] at hprefix
  exact List.prefix_iff_eq_take.1 hprefix

theorem slotIn_le {order : List ℕ} (horder : order ∈ orders) (x : ℕ) :
    slotIn surv orders order x ≤ (surv.filter (isUnmoved surv orders)).length := by
  have hlen := congrArg List.length (take_slotIn hsurv horders horder x)
  rw [List.length_take] at hlen
  exact hlen.trans_le (min_le_right _ _)

theorem before_iff_slotIn {order : List ℕ} (horder : order ∈ orders) {u x : ℕ} (hx : x ∈ surv)
    (hu : isUnmoved surv orders u = true) : Before order u x ↔
      ∃ i, (surv.filter (isUnmoved surv orders))[i]? = some u ∧ i < slotIn surv orders order x := by
  have hperm := horders order horder
  rw [← mem_takeWhile_ne_iff (hperm.nodup_iff.2 hsurv) (hperm.mem_iff.2 hx)]
  have hmem : u ∈ order.takeWhile (fun y => decide (y ≠ x)) ↔
      u ∈ (surv.filter (isUnmoved surv orders)).take (slotIn surv orders order x) := by
    rw [← take_slotIn hsurv horders horder, List.mem_filter]
    exact (and_iff_left hu).symm
  rw [hmem, List.mem_iff_getElem?]
  refine exists_congr fun i => ?_
  rw [List.getElem?_take]
  by_cases hi : i < slotIn surv orders order x
  · simp [hi]
  · simp [hi]

section

variable {movedBy : ℕ → Option ℕ} (h : movers surv orders = some movedBy)

include h

omit hsurv horders in
theorem kept_eq : kept surv movedBy = surv.filter (isUnmoved surv orders) := by
  rw [kept]
  refine List.filter_congr fun x _ => ?_
  rw [Bool.eq_iff_iff, Option.isNone_iff_eq_none, movers_none_iff h]

omit hsurv horders in
theorem mem_moved {x : ℕ} : x ∈ moved surv movedBy ↔ x ∈ surv ∧ isUnmoved surv orders x = false := by
  rw [moved, List.mem_filter, ← Bool.not_eq_true, ← movers_none_iff h, Option.isSome_iff_ne_none]

theorem demands_iff {x y : ℕ} (hx : x ∈ moved surv movedBy) (hy : y ∈ moved surv movedBy) (hne : x ≠ y) :
    before surv orders movedBy x y = true ↔ Demands surv orders x y := by
  obtain ⟨hx, hxm⟩ := (mem_moved h).1 hx
  obtain ⟨hy, hym⟩ := (mem_moved h).1 hy
  rw [before_iff_changed hsurv horders h hx hy]
  exact ⟨fun hd => ⟨hne, hx, hy, hxm, hym, hd⟩, fun hd => hd.2.2.2.2.2⟩

theorem slotsAgree_iff : slotsAgree (slots orders movedBy) (moved surv movedBy) (before surv orders movedBy) = true ↔
    ∀ x ∈ moved surv movedBy, ∀ y ∈ moved surv movedBy, slots orders movedBy x < slots orders movedBy y →
      before surv orders movedBy x y = true := by
  have hnodup : (moved surv movedBy).Nodup := hsurv.filter _
  have hcomm : ∀ x ∈ moved surv movedBy, ∀ y ∈ moved surv movedBy, x ≠ y →
      before surv orders movedBy x y = !before surv orders movedBy y x := fun x hx y hy hne =>
    before_comm hsurv horders h ((mem_moved h).1 hx).1 ((mem_moved h).1 hy).1 hne
  rw [slotsAgree, decide_eq_true_eq]
  constructor
  · intro hpair x hx y hy hlt
    have hne : x ≠ y := by
      rintro rfl
      exact lt_irrefl _ hlt
    rcases before_total hx hy hne with hxy | hxy
    · rcases hxy.of_pairwise hpair with heq | heq
      · omega
      · rw [← heq, decide_eq_true hlt]
    · rcases hxy.of_pairwise hpair with heq | heq
      · omega
      · rw [hcomm x hx y hy hne, ← heq, decide_eq_false (by omega), Bool.not_false]
  · intro hall
    refine List.pairwise_iff_forall_sublist.2 fun {x y} hxy => ?_
    have hx := Before.mem_left hxy
    have hy := Before.mem_right hxy
    rcases lt_trichotomy (slots orders movedBy x) (slots orders movedBy y) with hlt | heq | hlt
    · exact .inr (by rw [hall x hx y hy hlt, decide_eq_true hlt])
    · exact .inl heq
    · refine .inr ?_
      rw [hcomm x hx y hy (Before.ne hxy hnodup), hall y hy x hx hlt, decide_eq_false (by omega), Bool.not_true]

omit hsurv horders in
/-- Two survivors of one side's are changed by that side alone. -/
theorem changed_iff {order : List ℕ} (horder : order ∈ orders) {x y : ℕ} (hx : x ∈ movedSet surv order)
    (hy : y ∈ movedSet surv order) : Changed surv orders x y ↔ Changes surv order x y := by
  constructor
  · rintro ⟨order', horder', hmoved, hchange⟩
    obtain ⟨k, hk⟩ := List.getElem?_of_mem horder
    obtain ⟨k', hk'⟩ := List.getElem?_of_mem horder'
    have hsame : k' = k := by
      rcases hmoved with hx' | hy'
      · have hmover := (movers_spec h).2 ⟨order', hk', hx'⟩
        rw [(movers_spec h).2 ⟨order, hk, hx⟩, Option.some.injEq] at hmover
        exact hmover.symm
      · have hmover := (movers_spec h).2 ⟨order', hk', hy'⟩
        rw [(movers_spec h).2 ⟨order, hk, hy⟩, Option.some.injEq] at hmover
        exact hmover.symm
    rw [hsame, hk] at hk'
    cases hk'
    exact hchange
  · exact fun hchange => ⟨order, horder, .inl hx, hchange⟩

end

/-- What a composed order keeps of the base and of every side. -/
structure Composed (surv : List ℕ) (orders : List (List ℕ)) (spine : List ℕ) : Prop where
  perm : spine.Perm surv
  unmoved : ∀ u ∈ surv, ∀ v ∈ surv, isUnmoved surv orders u = true → isUnmoved surv orders v = true →
    (Before spine u v ↔ Before surv u v)
  slot : ∀ order ∈ orders, ∀ x ∈ movedSet surv order, ∀ u ∈ surv, isUnmoved surv orders u = true →
    (Before spine u x ↔ Before order u x)
  own : ∀ order ∈ orders, ∀ x ∈ movedSet surv order, ∀ y ∈ movedSet surv order,
    (Before spine x y ↔ Before order x y)
  demands : ∀ order ∈ orders, ∀ order' ∈ orders, ∀ x ∈ movedSet surv order, ∀ y ∈ movedSet surv order',
    (Before spine x y ↔ Demands surv orders x y)

omit hsurv horders in
theorem composeReorders_eq {movedBy : ℕ → Option ℕ} (h : movers surv orders = some movedBy) :
    composeReorders surv orders =
      if slotsAgree (slots orders movedBy) (moved surv movedBy) (before surv orders movedBy) = true then
        spineFrom (slots orders movedBy) (moved surv movedBy) (before surv orders movedBy) 0 (kept surv movedBy)
      else none := by
  rw [composeReorders, h]
  rfl

/-- The spine over all the unmoved material is the composed order. -/
theorem composed_of_spine {movedBy : ℕ → Option ℕ} (h : movers surv orders = some movedBy) {spine : List ℕ}
    (hspine : Spine (slots orders movedBy) (moved surv movedBy) (before surv orders movedBy) 0
      (kept surv movedBy) spine) : Composed surv orders spine := by
  have hnodup : ∀ order ∈ orders, order.Nodup := fun order horder =>
    (horders order horder).nodup_iff.2 hsurv
  have hkept := kept_eq h
  have hmoved : ∀ {order x}, order ∈ orders → x ∈ movedSet surv order → x ∈ moved surv movedBy :=
    fun {order x} horder hx => (mem_moved h).2
      ⟨(horders order horder).mem_iff.1 (mem_of_mem_movedSet hx), isUnmoved_eq_false_iff.2 ⟨order, horder, hx⟩⟩
  have hmemkept : ∀ {u}, u ∈ surv → isUnmoved surv orders u = true → u ∈ kept surv movedBy :=
    fun {u} hu hum => hkept ▸ List.mem_filter.2 ⟨hu, hum⟩
  have hdemands : ∀ {x y}, x ∈ moved surv movedBy → y ∈ moved surv movedBy →
      (Before spine x y ↔ Demands surv orders x y) := by
    intro x y hx hy
    constructor
    · intro hxy
      have hne := hxy.ne hspine.nodup
      exact (demands_iff hsurv horders h hx hy hne).1 (hspine.moved_before x hx y hy hxy)
    · intro hd
      have hne := hd.1
      have hmem : ∀ z ∈ moved surv movedBy, z ∈ spine := fun z hz =>
        (hspine.mem_iff z).2 (.inr ⟨hz, Nat.zero_le _⟩)
      rw [← not_before_iff hspine.nodup (hmem y hy) (hmem x hx) (Ne.symm hne)]
      intro hyx
      have hback := hspine.moved_before y hy x hx hyx
      have hforth := (demands_iff hsurv horders h hx hy hne).2 hd
      rw [before_comm hsurv horders h ((mem_moved h).1 hx).1 ((mem_moved h).1 hy).1 hne, hback] at hforth
      cases hforth
  refine ⟨?_, fun u hu v hv hum hvm => ?_, fun order horder x hx u hu hum => ?_,
    fun order horder x hx y hy => ?_, fun order horder order' horder' x hx y hy => ?_⟩
  · refine (List.perm_ext_iff_of_nodup hspine.nodup hsurv).2 fun x => ?_
    rw [hspine.mem_iff, hkept, mem_moved h, List.mem_filter]
    cases isUnmoved surv orders x <;> simp
  · rw [hspine.kept_iff u (hmemkept hu hum) v (hmemkept hv hvm), hkept, before_filter hum hvm]
  · rw [hspine.slot_iff u (hmemkept hu hum) x (hmoved horder hx), hkept, slots_spec hnodup h horder hx,
      before_iff_slotIn hsurv horders horder ((mem_moved h).1 (hmoved horder hx)).1 hum]
    simp only [Nat.zero_add]
  · rw [hdemands (hmoved horder hx) (hmoved horder hy)]
    have hx' := (mem_moved h).1 (hmoved horder hx)
    have hy' := (mem_moved h).1 (hmoved horder hy)
    constructor
    · rintro ⟨-, -, -, -, -, hd⟩
      rw [changed_iff h horder hx hy, Changes] at hd
      tauto
    · intro hxy
      refine ⟨hxy.ne (hnodup order horder), hx'.1, hy'.1, hx'.2, hy'.2, ?_⟩
      rw [changed_iff h horder hx hy, Changes]
      tauto
  · exact hdemands (hmoved horder hx) (hmoved horder' hy)

theorem composed_of_composeReorders {spine : List ℕ} (h : composeReorders surv orders = some spine) :
    MovedApart surv orders ∧ SlotsAgree surv orders ∧ Composed surv orders spine := by
  obtain ⟨movedBy, hmovers, -⟩ := Option.bind_eq_some_iff.1 h
  rw [composeReorders_eq hmovers] at h
  split at h
  · next hagree =>
    rw [slotsAgree_iff hsurv horders hmovers] at hagree
    have hnodup : ∀ order ∈ orders, order.Nodup := fun order horder =>
      (horders order horder).nodup_iff.2 hsurv
    have hmoved : ∀ {order x}, order ∈ orders → x ∈ movedSet surv order → x ∈ moved surv movedBy :=
      fun {order x} horder hx => (mem_moved hmovers).2
        ⟨(horders order horder).mem_iff.1 (mem_of_mem_movedSet hx), isUnmoved_eq_false_iff.2 ⟨order, horder, hx⟩⟩
    refine ⟨exists_movers_iff.1 ⟨movedBy, hmovers⟩, fun order horder order' horder' x hx y hy hlt => ?_, ?_⟩
    · have hne : x ≠ y := by
        rintro rfl
        rw [← slots_spec hnodup hmovers horder hx, ← slots_spec hnodup hmovers horder' hy] at hlt
        exact lt_irrefl _ hlt
      rw [← slots_spec hnodup hmovers horder hx, ← slots_spec hnodup hmovers horder' hy] at hlt
      exact (demands_iff hsurv horders hmovers (hmoved horder hx) (hmoved horder' hy) hne).1
        (hagree x (hmoved horder hx) y (hmoved horder' hy) hlt)
    · have hkept : (kept surv movedBy).Nodup := hsurv.filter _
      have hmovedset : (moved surv movedBy).Nodup := hsurv.filter _
      refine composed_of_spine hsurv horders hmovers (spine_of_spineFrom hmovedset hagree hkept ?_ ?_ h)
      · intro x hx hx'
        rw [kept_eq hmovers, List.mem_filter] at hx
        rw [mem_moved hmovers, hx.2] at hx'
        cases hx'.2
      · intro x hx
        obtain ⟨order, horder, hx⟩ := isUnmoved_eq_false_iff.1 ((mem_moved hmovers).1 hx).2
        rw [slots_spec hnodup hmovers horder hx, Nat.zero_add, kept_eq hmovers]
        exact slotIn_le hsurv horders horder x
  · cases h

omit horders in
/-- A composed order keeps every demand, so these close no cycle. -/
theorem Composed.acyclic {spine : List ℕ} (h : Composed surv orders spine) : Acyclic surv orders := by
  intro x hcycle
  have hnodup := h.perm.nodup_iff.2 hsurv
  have hstep : ∀ {x y}, Demands surv orders x y → Before spine x y := by
    intro x y hd
    obtain ⟨order, horder, hx⟩ := isUnmoved_eq_false_iff.1 hd.2.2.2.1
    obtain ⟨order', horder', hy⟩ := isUnmoved_eq_false_iff.1 hd.2.2.2.2.1
    exact (h.demands order horder order' horder' x hx y hy).2 hd
  have hbefore : ∀ {y}, Relation.TransGen (Demands surv orders) x y → Before spine x y := by
    intro y hxy
    induction hxy with
    | single hd => exact hstep hd
    | tail _ hd ih => exact ih.trans (hstep hd) hnodup
  exact (hbefore hcycle).ne hnodup rfl

theorem exists_composeReorders (hapart : MovedApart surv orders) (hslots : SlotsAgree surv orders)
    (hacyclic : Acyclic surv orders) : ∃ spine, composeReorders surv orders = some spine := by
  obtain ⟨movedBy, h⟩ := exists_movers_iff.2 hapart
  have hnodup : ∀ order ∈ orders, order.Nodup := fun order horder =>
    (horders order horder).nodup_iff.2 hsurv
  have hagree := (slotsAgree_iff hsurv horders h).2 fun x hx y hy hlt => by
    obtain ⟨order, horder, hx'⟩ := isUnmoved_eq_false_iff.1 ((mem_moved h).1 hx).2
    obtain ⟨order', horder', hy'⟩ := isUnmoved_eq_false_iff.1 ((mem_moved h).1 hy).2
    rw [slots_spec hnodup h horder hx', slots_spec hnodup h horder' hy'] at hlt
    have hd := hslots order horder order' horder' x hx' y hy' hlt
    exact (demands_iff hsurv horders h hx hy hd.1).2 hd
  rw [composeReorders_eq h, if_pos hagree]
  refine exists_spineFrom (fun s => exists_drain _ ⟨fun x hx y hy hne => ?_, fun x hcycle => ?_⟩
    (List.length_filter_le _ _)) 0 _
  · have hx := (mem_moved h).1 (List.mem_of_mem_filter hx)
    have hy := (mem_moved h).1 (List.mem_of_mem_filter hy)
    rw [before_comm hsurv horders h hx.1 hy.1 hne]
    cases before surv orders movedBy y x
    · exact .inl rfl
    · exact .inr rfl
  · refine hacyclic x (hcycle.lift id fun x y hxy => ?_)
    obtain ⟨hx, hy, hne, hbefore⟩ := hxy
    exact (demands_iff hsurv horders h (List.mem_of_mem_filter hx) (List.mem_of_mem_filter hy) hne).1 hbefore

end

/-- Composed reorders respect every side: what they keep, when there is one, and that a side is held
to have moved the least that explains its order. -/
theorem composeReorders_exact {surv : List ℕ} {orders : List (List ℕ)} (hsurv : surv.Nodup) (horders : ∀ order ∈ orders, order.Perm surv) :
    (∀ spine, composeReorders surv orders = some spine → Composed surv orders spine) ∧
      (¬ MovedApart surv orders → composeReorders surv orders = none) ∧
      ((∃ spine, composeReorders surv orders = some spine) ↔
        MovedApart surv orders ∧ SlotsAgree surv orders ∧ Acyclic surv orders) ∧
      ∀ order ∈ orders, (∀ x ∈ movedSet surv order, x ∈ order) ∧
        (order.filter fun x => decide (x ∉ movedSet surv order)).Pairwise (Before surv) ∧
        ∀ t : Finset ℕ, (order.filter fun x => decide (x ∉ t)).Pairwise (Before surv) →
          (movedSet surv order).elems.length ≤ t.card := by
  have hcomposed := fun spine (h : composeReorders surv orders = some spine) =>
    composed_of_composeReorders hsurv horders h
  refine ⟨fun spine h => (hcomposed spine h).2.2, fun hapart => ?_, ⟨?_, ?_⟩, fun order horder =>
    movedSet_least hsurv (horders order horder)⟩
  · rw [Option.eq_none_iff_forall_ne_some]
    exact fun spine h => hapart (hcomposed spine h).1
  · rintro ⟨spine, h⟩
    obtain ⟨hapart, hslots, hspine⟩ := hcomposed spine h
    exact ⟨hapart, hslots, hspine.acyclic hsurv⟩
  · rintro ⟨hapart, hslots, hacyclic⟩
    exact exists_composeReorders hsurv horders hapart hslots hacyclic

/-- One side moved the last survivor to the front, another the second past the third. -/
theorem composeReorders_exact_apart :
    composeReorders [0, 1, 2, 3] [[3, 0, 1, 2], [0, 2, 1, 3]] = some [3, 0, 2, 1] ∧
      Composed [0, 1, 2, 3] [[3, 0, 1, 2], [0, 2, 1, 3]] [3, 0, 2, 1] := by
  have hspine : composeReorders [0, 1, 2, 3] [[3, 0, 1, 2], [0, 2, 1, 3]] = some [3, 0, 2, 1] := by
    decide +kernel
  have horders : ∀ order ∈ [[3, 0, 1, 2], [0, 2, 1, 3]], order.Perm [0, 1, 2, 3] := by decide
  exact ⟨hspine, (composeReorders_exact (by decide) horders).1 _ hspine⟩

end Composition
