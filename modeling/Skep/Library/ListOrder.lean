import Mathlib

/-!
# The order in which a list stands

Which of two elements a list places first, and the list that pairwise demands give: each
turn takes the element that comes before all the others. There is one as long as there is
no cycle among the demands.
-/

namespace ListOrder

variable {α : Type} {l l' : List α} {x y z : α}

/-- The list places an element before another. -/
def Before (l : List α) (x y : α) : Prop := [x, y].Sublist l

theorem before_iff : Before l x y ↔ ∃ low high, l = low ++ high ∧ x ∈ low ∧ y ∈ high := by
  rw [Before, List.cons_sublist_iff]
  simp only [List.singleton_sublist]

theorem Before.mem_left (h : Before l x y) : x ∈ l := h.subset List.mem_cons_self

theorem Before.mem_right (h : Before l x y) : y ∈ l := h.subset (List.mem_cons_of_mem _ List.mem_cons_self)

theorem Before.of_sublist (h : Before l x y) (hl : l.Sublist l') : Before l' x y := List.Sublist.trans h hl

theorem before_cons {a : α} : Before (a :: l) x y ↔ (x = a ∧ y ∈ l) ∨ Before l x y := by
  rw [Before, List.sublist_cons_iff, or_comm]
  refine or_congr_left ?_
  constructor
  · rintro ⟨r, hr, hsub⟩
    obtain ⟨rfl, rfl⟩ := List.cons.inj hr
    exact ⟨rfl, List.singleton_sublist.1 hsub⟩
  · rintro ⟨rfl, hy⟩
    exact ⟨[y], rfl, List.singleton_sublist.2 hy⟩

theorem before_append : Before (l ++ l') x y ↔ Before l x y ∨ Before l' x y ∨ x ∈ l ∧ y ∈ l' := by
  induction l with
  | nil =>
    have hnil : ¬ Before ([] : List α) x y := fun h => nomatch h.mem_left
    simp [hnil]
  | cons a l ih =>
    rw [List.cons_append, before_cons, before_cons, ih, List.mem_append, List.mem_cons]
    tauto

theorem Before.ne (h : Before l x y) (hl : l.Nodup) : x ≠ y := by
  rintro rfl
  exact List.duplicate_iff_sublist.2 h |>.not_nodup hl

theorem Before.asymm (h : Before l x y) (hl : l.Nodup) : ¬ Before l y x := by
  obtain ⟨low, high, rfl, hx, hy⟩ := before_iff.1 h
  obtain ⟨hlow, hhigh, hdisj⟩ := List.nodup_append.1 hl
  rw [before_append]
  rintro (h' | h' | ⟨h', -⟩)
  · exact hdisj y h'.mem_left y hy rfl
  · exact hdisj x hx x h'.mem_right rfl
  · exact hdisj y h' y hy rfl

theorem Before.trans (h : Before l x y) (h' : Before l y z) (hl : l.Nodup) : Before l x z := by
  obtain ⟨low, high, rfl, hx, hy⟩ := before_iff.1 h
  obtain ⟨hlow, hhigh, hdisj⟩ := List.nodup_append.1 hl
  rcases before_append.1 h' with h' | h' | ⟨h', -⟩
  · exact absurd rfl (hdisj y h'.mem_left y hy)
  · exact before_append.2 (.inr (.inr ⟨hx, h'.mem_right⟩))
  · exact absurd rfl (hdisj y h' y hy)

theorem before_total (hx : x ∈ l) (hy : y ∈ l) (hne : x ≠ y) : Before l x y ∨ Before l y x := by
  obtain ⟨low, high, rfl⟩ := List.append_of_mem hx
  rcases List.mem_append.1 hy with hy | hy
  · exact .inr (before_append.2 (.inr (.inr ⟨hy, List.mem_cons_self⟩)))
  · rcases List.mem_cons.1 hy with rfl | hy
    · exact absurd rfl hne
    · exact .inl (before_append.2 (.inr (.inl (before_cons.2 (.inl ⟨rfl, hy⟩)))))

theorem not_before_iff (hl : l.Nodup) (hx : x ∈ l) (hy : y ∈ l) (hne : x ≠ y) :
    ¬ Before l x y ↔ Before l y x := by
  constructor
  · exact (before_total hx hy hne).resolve_left
  · exact fun h => h.asymm hl

theorem Before.of_pairwise {R : α → α → Prop} (h : Before l x y) (hl : l.Pairwise R) : R x y :=
  hl.forall_sublist h

theorem pairwise_before : l.Pairwise (Before l) := List.pairwise_iff_forall_sublist.2 fun h => h

theorem before_filter {p : α → Bool} (hx : p x = true) (hy : p y = true) :
    Before (l.filter p) x y ↔ Before l x y := by
  induction l with
  | nil => rfl
  | cons a l ih =>
    by_cases ha : p a = true
    · rw [List.filter_cons_of_pos ha, before_cons, before_cons, ih, List.mem_filter]
      simp [hy]
    · rw [List.filter_cons_of_neg ha, before_cons, ih]
      refine (or_iff_right ?_).symm
      rintro ⟨rfl, -⟩
      exact ha hx

/-- One list, if the elements and their order are one. -/
theorem eq_of_before (hl : l.Nodup) (hl' : l'.Nodup) (hmem : ∀ x, x ∈ l ↔ x ∈ l')
    (h : ∀ x y, Before l x y → Before l' x y) : l = l' := by
  have hantisymm : ∀ x y, x ∈ l → y ∈ l' → Before l' x y → Before l' y x → x = y := fun x y _ _ hxy hyx =>
    absurd hyx (hxy.asymm hl')
  have hpair : l.Pairwise (Before l') := pairwise_before.imp fun {x y} hxy => h x y hxy
  exact List.Perm.eq_of_pairwise hantisymm hpair pairwise_before ((List.perm_ext_iff_of_nodup hl hl').2 hmem)

/-- Elements of a list in its order are a part of it. -/
theorem sublist_of_before (hl : l.Nodup) (hl' : l'.Nodup) (hmem : ∀ x ∈ l, x ∈ l')
    (h : ∀ x y, Before l x y → Before l' x y) : l.Sublist l' := by
  classical
  have heq : l = l'.filter fun x => decide (x ∈ l) := by
    refine eq_of_before hl (hl'.filter _) (fun x => ?_) fun x y hxy => ?_
    · rw [List.mem_filter, decide_eq_true_eq]
      exact ⟨fun hx => ⟨hmem x hx, hx⟩, fun hx => hx.2⟩
    · rw [before_filter (p := fun x => decide (x ∈ l)) (decide_eq_true hxy.mem_left)
        (decide_eq_true hxy.mem_right)]
      exact h x y hxy
  rw [heq]
  exact List.filter_sublist

section

variable [DecidableEq α]

/-- Where the list places an element, the last place where it does so twice. -/
def place (l : List α) : α → Option ℕ :=
  l.zipIdx.foldl (fun place e => Function.update place e.1 (some e.2)) fun _ => none

theorem place_append_singleton (l : List α) (a : α) :
    place (l ++ [a]) = Function.update (place l) a (some l.length) := by
  rw [place, List.zipIdx_append, List.foldl_append]
  simp [place]

theorem place_eq_some_iff (hl : l.Nodup) {n : ℕ} : place l x = some n ↔ l[n]? = some x := by
  induction l using List.reverseRecOn with
  | nil => simp [place]
  | append_singleton l a ih =>
    obtain ⟨hlow, -, hdisj⟩ := List.nodup_append.1 hl
    rw [place_append_singleton]
    by_cases hx : x = a
    · subst hx
      rw [Function.update_self, Option.some.injEq]
      constructor
      · rintro rfl
        rw [List.getElem?_append_right le_rfl, Nat.sub_self]
        rfl
      · intro hn
        by_cases hlt : n < l.length
        · rw [List.getElem?_append_left hlt] at hn
          exact absurd rfl (hdisj x (List.mem_of_getElem? hn) x (List.mem_singleton_self x))
        · obtain ⟨hlen, -⟩ := List.getElem?_eq_some_iff.1 hn
          rw [List.length_append, List.length_singleton] at hlen
          omega
    · rw [Function.update_of_ne hx, ih hlow]
      by_cases hlt : n < l.length
      · rw [List.getElem?_append_left hlt]
      · rw [List.getElem?_eq_none (by omega)]
        constructor
        · intro h
          cases h
        · intro hn
          rw [List.getElem?_append_right (by omega)] at hn
          exact absurd (List.mem_singleton.1 (List.mem_of_getElem? hn)) hx

theorem exists_place (hl : l.Nodup) (hx : x ∈ l) : ∃ n, place l x = some n := by
  obtain ⟨n, hn⟩ := List.getElem?_of_mem hx
  exact ⟨n, (place_eq_some_iff hl).2 hn⟩

theorem place_lt_iff (hl : l.Nodup) {n m : ℕ} (hn : place l x = some n) (hm : place l y = some m) :
    n < m ↔ Before l x y := by
  rw [place_eq_some_iff hl] at hn hm
  have hlt : ∀ {n m : ℕ} {x y : α}, l[n]? = some x → l[m]? = some y → n < m → Before l x y := by
    intro n m x y hn hm hlt
    refine before_iff.2 ⟨l.take m, l.drop m, (List.take_append_drop m l).symm, ?_, ?_⟩
    · rw [← List.getElem?_take_of_lt hlt] at hn
      exact List.mem_of_getElem? hn
    · refine List.mem_of_getElem? (i := 0) ?_
      rw [List.getElem?_drop, Nat.add_zero, hm]
  constructor
  · exact hlt hn hm
  · intro h
    by_contra hge
    rcases Nat.lt_or_ge m n with hlt' | hle
    · exact h.asymm hl (hlt hm hn hlt')
    · have heq : n = m := by omega
      rw [heq, hm] at hn
      cases hn
      exact h.ne hl rfl

theorem mem_takeWhile_ne_iff (hl : l.Nodup) (hx : x ∈ l) :
    y ∈ l.takeWhile (fun a => decide (a ≠ x)) ↔ Before l y x := by
  induction l with
  | nil => cases hx
  | cons a l ih =>
    obtain ⟨ha, hl⟩ := List.nodup_cons.1 hl
    by_cases hax : a = x
    · subst hax
      rw [List.takeWhile_cons_of_neg (by simp), before_cons]
      refine ⟨(fun h => nomatch h), ?_⟩
      rintro (⟨-, h⟩ | h)
      · exact absurd h ha
      · exact absurd h.mem_right ha
    · have hx := (List.mem_cons.1 hx).resolve_left (Ne.symm hax)
      rw [List.takeWhile_cons_of_pos (by simpa using hax), List.mem_cons, ih hl hx, before_cons]
      simp [hx]

/-- Each turn takes the element that comes before all the others. -/
def drain (before : α → α → Bool) : ℕ → List α → Option (List α)
  | _, [] => some []
  | 0, _ :: _ => none
  | fuel + 1, a :: rest =>
      match (a :: rest).find? fun x => (a :: rest).all fun y => decide (x = y) || before x y with
      | none => none
      | some first => (drain before fuel ((a :: rest).erase first)).map (first :: ·)

variable {before : α → α → Bool}

theorem drain_spec (fuel : ℕ) {here out : List α} (hhere : here.Nodup)
    (h : drain before fuel here = some out) : out.Perm here ∧ out.Pairwise fun x y => before x y = true := by
  induction fuel generalizing here out with
  | zero =>
    cases here with
    | nil =>
      cases h
      exact ⟨List.Perm.refl _, List.Pairwise.nil⟩
    | cons a here => cases h
  | succ fuel ih =>
    cases here with
    | nil =>
      cases h
      exact ⟨List.Perm.refl _, List.Pairwise.nil⟩
    | cons a here =>
      rw [drain] at h
      split at h
      · cases h
      · next first hfirst =>
        obtain ⟨rest, hrest, rfl⟩ := Option.map_eq_some_iff.1 h
        obtain ⟨hperm, hpair⟩ := ih (hhere.erase first) hrest
        have hmem := List.mem_of_find?_eq_some hfirst
        have hall := List.find?_some hfirst
        rw [List.all_eq_true] at hall
        refine ⟨(hperm.cons first).trans (List.perm_cons_erase hmem).symm, List.pairwise_cons.2 ⟨?_, hpair⟩⟩
        intro y hy
        obtain ⟨hne, hy⟩ := (hhere.mem_erase_iff).1 (hperm.mem_iff.1 hy)
        exact (Bool.or_eq_true _ _ ▸ hall y hy).resolve_left fun h => hne (of_decide_eq_true h).symm

/-- A demand between two of the elements. -/
def Demand (before : α → α → Bool) (here : List α) (x y : α) : Prop :=
  x ∈ here ∧ y ∈ here ∧ x ≠ y ∧ before x y = true

/-- Some demand stands between each two elements, and there is no cycle. -/
structure Linear (before : α → α → Bool) (here : List α) : Prop where
  total : ∀ x ∈ here, ∀ y ∈ here, x ≠ y → before x y = true ∨ before y x = true
  acyclic : ∀ x, ¬ Relation.TransGen (Demand before here) x x

omit [DecidableEq α] in
theorem Linear.sublist {here sub : List α} (h : Linear before here) (hsub : ∀ x ∈ sub, x ∈ here) :
    Linear before sub := by
  refine ⟨fun x hx y hy => h.total x (hsub x hx) y (hsub y hy), fun x hcycle => ?_⟩
  exact h.acyclic x (hcycle.lift id fun x y hxy => ⟨hsub x hxy.1, hsub y hxy.2.1, hxy.2.2⟩)

/-- Without a cycle one element comes before all the others. -/
theorem Linear.exists_first {here : List α} (h : Linear before here) (hne : here ≠ []) :
    ∃ x ∈ here, ∀ y ∈ here, x ≠ y → before x y = true := by
  induction here with
  | nil => exact absurd rfl hne
  | cons a here ih =>
    by_cases hnil : here = []
    · subst hnil
      refine ⟨a, List.mem_cons_self, fun y hy hay => absurd (List.mem_singleton.1 hy).symm hay⟩
    · obtain ⟨x, hx, hall⟩ := ih (h.sublist fun y hy => List.mem_cons_of_mem a hy) hnil
      by_cases hax : a = x
      · subst hax
        refine ⟨a, List.mem_cons_self, fun y hy hay => ?_⟩
        rcases List.mem_cons.1 hy with rfl | hy
        · exact absurd rfl hay
        · exact hall y hy hay
      · have hx' := List.mem_cons_of_mem a hx
        by_cases hxa : before x a = true
        · refine ⟨x, hx', fun y hy hxy => ?_⟩
          rcases List.mem_cons.1 hy with rfl | hy
          · exact hxa
          · exact hall y hy hxy
        · -- `a` comes before `x`, so before all that `x` does: else they close a cycle
          have hbefore := (h.total x hx' a List.mem_cons_self (Ne.symm hax)).resolve_left hxa
          refine ⟨a, List.mem_cons_self, fun y hy hay => ?_⟩
          by_contra hnot
          have hya := (h.total a List.mem_cons_self y hy hay).resolve_left hnot
          have hxy : x ≠ y := by
            rintro rfl
            exact hxa hya
          have hyhere : y ∈ here := (List.mem_cons.1 hy).resolve_left (Ne.symm hay)
          have hax : Demand before (a :: here) a x := ⟨List.mem_cons_self, hx', hax, hbefore⟩
          have hxy : Demand before (a :: here) x y := ⟨hx', hy, hxy, hall y hyhere hxy⟩
          have hya : Demand before (a :: here) y a := ⟨hy, List.mem_cons_self, Ne.symm hay, hya⟩
          exact h.acyclic a (((Relation.TransGen.single hax).tail hxy).tail hya)

theorem exists_drain (fuel : ℕ) {here : List α} (h : Linear before here) (hfuel : here.length ≤ fuel) :
    ∃ out, drain before fuel here = some out := by
  induction fuel generalizing here with
  | zero =>
    cases here with
    | nil => exact ⟨[], rfl⟩
    | cons a here => simp at hfuel
  | succ fuel ih =>
    cases here with
    | nil => exact ⟨[], rfl⟩
    | cons a here =>
      obtain ⟨x, hx, hall⟩ := h.exists_first (List.cons_ne_nil a here)
      have hsome : ((a :: here).find? fun x => (a :: here).all fun y => decide (x = y) || before x y).isSome := by
        rw [List.find?_isSome]
        refine ⟨x, hx, List.all_eq_true.2 fun y hy => ?_⟩
        by_cases hxy : x = y
        · simp [hxy]
        · simp [hall y hy hxy]
      obtain ⟨first, hfirst⟩ := Option.isSome_iff_exists.1 hsome
      have hmem := List.mem_of_find?_eq_some hfirst
      obtain ⟨rest, hrest⟩ := ih (h.sublist fun y hy => List.mem_of_mem_erase hy)
        (by rw [List.length_erase_of_mem hmem]; omega)
      refine ⟨first :: rest, ?_⟩
      rw [drain, hfirst]
      exact congrArg (Option.map (first :: ·)) hrest

end
end ListOrder
