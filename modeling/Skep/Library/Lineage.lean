import Mathlib.Data.List.Perm.Basic
import Mathlib.Logic.Relation

/-!
# Lineages

A forest gives each element at most one parent, of lower rank. The lineage of an element is
the element, its parent, and so on up. Two lineages that meet have one tail in common from
where they first meet, so the first shared element is nearest for both.
-/

/-- Parents of lower rank. -/
structure Forest (α : Type*) where
  parent : α → Option α
  rank : α → ℕ
  descends : ∀ x y, parent x = some y → rank y < rank x

namespace Forest

variable {α : Type*} (F : Forest α)

/-- An element and everything above it, nearest first. -/
def lineage (x : α) : List α :=
  x :: match _h : F.parent x with
    | none => []
    | some y => lineage y
termination_by F.rank x
decreasing_by exact F.descends x y ‹_›

/-- One element is the other, or stands above it. -/
def IsAncestor (a x : α) : Prop := Relation.ReflTransGen (fun y z => F.parent y = some z) x a

variable [BEq α]

/-- The first element of one lineage that the other shares. -/
def nearest (x y : α) : Option α := (F.lineage x).find? fun a => (F.lineage y).contains a

variable {F} {a b x y z : α}

omit [BEq α] in
theorem lineage_of_parent (h : F.parent x = some y) : F.lineage x = x :: F.lineage y := by
  rw [lineage]
  split
  · next hnone => exact absurd (hnone.symm.trans h) nofun
  · next z hz => rw [Option.some.inj (hz.symm.trans h)]

omit [BEq α] in
theorem lineage_of_root (h : F.parent x = none) : F.lineage x = [x] := by
  rw [lineage]
  split
  · rfl
  · next z hz => exact absurd (hz.symm.trans h) nofun

omit [BEq α] in
theorem lineage_eq_cons (F : Forest α) (x : α) : ∃ l, F.lineage x = x :: l := by
  cases h : F.parent x with
  | none => exact ⟨_, lineage_of_root h⟩
  | some y => exact ⟨_, lineage_of_parent h⟩

namespace IsAncestor

omit [BEq α]

@[refl] theorem refl (x : α) : F.IsAncestor x x := Relation.ReflTransGen.refl

theorem trans (h : F.IsAncestor a b) (h' : F.IsAncestor b x) : F.IsAncestor a x :=
  Relation.ReflTransGen.trans h' h

theorem of_parent (h : F.parent x = some y) (hy : F.IsAncestor a y) : F.IsAncestor a x :=
  Relation.ReflTransGen.head h hy

theorem eq_or_of_parent (h : F.IsAncestor a x) : a = x ∨ ∃ y, F.parent x = some y ∧ F.IsAncestor a y := by
  cases Relation.ReflTransGen.cases_head h with
  | inl heq => exact .inl heq.symm
  | inr h => exact .inr h

theorem rank_le (h : F.IsAncestor a x) : F.rank a ≤ F.rank x := by
  induction h with
  | refl => exact Nat.le_refl _
  | tail _ hstep ih => exact Nat.le_trans (Nat.le_of_lt (F.descends _ _ hstep)) ih

theorem antisymm (h : F.IsAncestor a x) (h' : F.IsAncestor x a) : a = x := by
  cases h.eq_or_of_parent with
  | inl heq => exact heq
  | inr hup =>
    obtain ⟨y, hy, hay⟩ := hup
    have hlt := F.descends x y hy
    have hle := hay.rank_le
    have hback := h'.rank_le
    omega

theorem total (h : F.IsAncestor a x) (h' : F.IsAncestor b x) : F.IsAncestor a b ∨ F.IsAncestor b a :=
  (Relation.ReflTransGen.total_of_right_unique
    (fun _ _ _ hy hz => Option.some.inj (hy.symm.trans hz)) h h').symm

end IsAncestor

omit [BEq α] in
theorem mem_lineage : a ∈ F.lineage x ↔ F.IsAncestor a x := by
  induction x using lineage.induct F with
  | case1 x ih =>
    cases hx : F.parent x with
    | none =>
      rw [lineage_of_root hx, List.mem_singleton]
      constructor
      · rintro rfl
        exact .refl a
      · intro h
        refine h.eq_or_of_parent.resolve_right ?_
        rintro ⟨y, hy, -⟩
        exact absurd (hx.symm.trans hy) nofun
    | some y =>
      rw [lineage_of_parent hx, List.mem_cons, ih y hx]
      constructor
      · rintro (rfl | h)
        · exact .refl a
        · exact h.of_parent hx
      · intro h
        refine h.eq_or_of_parent.imp id ?_
        rintro ⟨z, hz, haz⟩
        rwa [Option.some.inj (hx.symm.trans hz)]

/-- A common ancestor that every other is an ancestor of. -/
def IsNearest (F : Forest α) (x y a : α) : Prop :=
  (F.IsAncestor a x ∧ F.IsAncestor a y) ∧ ∀ b, F.IsAncestor b x → F.IsAncestor b y → F.IsAncestor b a

omit [BEq α] in
theorem IsNearest.unique (h : F.IsNearest x y a) (h' : F.IsNearest x y b) : a = b :=
  (h'.2 a h.1.1 h.1.2).antisymm (h.2 b h'.1.1 h'.1.2)

omit [BEq α] in
theorem IsNearest.symm (h : F.IsNearest x y a) : F.IsNearest y x a :=
  ⟨h.1.symm, fun b hy hx => h.2 b hx hy⟩

variable [LawfulBEq α]

/-- The search finds the nearest shared element, or there is none. -/
theorem nearest_spec (x y : α) : (∃ a, F.nearest x y = some a ∧ F.IsNearest x y a) ∨
    (F.nearest x y = none ∧ ∀ a, F.IsAncestor a x → ¬ F.IsAncestor a y) := by
  rw [nearest]
  induction x using lineage.induct F with
  | case1 x ih =>
    by_cases hxy : F.IsAncestor x y
    · left
      have hfound : (F.lineage y).contains x = true := List.contains_iff_mem.2 (mem_lineage.2 hxy)
      obtain ⟨l, hl⟩ := F.lineage_eq_cons x
      exact ⟨x, by rw [hl, List.find?_cons, hfound], ⟨.refl x, hxy⟩, fun b hb _ => hb⟩
    · have hmissed : (F.lineage y).contains x = false :=
        Bool.eq_false_iff.2 fun h => hxy (mem_lineage.1 (List.contains_iff_mem.1 h))
      cases hx : F.parent x with
      | none =>
        right
        refine ⟨by rw [lineage_of_root hx, List.find?_cons, hmissed, List.find?_nil], fun a ha hay => ?_⟩
        rw [← mem_lineage, lineage_of_root hx, List.mem_singleton] at ha
        exact hxy (ha ▸ hay)
      | some z =>
        -- what `x` shares with `y`, its parent shares
        have hup : ∀ a, F.IsAncestor a x → F.IsAncestor a y → F.IsAncestor a z := by
          intro a ha hay
          cases ha.eq_or_of_parent with
          | inl heq => exact absurd (heq ▸ hay) hxy
          | inr h =>
            obtain ⟨z', hz', haz⟩ := h
            rwa [Option.some.inj (hx.symm.trans hz')]
        rw [lineage_of_parent hx, List.find?_cons, hmissed]
        refine (ih z hx).imp ?_ ?_
        · rintro ⟨a, hfind, ⟨haz, hay⟩, hnear⟩
          exact ⟨a, hfind, ⟨haz.of_parent hx, hay⟩, fun b hb hby => hnear b (hup b hb hby) hby⟩
        · rintro ⟨hfind, hnone⟩
          exact ⟨hfind, fun a ha hay => hnone a (hup a ha hay) hay⟩

theorem nearest_eq_some_iff : F.nearest x y = some a ↔ F.IsNearest x y a := by
  cases F.nearest_spec x y with
  | inl h =>
    obtain ⟨b, hb, hnear⟩ := h
    rw [hb, Option.some.injEq]
    constructor
    · rintro rfl
      exact hnear
    · intro h
      exact hnear.unique h
  | inr h =>
    rw [h.1]
    exact ⟨nofun, fun hnear => absurd hnear.1.2 (h.2 a hnear.1.1)⟩

theorem exists_nearest (hx : F.IsAncestor a x) (hy : F.IsAncestor a y) : ∃ m, F.nearest x y = some m := by
  cases F.nearest_spec x y with
  | inl h => exact ⟨h.choose, h.choose_spec.1⟩
  | inr h => exact absurd hy (h.2 a hx)

end Forest

/-- A list folded onto its head. -/
def foldPartial {α : Type*} (op : α → α → Option α) : List α → Option α
  | [] => none
  | x :: l => l.foldlM op x

/-- An operation that answers the greatest element below two, where any is below both. The order
is reflexive where it holds at all. -/
structure PartialMeet {α : Type*} (below : α → α → Prop) (op : α → α → Option α) : Prop where
  refl : ∀ {a x}, below a x → below a a ∧ below x x
  trans : ∀ {a b x}, below a b → below b x → below a x
  some_iff : ∀ {x y a}, op x y = some a ↔ (below a x ∧ below a y) ∧ ∀ b, below b x → below b y → below b a
  total : ∀ {x y a}, below a x → below a y → ∃ m, op x y = some m

namespace PartialMeet

variable {α : Type*} {below : α → α → Prop} {op : α → α → Option α} (h : PartialMeet below op)

include h

theorem comm (x y : α) : op x y = op y x := by
  ext a
  rw [h.some_iff, h.some_iff]
  constructor
  · rintro ⟨⟨hx, hy⟩, hmin⟩
    exact ⟨⟨hy, hx⟩, fun b hb hb' => hmin b hb' hb⟩
  · rintro ⟨⟨hy, hx⟩, hmin⟩
    exact ⟨⟨hx, hy⟩, fun b hb hb' => hmin b hb' hb⟩

theorem eq_left_iff {x y : α} : op x y = some x ↔ below x y := by
  rw [h.some_iff]
  exact ⟨fun hx => hx.1.2, fun hxy => ⟨⟨(h.refl hxy).1, hxy⟩, fun b hb _ => hb⟩⟩

/-- The greatest element below three, whichever two are asked first. -/
theorem bind_eq_some_iff {x y z a : α} : (op x y).bind (op · z) = some a ↔
    (below a x ∧ below a y ∧ below a z) ∧ ∀ b, below b x → below b y → below b z → below b a := by
  rw [Option.bind_eq_some_iff]
  constructor
  · rintro ⟨m, hm, ha⟩
    obtain ⟨⟨hmx, hmy⟩, hmin⟩ := h.some_iff.1 hm
    obtain ⟨⟨ham, haz⟩, hamin⟩ := h.some_iff.1 ha
    exact ⟨⟨h.trans ham hmx, h.trans ham hmy, haz⟩, fun b hx hy hz => hamin b (hmin b hx hy) hz⟩
  · rintro ⟨⟨hx, hy, hz⟩, hmin⟩
    obtain ⟨m, hm⟩ := h.total hx hy
    obtain ⟨⟨hmx, hmy⟩, hmmin⟩ := h.some_iff.1 hm
    refine ⟨m, hm, h.some_iff.2 ⟨⟨hmmin a hx hy, hz⟩, fun b hb hbz => ?_⟩⟩
    exact hmin b (h.trans hb hmx) (h.trans hb hmy) hbz

theorem assoc (x y z : α) : (op x y).bind (op · z) = (op y z).bind (op x ·) := by
  have hcomm : (op y z).bind (op x ·) = (op y z).bind (op · x) := congrArg _ (funext (h.comm x))
  rw [hcomm]
  ext a
  rw [h.bind_eq_some_iff, h.bind_eq_some_iff]
  constructor
  · rintro ⟨⟨hx, hy, hz⟩, hmin⟩
    exact ⟨⟨hy, hz, hx⟩, fun b hby hbz hbx => hmin b hbx hby hbz⟩
  · rintro ⟨⟨hy, hz, hx⟩, hmin⟩
    exact ⟨⟨hx, hy, hz⟩, fun b hbx hby hbz => hmin b hby hbz hbx⟩

theorem foldPartial_perm {l l' : List α} (hl : l.Perm l') : foldPartial op l = foldPartial op l' := by
  have hright : ∀ x y z, (op x y).bind (op · z) = (op x z).bind (op · y) := by
    intro x y z
    rw [h.assoc, h.comm y z, ← h.assoc]
  have hperm : ∀ {l l' : List α}, l.Perm l' → ∀ x, l.foldlM op x = l'.foldlM op x := by
    intro l l' hl
    induction hl with
    | nil => exact fun _ => rfl
    | cons z _ ih =>
      intro x
      rw [List.foldlM_cons, List.foldlM_cons]
      exact congrArg _ (funext ih)
    | swap y z l =>
      intro x
      have hbind := congrArg (Option.bind · fun m => l.foldlM op m) (hright x z y)
      simp only [Option.bind_assoc] at hbind
      simp only [List.foldlM_cons]
      exact hbind
    | trans _ _ ih ih' => exact fun x => (ih x).trans (ih' x)
  induction hl with
  | nil => rfl
  | cons x hl => exact hperm hl x
  | swap x y l => exact congrArg (Option.bind · fun m => l.foldlM op m) (h.comm y x)
  | trans _ _ ih ih' => exact ih.trans ih'

end PartialMeet
