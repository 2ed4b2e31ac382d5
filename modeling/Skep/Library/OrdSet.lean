import Mathlib

/-!
# Finite sets in element order

A finite set over a linearly ordered type, stored as its elements in ascending
order. The representation is canonical, so two sets with the same elements are
equal, and a walk meets the elements in order.
-/

namespace OrdSet

variable {κ : Type*} [LinearOrder κ]

/-- Insert into an ascending list, once. -/
def insertElem (k : κ) : List κ → List κ
  | [] => [k]
  | x :: rest => if k < x then k :: x :: rest else if k = x then x :: rest else x :: insertElem k rest

@[simp] theorem mem_insertElem {k x : κ} {l : List κ} : x ∈ insertElem k l ↔ x = k ∨ x ∈ l := by
  induction l with
  | nil => simp [insertElem]
  | cons y rest ih =>
    rw [insertElem]
    split
    · simp
    · split
      · next h =>
        subst h
        simp
      · rw [List.mem_cons, ih, List.mem_cons]
        exact or_left_comm

theorem pairwise_insertElem {l : List κ} (h : l.Pairwise (· < ·)) (k : κ) :
    (insertElem k l).Pairwise (· < ·) := by
  induction l with
  | nil => simp [insertElem]
  | cons x rest ih =>
    obtain ⟨hlt, hrest⟩ := List.pairwise_cons.1 h
    rw [insertElem]
    split
    · next hk =>
      refine List.pairwise_cons.2 ⟨fun y hy => ?_, h⟩
      rcases List.mem_cons.1 hy with rfl | hy
      · exact hk
      · exact hk.trans (hlt y hy)
    · split
      · exact h
      · next hk hne =>
        refine List.pairwise_cons.2 ⟨fun y hy => ?_, ih hrest⟩
        rcases mem_insertElem.1 hy with rfl | hy
        · exact lt_of_le_of_ne (not_lt.1 hk) (Ne.symm hne)
        · exact hlt y hy

end OrdSet

/-- A finite set whose elements stand in ascending order. -/
structure OrdSet (κ : Type*) [LinearOrder κ] where
  elems : List κ
  ascending : elems.Pairwise (· < ·)

namespace OrdSet

variable {κ : Type*} [LinearOrder κ]

instance : DecidableEq (OrdSet κ) := fun s t =>
  decidable_of_iff (s.elems = t.elems) ⟨fun h => by cases s; cases t; cases h; rfl, fun h => h ▸ rfl⟩

instance : Membership κ (OrdSet κ) := ⟨fun s k => k ∈ s.elems⟩

instance (k : κ) (s : OrdSet κ) : Decidable (k ∈ s) := inferInstanceAs (Decidable (k ∈ s.elems))

@[simp] theorem mem_elems {k : κ} {s : OrdSet κ} : k ∈ s.elems ↔ k ∈ s := Iff.rfl

instance : HasSubset (OrdSet κ) := ⟨fun s t => ∀ k ∈ s, k ∈ t⟩

theorem subset_refl (s : OrdSet κ) : s ⊆ s := fun _ h => h

theorem nodup (s : OrdSet κ) : s.elems.Nodup := s.ascending.imp ne_of_lt

theorem ext_mem {s t : OrdSet κ} (h : ∀ k, k ∈ s ↔ k ∈ t) : s = t := by
  have helems : s.elems = t.elems := by
    refine List.Perm.eq_of_pairwise (fun a b _ _ hab hba => absurd hba (lt_asymm hab))
      s.ascending t.ascending ?_
    exact (List.perm_ext_iff_of_nodup s.nodup t.nodup).2 h
  cases s
  cases t
  cases helems
  rfl

theorem eq_of_ascending {l l' : List κ} (h : l.Pairwise (· < ·)) (h' : l'.Pairwise (· < ·))
    (hmem : ∀ k, k ∈ l ↔ k ∈ l') : l = l' :=
  congrArg elems (ext_mem (s := ⟨l, h⟩) (t := ⟨l', h'⟩) hmem)

def empty : OrdSet κ := ⟨[], List.Pairwise.nil⟩

instance : EmptyCollection (OrdSet κ) := ⟨empty⟩

def insert (k : κ) (s : OrdSet κ) : OrdSet κ := ⟨insertElem k s.elems, pairwise_insertElem s.ascending k⟩

/-- The elements of a list. -/
def ofList (l : List κ) : OrdSet κ := l.foldr insert ∅

def union (s t : OrdSet κ) : OrdSet κ := s.elems.foldr insert t

/-- The union of a list of sets. -/
def unions (l : List (OrdSet κ)) : OrdSet κ := l.foldr union ∅

def filter (p : κ → Bool) (s : OrdSet κ) : OrdSet κ := ⟨s.elems.filter p, s.ascending.filter p⟩

def isEmpty (s : OrdSet κ) : Bool := s.elems.isEmpty

@[simp] theorem not_mem_empty (k : κ) : k ∉ (∅ : OrdSet κ) := List.not_mem_nil

@[simp] theorem mem_insert {k x : κ} {s : OrdSet κ} : x ∈ insert k s ↔ x = k ∨ x ∈ s := mem_insertElem

@[simp] theorem mem_ofList {x : κ} {l : List κ} : x ∈ ofList l ↔ x ∈ l := by
  induction l with
  | nil => simp [ofList]
  | cons y rest ih => exact mem_insert.trans (by rw [show x ∈ List.foldr insert ∅ rest ↔ _ from ih]; simp)

@[simp] theorem mem_union {x : κ} {s t : OrdSet κ} : x ∈ union s t ↔ x ∈ s ∨ x ∈ t := by
  have h : ∀ l : List κ, x ∈ l.foldr insert t ↔ x ∈ l ∨ x ∈ t := by
    intro l
    induction l with
    | nil => simp
    | cons y rest ih => simp [ih, or_assoc]
  exact h s.elems

@[simp] theorem mem_unions {x : κ} {l : List (OrdSet κ)} : x ∈ unions l ↔ ∃ s ∈ l, x ∈ s := by
  induction l with
  | nil => simp [unions]
  | cons s rest ih => exact mem_union.trans (by rw [show x ∈ List.foldr union ∅ rest ↔ _ from ih]; simp)

@[simp] theorem mem_filter {x : κ} {p : κ → Bool} {s : OrdSet κ} :
    x ∈ s.filter p ↔ x ∈ s ∧ p x = true := List.mem_filter

theorem isEmpty_iff {s : OrdSet κ} : s.isEmpty = true ↔ ∀ k, k ∉ s := by
  rw [isEmpty, List.isEmpty_iff, List.eq_nil_iff_forall_not_mem]
  rfl

end OrdSet
