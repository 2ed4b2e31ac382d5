import Skep.Library.Returns

/-!
# Traversals of a list that grows

A traversal is run twice, the second time over a list that has every element of the first one
and with calls that keep the answers of the first. What the first run found, the second finds.
-/

namespace Outcome

universe u v

variable {ε : Type v} {α β : Type u}

/-- If the first call answered so, the second does. -/
def Keeps (a : α) (x x' : Outcome ε α) : Prop := x = ok a → x' = ok a

/-- The second call answers a list with every element of the first one's. -/
def Grown (x x' : Outcome ε (List α)) : Prop := ∀ l, x = ok l → ∃ l', x' = ok l' ∧ l ⊆ l'

theorem Keeps.of_eq {a : α} {x x' : Outcome ε α} (h : x = x') : Keeps a x x' := fun hx => h ▸ hx

theorem Grown.of_eq {x x' : Outcome ε (List α)} (h : x = x') : Grown x x' :=
  fun l hl => ⟨l, h ▸ hl, List.Subset.refl l⟩

/-- A step that keeps the answer keeps it along a first step that is not run differently. -/
theorem Keeps.bind {b : β} {x : Outcome ε α} {f f' : α → Outcome ε β} (h : ∀ a, x = ok a → Keeps b (f a) (f' a)) :
    Keeps b (x >>= f) (x >>= f') := by
  intro hx
  obtain ⟨a, ha, hf⟩ := bind_eq_ok_iff.1 hx
  rw [ha, ok_bind]
  exact h a ha hf

section

variable {f f' : α → Outcome ε Bool} {l l' : List α}

theorem Keeps.allM_true (h : ∀ a ∈ l, Keeps true (f a) (f' a)) : Keeps true (l.allM f) (l.allM f') := fun hx =>
  allM_eq_true_iff.2 fun a ha => h a ha (allM_eq_true_iff.1 hx a ha)

theorem Keeps.anyM_false (h : ∀ a ∈ l, Keeps false (f a) (f' a)) : Keeps false (l.anyM f) (l.anyM f') := fun hx =>
  anyM_eq_false_iff.2 fun a ha => h a ha (anyM_eq_false_iff.1 hx a ha)

/-- What was found in a list is found in a longer one. -/
theorem Keeps.anyM_true (hsub : l ⊆ l') (h : ∀ a ∈ l, Keeps true (f a) (f' a))
    (hf' : ∀ a ∈ l', (f' a).Returns fun _ => True) : Keeps true (l.anyM f) (l'.anyM f') := by
  intro hx
  obtain ⟨a, ha, hfa⟩ := exists_of_anyM hx
  obtain ⟨b, hb, -⟩ := Returns.anyM hf'
  cases b with
  | true => exact hb
  | false =>
    have hfalse := anyM_eq_false_iff.1 hb a (hsub ha)
    rw [h a ha hfa] at hfalse
    cases hfalse

theorem Keeps.allM_false (hsub : l ⊆ l') (h : ∀ a ∈ l, Keeps false (f a) (f' a))
    (hf' : ∀ a ∈ l', (f' a).Returns fun _ => True) : Keeps false (l.allM f) (l'.allM f') := by
  intro hx
  obtain ⟨a, ha, hfa⟩ := exists_of_allM hx
  obtain ⟨b, hb, -⟩ := Returns.allM hf'
  cases b with
  | false => exact hb
  | true =>
    have htrue := allM_eq_true_iff.1 hb a (hsub ha)
    rw [h a ha hfa] at htrue
    cases htrue

end

theorem mem_mapM {f : α → Outcome ε β} {l : List α} {bs : List β} (h : l.mapM f = ok bs) {b : β} :
    b ∈ bs ↔ ∃ a ∈ l, f a = ok b := by
  have hall := forall₂_of_mapM h
  clear h
  induction hall with
  | nil => simp
  | cons hb _ ih =>
    rw [List.mem_cons, List.exists_mem_cons_iff, hb, ok.injEq]
    exact or_congr eq_comm ih

/-- What was answered of a list is answered of a longer one. -/
theorem Grown.mapM {f : α → Outcome ε β} {l l' : List α} (hsub : l ⊆ l') (hf : ∀ a ∈ l', (f a).Returns fun _ => True) :
    Grown (l.mapM f) (l'.mapM f) := by
  intro bs hbs
  obtain ⟨bs', hbs', -⟩ := Returns.mapM hf
  refine ⟨bs', hbs', fun b hb => ?_⟩
  obtain ⟨a, ha, hfa⟩ := (mem_mapM hbs).1 hb
  exact (mem_mapM hbs').2 ⟨a, hsub ha, hfa⟩

section

variable {γ : Type} {p p' : γ → Outcome ε Bool} {l l' : List γ}

theorem keepM_sublist {kept : List γ} (h : keepM p l = ok kept) : kept.Sublist l := by
  induction l generalizing kept with
  | nil =>
    cases h
    exact .slnil
  | cons a l ih =>
    simp only [keepM, bind_eq_ok_iff, pure_eq, ok.injEq] at h
    obtain ⟨b, -, rest, hrest, rfl⟩ := h
    cases b with
    | true => exact (ih hrest).cons_cons a
    | false => exact (ih hrest).cons a

/-- What a test kept of a list it keeps of a longer one. -/
theorem Grown.keepM (hsub : l ⊆ l') (h : ∀ a ∈ l, Keeps true (p a) (p' a))
    (hp' : ∀ a ∈ l', (p' a).Returns fun _ => True) : Grown (Outcome.keepM p l) (Outcome.keepM p' l') := by
  intro kept hkept
  obtain ⟨kept', hkept', -⟩ := Returns.keepM hp'
  refine ⟨kept', hkept', fun a ha => ?_⟩
  obtain ⟨hal, hpa⟩ := (mem_keepM hkept).1 ha
  exact (mem_keepM hkept').2 ⟨hsub hal, h a hal hpa⟩

end

end Outcome
