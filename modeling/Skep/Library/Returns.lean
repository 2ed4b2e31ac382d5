import Skep.Library.Outcome

/-!
# Calls that return

The rules of a call that is neither refused nor faults and whose answer has a property, along
the sequence of its steps and the traversals of a list.
-/

namespace Outcome

universe u v

variable {ε : Type v} {α β : Type u}

theorem mapM_congr {f g : α → Outcome ε β} {l : List α} (h : ∀ a ∈ l, f a = g a) : l.mapM f = l.mapM g := by
  induction l with
  | nil => rfl
  | cons a l ih =>
    rw [List.mapM_cons, List.mapM_cons, h a List.mem_cons_self, ih fun a' h' => h a' (List.mem_cons_of_mem _ h')]

/-- What a traversal answers, where each call's answer is known. -/
theorem mapM_eq_ok_iff {f : α → Outcome ε β} {g : α → β} {P : α → Prop} (h : ∀ a b, f a = ok b ↔ P a ∧ b = g a)
    {l : List α} {bs : List β} : l.mapM f = ok bs ↔ (∀ a ∈ l, P a) ∧ bs = l.map g := by
  induction l generalizing bs with
  | nil => simp [eq_comm]
  | cons a l ih =>
    simp only [List.mapM_cons, bind_eq_ok_iff, h, ih, pure_eq, ok.injEq, List.forall_mem_cons, List.map_cons]
    constructor
    · rintro ⟨b, ⟨ha, rfl⟩, bs', ⟨hl, rfl⟩, rfl⟩
      exact ⟨⟨ha, hl⟩, rfl⟩
    · rintro ⟨⟨ha, hl⟩, rfl⟩
      exact ⟨g a, ⟨ha, rfl⟩, l.map g, ⟨hl, rfl⟩, rfl⟩

/-- The call returns, and what it returns has the property. -/
def Returns (x : Outcome ε α) (P : α → Prop) : Prop := ∃ a, x = ok a ∧ P a

namespace Returns

variable {P P' : α → Prop} {R : β → Prop}

theorem pure {a : α} (h : P a) : (Pure.pure a : Outcome ε α).Returns P := ⟨a, rfl, h⟩

theorem of_eq {x : Outcome ε α} {a : α} (hx : x = ok a) (h : P a) : x.Returns P := ⟨a, hx, h⟩

theorem exists_eq {x : Outcome ε α} (h : x.Returns P) : ∃ a, x = ok a := by
  obtain ⟨a, ha, -⟩ := h
  exact ⟨a, ha⟩

theorem mono {x : Outcome ε α} (h : x.Returns P) (hP : ∀ a, P a → P' a) : x.Returns P' := by
  obtain ⟨a, ha, hPa⟩ := h
  exact ⟨a, ha, hP a hPa⟩

theorem of_ok {x : Outcome ε α} {a : α} (h : x.Returns P) (ha : x = ok a) : P a := by
  obtain ⟨b, hb, hPb⟩ := h
  cases ha.symm.trans hb
  exact hPb

theorem bind {x : Outcome ε α} {f : α → Outcome ε β} (h : x.Returns P) (hf : ∀ a, P a → (f a).Returns R) :
    (x >>= f).Returns R := by
  obtain ⟨a, rfl, hPa⟩ := h
  exact hf a hPa

theorem mapM {f : α → Outcome ε β} {l : List α} (h : ∀ a ∈ l, (f a).Returns R) :
    (l.mapM f).Returns fun bs => ∀ b ∈ bs, R b := by
  obtain ⟨bs, hbs, hmem, -⟩ := exists_mapM_mem (R := fun _ b => R b) h
  refine ⟨bs, hbs, fun b hb => ?_⟩
  obtain ⟨_, -, hb⟩ := hmem b hb
  exact hb

theorem foldlM {f : β → α → Outcome ε β} {l : List α} (h : ∀ b, ∀ a ∈ l, (f b a).Returns fun _ => True) (b : β) :
    (l.foldlM f b).Returns fun _ => True := by
  obtain ⟨b', hb'⟩ := exists_foldlM (fun b a ha => (h b a ha).exists_eq) b
  exact ⟨b', hb', trivial⟩

theorem anyM {f : α → Outcome ε Bool} {l : List α} (h : ∀ a ∈ l, (f a).Returns fun _ => True) :
    (l.anyM f).Returns fun _ => True := by
  obtain ⟨b, hb⟩ := exists_anyM_ok fun a ha => (h a ha).exists_eq
  exact ⟨b, hb, trivial⟩

theorem allM {f : α → Outcome ε Bool} {l : List α} (h : ∀ a ∈ l, (f a).Returns fun _ => True) :
    (l.allM f).Returns fun _ => True := by
  obtain ⟨b, hb⟩ := exists_allM fun a ha => (h a ha).exists_eq
  exact ⟨b, hb, trivial⟩

theorem keepM {γ : Type} {p : γ → Outcome ε Bool} {l : List γ} (h : ∀ a ∈ l, (p a).Returns fun _ => True) :
    (Outcome.keepM p l).Returns fun l' => ∀ a ∈ l', a ∈ l := by
  obtain ⟨l', hl'⟩ := exists_keepM fun a ha => (h a ha).exists_eq
  exact ⟨l', hl', fun a ha => ((mem_keepM hl').1 ha).1⟩

end Returns

end Outcome
