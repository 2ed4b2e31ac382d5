import Mathlib

/-!
# Outcomes of a fallible call

A call ends in a value, in an error it returns, or in a fault: the failure of
a check that the author asserts can never fail. Errors and faults are kept
apart so that the absence of faults can be stated of code that does return
errors.
-/

/-- What a call ends in. -/
inductive Outcome (ε α : Type*) where
  | ok (value : α)
  | err (error : ε)
  | fault
  deriving DecidableEq, Repr

namespace Outcome

universe u v

variable {ε ε' : Type v} {α β : Type u}

/-- Run `next` on the value, where there is one. -/
def bind (x : Outcome ε α) (next : α → Outcome ε β) : Outcome ε β :=
  match x with
  | ok a => next a
  | err e => err e
  | fault => fault

instance : Monad (Outcome ε) where
  pure := ok
  bind := bind

instance : LawfulMonad (Outcome ε) :=
  LawfulMonad.mk' _ (fun x => by cases x <;> rfl) (fun _ _ => rfl) fun x _ _ => by cases x <;> rfl

/-- Refuse with `e` where `bad` holds. -/
def refuseIf (bad : Prop) [Decidable bad] (e : ε) : Outcome ε Unit :=
  if bad then err e else ok ()

/-- Refuse with the error of what is there. -/
def refuseSome {γ : Type*} (x : Option γ) (e : γ → ε) : Outcome ε Unit :=
  match x with
  | some a => err (e a)
  | none => ok ()

/-- The assertion that `good` holds. -/
def require (good : Prop) [Decidable good] : Outcome ε Unit :=
  if good then ok () else fault

/-- The assertion that `x` returned no error. -/
def expect (x : Outcome ε' α) : Outcome ε α :=
  match x with
  | ok a => ok a
  | err _ => fault
  | fault => fault

/-- The error of `x` renamed. -/
def mapErr (f : ε' → ε) (x : Outcome ε' α) : Outcome ε α :=
  match x with
  | ok a => ok a
  | err e => err (f e)
  | fault => fault

/-- The value of an option, `e` where there is none. -/
def okOr (x : Option α) (e : ε) : Outcome ε α :=
  match x with
  | some a => ok a
  | none => err e

/-- The value of an option the author asserts is there. -/
def expectSome (x : Option α) : Outcome ε α :=
  match x with
  | some a => ok a
  | none => fault

/-- Whether a call returned. -/
def isOk (x : Outcome ε α) : Bool :=
  match x with
  | ok _ => true
  | err _ => false
  | fault => false

/-- Unsigned subtraction, a fault where it underflows. -/
def natSub (a b : ℕ) : Outcome ε ℕ := if a < b then fault else ok (a - b)

/-- The result of a call that does not fault. -/
def toExcept (x : Outcome ε α) (h : x ≠ fault) : Except ε α :=
  match x, h with
  | ok a, _ => .ok a
  | err e, _ => .error e

/-- The value, where there is one. -/
def toOption (x : Outcome ε α) : Option α :=
  match x with
  | ok a => some a
  | _ => none

@[simp] theorem pure_eq (a : α) : (pure a : Outcome ε α) = ok a := rfl

@[simp] theorem ok_bind (a : α) (f : α → Outcome ε β) : (ok a >>= f) = f a := rfl

@[simp] theorem err_bind (e : ε) (f : α → Outcome ε β) : (err e >>= f) = err e := rfl

@[simp] theorem fault_bind (f : α → Outcome ε β) : (fault >>= f) = fault := rfl

@[simp] theorem expect_ok (a : α) : (expect (ok a : Outcome ε' α) : Outcome ε α) = ok a := rfl

theorem isOk_iff {x : Outcome ε α} : x.isOk = true ↔ ∃ a, x = ok a := by
  cases x <;> simp [isOk]

/-- Two sequences agree where their second parts do on what the first returns. -/
theorem bind_congr_ok {x : Outcome ε α} {f g : α → Outcome ε β} (h : ∀ a, x = ok a → f a = g a) :
    (x >>= f) = (x >>= g) := by
  cases x with
  | ok a => exact h a rfl
  | err e => rfl
  | fault => rfl

theorem bind_eq_ok_iff {x : Outcome ε α} {f : α → Outcome ε β} {b : β} :
    (x >>= f) = ok b ↔ ∃ a, x = ok a ∧ f a = ok b := by
  cases x <;> simp

/-- A sequence faults in its first part or in its second. -/
theorem bind_eq_fault_iff {x : Outcome ε α} {f : α → Outcome ε β} :
    (x >>= f) = fault ↔ x = fault ∨ ∃ a, x = ok a ∧ f a = fault := by
  cases x <;> simp

/-- A sequence refuses in its first part or in its second. -/
theorem bind_eq_err_iff {x : Outcome ε α} {f : α → Outcome ε β} {e : ε} :
    (x >>= f) = err e ↔ x = err e ∨ ∃ a, x = ok a ∧ f a = err e := by
  cases x <;> simp

theorem bind_ne_fault {x : Outcome ε α} {f : α → Outcome ε β} (hx : x ≠ fault)
    (hf : ∀ a, f a ≠ fault) : (x >>= f) ≠ fault := by
  intro h
  rcases bind_eq_fault_iff.1 h with h | ⟨a, -, h⟩
  · exact hx h
  · exact hf a h

@[simp] theorem toExcept_eq_ok_iff {x : Outcome ε α} {h : x ≠ fault} {a : α} :
    x.toExcept h = .ok a ↔ x = ok a := by
  cases x with
  | ok b => simp [toExcept]
  | err e => simp [toExcept]
  | fault => exact absurd rfl h

@[simp] theorem toOption_eq_some_iff {x : Outcome ε α} {a : α} : x.toOption = some a ↔ x = ok a := by
  cases x <;> simp [toOption]

@[simp] theorem refuseIf_eq_ok_iff {bad : Prop} [Decidable bad] {e : ε} {u : Unit} :
    refuseIf bad e = ok u ↔ ¬ bad := by
  rw [refuseIf]
  split <;> simp [*]

@[simp] theorem refuseIf_eq_err_iff {bad : Prop} [Decidable bad] {e e' : ε} :
    refuseIf bad e = err e' ↔ bad ∧ e = e' := by
  rw [refuseIf]
  split <;> simp [*]

@[simp] theorem refuseIf_ne_fault {bad : Prop} [Decidable bad] {e : ε} :
    refuseIf bad e ≠ fault := by
  rw [refuseIf]
  split <;> simp

@[simp] theorem refuseSome_eq_ok_iff {γ : Type*} {x : Option γ} {e : γ → ε} {u : Unit} :
    refuseSome x e = ok u ↔ x = none := by
  cases x <;> simp [refuseSome]

@[simp] theorem refuseSome_eq_err_iff {γ : Type*} {x : Option γ} {e : γ → ε} {e' : ε} :
    refuseSome x e = err e' ↔ ∃ a, x = some a ∧ e a = e' := by
  cases x <;> simp [refuseSome]

@[simp] theorem require_eq_ok_iff {good : Prop} [Decidable good] {u : Unit} :
    (require good : Outcome ε Unit) = ok u ↔ good := by
  rw [require]
  split <;> simp [*]

@[simp] theorem expectSome_eq_ok_iff {x : Option α} {a : α} :
    (expectSome x : Outcome ε α) = ok a ↔ x = some a := by
  cases x <;> simp [expectSome]

@[simp] theorem okOr_eq_ok_iff {x : Option α} {e : ε} {a : α} :
    okOr x e = ok a ↔ x = some a := by
  cases x <;> simp [okOr]

@[simp] theorem okOr_eq_err_iff {x : Option α} {e e' : ε} :
    (okOr x e : Outcome ε α) = err e' ↔ x = none ∧ e = e' := by
  cases x <;> simp [okOr]

@[simp] theorem okOr_ne_fault {x : Option α} {e : ε} : okOr x e ≠ fault := by
  cases x <;> simp [okOr]

@[simp] theorem mapErr_eq_ok_iff {f : ε' → ε} {x : Outcome ε' α} {a : α} :
    x.mapErr f = ok a ↔ x = ok a := by
  cases x <;> simp [mapErr]

@[simp] theorem mapErr_eq_err_iff {f : ε' → ε} {x : Outcome ε' α} {e : ε} :
    x.mapErr f = err e ↔ ∃ e', x = err e' ∧ f e' = e := by
  cases x <;> simp [mapErr]

@[simp] theorem mapErr_eq_fault_iff {f : ε' → ε} {x : Outcome ε' α} :
    x.mapErr f = fault ↔ x = fault := by
  cases x <;> simp [mapErr]

@[simp] theorem expect_eq_ok_iff {x : Outcome ε' α} {a : α} :
    (x.expect : Outcome ε α) = ok a ↔ x = ok a := by
  cases x <;> simp [expect]

@[simp] theorem expect_ne_err {x : Outcome ε' α} {e : ε} : x.expect ≠ err e := by
  cases x <;> simp [expect]

@[simp] theorem expectSome_ne_err {x : Option α} {e : ε} : expectSome x ≠ err e := by
  cases x <;> simp [expectSome]

theorem natSub_of_le {a b : ℕ} (h : b ≤ a) : (natSub a b : Outcome ε ℕ) = ok (a - b) := if_neg h.not_gt

@[simp] theorem natSub_add_left (a b : ℕ) : (natSub (a + b) a : Outcome ε ℕ) = ok b := by
  rw [natSub, if_neg (by omega), Nat.add_sub_cancel_left]

/-- A traversal whose every call returns the image of its element returns the
images. -/
theorem mapM_eq_ok {f : α → Outcome ε β} {g : α → β} {l : List α}
    (h : ∀ a ∈ l, f a = ok (g a)) : l.mapM f = ok (l.map g) := by
  induction l with
  | nil => rfl
  | cons a l ih =>
    rw [List.mapM_cons, h a (by simp), ih fun a' h' => h a' (List.mem_cons_of_mem _ h')]
    rfl

/-- A traversal whose every call returns something related returns related
values throughout. -/
theorem exists_mapM {f : α → Outcome ε β} {R : α → β → Prop} {l : List α}
    (h : ∀ a ∈ l, ∃ b, f a = ok b ∧ R a b) : ∃ bs, l.mapM f = ok bs ∧ List.Forall₂ R l bs := by
  induction l with
  | nil => exact ⟨[], rfl, .nil⟩
  | cons a l ih =>
    obtain ⟨b, hb, hR⟩ := h a List.mem_cons_self
    obtain ⟨bs, hbs, hRs⟩ := ih fun a' h' => h a' (List.mem_cons_of_mem _ h')
    refine ⟨b :: bs, ?_, .cons hR hRs⟩
    rw [List.mapM_cons, hb, ok_bind, hbs]
    rfl

/-- The results of a list of calls, each with the call it is of. -/
theorem exists_mapM_mem {f : α → Outcome ε β} {R : α → β → Prop} {l : List α}
    (h : ∀ a ∈ l, ∃ b, f a = ok b ∧ R a b) : ∃ bs, l.mapM f = ok bs ∧
      (∀ b ∈ bs, ∃ a ∈ l, R a b) ∧ ∀ a ∈ l, ∃ b ∈ bs, R a b := by
  obtain ⟨bs, hbs, hR⟩ := exists_mapM h
  refine ⟨bs, hbs, ?_⟩
  clear hbs h
  induction hR with
  | nil => exact ⟨fun _ h => (nomatch h), fun _ h => (nomatch h)⟩
  | @cons a b l bs hab _ ih =>
    constructor
    · intro b' hb'
      rcases List.mem_cons.1 hb' with rfl | hb'
      · exact ⟨a, List.mem_cons_self, hab⟩
      · obtain ⟨a', ha', hR⟩ := ih.1 b' hb'
        exact ⟨a', List.mem_cons_of_mem _ ha', hR⟩
    · intro a' ha'
      rcases List.mem_cons.1 ha' with rfl | ha'
      · exact ⟨b, List.mem_cons_self, hab⟩
      · obtain ⟨b', hb', hR⟩ := ih.2 a' ha'
        exact ⟨b', List.mem_cons_of_mem _ hb', hR⟩

/-- A traversal that returns returns what each call does. -/
theorem forall₂_of_mapM {f : α → Outcome ε β} {l : List α} {bs : List β} (h : l.mapM f = ok bs) :
    List.Forall₂ (fun a b => f a = ok b) l bs := by
  induction l generalizing bs with
  | nil =>
    cases h
    exact .nil
  | cons a l ih =>
    simp only [List.mapM_cons, bind_eq_ok_iff, pure_eq, ok.injEq] at h
    obtain ⟨b, hb, bs, hbs, rfl⟩ := h
    exact .cons hb (ih hbs)

theorem mapM_ne_fault {f : α → Outcome ε β} {l : List α} (h : ∀ a ∈ l, f a ≠ fault) :
    l.mapM f ≠ fault := by
  induction l with
  | nil => simp
  | cons a l ih =>
    rw [List.mapM_cons]
    refine bind_ne_fault (h a List.mem_cons_self) fun b => ?_
    exact bind_ne_fault (ih fun a' h' => h a' (List.mem_cons_of_mem _ h')) fun bs => by simp

theorem mapM_eq_err {f : α → Outcome ε β} {l : List α} {e : ε} (h : l.mapM f = err e) :
    ∃ a ∈ l, f a = err e := by
  induction l with
  | nil => cases h
  | cons a l ih =>
    simp only [List.mapM_cons, bind_eq_err_iff, pure_eq, reduceCtorEq, and_false, exists_false,
      or_false] at h
    rcases h with h | ⟨_, -, h⟩
    · exact ⟨a, List.mem_cons_self, h⟩
    · obtain ⟨a', ha', h⟩ := ih h
      exact ⟨a', List.mem_cons_of_mem _ ha', h⟩

theorem foldlM_eq_err {f : β → α → Outcome ε β} {l : List α} {b : β} {e : ε}
    (h : l.foldlM f b = err e) : ∃ a ∈ l, ∃ b, f b a = err e := by
  induction l generalizing b with
  | nil => cases h
  | cons a l ih =>
    rw [List.foldlM_cons, bind_eq_err_iff] at h
    rcases h with h | ⟨_, -, h⟩
    · exact ⟨a, List.mem_cons_self, b, h⟩
    · obtain ⟨a', ha', h⟩ := ih h
      exact ⟨a', List.mem_cons_of_mem _ ha', h⟩

theorem foldlM_concat_eq_ok_iff {f : β → α → Outcome ε β} {l : List α} {a : α} {b c : β} :
    (l ++ [a]).foldlM f b = ok c ↔ ∃ b', l.foldlM f b = ok b' ∧ f b' a = ok c := by
  simp only [List.foldlM_append, List.foldlM_cons, List.foldlM_nil, bind_pure, bind_eq_ok_iff]

theorem foldlM_invariant {f : β → α → Outcome ε β} {P : β → Prop} {l : List α}
    (hstep : ∀ b, ∀ a ∈ l, ∀ b', f b a = ok b' → P b → P b') {b b' : β}
    (h : l.foldlM f b = ok b') (hb : P b) : P b' := by
  induction l generalizing b with
  | nil =>
    cases h
    exact hb
  | cons a l ih =>
    rw [List.foldlM_cons, bind_eq_ok_iff] at h
    obtain ⟨c, hc, h⟩ := h
    apply ih _ h
    · exact hstep b a List.mem_cons_self c hc hb
    · intro s e he
      exact hstep s e (List.mem_cons_of_mem _ he)

/-- A preorder that relates the ends of every step relates the ends of the fold. -/
theorem foldlM_relates {f : β → α → Outcome ε β} {R : β → β → Prop} {l : List α} (hrefl : ∀ b, R b b)
    (htrans : ∀ {a b c}, R a b → R b c → R a c) (hstep : ∀ b, ∀ a ∈ l, ∀ b', f b a = ok b' → R b b')
    {b b' : β} (h : l.foldlM f b = ok b') : R b b' := by
  apply foldlM_invariant (P := R b) _ h (hrefl b)
  intro s a ha s' hs hbs
  exact htrans hbs (hstep s a ha s' hs)

theorem foldlM_eq_foldl {f : β → α → Outcome ε β} {g : β → α → β} {l : List α}
    (h : ∀ b, ∀ a ∈ l, f b a = ok (g b a)) (b : β) : l.foldlM f b = ok (l.foldl g b) := by
  induction l generalizing b with
  | nil => rfl
  | cons a l ih =>
    rw [List.foldlM_cons, h b a List.mem_cons_self, ok_bind, List.foldl_cons]
    exact ih (fun b a ha => h b a (List.mem_cons_of_mem _ ha)) _

/-- A fold each of whose steps succeeds, with what holds after the elements it has seen. -/
theorem exists_foldlM_seen {f : β → α → Outcome ε β} {P : List α → β → Prop} {l : List α}
    (hstep : ∀ seen b, ∀ a ∈ l, P seen b → ∃ b', f b a = ok b' ∧ P (seen ++ [a]) b') {seen : List α} {b : β}
    (hb : P seen b) : ∃ b', l.foldlM f b = ok b' ∧ P (seen ++ l) b' := by
  induction l generalizing seen b with
  | nil => exact ⟨b, rfl, by rwa [List.append_nil]⟩
  | cons a l ih =>
    obtain ⟨c, hc, hP⟩ := hstep seen b a List.mem_cons_self hb
    obtain ⟨b', hfold, hP⟩ := ih (fun seen b a ha => hstep seen b a (List.mem_cons_of_mem _ ha)) hP
    refine ⟨b', ?_, ?_⟩
    · rw [List.foldlM_cons, hc, ok_bind, hfold]
    · rwa [List.append_assoc, List.singleton_append] at hP

theorem exists_foldlM {f : β → α → Outcome ε β} {l : List α} (h : ∀ b, ∀ a ∈ l, ∃ b', f b a = ok b')
    (b : β) : ∃ b', l.foldlM f b = ok b' := by
  induction l generalizing b with
  | nil => exact ⟨b, rfl⟩
  | cons a l ih =>
    obtain ⟨c, hc⟩ := h b a List.mem_cons_self
    obtain ⟨b', hb'⟩ := ih (fun b a' h' => h b a' (List.mem_cons_of_mem _ h')) c
    exact ⟨b', by rw [List.foldlM_cons, hc, ok_bind, hb']⟩

/-- A search whose every call returns a decision of `P` decides whether `P`
holds anywhere. -/
theorem exists_anyM {f : α → Outcome ε Bool} {P : α → Prop} {l : List α}
    (h : ∀ a ∈ l, ∃ b, f a = ok b ∧ (b = true ↔ P a)) :
    ∃ b, l.anyM f = ok b ∧ (b = true ↔ ∃ a ∈ l, P a) := by
  induction l with
  | nil => exact ⟨false, rfl, by simp⟩
  | cons a l ih =>
    obtain ⟨b, hb, hP⟩ := h a List.mem_cons_self
    obtain ⟨bs, hbs, hPs⟩ := ih fun a' h' => h a' (List.mem_cons_of_mem _ h')
    cases b with
    | true => exact ⟨true, by simp [hb], by simpa using .inl (hP.1 rfl)⟩
    | false => exact ⟨bs, by simp [hb, hbs], by simpa [← hP] using hPs⟩

theorem exists_anyM_ok {f : α → Outcome ε Bool} {l : List α} (h : ∀ a ∈ l, ∃ b, f a = ok b) :
    ∃ b, l.anyM f = ok b := by
  obtain ⟨b, hb, -⟩ := exists_anyM (P := fun a => f a = ok true) fun a ha => by
    obtain ⟨b, hb⟩ := h a ha
    exact ⟨b, hb, by simp [hb]⟩
  exact ⟨b, hb⟩

/-- A search finds nothing where every call answers no. -/
theorem anyM_eq_false_iff {f : α → Outcome ε Bool} {l : List α} :
    l.anyM f = ok false ↔ ∀ a ∈ l, f a = ok false := by
  induction l with
  | nil => simp [List.anyM]
  | cons a l ih =>
    simp only [List.anyM_cons, bind_eq_ok_iff, List.forall_mem_cons, ← ih]
    constructor
    · rintro ⟨b, hb, h⟩
      cases b with
      | true => simp at h
      | false => exact ⟨hb, h⟩
    · rintro ⟨hb, h⟩
      exact ⟨false, hb, h⟩

theorem anyM_congr {f g : α → Outcome ε Bool} {l : List α} (h : ∀ a ∈ l, f a = g a) :
    l.anyM f = l.anyM g := by
  induction l with
  | nil => rfl
  | cons a l ih =>
    rw [List.anyM_cons, List.anyM_cons, h a List.mem_cons_self,
      ih fun a' h' => h a' (List.mem_cons_of_mem _ h')]

theorem foldlM_congr {f g : β → α → Outcome ε β} {l : List α} (h : ∀ a ∈ l, ∀ b, f b a = g b a) (b : β) :
    l.foldlM f b = l.foldlM g b := by
  induction l generalizing b with
  | nil => rfl
  | cons a l ih =>
    rw [List.foldlM_cons, List.foldlM_cons, h a List.mem_cons_self b]
    exact congrArg _ (funext fun b' => ih (fun a' h' => h a' (List.mem_cons_of_mem _ h')) b')

theorem findSomeM_congr {f g : α → Outcome ε (Option β)} {l : List α} (h : ∀ a ∈ l, f a = g a) :
    l.findSomeM? f = l.findSomeM? g := by
  induction l with
  | nil => rw [List.findSomeM?, List.findSomeM?]
  | cons a l ih =>
    rw [List.findSomeM?, List.findSomeM?, h a List.mem_cons_self,
      ih fun a' h' => h a' (List.mem_cons_of_mem _ h')]

/-- A search that finds something found it at an element. -/
theorem exists_of_anyM {f : α → Outcome ε Bool} {l : List α} (h : l.anyM f = ok true) :
    ∃ a ∈ l, f a = ok true := by
  induction l with
  | nil => simp [List.anyM] at h
  | cons a l ih =>
    simp only [List.anyM_cons, bind_eq_ok_iff] at h
    obtain ⟨b, hb, h⟩ := h
    cases b with
    | true => exact ⟨a, List.mem_cons_self, hb⟩
    | false =>
      obtain ⟨a', ha', h⟩ := ih h
      exact ⟨a', List.mem_cons_of_mem _ ha', h⟩

/-- A check of every element passes where every call does. -/
theorem allM_eq_true_iff {f : α → Outcome ε Bool} {l : List α} :
    l.allM f = ok true ↔ ∀ a ∈ l, f a = ok true := by
  induction l with
  | nil => simp [List.allM]
  | cons a l ih =>
    simp only [List.allM_cons, bind_eq_ok_iff, List.forall_mem_cons, ← ih]
    constructor
    · rintro ⟨b, hb, h⟩
      cases b with
      | true => exact ⟨hb, h⟩
      | false => simp at h
    · rintro ⟨hb, h⟩
      exact ⟨true, hb, h⟩

/-- A check of every element that fails fails at one. -/
theorem exists_of_allM {f : α → Outcome ε Bool} {l : List α} (h : l.allM f = ok false) :
    ∃ a ∈ l, f a = ok false := by
  induction l with
  | nil => simp [List.allM] at h
  | cons a l ih =>
    simp only [List.allM_cons, bind_eq_ok_iff] at h
    obtain ⟨b, hb, h⟩ := h
    cases b with
    | false => exact ⟨a, List.mem_cons_self, hb⟩
    | true =>
      obtain ⟨a', ha', h⟩ := ih h
      exact ⟨a', List.mem_cons_of_mem _ ha', h⟩

theorem allM_congr {f g : α → Outcome ε Bool} {l : List α} (h : ∀ a ∈ l, f a = g a) :
    l.allM f = l.allM g := by
  induction l with
  | nil => rfl
  | cons a l ih =>
    rw [List.allM_cons, List.allM_cons, h a List.mem_cons_self,
      ih fun a' h' => h a' (List.mem_cons_of_mem _ h')]

theorem exists_allM {f : α → Outcome ε Bool} {l : List α} (h : ∀ a ∈ l, ∃ b, f a = ok b) :
    ∃ b, l.allM f = ok b := by
  induction l with
  | nil => exact ⟨true, rfl⟩
  | cons a l ih =>
    obtain ⟨b, hb⟩ := h a List.mem_cons_self
    obtain ⟨bs, hbs⟩ := ih fun a' h' => h a' (List.mem_cons_of_mem _ h')
    cases b with
    | true => exact ⟨bs, by simp [hb, hbs]⟩
    | false => exact ⟨false, by simp [hb]⟩

/-- The elements a fallible test passes, every element tested. -/
def keepM {γ : Type} (p : γ → Outcome ε Bool) : List γ → Outcome ε (List γ)
  | [] => ok []
  | a :: l => do
      let keeps ← p a
      let rest ← keepM p l
      return if keeps then a :: rest else rest

theorem exists_keepM {γ : Type} {p : γ → Outcome ε Bool} {l : List γ} (h : ∀ a ∈ l, ∃ b, p a = ok b) :
    ∃ l', keepM p l = ok l' := by
  induction l with
  | nil => exact ⟨[], rfl⟩
  | cons a l ih =>
    obtain ⟨b, hb⟩ := h a List.mem_cons_self
    obtain ⟨l', hl'⟩ := ih fun a' h' => h a' (List.mem_cons_of_mem _ h')
    exact ⟨if b then a :: l' else l', by simp [keepM, hb, hl']⟩

theorem keepM_eq_filter {γ : Type} {p : γ → Outcome ε Bool} {q : γ → Bool} {l : List γ}
    (h : ∀ a ∈ l, p a = ok (q a)) : keepM p l = ok (l.filter q) := by
  induction l with
  | nil => rfl
  | cons a l ih =>
    rw [keepM, h a List.mem_cons_self, ih fun a' h' => h a' (List.mem_cons_of_mem _ h'),
      List.filter_cons]
    rfl

theorem mem_keepM {γ : Type} {p : γ → Outcome ε Bool} {l l' : List γ} (h : keepM p l = ok l') {a : γ} :
    a ∈ l' ↔ a ∈ l ∧ p a = ok true := by
  induction l generalizing l' with
  | nil =>
    cases h
    simp
  | cons x l ih =>
    simp only [keepM, bind_eq_ok_iff, pure_eq, ok.injEq] at h
    obtain ⟨b, hb, rest, hrest, rfl⟩ := h
    cases b with
    | true =>
      simp only [if_true, List.mem_cons, ih hrest]
      constructor
      · rintro (rfl | h)
        · exact ⟨.inl rfl, hb⟩
        · exact ⟨.inr h.1, h.2⟩
      · rintro ⟨rfl | h, ha⟩
        · exact .inl rfl
        · exact .inr ⟨h, ha⟩
    | false =>
      simp only [Bool.false_eq_true, if_false, ih hrest, List.mem_cons]
      constructor
      · rintro ⟨h, ha⟩
        exact ⟨.inr h, ha⟩
      · rintro ⟨rfl | h, ha⟩
        · rw [hb] at ha
          cases ha
        · exact ⟨h, ha⟩

theorem keepM_congr {γ : Type} {p q : γ → Outcome ε Bool} {l : List γ} (h : ∀ a ∈ l, p a = q a) :
    keepM p l = keepM q l := by
  induction l with
  | nil => rfl
  | cons a l ih =>
    rw [keepM, keepM, h a List.mem_cons_self, ih fun a' h' => h a' (List.mem_cons_of_mem _ h')]

end Outcome
