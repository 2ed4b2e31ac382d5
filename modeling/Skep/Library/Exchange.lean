import Mathlib.Data.Finmap
import Mathlib.Logic.Function.Conjugate
import Skep.Library.OrdMap
import Skep.Library.OrdSet
import Skep.Library.Outcome

/-!
# Updates that can be exchanged

Two updates can be exchanged when either order leaves one state. Insertions into a set can
be, and changes of a map at a key where the changes of the value can be. A pass whose steps
can be exchanged leaves one state whatever order it takes its items in.
-/

variable {σ α β κ ν : Type}

/-- A map that can be exchanged with every step of a pass can be exchanged with the pass. -/
theorem foldl_commute {f : σ → α → σ} {g : σ → σ} {l : List α}
    (h : ∀ a ∈ l, Function.Commute (fun s => f s a) g) : Function.Commute (fun s => l.foldl f s) g := by
  induction l with
  | nil => exact fun _ => rfl
  | cons a l ih =>
    intro s
    have hstep : f (g s) a = g (f s a) := h a List.mem_cons_self s
    show l.foldl f (f (g s) a) = g (l.foldl f (f s a))
    rw [hstep]
    exact ih (fun x hx => h x (List.mem_cons_of_mem _ hx)) (f s a)

/-- Two passes whose steps can be exchanged can be exchanged. -/
theorem foldl_foldl_commute {f : σ → α → σ} {g : σ → β → σ} {l : List α} {l' : List β}
    (h : ∀ a ∈ l, ∀ b ∈ l', Function.Commute (fun s => f s a) fun s => g s b) :
    Function.Commute (fun s => l.foldl f s) fun s => l'.foldl g s :=
  foldl_commute fun a ha => (foldl_commute fun b hb => (h a ha b hb).symm).symm

/-- Updates made under conditions can be exchanged where the updates can. -/
theorem ite_ite_commute {f g : σ → σ} (h : Function.Commute f g) (p q : Prop) [Decidable p] [Decidable q] :
    Function.Commute (fun s => if p then f s else s) fun s => if q then g s else s := by
  intro s
  by_cases hp : p <;> by_cases hq : q <;> simp [hp, hq, h s]

/-- Change what a map has at a key, from a default where it has nothing. -/
def updateAt [DecidableEq κ] (default : ν) (m : Finmap fun _ : κ => ν) (k : κ) (f : ν → ν) :
    Finmap fun _ : κ => ν :=
  m.insert k (f ((m.lookup k).getD default))

theorem lookup_updateAt [DecidableEq κ] (default : ν) (m : Finmap fun _ : κ => ν) (k x : κ) (f : ν → ν) :
    ((updateAt default m k f).lookup x).getD default =
      if x = k then f ((m.lookup k).getD default) else (m.lookup x).getD default := by
  rw [updateAt]
  by_cases hx : x = k
  · subst hx
    rw [if_pos rfl, Finmap.lookup_insert, Option.getD_some]
  · rw [if_neg hx, Finmap.lookup_insert_of_ne _ hx]

theorem updateAt_commute [DecidableEq κ] (default : ν) (k k' : κ) {f f' : ν → ν} (h : Function.Commute f f') :
    Function.Commute (fun m : Finmap fun _ : κ => ν => updateAt default m k f)
      fun m => updateAt default m k' f' := by
  intro m
  simp only [updateAt]
  by_cases hk : k = k'
  · subst hk
    simp only [Finmap.lookup_insert, Option.getD_some, Finmap.insert_insert, h _]
  · rw [Finmap.lookup_insert_of_ne _ hk, Finmap.lookup_insert_of_ne _ (Ne.symm hk),
      Finmap.insert_insert_of_ne _ (Ne.symm hk)]

theorem OrdSet.insert_commute [LinearOrder κ] (a b : κ) :
    Function.Commute (OrdSet.insert a) (OrdSet.insert b) := by
  intro s
  refine OrdSet.ext_mem fun k => ?_
  simp only [OrdSet.mem_insert]
  exact or_left_comm

theorem OrdMap.insert_commute [LinearOrder κ] {a b : κ} (h : a ≠ b) (v w : ν) :
    Function.Commute (fun m : OrdMap κ ν => m.insert a v) fun m => m.insert b w := by
  intro m
  refine OrdMap.ext_get fun k => ?_
  simp only [OrdMap.get_insert]
  by_cases ha : k = a
  · subst ha
    simp [h]
  · simp [ha]

/-- A pass whose steps can be exchanged leaves one state whatever order it takes its items in. -/
theorem Outcome.foldlM_perm {ε : Type} {f : σ → α → Outcome ε σ} {l l' : List α} (hperm : l.Perm l')
    (hcomm : ∀ a b s s', (f s a >>= fun t => f t b) = .ok s' → (f s b >>= fun t => f t a) = .ok s')
    {s s' : σ} (h : l.foldlM f s = .ok s') : l'.foldlM f s = .ok s' := by
  induction hperm generalizing s with
  | nil => exact h
  | cons a _ ih =>
    rw [List.foldlM_cons, Outcome.bind_eq_ok_iff] at h ⊢
    obtain ⟨t, ht, h⟩ := h
    exact ⟨t, ht, ih h⟩
  | swap a b l =>
    simp only [List.foldlM_cons, ← bind_assoc] at h ⊢
    obtain ⟨t, ht, h⟩ := Outcome.bind_eq_ok_iff.1 h
    exact Outcome.bind_eq_ok_iff.2 ⟨t, hcomm _ _ _ _ ht, h⟩
  | trans _ _ ih ih' => exact ih' (ih h)
