import Skep.Library.Outcome

/-!
# The commit kernel

A transaction stages records on a working copy of the committed world, each
folded at a position of its own. Sealing folds them again, all at the position
the transaction commits at. A refused transaction, and one that stages nothing,
leaves the history as it was.
-/

/-- A world, and the records that move it. -/
class WorldState (W : Type) where
  Record : Type
  apply : W → ℕ → Record → Outcome Empty W

open WorldState

variable {W : Type} [WorldState W] {ε : Type}

/-- A transaction under way. -/
structure Staging (W : Type) [WorldState W] where
  base : W
  working : W
  records : List (Record W)
  first : ℕ

/-- Fold records in order, all at one position. -/
def foldAt (w : W) (seq : ℕ) (recs : List (Record W)) : Outcome Empty W :=
  recs.foldlM (fun w r => apply w seq r) w

namespace Staging

def start (base : W) (first : ℕ) : Staging W := ⟨base, base, [], first⟩

/-- Stage a record, folded at the position past the ones before it. -/
def push (stg : Staging W) (r : Record W) : Outcome ε (Staging W) := do
  let working ← (apply stg.working (stg.first + stg.records.length) r).expect
  return ⟨stg.base, working, stg.records ++ [r], stg.first⟩

/-- Stage records one after another. -/
def pushAll : Staging W → List (Record W) → Outcome ε (Staging W)
  | stg, [] => return stg
  | stg, r :: recs => do
      let stg ← stg.push r
      pushAll stg recs

/-- The position the transaction commits at. -/
def last (stg : Staging W) : ℕ := stg.first + stg.records.length - 1

/-- The staging with its records folded at the position it commits at. -/
def sealed (stg : Staging W) : Outcome ε (Staging W) :=
  if stg.records.length ≤ 1 then return stg
  else do
    let working ← (foldAt stg.base stg.last stg.records).expect
    return { stg with working }

/-- The second staging is the first one past the pushes of `recs`. -/
inductive Pushed : Staging W → List (Record W) → Staging W → Prop
  | nil (stg : Staging W) : Pushed stg [] stg
  | cons {stg stg' : Staging W} {r : Record W} {recs : List (Record W)} (w : W)
      (hw : apply stg.working (stg.first + stg.records.length) r = .ok w)
      (hrest : Pushed ⟨stg.base, w, stg.records ++ [r], stg.first⟩ recs stg') :
      Pushed stg (r :: recs) stg'

theorem pushed_of_push {stg stg' : Staging W} {r : Record W}
    (h : (stg.push r : Outcome ε (Staging W)) = .ok stg') : Pushed stg [r] stg' := by
  simp only [push, Outcome.bind_eq_ok_iff, Outcome.expect_eq_ok_iff, Outcome.pure_eq,
    Outcome.ok.injEq] at h
  obtain ⟨w, hw, rfl⟩ := h
  exact .cons w hw (.nil _)

@[simp] theorem push_ne_err {stg : Staging W} {r : Record W} {e : ε} : stg.push r ≠ .err e := by
  simp [push, Outcome.bind_eq_err_iff]

theorem Pushed.append {stg mid stg' : Staging W} {recs recs' : List (Record W)}
    (h : Pushed stg recs mid) (h' : Pushed mid recs' stg') : Pushed stg (recs ++ recs') stg' := by
  induction h with
  | nil => exact h'
  | cons w hw _ ih => exact .cons w hw (ih h')

theorem pushed_of_pushAll {stg stg' : Staging W} {recs : List (Record W)}
    (h : (stg.pushAll recs : Outcome ε (Staging W)) = .ok stg') : Pushed stg recs stg' := by
  induction recs generalizing stg with
  | nil =>
    cases h
    exact .nil _
  | cons r recs ih =>
    rw [pushAll, Outcome.bind_eq_ok_iff] at h
    obtain ⟨mid, hmid, hrest⟩ := h
    exact (pushed_of_push hmid).append (ih hrest)

/-- Pushes add their records and touch the working copy alone. -/
theorem Pushed.fields {stg stg' : Staging W} {recs : List (Record W)} (h : Pushed stg recs stg') :
    stg'.base = stg.base ∧ stg'.first = stg.first ∧ stg'.records = stg.records ++ recs := by
  induction h with
  | nil => simp
  | cons w hw _ ih => simpa using ih

/-- Two stagings determine what was pushed between them. -/
theorem Pushed.unique {stg stg' : Staging W} {recs recs' : List (Record W)}
    (h : Pushed stg recs stg') (h' : Pushed stg recs' stg') : recs = recs' := by
  have hrecords := h.fields.2.2
  rw [h'.fields.2.2] at hrecords
  exact (List.append_cancel_left hrecords).symm

/-- A relation each record keeps holds between the working copies of a staging. -/
theorem Pushed.rel {R : W → W → Prop} (hrefl : ∀ w, R w w)
    (htrans : ∀ {a b c}, R a b → R b c → R a c) {P : Record W → Prop}
    (hstep : ∀ {w w' : W} {seq : ℕ} {r : Record W}, P r → apply w seq r = .ok w' → R w w')
    {stg stg' : Staging W} {recs : List (Record W)} (h : Pushed stg recs stg')
    (hP : ∀ r ∈ recs, P r) : R stg.working stg'.working := by
  induction h with
  | nil => exact hrefl _
  | cons w hw _ ih =>
    exact htrans (hstep (hP _ List.mem_cons_self) hw)
      (ih fun r hr => hP r (List.mem_cons_of_mem _ hr))

/-- A sealed staging holds the fold of its records at the position it commits at. -/
theorem sealed_start {base : W} {first : ℕ} {stg stg' : Staging W} {recs : List (Record W)}
    (h : Pushed (start base first) recs stg)
    (hs : (stg.sealed : Outcome ε (Staging W)) = .ok stg') :
    stg'.first = first ∧ stg'.records = recs ∧
      foldAt base (first + recs.length - 1) recs = .ok stg'.working := by
  obtain ⟨h1, h2, h3⟩ := h.fields
  simp only [start, List.nil_append] at h1 h2 h3
  rw [sealed] at hs
  split at hs
  · next hlen =>
    cases hs
    refine ⟨h2, h3, ?_⟩
    -- a single record was folded at that position when it was pushed
    cases h with
    | nil => rfl
    | cons w hw hrest =>
      cases hrest with
      | nil =>
        have hw' : apply base first _ = .ok w := hw
        simp [foldAt, hw']
      | cons => simp [h3] at hlen
  · simp only [Outcome.bind_eq_ok_iff, Outcome.expect_eq_ok_iff, Outcome.pure_eq,
      Outcome.ok.injEq] at hs
    obtain ⟨w, hw, rfl⟩ := hs
    refine ⟨h2, h3, ?_⟩
    rwa [last, h1, h2, h3] at hw

end Staging

theorem foldAt_cons_eq_ok_iff {w w' : W} {seq : ℕ} {r : Record W} {recs : List (Record W)} :
    foldAt w seq (r :: recs) = .ok w' ↔
      ∃ mid, apply w seq r = .ok mid ∧ foldAt mid seq recs = .ok w' := by
  rw [foldAt, List.foldlM_cons, Outcome.bind_eq_ok_iff]
  rfl

theorem foldAt_append_eq_ok_iff {w w' : W} {seq : ℕ} {recs recs' : List (Record W)} :
    foldAt w seq (recs ++ recs') = .ok w' ↔
      ∃ mid, foldAt w seq recs = .ok mid ∧ foldAt mid seq recs' = .ok w' := by
  rw [foldAt, List.foldlM_append, Outcome.bind_eq_ok_iff]
  rfl

/-- A relation each record keeps holds between a world and its fold. -/
theorem foldAt_rel {R : W → W → Prop} (hrefl : ∀ w, R w w)
    (htrans : ∀ {a b c}, R a b → R b c → R a c) {P : Record W → Prop} {seq : ℕ}
    (hstep : ∀ {w w' : W} {r : Record W}, P r → apply w seq r = .ok w' → R w w')
    {w w' : W} {recs : List (Record W)} (hP : ∀ r ∈ recs, P r)
    (h : foldAt w seq recs = .ok w') : R w w' := by
  induction recs generalizing w with
  | nil =>
    cases h
    exact hrefl _
  | cons r recs ih =>
    obtain ⟨mid, hmid, hrest⟩ := foldAt_cons_eq_ok_iff.1 h
    exact htrans (hstep (hP r List.mem_cons_self) hmid)
      (ih (fun r' hr' => hP r' (List.mem_cons_of_mem _ hr')) hrest)

/-- A committed transaction and the world it left. -/
structure Commit (W : Type) [WorldState W] where
  seq : ℕ
  records : List (Record W)
  world : W

/-- The commits, the newest first. -/
structure History (W : Type) [WorldState W] where
  head : Commit W
  past : List (Commit W)

namespace History

def commits (h : History W) : List (Commit W) := h.head :: h.past

/-- The history before any transaction. -/
def initial (w : W) : History W := ⟨⟨0, [], w⟩, []⟩

def commit (h : History W) (c : Commit W) : History W := ⟨c, h.commits⟩

/-- The world a reader of position `seq` sees: the newest committed at or before it. -/
def worldAt (h : History W) (seq : ℕ) : Option W :=
  (h.commits.find? fun c => decide (c.seq ≤ seq)).map Commit.world

/-- Run one transaction. `gap` is how far the order has passed the newest commit. -/
def transact {α : Type} (h : History W) (gap : ℕ)
    (f : Staging W → Outcome ε (α × Staging W)) : Outcome ε ((α × ℕ) × History W) := do
  let (value, stg) ← f (.start h.head.world (h.head.seq + gap + 1))
  let stg ← stg.sealed
  if stg.records.isEmpty then return ((value, h.head.seq), h)
  else return ((value, stg.last), h.commit ⟨stg.last, stg.records, stg.working⟩)

/-- A transaction whose body only pushes commits the fold of its records, all at
its own position, over the newest world; one without records commits nothing. -/
theorem transact_eq_ok {α : Type} {h h' : History W} {gap seq : ℕ}
    {f : Staging W → Outcome ε (α × Staging W)} {value : α}
    (hf : ∀ stg, f (.start h.head.world (h.head.seq + gap + 1)) = .ok (value, stg) →
      ∃ recs, Staging.Pushed (.start h.head.world (h.head.seq + gap + 1)) recs stg)
    (hrun : h.transact gap f = .ok ((value, seq), h')) :
    ∃ stg recs, f (.start h.head.world (h.head.seq + gap + 1)) = .ok (value, stg) ∧
      Staging.Pushed (.start h.head.world (h.head.seq + gap + 1)) recs stg ∧
      (recs = [] ∧ seq = h.head.seq ∧ h' = h ∨
        recs ≠ [] ∧ seq = h.head.seq + gap + recs.length ∧ ∃ w,
          foldAt h.head.world seq recs = .ok w ∧ h' = h.commit ⟨seq, recs, w⟩) := by
  simp only [transact, Outcome.bind_eq_ok_iff, Prod.exists] at hrun
  obtain ⟨v, stg, hstg, sealed, hsealed, hrun⟩ := hrun
  have hv : v = value := by
    split at hrun <;> exact (Prod.mk.inj (Prod.mk.inj (Outcome.ok.inj hrun)).1).1
  subst hv
  obtain ⟨recs, hrecs⟩ := hf stg hstg
  obtain ⟨hfirst, hrecords, hfold⟩ := Staging.sealed_start hrecs hsealed
  refine ⟨stg, recs, hstg, hrecs, ?_⟩
  rw [hrecords] at hrun
  split at hrun
  · next hempty =>
    simp only [Outcome.pure_eq, Outcome.ok.injEq, Prod.mk.injEq] at hrun
    exact .inl ⟨List.isEmpty_iff.1 hempty, hrun.1.2.symm, hrun.2.symm⟩
  · next hne =>
    have hpos : recs ≠ [] := fun hnil => hne (by simp [hnil])
    have hlen := List.length_pos_of_ne_nil hpos
    have hlast : sealed.last = h.head.seq + gap + recs.length := by
      rw [Staging.last, hfirst, hrecords]
      omega
    have hseq : h.head.seq + gap + 1 + recs.length - 1 = h.head.seq + gap + recs.length := by
      omega
    simp only [Outcome.pure_eq, Outcome.ok.injEq, Prod.mk.injEq] at hrun
    obtain ⟨⟨-, rfl⟩, rfl⟩ := hrun
    rw [hseq, ← hlast] at hfold
    exact .inr ⟨hpos, hlast, _, hfold, rfl⟩

/-- Run one transaction, and keep the history where it is refused. -/
def attempt {α : Type} (h : History W) (gap : ℕ)
    (f : Staging W → Outcome ε (α × Staging W)) : History W :=
  match h.transact gap f with
  | .ok (_, h') => h'
  | .err _ | .fault => h

/-- A body that stages what another does commits what it commits. -/
theorem attempt_of_transact {ε' α α' : Type} {h h' : History W} {gap seq : ℕ}
    {f : Staging W → Outcome ε (α × Staging W)} {f' : Staging W → Outcome ε' (α' × Staging W)}
    {value : α} {value' : α'}
    (hf : ∀ stg, f (.start h.head.world (h.head.seq + gap + 1)) = .ok (value, stg) →
      f' (.start h.head.world (h.head.seq + gap + 1)) = .ok (value', stg))
    (hrun : h.transact gap f = .ok ((value, seq), h')) : h.attempt gap f' = h' := by
  simp only [transact, Outcome.bind_eq_ok_iff, Prod.exists] at hrun
  obtain ⟨v, stg, hstg, sealed, hsealed, hrun⟩ := hrun
  obtain rfl : v = value := by
    split at hrun <;> exact (Prod.mk.inj (Prod.mk.inj (Outcome.ok.inj hrun)).1).1
  have hsealed' : (stg.sealed : Outcome ε' (Staging W)) = .ok sealed := by
    rw [Staging.sealed] at hsealed ⊢
    split at hsealed
    · next hlen =>
      rw [if_pos hlen]
      cases hsealed
      rfl
    · next hlen =>
      rw [if_neg hlen]
      simp only [Outcome.bind_eq_ok_iff, Outcome.expect_eq_ok_iff, Outcome.pure_eq,
        Outcome.ok.injEq] at hsealed ⊢
      exact hsealed
  rw [attempt]
  split at hrun
  · next hempty =>
    cases hrun
    rw [List.isEmpty_iff] at hempty
    simp [transact, hf stg hstg, hsealed', hempty, Outcome.pure_eq]
  · next hne =>
    cases hrun
    rw [List.isEmpty_iff] at hne
    simp [transact, hf stg hstg, hsealed', hne, Outcome.pure_eq]

/-- An attempt commits what its body pushed over the newest world, or nothing. -/
theorem attempt_cases {α : Type} (h : History W) (gap : ℕ)
    {f : Staging W → Outcome ε (α × Staging W)}
    (hf : ∀ stg value, f (.start h.head.world (h.head.seq + gap + 1)) = .ok (value, stg) →
      ∃ recs, Staging.Pushed (.start h.head.world (h.head.seq + gap + 1)) recs stg) :
    h.attempt gap f = h ∨ ∃ value stg recs w,
      f (.start h.head.world (h.head.seq + gap + 1)) = .ok (value, stg) ∧
      Staging.Pushed (.start h.head.world (h.head.seq + gap + 1)) recs stg ∧ recs ≠ [] ∧
      foldAt h.head.world (h.head.seq + gap + recs.length) recs = .ok w ∧
      h.attempt gap f = h.commit ⟨h.head.seq + gap + recs.length, recs, w⟩ := by
  rw [attempt]
  cases hrun : h.transact gap f with
  | err e => exact .inl rfl
  | fault => exact .inl rfl
  | ok result =>
    obtain ⟨⟨value, seq⟩, h'⟩ := result
    obtain ⟨stg, recs, hstg, hpushed, hcase⟩ :=
      transact_eq_ok (fun stg => hf stg value) hrun
    rcases hcase with ⟨-, -, rfl⟩ | ⟨hne, rfl, w, hfold, rfl⟩
    · exact .inl rfl
    · exact .inr ⟨value, stg, recs, w, hstg, hpushed, hne, hfold, rfl⟩

/-- What a commit relates to the world before it, it relates to every earlier one. -/
theorem pairwise_commit {R : W → W → Prop} (htrans : ∀ {a b c}, R a b → R b c → R a c)
    {h : History W} (hpairs : h.commits.Pairwise fun later earlier => R earlier.world later.world)
    {c : Commit W} (hstep : R h.head.world c.world) :
    (h.commit c).commits.Pairwise fun later earlier => R earlier.world later.world := by
  refine List.pairwise_cons.2 ⟨fun e he => ?_, hpairs⟩
  rcases List.mem_cons.1 he with rfl | he
  · exact hstep
  · exact htrans ((List.pairwise_cons.1 hpairs).1 e he) hstep

end History
