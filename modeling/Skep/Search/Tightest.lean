import Mathlib.Data.List.Forall2
import Mathlib.Data.List.MinMax
import Mathlib.Data.Prod.Lex
import Skep.Library.Outcome

/-!
# The tightest window

A query's forms each match a unit at some places. The hit's span is the tightest window that
holds one match of every form: the search fixes one match as the left edge, takes for every
other form the match of least end that starts no earlier, and keeps the narrowest.

## Main results

- `Search.suffixMin_spec` — the least end from an index on
- `Search.windowFrom_spec` — the tightest window at a left edge
- `Search.tightest_eq_argmin` — the search keeps the first least of its windows
- `Search.tightest_least` — no choice of matches has a narrower window
-/

namespace Search

/-- A match, from its start up to its end. -/
abbrev Match : Type := ℕ × ℕ

/-- The least end over the matches from each index on, and the match that has it. -/
def suffixMin : List Match → ℕ → List (ℕ × ℕ)
  | [], _ => []
  | m :: rest, i =>
      let out := suffixMin rest (i + 1)
      let best := match out.head? with
        | some (e, j) => if e ≤ m.2 then (e, j) else (m.2, i)
        | none => (m.2, i)
      best :: out

/-- The first index of a sorted list whose match starts no earlier than the edge. -/
def partitionPoint (list : List Match) (start : ℕ) : ℕ :=
  (list.takeWhile fun m => decide (m.1 < start)).length

/-- The matches that a left edge takes of the forms from the `g`th on, beside its own. -/
def windowFrom (f i start : ℕ) : List (List Match × List (ℕ × ℕ)) → ℕ → ℕ → List ℕ →
    Outcome Empty (Option (ℕ × List ℕ))
  | [], _, windowEnd, chosen => return some (windowEnd, chosen)
  | (other, mins) :: rest, g, windowEnd, chosen =>
      if g = f then windowFrom f i start rest (g + 1) windowEnd (chosen ++ [i])
      else
        let k := partitionPoint other start
        if k = other.length then return none
        else do
          let (e, j) ← Outcome.expectSome mins[k]?
          windowFrom f i start rest (g + 1) (max windowEnd e) (chosen ++ [j])

/-- A window: its edges, and the match it chose of every form. -/
abbrev Found : Type := ℕ × ℕ × List ℕ

/-- Whether a window is better than the best so far. -/
def isBetter (best : Option Found) (start windowEnd : ℕ) : Outcome Empty Bool :=
  match best with
  | none => return true
  | some (s, e, _) => do
      let width ← Outcome.natSub windowEnd start
      let bestWidth ← Outcome.natSub e s
      return decide (width < bestWidth ∨ width = bestWidth ∧ start < s)

def tightest (forms : List (List Match)) : Outcome Empty (Option Found) :=
  if forms = [] ∨ forms.any List.isEmpty then return none
  else
    let searched := forms.map fun list => (list, suffixMin list 0)
    forms.zipIdx.foldlM (fun best (list, f) => list.zipIdx.foldlM (fun best (m, i) => do
      match ← windowFrom f i m.1 searched 0 m.2 [] with
      | none => return best
      | some (windowEnd, chosen) => do
          let better ← isBetter best m.1 windowEnd
          return if better then some (m.1, windowEnd, chosen) else best) best) none

/-- One match of every form, each with its index. -/
def Chooses (forms : List (List Match)) (picks : List (ℕ × Match)) : Prop :=
  List.Forall₂ (fun list p => list[p.1]? = some p.2) forms picks

/-- From the least start to the greatest end. -/
structure IsWindow (ms : List Match) (s e : ℕ) : Prop where
  inside : ∀ m ∈ ms, s ≤ m.1 ∧ m.2 ≤ e
  first : ∃ m ∈ ms, m.1 = s
  last : ∃ m ∈ ms, m.2 = e

/-- The matches of every form are sorted by their starts, and each reaches past its own. -/
def Sorted (forms : List (List Match)) : Prop :=
  ∀ list ∈ forms, list.Pairwise (fun m m' => m.1 ≤ m'.1) ∧ ∀ m ∈ list, m.1 < m.2

@[simp] theorem length_suffixMin (list : List Match) (i : ℕ) : (suffixMin list i).length = list.length := by
  induction list generalizing i with
  | nil => rfl
  | cons m rest ih => rw [suffixMin, List.length_cons, ih, List.length_cons]

/-- The least end from an index on. -/
theorem suffixMin_spec {list : List Match} {i k : ℕ} {p : ℕ × ℕ} (h : (suffixMin list i)[k]? = some p) :
    (∃ n s, p.2 = i + n ∧ k ≤ n ∧ list[n]? = some (s, p.1)) ∧ ∀ m ∈ list.drop k, p.1 ≤ m.2 := by
  induction list generalizing i k p with
  | nil => simp [suffixMin] at h
  | cons m rest ih =>
    cases k with
    | succ k =>
      rw [suffixMin, List.getElem?_cons_succ] at h
      obtain ⟨⟨n, s, hn, hk, hget⟩, hleast⟩ := ih h
      exact ⟨⟨n + 1, s, by omega, by omega, by rwa [List.getElem?_cons_succ]⟩, by rwa [List.drop_succ_cons]⟩
    | zero =>
      rw [suffixMin, List.getElem?_cons_zero, Option.some.injEq] at h
      rw [List.drop_zero]
      cases hbest : (suffixMin rest (i + 1)).head? with
      | none =>
        rw [hbest] at h
        subst h
        have hnil : rest = [] := by
          rw [List.head?_eq_none_iff] at hbest
          rw [← List.length_eq_zero_iff, ← length_suffixMin rest (i + 1), hbest]
          rfl
        exact ⟨⟨0, m.1, rfl, le_rfl, rfl⟩, by simp [hnil]⟩
      | some q =>
        rw [hbest] at h
        rw [List.head?_eq_getElem?] at hbest
        obtain ⟨⟨n, s, hn, -, hget⟩, hleast⟩ := ih hbest
        rw [List.drop_zero] at hleast
        by_cases hle : q.1 ≤ m.2
        · obtain rfl : q = p := by simpa [hle] using h
          refine ⟨⟨n + 1, s, by omega, by omega, by rwa [List.getElem?_cons_succ]⟩, ?_⟩
          exact List.forall_mem_cons.2 ⟨hle, hleast⟩
        · obtain rfl : (m.2, i) = p := by simpa [hle] using h
          refine ⟨⟨0, m.1, rfl, le_rfl, rfl⟩, ?_⟩
          intro m' hm'
          cases hm' with
          | head => exact le_rfl
          | tail _ hm' => exact (Nat.le_of_lt (Nat.lt_of_not_le hle)).trans (hleast m' hm')

/-- Past the partition point stand the matches that start no earlier than the edge. -/
theorem mem_drop_partitionPoint {list : List Match} (hsorted : list.Pairwise fun m m' => m.1 ≤ m'.1) {start : ℕ}
    {m : Match} : m ∈ list.drop (partitionPoint list start) ↔ m ∈ list ∧ start ≤ m.1 := by
  induction list with
  | nil => simp
  | cons x rest ih =>
    obtain ⟨hle, hrest⟩ := List.pairwise_cons.1 hsorted
    by_cases hx : x.1 < start
    · have hpoint : partitionPoint (x :: rest) start = partitionPoint rest start + 1 := by
        simp [partitionPoint, hx]
      rw [hpoint, List.drop_succ_cons, ih hrest, List.mem_cons, or_and_right]
      refine ⟨.inr, fun h => h.resolve_left ?_⟩
      rintro ⟨rfl, hm⟩
      omega
    · have hpoint : partitionPoint (x :: rest) start = 0 := by simp [partitionPoint, hx]
      rw [hpoint, List.drop_zero]
      refine ⟨fun h => ⟨h, ?_⟩, And.left⟩
      cases h with
      | head => exact Nat.le_of_not_lt hx
      | tail _ h => exact (Nat.le_of_not_lt hx).trans (hle m h)

theorem partitionPoint_le (list : List Match) (start : ℕ) : partitionPoint list start ≤ list.length :=
  (List.takeWhile_prefix _).length_le

/-- What a left edge takes of the `g`th form: its own match, or the match of least end that starts no
earlier. -/
def Takes (f i : ℕ) (m : Match) (form : List Match × ℕ) (p : ℕ × Match) : Prop :=
  if form.2 = f then p = (i, m)
  else form.1[p.1]? = some p.2 ∧ m.1 ≤ p.2.1 ∧ ∀ m' ∈ form.1, m.1 ≤ m'.1 → p.2.2 ≤ m'.2

/-- The tightest window at a left edge, if every other form has a match past it. -/
theorem windowFrom_spec {f i : ℕ} {m : Match} {forms : List (List Match)}
    (hsorted : ∀ list ∈ forms, list.Pairwise fun m m' => m.1 ≤ m'.1) (g windowEnd : ℕ) (chosen : List ℕ) :
    (windowFrom f i m.1 (forms.map fun list => (list, suffixMin list 0)) g windowEnd chosen = .ok none ∧
      ∃ form ∈ forms.zipIdx g, form.2 ≠ f ∧ ∀ m' ∈ form.1, m'.1 < m.1) ∨
    ∃ e picks, windowFrom f i m.1 (forms.map fun list => (list, suffixMin list 0)) g windowEnd chosen =
        .ok (some (e, chosen ++ picks.map Prod.fst)) ∧
      List.Forall₂ (Takes f i m) (forms.zipIdx g) picks ∧ windowEnd ≤ e ∧
      (∀ p ∈ picks, p.2.2 ≤ max m.2 e) ∧ (e = windowEnd ∨ ∃ p ∈ picks, p.2.2 = e) := by
  induction forms generalizing g windowEnd chosen with
  | nil =>
    right
    exact ⟨windowEnd, [], by rw [List.map_nil, windowFrom, List.map_nil, List.append_nil]; rfl, .nil, le_rfl, nofun,
      .inl rfl⟩
  | cons list rest ih =>
    have hrest := ih fun list h => hsorted list (List.mem_cons_of_mem _ h)
    rw [List.map_cons, windowFrom, List.zipIdx_cons]
    by_cases hg : g = f
    · rw [if_pos hg]
      refine (hrest (g + 1) windowEnd (chosen ++ [i])).imp ?_ ?_
      · rintro ⟨hnone, form, hform, hno⟩
        exact ⟨hnone, form, List.mem_cons_of_mem _ hform, hno⟩
      · rintro ⟨e, picks, hrun, htakes, hle, hbound, hlast⟩
        refine ⟨e, (i, m) :: picks, ?_, .cons (by rw [Takes, if_pos hg]) htakes, hle, ?_, hlast.imp_right ?_⟩
        · rw [hrun, List.append_assoc]
          rfl
        · intro p hp
          cases hp with
          | head => exact le_max_left _ _
          | tail _ hp => exact hbound p hp
        · rintro ⟨p, hp, he⟩
          exact ⟨p, List.mem_cons_of_mem _ hp, he⟩
    · rw [if_neg hg]
      have hpoint := hsorted list List.mem_cons_self
      by_cases hk : partitionPoint list m.1 = list.length
      · left
        rw [if_pos hk]
        refine ⟨rfl, (list, g), List.mem_cons_self, hg, fun m' hm' => ?_⟩
        by_contra hle
        have hmem := (mem_drop_partitionPoint hpoint).2 ⟨hm', Nat.le_of_not_lt hle⟩
        rw [hk, List.drop_length] at hmem
        cases hmem
      · rw [if_neg hk]
        have hlt : partitionPoint list m.1 < (suffixMin list 0).length := by
          rw [length_suffixMin]
          exact lt_of_le_of_ne (partitionPoint_le list m.1) hk
        have hget := List.getElem?_eq_getElem hlt
        obtain ⟨⟨n, s, hn, hkn, hmatch⟩, hleast⟩ := suffixMin_spec hget
        rw [Nat.zero_add] at hn
        -- the match found stands past the partition point
        have hpast : m.1 ≤ s := by
          have hmem : (s, (suffixMin list 0)[partitionPoint list m.1].1) ∈ list.drop (partitionPoint list m.1) := by
            refine List.mem_of_getElem? (i := n - partitionPoint list m.1) ?_
            rw [List.getElem?_drop, Nat.add_sub_cancel' hkn, hmatch]
          exact ((mem_drop_partitionPoint hpoint).1 hmem).2
        rw [hget, Outcome.expectSome, Outcome.ok_bind]
        refine (hrest (g + 1) (max windowEnd (suffixMin list 0)[partitionPoint list m.1].1) (chosen ++ [n])).imp ?_ ?_
        · rintro ⟨hnone, form, hform, hno⟩
          dsimp only
          rw [hn]
          exact ⟨hnone, form, List.mem_cons_of_mem _ hform, hno⟩
        · rintro ⟨e, picks, hrun, htakes, hle, hbound, hlast⟩
          refine ⟨e, (n, s, (suffixMin list 0)[partitionPoint list m.1].1) :: picks, ?_, .cons ?_ htakes,
            (le_max_left _ _).trans hle, ?_, ?_⟩
          · dsimp only
            rw [hn, hrun, List.append_assoc]
            rfl
          · rw [Takes, if_neg hg]
            exact ⟨hmatch, hpast, fun m' hm' hle => hleast m' ((mem_drop_partitionPoint hpoint).2 ⟨hm', hle⟩)⟩
          · intro p hp
            cases hp with
            | head => exact ((le_max_right _ _).trans hle).trans (le_max_right _ _)
            | tail _ hp => exact hbound p hp
          · refine hlast.elim (fun he => ?_) fun h => ?_
            · obtain hmax | hmax := max_choice windowEnd (suffixMin list 0)[partitionPoint list m.1].1
              · exact .inl (he.trans hmax)
              · exact .inr ⟨_, List.mem_cons_self, (he.trans hmax).symm⟩
            · obtain ⟨p, hp, he⟩ := h
              exact .inr ⟨p, List.mem_cons_of_mem _ hp, he⟩

/-- The window at a left edge, if any. -/
def windowAt (forms : List (List Match)) (f i : ℕ) (m : Match) : Option Found :=
  match windowFrom f i m.1 (forms.map fun list => (list, suffixMin list 0)) 0 m.2 [] with
  | .ok (some (windowEnd, chosen)) => some (m.1, windowEnd, chosen)
  | _ => none

/-- The windows at every match of every form, as the search meets them. -/
def windows (forms : List (List Match)) : List Found :=
  forms.zipIdx.flatMap fun form => form.1.zipIdx.filterMap fun m => windowAt forms form.2 m.2 m.1

/-- Narrower windows first, and of equal widths the earliest. -/
def key (w : Found) : ℕ ×ₗ ℕ := toLex (w.2.1 - w.1, w.1)

/-- A fold over what never fails where it stands is pure. -/
theorem foldlM_eq_foldl_of {α β ε : Type} {f : β → α → Outcome ε β} {g : β → α → β} {P : β → Prop} {l : List α}
    (h : ∀ b, P b → ∀ a ∈ l, f b a = .ok (g b a) ∧ P (g b a)) {b : β} (hb : P b) :
    l.foldlM f b = .ok (l.foldl g b) ∧ P (l.foldl g b) := by
  induction l generalizing b with
  | nil => exact ⟨rfl, hb⟩
  | cons a l ih =>
    obtain ⟨hstep, hkept⟩ := h b hb a List.mem_cons_self
    rw [List.foldlM_cons, hstep, Outcome.ok_bind, List.foldl_cons]
    exact ih (fun b hb a ha => h b hb a (List.mem_cons_of_mem _ ha)) hkept

theorem windowAt_spec {forms : List (List Match)} (hs : Sorted forms) {f i : ℕ} {m : Match} (hm : m.1 < m.2) :
    windowFrom f i m.1 (forms.map fun list => (list, suffixMin list 0)) 0 m.2 [] =
        .ok ((windowAt forms f i m).map Prod.snd) ∧
      ∀ w ∈ windowAt forms f i m, w.1 = m.1 ∧ w.1 < w.2.1 := by
  obtain ⟨hnone, -⟩ | ⟨e, picks, hrun, -, hle, -⟩ :=
    windowFrom_spec (f := f) (i := i) (m := m) (fun list h => (hs list h).1) 0 m.2 []
  · rw [windowAt, hnone]
    exact ⟨rfl, nofun⟩
  · rw [windowAt, hrun]
    refine ⟨rfl, ?_⟩
    rintro w ⟨⟩
    exact ⟨rfl, hm.trans_le hle⟩

theorem isBetter_eq {best : Option Found} (hbest : ∀ w ∈ best, w.1 < w.2.1) {w : Found} (hw : w.1 < w.2.1) :
    isBetter best w.1 w.2.1 = .ok (decide (∀ b ∈ best, key w < key b)) := by
  cases best with
  | none => simp [isBetter]
  | some b =>
    have hb := hbest b rfl
    have hsub : ∀ {x y : ℕ}, x < y → (Outcome.natSub y x : Outcome Empty ℕ) = .ok (y - x) := by
      intro x y h
      have hadd : (Outcome.natSub (x + (y - x)) x : Outcome Empty ℕ) = .ok (y - x) := Outcome.natSub_add_left x (y - x)
      rwa [Nat.add_sub_cancel' h.le] at hadd
    rw [isBetter, hsub hw, Outcome.ok_bind, hsub hb, Outcome.ok_bind, Outcome.pure_eq, Outcome.ok.injEq, decide_eq_decide]
    simp only [Option.mem_def, Option.some.injEq, forall_eq', key, Prod.Lex.toLex_lt_toLex]

/-- The search keeps the first least of its windows. -/
theorem tightest_eq_argmin {forms : List (List Match)} (hs : Sorted forms)
    (hne : ¬ (forms = [] ∨ forms.any List.isEmpty = true)) :
    tightest forms = .ok ((windows forms).argmin key) := by
  have hstep : ∀ form ∈ forms.zipIdx, ∀ best : Option Found, (∀ w ∈ best, w.1 < w.2.1) → ∀ m ∈ form.1.zipIdx,
      (do
        match ← windowFrom form.2 m.2 m.1.1 (forms.map fun list => (list, suffixMin list 0)) 0 m.1.2 [] with
        | none => return best
        | some (windowEnd, chosen) => do
            let better ← isBetter best m.1.1 windowEnd
            return if better then some (m.1.1, windowEnd, chosen) else best) =
        .ok ((windowAt forms form.2 m.2 m.1).elim best fun w => List.argAux (fun b c => key b < key c) best w) ∧
      ∀ w ∈ (windowAt forms form.2 m.2 m.1).elim best fun w => List.argAux (fun b c => key b < key c) best w,
        w.1 < w.2.1 := by
    intro form hform best hbest m hm
    have hlist : form.1 ∈ forms := List.mem_of_getElem? (List.mem_zipIdx_iff_getElem?.1 hform)
    have hmatch := (hs form.1 hlist).2 m.1 (List.mem_of_getElem? (List.mem_zipIdx_iff_getElem?.1 hm))
    obtain ⟨hrun, hedges⟩ := windowAt_spec hs (f := form.2) (i := m.2) hmatch
    rw [hrun, Outcome.ok_bind]
    cases hw : windowAt forms form.2 m.2 m.1 with
    | none => exact ⟨rfl, hbest⟩
    | some w =>
      obtain ⟨hstart, hlt⟩ := hedges w hw
      have hbetter := isBetter_eq hbest hlt
      rw [hstart] at hbetter
      have hback : (m.1.1, w.2.1, w.2.2) = w := by rw [← hstart]
      rw [Option.map_some]
      dsimp only
      rw [hbetter, Outcome.ok_bind, hback]
      cases best with
      | none => exact ⟨by simp [List.argAux], by simpa [List.argAux] using hlt⟩
      | some b =>
        have hb := hbest b rfl
        by_cases hkey : key w < key b
        · exact ⟨by simp [List.argAux, hkey], by simpa [List.argAux, hkey] using hlt⟩
        · exact ⟨by simp [List.argAux, hkey], by simpa [List.argAux, hkey] using hb⟩
  rw [tightest, if_neg hne]
  refine (foldlM_eq_foldl_of (fun best hbest form hform =>
    foldlM_eq_foldl_of (fun best hbest m hm => hstep form hform best hbest m hm) hbest)
    (fun w hw => by cases hw)).1.trans ?_
  rw [List.argmin, windows, List.foldl_flatMap]
  refine congrArg Outcome.ok (congrArg (fun step => List.foldl step none forms.zipIdx) (funext fun best => funext fun form => ?_))
  rw [List.foldl_filterMap]
  refine congrArg (fun step => List.foldl step best form.1.zipIdx) (funext fun best => funext fun m => ?_)
  cases windowAt forms form.2 m.2 m.1 <;> rfl

/-- Related lists pair each element of one with an element of the other. -/
theorem exists_of_forall₂ {α β : Type} {R : α → β → Prop} {l : List α} {l' : List β} (h : List.Forall₂ R l l') :
    (∀ a ∈ l, ∃ b ∈ l', R a b) ∧ ∀ b ∈ l', ∃ a ∈ l, R a b := by
  induction h with
  | nil => exact ⟨nofun, nofun⟩
  | @cons a b l l' hab _ ih =>
    constructor
    · intro x hx
      cases hx with
      | head => exact ⟨b, List.mem_cons_self, hab⟩
      | tail _ hx =>
        obtain ⟨y, hy, hxy⟩ := ih.1 x hx
        exact ⟨y, List.mem_cons_of_mem _ hy, hxy⟩
    · intro y hy
      cases hy with
      | head => exact ⟨a, List.mem_cons_self, hab⟩
      | tail _ hy =>
        obtain ⟨x, hx, hxy⟩ := ih.2 y hy
        exact ⟨x, List.mem_cons_of_mem _ hx, hxy⟩

theorem mem_windows {forms : List (List Match)} {w : Found} : w ∈ windows forms ↔
    ∃ f list i m, forms[f]? = some list ∧ list[i]? = some m ∧ windowAt forms f i m = some w := by
  simp only [windows, List.mem_flatMap, List.mem_filterMap, List.mem_zipIdx_iff_getElem?]
  constructor
  · rintro ⟨form, hf, m, hi, hw⟩
    exact ⟨form.2, form.1, m.2, m.1, hf, hi, hw⟩
  · rintro ⟨f, list, i, m, hf, hi, hw⟩
    exact ⟨(list, f), hf, (m, i), hi, hw⟩

theorem chooses_of_mem_windows {forms : List (List Match)} (hs : Sorted forms) {w : Found} (hw : w ∈ windows forms) :
    ∃ picks, Chooses forms picks ∧ w.2.2 = picks.map Prod.fst ∧ IsWindow (picks.map Prod.snd) w.1 w.2.1 := by
  obtain ⟨f, list, i, m, hf, hi, hw⟩ := mem_windows.1 hw
  obtain ⟨hnone, -⟩ | ⟨e, picks, hrun, htakes, hle, hbound, hlast⟩ :=
    windowFrom_spec (f := f) (i := i) (m := m) (fun list h => (hs list h).1) 0 m.2 []
  · rw [windowAt, hnone] at hw
    cases hw
  · rw [windowAt, hrun] at hw
    cases hw
    have hchoice : ∀ form ∈ forms.zipIdx, ∀ p, Takes f i m form p → form.1[p.1]? = some p.2 ∧ m.1 ≤ p.2.1 := by
      intro form hform p htake
      rw [Takes] at htake
      by_cases hfi : form.2 = f
      · rw [if_pos hfi] at htake
        have hget := List.mem_zipIdx_iff_getElem?.1 hform
        rw [hfi, hf, Option.some.injEq] at hget
        rw [htake, ← hget]
        exact ⟨hi, le_rfl⟩
      · rw [if_neg hfi] at htake
        exact ⟨htake.1, htake.2.1⟩
    obtain ⟨hleft, hright⟩ := exists_of_forall₂ htakes
    have hown : ∃ p ∈ picks, p = (i, m) := by
      obtain ⟨p, hp, htake⟩ := hleft (list, f) (List.mem_zipIdx_iff_getElem?.2 hf)
      rw [Takes, if_pos rfl] at htake
      exact ⟨p, hp, htake⟩
    refine ⟨picks, ?_, rfl, ?_, ?_, ?_⟩
    · rw [Chooses, ← List.zipIdx_map_fst 0 forms, List.forall₂_map_left_iff, List.forall₂_iff_zip]
      refine ⟨htakes.length_eq, fun hzip => ?_⟩
      exact (hchoice _ (List.of_mem_zip hzip).1 _ ((List.forall₂_iff_zip.1 htakes).2 hzip)).1
    · intro m' hm'
      obtain ⟨p, hp, rfl⟩ := List.mem_map.1 hm'
      obtain ⟨form, hform, htake⟩ := hright p hp
      exact ⟨(hchoice form hform p htake).2, (hbound p hp).trans (max_le hle le_rfl)⟩
    · obtain ⟨p, hp, rfl⟩ := hown
      exact ⟨m, List.mem_map_of_mem hp, rfl⟩
    · obtain rfl | ⟨p, hp, rfl⟩ := hlast
      · obtain ⟨p, hp, rfl⟩ := hown
        exact ⟨m, List.mem_map_of_mem hp, rfl⟩
      · exact ⟨p.2, List.mem_map_of_mem hp, rfl⟩

/-- Whatever matches are chosen, the search meets a window at their left edge that reaches no further. -/
theorem exists_window {forms : List (List Match)} (hs : Sorted forms) {picks : List (ℕ × Match)}
    (hpicks : Chooses forms picks) {s e : ℕ} (hinside : ∀ p ∈ picks, s ≤ p.2.1 ∧ p.2.2 ≤ e)
    (hfirst : ∃ p ∈ picks, p.2.1 = s) : ∃ w ∈ windows forms, w.1 = s ∧ w.2.1 ≤ e := by
  obtain ⟨⟨i, m⟩, hp, rfl⟩ := hfirst
  obtain ⟨hleft, hright⟩ := exists_of_forall₂ hpicks
  obtain ⟨list, hlist, hi⟩ := hright _ hp
  obtain ⟨f, hf⟩ := List.mem_iff_getElem?.1 hlist
  -- every form has a match past the edge, the one chosen of it
  have hpast : ∀ form ∈ forms.zipIdx, ∃ m' ∈ form.1, m.1 ≤ m'.1 ∧ m'.2 ≤ e := by
    intro form hform
    obtain ⟨p, hp, hget⟩ := hleft form.1 (List.mem_of_getElem? (List.mem_zipIdx_iff_getElem?.1 hform))
    exact ⟨p.2, List.mem_of_getElem? hget, hinside p hp⟩
  obtain ⟨-, form, hform, -, hno⟩ | ⟨e', taken, hrun, htakes, -, -, hlast⟩ :=
    windowFrom_spec (f := f) (i := i) (m := m) (fun list h => (hs list h).1) 0 m.2 []
  · obtain ⟨m', hm', hle, -⟩ := hpast form hform
    exact absurd (hno m' hm') (Nat.not_lt.2 hle)
  · refine ⟨(m.1, e', _), mem_windows.2 ⟨f, list, i, m, hf, hi, by rw [windowAt, hrun]⟩, rfl, ?_⟩
    have hmine : m.2 ≤ e := (hinside (i, m) hp).2
    obtain rfl | ⟨p, hp, rfl⟩ := hlast
    · exact hmine
    · obtain ⟨form, hform, htake⟩ := (exists_of_forall₂ htakes).2 p hp
      rw [Takes] at htake
      by_cases hfi : form.2 = f
      · rw [if_pos hfi] at htake
        rw [htake]
        exact hmine
      · rw [if_neg hfi] at htake
        obtain ⟨m', hm', hle, hm'e⟩ := hpast form hform
        exact (htake.2.2 m' hm' hle).trans hm'e

/-- Some choice of matches has a window, where every form has a match. -/
theorem exists_choice {forms : List (List Match)} (hne : forms ≠ []) (hall : ∀ list ∈ forms, list ≠ []) :
    ∃ picks s e, Chooses forms picks ∧ (∀ p ∈ picks, s ≤ p.2.1 ∧ p.2.2 ≤ e) ∧ ∃ p ∈ picks, p.2.1 = s := by
  have hheads : ∀ forms : List (List Match), (∀ list ∈ forms, list ≠ []) → ∃ picks, Chooses forms picks := by
    intro forms
    induction forms with
    | nil => exact fun _ => ⟨[], .nil⟩
    | cons list rest ih =>
      intro hall
      obtain ⟨m, list, rfl⟩ := List.exists_cons_of_ne_nil (hall list List.mem_cons_self)
      obtain ⟨picks, hpicks⟩ := ih fun list h => hall list (List.mem_cons_of_mem _ h)
      exact ⟨(0, m) :: picks, .cons rfl hpicks⟩
  have hbound : ∀ picks : List (ℕ × Match), ∃ e, ∀ p ∈ picks, p.2.2 ≤ e := by
    intro picks
    induction picks with
    | nil => exact ⟨0, nofun⟩
    | cons p picks ih =>
      obtain ⟨e, he⟩ := ih
      exact ⟨max p.2.2 e, List.forall_mem_cons.2 ⟨le_max_left _ _, fun q hq => (he q hq).trans (le_max_right _ _)⟩⟩
  obtain ⟨picks, hpicks⟩ := hheads forms hall
  obtain ⟨e, he⟩ := hbound picks
  have hsome : picks ≠ [] := by
    rintro rfl
    exact hne (List.forall₂_nil_right_iff.1 hpicks)
  obtain ⟨p, hp⟩ := Option.ne_none_iff_exists'.1 (mt List.argmin_eq_none.1 hsome : picks.argmin (fun p => p.2.1) ≠ none)
  exact ⟨picks, p.2.1, e, hpicks, fun q hq =>
    ⟨List.le_of_mem_argmin (f := fun p => p.2.1) hq hp, he q hq⟩, p, List.argmin_mem hp, rfl⟩

/-- The tightest window is tightest: its chosen matches span it exactly, and no choice of one
match of every form has a narrower window, or one as narrow that starts earlier. There is none
exactly when there is no form, or some form has no match. -/
theorem tightest_least (forms : List (List Match)) (hs : Sorted forms) :
    ∃ found, tightest forms = .ok found ∧ (found = none ↔ forms = [] ∨ ∃ list ∈ forms, list = []) ∧
      ∀ s e chosen, found = some (s, e, chosen) →
        (∃ picks, Chooses forms picks ∧ chosen = picks.map Prod.fst ∧ IsWindow (picks.map Prod.snd) s e) ∧
        ∀ picks' s' e', Chooses forms picks' → IsWindow (picks'.map Prod.snd) s' e' →
          e - s < e' - s' ∨ e - s = e' - s' ∧ s ≤ s' := by
  have hempty : (forms = [] ∨ forms.any List.isEmpty = true) ↔ forms = [] ∨ ∃ list ∈ forms, list = [] := by
    simp only [List.any_eq_true, List.isEmpty_iff]
  by_cases hne : forms = [] ∨ forms.any List.isEmpty = true
  · exact ⟨none, by rw [tightest, if_pos hne]; rfl, by rw [← hempty]; exact iff_of_true rfl hne, nofun⟩
  · refine ⟨_, tightest_eq_argmin hs hne, ?_, fun s e chosen hfound => ⟨?_, ?_⟩⟩
    · rw [← hempty, List.argmin_eq_none]
      refine iff_of_false (fun hnil => ?_) hne
      rw [hempty, not_or, not_exists] at hne
      obtain ⟨picks, s, e, hpicks, hinside, hfirst⟩ := exists_choice hne.1 fun list h hnil => hne.2 list ⟨h, hnil⟩
      obtain ⟨w, hw, -⟩ := exists_window hs hpicks hinside hfirst
      rw [hnil] at hw
      cases hw
    · exact chooses_of_mem_windows hs (List.argmin_mem hfound)
    · intro picks' s' e' hpicks' hwindow
      have hinside : ∀ p ∈ picks', s' ≤ p.2.1 ∧ p.2.2 ≤ e' := fun p hp => hwindow.inside p.2 (List.mem_map_of_mem hp)
      have hfirst : ∃ p ∈ picks', p.2.1 = s' := by
        obtain ⟨m, hm, hstart⟩ := hwindow.first
        obtain ⟨p, hp, rfl⟩ := List.mem_map.1 hm
        exact ⟨p, hp, hstart⟩
      obtain ⟨w, hw, rfl, hle⟩ := exists_window hs hpicks' hinside hfirst
      have hkey := List.le_of_mem_argmin hw hfound
      simp only [key, Prod.Lex.toLex_le_toLex] at hkey
      omega

/-- Nested matches of one form: the inner one, although it starts later, and no choice is narrower. -/
theorem tightest_least_nested : tightest [[(0, 9), (2, 4)], [(5, 6)]] = .ok (some (2, 6, [1, 0])) ∧
    ∀ picks s e, Chooses [[(0, 9), (2, 4)], [(5, 6)]] picks → IsWindow (picks.map Prod.snd) s e →
      6 - 2 < e - s ∨ 6 - 2 = e - s ∧ 2 ≤ s := by
  have hwindow : tightest [[(0, 9), (2, 4)], [(5, 6)]] = .ok (some (2, 6, [1, 0])) := by decide
  obtain ⟨found, hfound, -, hleast⟩ := tightest_least [[(0, 9), (2, 4)], [(5, 6)]] (by
    intro list hlist
    fin_cases hlist <;> decide)
  refine ⟨hwindow, (hleast 2 6 [1, 0] ?_).2⟩
  exact Outcome.ok.inj (hfound.symm.trans hwindow)

end Search
