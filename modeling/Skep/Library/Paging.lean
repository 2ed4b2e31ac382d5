import Skep.Library.Outcome

/-!
# Pages of an ascending list

A page of an ascending list is the first keys past a cursor. Its last key is the cursor
of the next page, so a walk over pages of any sizes meets each key past its first cursor
once, and a page shorter than was asked for is the last.
-/

namespace Paging

variable {κ : Type} [LinearOrder κ]

/-- A page, the cursor past it, and whether it is the last. -/
structure Page (κ : Type) where
  batch : List κ
  next : Option κ
  exhausted : Bool
  deriving DecidableEq

/-- The keys past a cursor. -/
def past (keys : List κ) : Option κ → List κ
  | none => keys
  | some c => keys.dropWhile fun k => decide (k ≤ c)

/-- The page past a cursor, of at least one key where there is one. -/
def page (keys : List κ) (cursor : Option κ) (n : ℕ) : Page κ :=
  let batch := (past keys cursor).take (max n 1)
  ⟨batch, batch.getLast?.or cursor, decide (batch.length < max n 1)⟩

/-- The pages of some sizes, each from the last one's cursor, up to an exhausted one. -/
def walk {ε : Type} (window : Option κ → ℕ → Outcome ε (Page κ)) :
    Option κ → List ℕ → Outcome ε (List (Page κ))
  | _, [] => return []
  | cursor, n :: sizes => do
      let p ← window cursor n
      if p.exhausted then return [p]
      else do
        let rest ← walk window p.next sizes
        return p :: rest

/-- How many keys pages of some sizes hold at most. -/
def room (sizes : List ℕ) : ℕ := (sizes.map fun n => max n 1).sum

variable {keys : List κ} (hasc : keys.Pairwise (· < ·))

include hasc

theorem past_some (c : κ) : past keys (some c) = keys.filter fun k => decide (c < k) := by
  rw [past]
  induction keys with
  | nil => rfl
  | cons k keys ih =>
    obtain ⟨hlt, hrest⟩ := List.pairwise_cons.1 hasc
    by_cases hk : k ≤ c
    · rw [List.dropWhile_cons_of_pos (by simpa using hk), ih hrest,
        List.filter_cons_of_neg (by simpa using hk)]
    · have hck : c < k := lt_of_not_ge hk
      rw [List.dropWhile_cons_of_neg (by simpa using hck), List.filter_cons_of_pos (by simpa using hck),
        List.filter_eq_self.2 fun x hx => decide_eq_true (hck.trans (hlt x hx))]

theorem past_eq_filter (cursor : Option κ) :
    past keys cursor = keys.filter fun k => cursor.all fun c => decide (c < k) := by
  cases cursor with
  | none => exact (List.filter_eq_self.2 fun k _ => rfl).symm
  | some c => exact past_some hasc c

theorem mem_past {cursor : Option κ} {k : κ} : k ∈ past keys cursor ↔ k ∈ keys ∧ ∀ c ∈ cursor, c < k := by
  cases cursor with
  | none => simp [past]
  | some c => simp [past_some hasc]

theorem past_ascending (cursor : Option κ) : (past keys cursor).Pairwise (· < ·) := by
  cases cursor with
  | none => exact hasc
  | some c =>
    rw [past_some hasc]
    exact hasc.filter _

/-- Past the last key of a page stand the keys the page left. -/
theorem past_next {cursor : Option κ} {n : ℕ} {last : κ}
    (hlast : ((past keys cursor).take n).getLast? = some last) :
    past keys (some last) = (past keys cursor).drop n := by
  have hpast := past_ascending hasc cursor
  obtain ⟨front, hfront⟩ := List.getLast?_eq_some_iff.1 hlast
  have hsplit : past keys cursor = front ++ [last] ++ (past keys cursor).drop n := by
    rw [← hfront, List.take_append_drop]
  have hmem : last ∈ past keys cursor := by
    rw [hsplit]
    simp
  -- the keys past the last key are among those past the cursor
  have hkeys : past keys (some last) = (past keys cursor).filter fun k => decide (last < k) := by
    have hcursor := ((mem_past hasc).1 hmem).2
    rw [past_some hasc]
    cases cursor with
    | none => rfl
    | some c =>
      rw [past_some hasc, List.filter_filter]
      refine List.filter_congr fun k _ => ?_
      rw [Bool.eq_iff_iff, Bool.and_eq_true, decide_eq_true_eq, decide_eq_true_eq]
      exact ⟨fun h => ⟨h, (hcursor c rfl).trans h⟩, And.left⟩
  generalize hrest : (past keys cursor).drop n = rest at hsplit ⊢
  rw [hsplit] at hpast
  obtain ⟨hfirst, -, hlater⟩ := List.pairwise_append.1 hpast
  obtain ⟨-, -, hbefore⟩ := List.pairwise_append.1 hfirst
  rw [hkeys, hsplit, List.filter_append, List.filter_eq_nil_iff.2, List.nil_append,
    List.filter_eq_self.2]
  · exact fun k hk => decide_eq_true (hlater last (by simp) k hk)
  · intro k hk
    rw [decide_eq_true_eq, not_lt]
    rcases List.mem_append.1 hk with hk | hk
    · exact (hbefore k hk last (by simp)).le
    · rw [List.mem_singleton.1 hk]

/-- A page that is not the last is full, and the next one starts where it ends. -/
theorem page_next {cursor : Option κ} {n : ℕ} (h : (page keys cursor n).exhausted = false) :
    (page keys cursor n).batch.length = max n 1 ∧
      past keys (page keys cursor n).next = (past keys cursor).drop (max n 1) := by
  have hlen : max n 1 ≤ (page keys cursor n).batch.length := not_lt.1 (of_decide_eq_false h)
  have hle : (page keys cursor n).batch.length ≤ max n 1 := List.length_take_le _ _
  have heq := le_antisymm hle hlen
  refine ⟨heq, ?_⟩
  have hne : (page keys cursor n).batch ≠ [] := by
    intro hnil
    rw [hnil, List.length_nil] at heq
    omega
  have hnext : (page keys cursor n).next = some ((page keys cursor n).batch.getLast hne) := by
    have hgetLast : ((past keys cursor).take (max n 1)).getLast? = some _ :=
      List.getLast?_eq_some_getLast hne
    show ((past keys cursor).take (max n 1)).getLast?.or cursor = _
    rw [hgetLast]
    rfl
  rw [hnext]
  exact past_next hasc (List.getLast?_eq_some_getLast hne)

variable {ε : Type} {window : Option κ → ℕ → Outcome ε (Page κ)}
  (hwindow : ∀ cursor n, window cursor n = .ok (page keys cursor n))

include hwindow

/-- The pages of a walk hold the first keys past its cursor, as many as they have room for,
and the last is exhausted where they have room for more. -/
theorem walk_spec (sizes : List ℕ) (cursor : Option κ) : ∃ pages, walk window cursor sizes = .ok pages ∧
    pages.flatMap Page.batch = (past keys cursor).take (room sizes) ∧
      ((∃ p ∈ pages, p.exhausted = true) ↔ (past keys cursor).length < room sizes) := by
  induction sizes generalizing cursor with
  | nil => exact ⟨[], rfl, by simp [room], by simp [room]⟩
  | cons n sizes ih =>
    have hroom : room (n :: sizes) = max n 1 + room sizes := by simp [room]
    rw [walk, hwindow, Outcome.ok_bind]
    cases hlast : (page keys cursor n).exhausted with
    | true =>
      have hshort : (past keys cursor).length < max n 1 := by
        have : ((past keys cursor).take (max n 1)).length < max n 1 := of_decide_eq_true hlast
        rw [List.length_take] at this
        omega
      refine ⟨[page keys cursor n], rfl, ?_, ?_⟩
      · rw [List.flatMap_singleton, hroom]
        show (past keys cursor).take (max n 1) = _
        rw [List.take_of_length_le hshort.le, List.take_of_length_le (by omega)]
      · refine iff_of_true ⟨_, List.mem_singleton_self _, hlast⟩ ?_
        omega
    | false =>
      obtain ⟨hfull, hnext⟩ := page_next hasc hlast
      obtain ⟨pages, heq, hbatch, hiff⟩ := ih (page keys cursor n).next
      rw [hnext] at hbatch hiff
      rw [heq]
      refine ⟨page keys cursor n :: pages, rfl, ?_, ?_⟩
      · rw [List.flatMap_cons, hbatch, hroom, List.take_add]
        rfl
      · rw [List.length_drop] at hiff
        have hle : max n 1 ≤ (past keys cursor).length := by
          rw [← hfull]
          exact List.length_take_le' _ _
        simp only [List.mem_cons, exists_eq_or_imp, hlast, Bool.false_eq_true, false_or, hiff, hroom]
        omega

end Paging
