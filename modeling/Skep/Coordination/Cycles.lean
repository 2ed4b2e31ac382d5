import Skep.Library.Components
import Skep.Library.OrdSet
import Skep.Library.Outcome

/-!
# The cycles of the armer graph

One depth-first pass over a graph given as adjacency lists numbers each vertex as it is met and
keeps a low link of each one under visit. A vertex whose low link is its own number closes its
component, which is kept where it is a cycle: where it has more than one vertex, or an edge from
its vertex to itself.

## Main results

- `Tarjan.visit_spec` — what one visit leaves
- `Tarjan.tarjanNontrivialSccs_exact` — the pass answers the cycles, in ascending order
-/

namespace Coordination

namespace Tarjan

-- The pass

/-- An element of a vector, a fault past its end. -/
def fetch {α : Type} (l : List α) (i : ℕ) : Outcome Empty α := Outcome.expectSome l[i]?

/-- A vector with an element replaced, a fault past its end. -/
def store {α : Type} (l : List α) (i : ℕ) (a : α) : Outcome Empty (List α) := do
  Outcome.require (i < l.length)
  return l.set i a

structure St where
  edges : List (List ℕ)
  index : List (Option ℕ)
  low : List ℕ
  onStack : List Bool
  /-- The top first. -/
  stack : List ℕ
  next : ℕ
  out : List (List ℕ)

/-- Pop the stack down to a vertex, that vertex last. -/
def popThrough (v : ℕ) : List ℕ → List Bool → Outcome Empty (List ℕ × List ℕ × List Bool)
  | [], _ => .fault
  | w :: stack, onStack => do
      let onStack ← store onStack w false
      if w = v then return ([w], stack, onStack)
      else
        let (scc, stack, onStack) ← popThrough v stack onStack
        return (w :: scc, stack, onStack)

/-- Whether a component is a cycle. -/
def isKept (edges : List (List ℕ)) (scc : List ℕ) : Outcome Empty Bool := do
  let selfLoop ←
    if scc.length = 1 then do
      let v ← fetch scc 0
      let succs ← fetch edges v
      pure (succs.contains v)
    else pure false
  return decide (1 < scc.length) || selfLoop

namespace St

def start (edges : List (List ℕ)) : St where
  edges := edges
  index := List.replicate edges.length none
  low := List.replicate edges.length 0
  onStack := List.replicate edges.length false
  stack := []
  next := 0
  out := []

/-- A visit begins: the vertex takes the next number and is pushed. -/
def enter (s : St) (v : ℕ) : Outcome Empty St := do
  let index ← store s.index v (some s.next)
  let low ← store s.low v s.next
  let onStack ← store s.onStack v true
  return { s with index, low, onStack, stack := v :: s.stack, next := s.next + 1 }

/-- The low link of a vertex, lowered to a bound. -/
def lower (s : St) (v bound : ℕ) : Outcome Empty St := do
  let lowV ← fetch s.low v
  let low ← store s.low v (min lowV bound)
  return { s with low }

/-- One edge of a vertex under visit. -/
def follow (visit : St → ℕ → Outcome Empty St) (v : ℕ) (s : St) (w : ℕ) : Outcome Empty St := do
  match ← fetch s.index w with
  | none => do
      let s ← visit s w
      let lowW ← fetch s.low w
      s.lower v lowW
  | some iw => do
      if ← fetch s.onStack w then s.lower v iw else return s

/-- A visit ends: a vertex whose low link is its own number closes its component. -/
def leave (s : St) (v : ℕ) : Outcome Empty St := do
  let lowV ← fetch s.low v
  let indexV ← Outcome.expectSome (← fetch s.index v)
  if lowV = indexV then
    let (scc, stack, onStack) ← popThrough v s.stack s.onStack
    let scc := scc.insertionSort (· ≤ ·)
    let kept ← isKept s.edges scc
    return { s with stack, onStack, out := if kept then s.out ++ [scc] else s.out }
  else return s

end St

/-- A visit, over a bound on how deep visits nest. -/
def visit : ℕ → St → ℕ → Outcome Empty St
  | 0, _, _ => .fault
  | fuel + 1, s, v => do
      let s ← s.enter v
      let succs ← fetch s.edges v
      let s ← succs.foldlM (St.follow (visit fuel) v) s
      s.leave v

end Tarjan

/-- The strong components that are cycles. No visit nests deeper than there are vertices. -/
def tarjanNontrivialSccs (edges : List (List ℕ)) : Outcome Empty (List (List ℕ)) := do
  let n := edges.length
  let st ← (List.range n).foldlM (fun st v => do
    match ← Tarjan.fetch st.index v with
    | none => Tarjan.visit n st v
    | some _ => return st) (Tarjan.St.start edges)
  return st.out.insertionSort (· ≤ ·)

namespace Tarjan

open Components (Mutual)

-- Vectors

section Vectors

variable {α : Type} {l : List α} {i : ℕ} {a : α}

theorem fetch_eq_ok_iff : fetch l i = .ok a ↔ l[i]? = some a := Outcome.expectSome_eq_ok_iff

theorem store_of_lt (h : i < l.length) (a : α) : store l i a = .ok (l.set i a) := by
  rw [store, Outcome.require, if_pos h]
  rfl

theorem getElem?_set_eq (h : i < l.length) (a : α) (j : ℕ) :
    (l.set i a)[j]? = if j = i then some a else l[j]? := by
  rw [List.getElem?_set]
  by_cases heq : i = j
  · rw [if_pos heq, if_pos heq.symm, if_pos h]
  · rw [if_neg heq, if_neg (Ne.symm heq)]

end Vectors

-- The invariant

/-- The edge of a graph. -/
def Edge (edges : List (List ℕ)) (v w : ℕ) : Prop := ∃ succs, edges[v]? = some succs ∧ w ∈ succs

/-- A strong component that is a cycle, in ascending order. -/
structure IsCycle (edges : List (List ℕ)) (c : List ℕ) : Prop where
  ascending : c.Pairwise (· < ·)
  component : ∀ v ∈ c, ∀ w, w ∈ c ↔ Mutual (Edge edges) v w
  nontrivial : 1 < c.length ∨ ∃ v ∈ c, Edge edges v v

namespace St

variable {s t : St} {path seen : List ℕ} {v w : ℕ}

/-- The number of a vertex met. -/
def number (s : St) (v : ℕ) : Option ℕ := s.index[v]?.join

/-- The vertices not met. -/
def unmet (s : St) : ℕ := s.index.count none

/-- The search the state stands for, `path` being the vertices under visit. -/
def search (s : St) (path : List ℕ) : Components.Search ℕ := ⟨fun v => ∃ i, s.number v = some i, s.stack, path⟩

/-- A vertex is met and its component is closed. -/
def Done (s : St) (v : ℕ) : Prop := (∃ i, s.number v = some i) ∧ v ∉ s.stack

/-- The invariant between the steps of the pass. -/
structure Sound (s : St) (path : List ℕ) : Prop where
  edge_lt : ∀ v w, Edge s.edges v w → w < s.edges.length
  length_index : s.index.length = s.edges.length
  length_low : s.low.length = s.edges.length
  length_onStack : s.onStack.length = s.edges.length
  onStack_iff : ∀ v, s.onStack[v]? = some true ↔ v ∈ s.stack
  number_lt : ∀ v i, s.number v = some i → i < s.next
  /-- The stack stands in the order of the numbers, the greatest on top. -/
  descending : s.stack.Pairwise fun w v => ∀ i j, s.number w = some i → s.number v = some j → j < i
  search : (s.search path).Sound (Edge s.edges)
  out_nodup : s.out.Nodup
  mem_out : ∀ c, c ∈ s.out ↔ IsCycle s.edges c ∧ ∀ v ∈ c, s.Done v

/-- What the pass keeps from one state to a later one. -/
structure Later (s t : St) : Prop where
  edges : t.edges = s.edges
  number : ∀ v i, s.number v = some i → t.number v = some i
  low : ∀ v i, s.number v = some i → t.low[v]? = s.low[v]?
  unmet : t.unmet ≤ s.unmet

theorem Later.refl (s : St) : Later s s := ⟨rfl, fun _ _ h => h, fun _ _ _ => rfl, le_rfl⟩

theorem Later.trans {u : St} (h : Later s t) (h' : Later t u) : Later s u where
  edges := h'.edges.trans h.edges
  number v i hv := h'.number v i (h.number v i hv)
  low v i hv := (h'.low v i (h.number v i hv)).trans (h.low v i hv)
  unmet := h'.unmet.trans h.unmet

theorem lt_of_number {i : ℕ} (h : s.Sound path) (hv : s.number v = some i) : v < s.edges.length := by
  rw [← h.length_index]
  by_contra hle
  rw [number, List.getElem?_eq_none (Nat.le_of_not_lt hle)] at hv
  cases hv

theorem Sound.number_of_mem (h : s.Sound path) (hv : v ∈ s.stack) : ∃ i, s.number v = some i :=
  h.search.met_of_mem v hv

theorem Sound.lt_of_mem (h : s.Sound path) (hv : v ∈ s.stack) : v < s.edges.length := by
  obtain ⟨i, hi⟩ := h.number_of_mem hv
  exact lt_of_number h hi

theorem Sound.setLow (h : s.Sound path) (v l : ℕ) : Sound { s with low := s.low.set v l } path where
  edge_lt := h.edge_lt
  length_index := h.length_index
  length_low := (List.length_set ..).trans h.length_low
  length_onStack := h.length_onStack
  onStack_iff := h.onStack_iff
  number_lt := h.number_lt
  descending := h.descending
  search := h.search
  out_nodup := h.out_nodup
  mem_out := h.mem_out

-- A visit begins

/-- The state once the visit of a vertex has begun. -/
def entered (s : St) (v : ℕ) : St :=
  { s with
    index := s.index.set v (some s.next)
    low := s.low.set v s.next
    onStack := s.onStack.set v true
    stack := v :: s.stack
    next := s.next + 1 }

section Enter

variable (h : s.Sound path) (hv : v < s.edges.length)

include h hv

theorem Sound.enter_eq : s.enter v = .ok (s.entered v) := by
  have hindex : v < s.index.length := h.length_index ▸ hv
  have hlow : v < s.low.length := h.length_low ▸ hv
  have honStack : v < s.onStack.length := h.length_onStack ▸ hv
  rw [St.enter, store_of_lt hindex, Outcome.ok_bind, store_of_lt hlow, Outcome.ok_bind, store_of_lt honStack]
  rfl

theorem Sound.number_entered (w : ℕ) : (s.entered v).number w = if w = v then some s.next else s.number w := by
  show ((s.index.set v (some s.next))[w]?).join = _
  rw [getElem?_set_eq (h.length_index ▸ hv)]
  by_cases heq : w = v
  · rw [if_pos heq, if_pos heq]
    rfl
  · rw [if_neg heq, if_neg heq]
    rfl

theorem Sound.number_entered_self : (s.entered v).number v = some s.next := by
  rw [h.number_entered hv, if_pos rfl]

theorem Sound.low_entered (w : ℕ) : (s.entered v).low[w]? = if w = v then some s.next else s.low[w]? :=
  getElem?_set_eq (h.length_low ▸ hv) s.next w

theorem Sound.met_entered (w : ℕ) :
    (∃ i, (s.entered v).number w = some i) ↔ w = v ∨ ∃ i, s.number w = some i := by
  rw [h.number_entered hv]
  by_cases heq : w = v
  · simp [heq]
  · simp [heq]

variable (hnew : s.number v = none)

include hnew

omit h hv in
theorem ne_of_number {i : ℕ} (hw : s.number w = some i) : w ≠ v := by
  rintro rfl
  rw [hnew] at hw
  cases hw

theorem Sound.number_entered_of_number {i : ℕ} (hw : s.number w = some i) : (s.entered v).number w = some i := by
  rw [h.number_entered hv, if_neg (ne_of_number hnew hw), hw]

theorem Sound.done_entered (w : ℕ) : (s.entered v).Done w ↔ s.Done w := by
  show (∃ i, (s.entered v).number w = some i) ∧ w ∉ v :: s.stack ↔ _
  rw [h.met_entered hv, List.mem_cons, not_or]
  constructor
  · rintro ⟨hw, hne, hstack⟩
    exact ⟨hw.resolve_left hne, hstack⟩
  · rintro ⟨⟨i, hi⟩, hstack⟩
    exact ⟨.inr ⟨i, hi⟩, ne_of_number hnew hi, hstack⟩

theorem Sound.later_entered : Later s (s.entered v) where
  edges := rfl
  number _ _ hw := h.number_entered_of_number hv hnew hw
  low w i hw := by rw [h.low_entered hv, if_neg (ne_of_number hnew hw)]
  unmet := by
    show (s.index.set v (some s.next)).count none ≤ s.index.count none
    rw [List.count_set (h.length_index ▸ hv)]
    simp

theorem Sound.unmet_entered_lt : (s.entered v).unmet < s.unmet := by
  have hlt : v < s.index.length := h.length_index ▸ hv
  have hnone : s.index[v] = none := by
    rw [number, List.getElem?_eq_getElem hlt] at hnew
    exact hnew
  have hpos : 0 < s.index.count none := List.count_pos_iff.2 (hnone ▸ List.getElem_mem hlt)
  show (s.index.set v (some s.next)).count none < s.index.count none
  rw [List.count_set hlt, hnone]
  simp only [beq_self_eq_true, if_true, reduceCtorEq, beq_iff_eq, if_false, Nat.add_zero]
  omega

/-- A vertex not met, that every vertex under visit reaches, is visited. -/
theorem Sound.entered (hreach : ∀ u ∈ path, Relation.ReflTransGen (Edge s.edges) u v) :
    (s.entered v).Sound (v :: path) where
  edge_lt := h.edge_lt
  length_index := (List.length_set ..).trans h.length_index
  length_low := (List.length_set ..).trans h.length_low
  length_onStack := (List.length_set ..).trans h.length_onStack
  onStack_iff w := by
    show (s.onStack.set v true)[w]? = some true ↔ w ∈ v :: s.stack
    rw [getElem?_set_eq (h.length_onStack ▸ hv), List.mem_cons]
    by_cases heq : w = v
    · simp [heq]
    · rw [if_neg heq, h.onStack_iff]
      simp [heq]
  number_lt w i hi := by
    show i < s.next + 1
    rw [h.number_entered hv] at hi
    split at hi
    · cases hi
      omega
    · have := h.number_lt w i hi
      omega
  descending := by
    refine List.pairwise_cons.2 ⟨fun w hw i j hi hj => ?_, h.descending.imp_of_mem ?_⟩
    · obtain ⟨k, hk⟩ := h.number_of_mem hw
      rw [h.number_entered_self hv] at hi
      rw [h.number_entered_of_number hv hnew hk] at hj
      cases hi
      cases hj
      exact h.number_lt w _ hk
    · intro x y hx hy hxy i j hi hj
      obtain ⟨k, hk⟩ := h.number_of_mem hx
      obtain ⟨l, hl⟩ := h.number_of_mem hy
      rw [h.number_entered_of_number hv hnew hk] at hi
      rw [h.number_entered_of_number hv hnew hl] at hj
      exact hxy i j (hk.trans hi) (hl.trans hj)
  search := by
    have heq : (s.entered v).search (v :: path) =
        ⟨fun w => w = v ∨ (s.search path).met w, v :: s.stack, v :: path⟩ := by
      rw [St.search]
      congr
      funext w
      exact propext (h.met_entered hv w)
    rw [heq]
    exact h.search.enter (fun ⟨i, hi⟩ => ne_of_number hnew hi rfl) hreach
  out_nodup := h.out_nodup
  mem_out c := by
    rw [forall₂_congr fun w _ => h.done_entered hv hnew w]
    exact h.mem_out c

end Enter

-- A component is closed

/-- Popping down to a vertex takes what stands from it up, and marks that as off the stack. -/
theorem popThrough_spec {fresh below : List ℕ} {onStack : List Bool} (hv : v ∉ fresh)
    (hlt : ∀ x ∈ fresh ++ [v], x < onStack.length) :
    ∃ onStack', popThrough v (fresh ++ v :: below) onStack = .ok (fresh ++ [v], below, onStack') ∧
      onStack'.length = onStack.length ∧
      ∀ x, onStack'[x]? = if x ∈ fresh ++ [v] then some false else onStack[x]? := by
  induction fresh generalizing onStack with
  | nil =>
    have hlt : v < onStack.length := hlt v (by simp)
    refine ⟨onStack.set v false, ?_, List.length_set .., fun x => ?_⟩
    · rw [List.nil_append, popThrough, store_of_lt hlt, Outcome.ok_bind, if_pos rfl]
      rfl
    · simp [getElem?_set_eq hlt]
  | cons w fresh ih =>
    obtain ⟨hne, hv⟩ := not_or.1 (mt List.mem_cons.2 hv)
    have hlen : (onStack.set w false).length = onStack.length := List.length_set ..
    obtain ⟨onStack', hpop, hlen', hget⟩ := @ih (onStack.set w false) hv fun x hx => by
      rw [hlen]
      exact hlt x (List.mem_cons_of_mem w hx)
    have hw : w < onStack.length := hlt w List.mem_cons_self
    refine ⟨onStack', ?_, hlen'.trans hlen, fun x => ?_⟩
    · rw [List.cons_append, popThrough, store_of_lt hw, Outcome.ok_bind, if_neg (Ne.symm hne), hpop]
      rfl
    · rw [hget, getElem?_set_eq hw, List.cons_append]
      by_cases hmem : x ∈ fresh ++ [v]
      · rw [if_pos hmem, if_pos (List.mem_cons_of_mem w hmem)]
      · by_cases heq : x = w
        · rw [if_neg hmem, if_pos heq, if_pos (heq ▸ List.mem_cons_self)]
        · rw [if_neg hmem, if_neg heq, if_neg (by simp [heq, hmem])]

theorem isKept_spec {edges : List (List ℕ)} {scc : List ℕ} (hlt : ∀ x ∈ scc, x < edges.length) :
    ∃ kept, isKept edges scc = .ok kept ∧ (kept = true ↔ 1 < scc.length ∨ ∃ x ∈ scc, Edge edges x x) := by
  match scc with
  | [] => exact ⟨false, rfl, by simp⟩
  | [x] =>
    obtain ⟨succs, hsuccs⟩ : ∃ succs, edges[x]? = some succs :=
      ⟨_, List.getElem?_eq_getElem (hlt x List.mem_cons_self)⟩
    have hfetch : fetch edges x = .ok succs := fetch_eq_ok_iff.2 hsuccs
    have hhead : fetch [x] 0 = .ok x := rfl
    refine ⟨succs.contains x, by simp [isKept, hhead, hfetch], ?_⟩
    simp [Edge, hsuccs]
  | x :: y :: rest => exact ⟨true, by simp [isKept], by simp⟩

/-- Two components in ascending order that share a vertex are one. -/
theorem eq_of_component {edges : List (List ℕ)} {c d : List ℕ} {x : ℕ} (hc : IsCycle edges c) (hx : x ∈ c)
    (hd : d.Pairwise (· < ·)) (hmem : ∀ w, w ∈ d ↔ Mutual (Edge edges) x w) : c = d :=
  OrdSet.eq_of_ascending hc.ascending hd fun w => by rw [hc.component x hx w, hmem]

section Close

variable {fresh below : List ℕ} (h : s.Sound (v :: path)) (hstack : s.stack = fresh ++ v :: below)
  (hmet : ∀ w, Edge s.edges v w → ∃ i, s.number w = some i)
  (hcut : ∀ x ∈ fresh ++ [v], ∀ y ∈ below, ¬ Edge s.edges x y)

include h hstack

theorem Sound.ascending_scc : ((fresh ++ [v]).insertionSort (· ≤ ·)).Pairwise (· < ·) := by
  have hnodup := h.search.nodup
  rw [St.search, hstack, List.append_cons] at hnodup
  have hsorted := List.pairwise_insertionSort (· ≤ ·) (fresh ++ [v])
  have hne := (List.Perm.nodup_iff (List.perm_insertionSort (· ≤ ·) _)).2 hnodup.of_append_left
  exact (hsorted.and hne).imp fun hle => lt_of_le_of_ne hle.1 hle.2

include hmet hcut

theorem Sound.mem_scc_iff {x : ℕ} (hx : x ∈ fresh ++ [v]) (w : ℕ) :
    w ∈ (fresh ++ [v]).insertionSort (· ≤ ·) ↔ Mutual (Edge s.edges) x w := by
  have hmutual := h.search.mutual_iff rfl hstack hmet hcut
  have hvx := (hmutual x).1 hx
  rw [List.mem_insertionSort, hmutual]
  exact ⟨hvx.symm.trans, hvx.trans⟩

/-- What is popped is a cycle exactly where the pass keeps it. -/
theorem Sound.isCycle_scc_iff : IsCycle s.edges ((fresh ++ [v]).insertionSort (· ≤ ·)) ↔
    1 < ((fresh ++ [v]).insertionSort (· ≤ ·)).length ∨
      ∃ x ∈ (fresh ++ [v]).insertionSort (· ≤ ·), Edge s.edges x x := by
  refine ⟨fun hc => hc.nontrivial, fun hkept => ⟨h.ascending_scc hstack, fun x hx w => ?_, hkept⟩⟩
  exact h.mem_scc_iff hstack hmet hcut ((List.mem_insertionSort _).1 hx) w

theorem Sound.leave_close {i : ℕ} (hlow : s.low[v]? = some i) (hnumber : s.number v = some i) :
    ∃ t, s.leave v = .ok t ∧ t.Sound path ∧ Later s t ∧ t.stack = below ∧
      t.number = s.number ∧ t.low = s.low := by
  have hmem : ∀ x ∈ fresh ++ [v], x ∈ s.stack := by
    intro x hx
    rw [hstack, List.append_cons]
    exact List.mem_append_left _ hx
  have hv : v ∉ fresh := by
    have hnodup := h.search.nodup
    rw [St.search, hstack] at hnodup
    exact fun hv => List.disjoint_of_nodup_append hnodup hv List.mem_cons_self
  have hbelow : ∀ x ∈ fresh ++ [v], x ∉ below := fun x hx => h.search.disjoint_below hstack hx
  have hlt : ∀ x ∈ fresh ++ [v], x < s.edges.length := fun x hx => h.lt_of_mem (hmem x hx)
  have hmarks : ∀ x ∈ fresh ++ [v], x < s.onStack.length := h.length_onStack ▸ hlt
  have hsorted : ∀ x ∈ (fresh ++ [v]).insertionSort (· ≤ ·), x < s.edges.length := fun x hx =>
    hlt x ((List.mem_insertionSort _).1 hx)
  obtain ⟨onStack, hpop, hlen, hget⟩ := @popThrough_spec v fresh below s.onStack hv hmarks
  obtain ⟨kept, hkept, hcycle⟩ := isKept_spec hsorted
  rw [← h.isCycle_scc_iff hstack hmet hcut] at hcycle
  generalize hscc : (fresh ++ [v]).insertionSort (· ≤ ·) = scc at *
  have hclosed : ∀ x ∈ scc, x ∈ fresh ++ [v] := fun x hx => (List.mem_insertionSort (· ≤ ·)).1 (hscc ▸ hx)
  let t : St := { s with stack := below, onStack, out := if kept then s.out ++ [scc] else s.out }
  have hout : ∀ c, c ∈ t.out ↔ c ∈ s.out ∨ IsCycle s.edges scc ∧ c = scc := by
    intro c
    show c ∈ (if kept then s.out ++ [scc] else s.out) ↔ _
    rw [← hcycle]
    cases kept <;> simp
  refine ⟨t, ?_, ?_, ⟨rfl, fun _ _ hw => hw, fun _ _ _ => rfl, le_rfl⟩, rfl, rfl, rfl⟩
  · have hindex : s.index[v]? = some (some i) := by
      rw [number] at hnumber
      exact Option.join_eq_some_iff.1 hnumber
    rw [leave, fetch_eq_ok_iff.2 hlow, Outcome.ok_bind, fetch_eq_ok_iff.2 hindex, Outcome.ok_bind,
      Outcome.expectSome, Outcome.ok_bind, if_pos rfl, hstack, hpop, Outcome.ok_bind]
    show (isKept s.edges ((fresh ++ [v]).insertionSort (· ≤ ·)) >>= _) = _
    rw [hscc, hkept]
    rfl
  · exact {
      edge_lt := h.edge_lt
      length_index := h.length_index
      length_low := h.length_low
      length_onStack := hlen.trans h.length_onStack
      onStack_iff := by
        intro x
        show onStack[x]? = some true ↔ x ∈ below
        rw [hget]
        by_cases hx : x ∈ fresh ++ [v]
        · rw [if_pos hx]
          simp [hbelow x hx]
        · rw [if_neg hx, h.onStack_iff, hstack, List.append_cons, List.mem_append]
          exact or_iff_right hx
      number_lt := h.number_lt
      descending := by
        have hdesc := h.descending
        rw [hstack, List.append_cons] at hdesc
        exact (List.pairwise_append.1 hdesc).2.1
      search := h.search.close rfl hstack hmet hcut
      out_nodup := by
        show (if kept then s.out ++ [scc] else s.out).Nodup
        split
        · refine List.nodup_append.2 ⟨h.out_nodup, List.nodup_singleton _, fun c hc d hd heq => ?_⟩
          rw [List.mem_singleton.1 hd] at heq
          have hvscc : v ∈ c := by
            rw [heq, ← hscc, List.mem_insertionSort]
            simp
          exact (((h.mem_out c).1 hc).2 v hvscc).2 (hmem v (by simp))
        · exact h.out_nodup
      mem_out := by
        intro c
        rw [hout]
        constructor
        · rintro (hc | ⟨hc, rfl⟩)
          · obtain ⟨hc, hdone⟩ := (h.mem_out c).1 hc
            refine ⟨hc, fun x hx => ⟨(hdone x hx).1, fun hx' => (hdone x hx).2 ?_⟩⟩
            rw [hstack]
            exact List.mem_append_right _ (List.mem_cons_of_mem v hx')
          · exact ⟨hc, fun x hx => ⟨h.number_of_mem (hmem x (hclosed x hx)), hbelow x (hclosed x hx)⟩⟩
        · rintro ⟨hc, hdone⟩
          by_cases hshare : ∃ x ∈ c, x ∈ fresh ++ [v]
          · obtain ⟨x, hx, hx'⟩ := hshare
            have heq : c = scc := by
              rw [← hscc]
              exact eq_of_component hc hx (h.ascending_scc hstack) (h.mem_scc_iff hstack hmet hcut hx')
            exact .inr ⟨heq ▸ hc, heq⟩
          · refine .inl ((h.mem_out c).2 ⟨hc, fun x hx => ⟨(hdone x hx).1, ?_⟩⟩)
            rw [hstack, List.append_cons, List.mem_append, not_or]
            exact ⟨fun hx' => hshare ⟨x, hx, hx'⟩, (hdone x hx).2⟩ }

end Close

-- A visit

/-- Where the visit of a vertex stands, begun at `s`: the edges to `seen` are followed, and `m` is the
low link they give. -/
structure Scanned (s : St) (path : List ℕ) (v : ℕ) (t : St) (seen : List ℕ) (m : ℕ) : Prop where
  sound : t.Sound (v :: path)
  later : Later s t
  unmet : t.unmet < s.unmet
  number : t.number v = some s.next
  le : m ≤ s.next
  /-- The low link is the number of an open vertex the visit reaches. -/
  reached : ∃ z ∈ t.stack, t.number z = some m ∧ Relation.ReflTransGen (Edge s.edges) v z
  seen : ∀ w ∈ seen, (∃ i, t.number w = some i) ∧ (w ∈ s.stack → ∀ i, s.number w = some i → m ≤ i)
  /-- No edge from what was met since leads below the low link. -/
  fresh : ∃ fresh, t.stack = fresh ++ v :: s.stack ∧
    ∀ x ∈ fresh, ∀ y ∈ s.stack, Edge s.edges x y → ∀ i, s.number y = some i → m ≤ i

/-- What the visit of a vertex, begun at `s`, leaves. -/
structure Visited (s : St) (path : List ℕ) (v : ℕ) (t : St) : Prop where
  sound : t.Sound path
  later : Later s t
  number : t.number v = some s.next
  /-- The component of the vertex is closed, or its low link is the number of a vertex that was open. -/
  low : ∃ fresh l, t.stack = fresh ++ s.stack ∧ t.low[v]? = some l ∧
    (l = s.next ∨ ∃ z ∈ s.stack, s.number z = some l ∧ Relation.ReflTransGen (Edge s.edges) v z) ∧
    ∀ x ∈ fresh, ∀ y ∈ s.stack, Edge s.edges x y → ∀ i, s.number y = some i → l ≤ i

section Scan

variable {m b : ℕ}

theorem Scanned.setLow (h : Scanned s path v t seen m) (hv : s.number v = none) (l : ℕ) :
    Scanned s path v { t with low := t.low.set v l } seen m where
  sound := h.sound.setLow v l
  later := by
    refine ⟨h.later.edges, h.later.number, fun w i hw => ?_, h.later.unmet⟩
    show (t.low.set v l)[w]? = _
    rw [List.getElem?_set_ne (Ne.symm (ne_of_number hv hw))]
    exact h.later.low w i hw
  unmet := h.unmet
  number := h.number
  le := h.le
  reached := h.reached
  seen := h.seen
  fresh := h.fresh

/-- The low link lowered to the number of an open vertex that is reached. -/
theorem Scanned.bound (h : Scanned s path v t seen m)
    (hb : b < m → ∃ z ∈ t.stack, t.number z = some b ∧ Relation.ReflTransGen (Edge s.edges) v z) :
    Scanned s path v t seen (min m b) where
  sound := h.sound
  later := h.later
  unmet := h.unmet
  number := h.number
  le := (min_le_left m b).trans h.le
  reached := by
    by_cases hlt : b < m
    · rw [min_eq_right hlt.le]
      exact hb hlt
    · rw [min_eq_left (Nat.le_of_not_lt hlt)]
      exact h.reached
  seen w hw := ⟨(h.seen w hw).1, fun hmem i hi => (min_le_left m b).trans ((h.seen w hw).2 hmem i hi)⟩
  fresh := by
    obtain ⟨fresh, hstack, hfresh⟩ := h.fresh
    exact ⟨fresh, hstack, fun x hx y hy he i hi => (min_le_left m b).trans (hfresh x hx y hy he i hi)⟩

theorem Scanned.add (h : Scanned s path v t seen m) (hmet : ∃ i, t.number w = some i)
    (hle : w ∈ s.stack → ∀ i, s.number w = some i → m ≤ i) : Scanned s path v t (seen ++ [w]) m :=
  { h with
    seen := by
      intro x hx
      obtain hx | hx := List.mem_append.1 hx
      · exact h.seen x hx
      · rw [List.mem_singleton.1 hx]
        exact ⟨hmet, hle⟩ }

theorem Scanned.lower (h : Scanned s path v t seen m) (hv : s.number v = none) {a : ℕ}
    (hlow : t.low[v]? = some a) (hm : m = min a b) :
    ∃ u, t.lower v b = .ok u ∧ Scanned s path v u seen m ∧ u.low[v]? = some m := by
  have hlt : v < t.low.length := (List.getElem?_eq_some_iff.1 hlow).1
  refine ⟨_, ?_, h.setLow hv m, ?_⟩
  · rw [St.lower, fetch_eq_ok_iff.2 hlow, Outcome.ok_bind, store_of_lt hlt, ← hm]
    rfl
  · show (t.low.set v m)[v]? = _
    rw [getElem?_set_eq hlt, if_pos rfl]

/-- The visit of a vertex met along an edge, within the visit of the edge's own. -/
theorem Scanned.visited (h : Scanned s path v t seen m) (he : Edge s.edges v w) (hw : t.number w = none) {u : St}
    (hu : Visited t (v :: path) w u) {l : ℕ} (hl : u.low[w]? = some l) :
    Scanned s path v u (seen ++ [w]) (min m l) := by
  obtain ⟨fresh, l', hstack, hlow, hcase, hfresh⟩ := hu.low
  obtain rfl : l' = l := Option.some.inj (hlow.symm.trans hl)
  rw [h.later.edges] at hcase hfresh
  have hbelow : s.next < t.next := h.sound.number_lt v _ h.number
  replace h := h.bound (b := l') fun hlt => by
    obtain heq | ⟨z, hz, hnumber, hr⟩ := hcase
    · have := h.le
      omega
    · exact ⟨z, hz, hnumber, .head he hr⟩
  have hopen : ∀ y ∈ s.stack, y ∈ t.stack := by
    obtain ⟨fresh', hstack', -⟩ := h.fresh
    intro y hy
    rw [hstack']
    exact List.mem_append_right _ (List.mem_cons_of_mem v hy)
  have hnotin : w ∉ s.stack := fun hmem => by
    obtain ⟨i, hi⟩ := h.sound.number_of_mem (hopen w hmem)
    rw [hw] at hi
    cases hi
  refine Scanned.add ?_ ⟨_, hu.number⟩ fun hmem => absurd hmem hnotin
  exact {
    sound := hu.sound
    later := h.later.trans hu.later
    unmet := hu.later.unmet.trans_lt h.unmet
    number := hu.later.number _ _ h.number
    le := h.le
    reached := by
      obtain ⟨z, hz, hnumber, hr⟩ := h.reached
      exact ⟨z, hstack ▸ List.mem_append_right fresh hz, hu.later.number z _ hnumber, hr⟩
    seen := fun x hx => ⟨(h.seen x hx).1.imp fun i hi => hu.later.number x i hi, (h.seen x hx).2⟩
    fresh := by
      obtain ⟨fresh', hstack', hfresh'⟩ := h.fresh
      refine ⟨fresh ++ fresh', by rw [hstack, hstack', List.append_assoc], fun x hx y hy he i hi => ?_⟩
      obtain hx | hx := List.mem_append.1 hx
      · exact (min_le_right m l').trans (hfresh x hx y (hopen y hy) he i (h.later.number y i hi))
      · exact hfresh' x hx y hy he i hi }

theorem Scanned.follow (h : Scanned s path v t seen m) (hlow : t.low[v]? = some m) (hv : s.number v = none)
    (he : Edge s.edges v w) {visit : St → ℕ → Outcome Empty St}
    (hvisit : t.number w = none → ∃ u, visit t w = .ok u ∧ Visited t (v :: path) w u) :
    ∃ u m', follow visit v t w = .ok u ∧ Scanned s path v u (seen ++ [w]) m' ∧ u.low[v]? = some m' := by
  have hlt : w < t.edges.length := h.sound.edge_lt v w (h.later.edges.symm ▸ he)
  obtain ⟨number, hindex⟩ : ∃ number, t.index[w]? = some number :=
    ⟨_, List.getElem?_eq_getElem (h.sound.length_index.symm ▸ hlt)⟩
  obtain ⟨mark, hmark⟩ : ∃ mark, t.onStack[w]? = some mark :=
    ⟨_, List.getElem?_eq_getElem (h.sound.length_onStack.symm ▸ hlt)⟩
  rw [St.follow, fetch_eq_ok_iff.2 hindex, Outcome.ok_bind]
  cases number with
  | none =>
    have hnew : t.number w = none := by rw [St.number, hindex, Option.join_some]
    obtain ⟨u, hu, hvisited⟩ := hvisit hnew
    obtain ⟨fresh, l, -, hl, -⟩ := hvisited.low
    have hlow' : u.low[v]? = some m := (hvisited.later.low v _ h.number).trans hlow
    obtain ⟨u', hlower, hscan, hlow''⟩ := (h.visited he hnew hvisited hl).lower hv hlow' rfl
    refine ⟨u', _, ?_, hscan, hlow''⟩
    show (visit t w >>= fun u => fetch u.low w >>= fun lowW => u.lower v lowW) = _
    rw [hu, Outcome.ok_bind, fetch_eq_ok_iff.2 hl, Outcome.ok_bind, hlower]
  | some iw =>
    have hnumber : t.number w = some iw := by rw [St.number, hindex, Option.join_some]
    have hkept : ∀ i, s.number w = some i → i = iw := fun i hi =>
      Option.some.inj ((h.later.number w i hi).symm.trans hnumber)
    show ∃ u m', (fetch t.onStack w >>= fun mark => if mark then t.lower v iw else pure t) = .ok u ∧ _
    rw [fetch_eq_ok_iff.2 hmark, Outcome.ok_bind]
    cases mark with
    | true =>
      have hmem : w ∈ t.stack := (h.sound.onStack_iff w).1 hmark
      have hbound := h.bound (b := iw) fun _ => ⟨w, hmem, hnumber, .single he⟩
      have hadd := hbound.add ⟨iw, hnumber⟩ fun _ i hi => (min_le_right m iw).trans (hkept i hi).ge
      obtain ⟨u, hlower, hscan, hlow'⟩ := hadd.lower hv hlow rfl
      exact ⟨u, _, by rw [if_pos rfl, hlower], hscan, hlow'⟩
    | false =>
      -- its component is closed
      have hclosed : w ∉ s.stack := by
        intro hmem
        obtain ⟨fresh, hstack, -⟩ := h.fresh
        have hopen : w ∈ t.stack := by
          rw [hstack]
          exact List.mem_append_right _ (List.mem_cons_of_mem v hmem)
        rw [(h.sound.onStack_iff w).2 hopen] at hmark
        cases hmark
      exact ⟨t, m, rfl, h.add ⟨iw, hnumber⟩ fun hmem => absurd hmem hclosed, hlow⟩

theorem Scanned.leave (h : Scanned s path v t seen m) (hs : s.Sound path) (hlow : t.low[v]? = some m)
    (hseen : ∀ w, Edge s.edges v w → w ∈ seen) : ∃ u, t.leave v = .ok u ∧ Visited s path v u := by
  obtain ⟨fresh, hstack, hfresh⟩ := h.fresh
  have hmet : ∀ w, Edge t.edges v w → ∃ i, t.number w = some i := fun w he =>
    (h.seen w (hseen w (h.later.edges ▸ he))).1
  by_cases hroot : m = s.next
  · have hcut : ∀ x ∈ fresh ++ [v], ∀ y ∈ s.stack, ¬ Edge t.edges x y := by
      intro x hx y hy he
      rw [h.later.edges] at he
      obtain ⟨i, hi⟩ := hs.number_of_mem hy
      have hlt := hs.number_lt y i hi
      have hle : m ≤ i := by
        obtain hx | hx := List.mem_append.1 hx
        · exact hfresh x hx y hy he i hi
        · rw [List.mem_singleton.1 hx] at he
          exact (h.seen y (hseen y he)).2 hy i hi
      omega
    obtain ⟨u, hleave, hsound, hlater, hbelow, hnumber, hlowEq⟩ :=
      h.sound.leave_close hstack hmet hcut hlow (hroot ▸ h.number)
    refine ⟨u, hleave, hsound, h.later.trans hlater, hnumber ▸ h.number, [], m, hbelow, hlowEq ▸ hlow,
      .inl hroot, fun x hx => nomatch hx⟩
  · have hlt : m < s.next := lt_of_le_of_ne h.le hroot
    obtain ⟨z, hz, hnumber, hr⟩ := h.reached
    -- the vertex reached has a lower number than `v`, so it stands below it
    have hz : z ∈ s.stack := by
      have hdesc := h.sound.descending
      rw [hstack] at hz hdesc
      obtain hz | hz := List.mem_append.1 hz
      · have := (List.pairwise_append.1 hdesc).2.2 z hz v List.mem_cons_self _ _ hnumber h.number
        omega
      · obtain rfl | hz := List.mem_cons.1 hz
        · exact absurd (Option.some.inj (hnumber.symm.trans h.number)) hroot
        · exact hz
    have hindex : t.index[v]? = some (some s.next) := Option.join_eq_some_iff.1 h.number
    have hleave : t.leave v = .ok t := by
      rw [St.leave, fetch_eq_ok_iff.2 hlow, Outcome.ok_bind, fetch_eq_ok_iff.2 hindex, Outcome.ok_bind,
        Outcome.expectSome, Outcome.ok_bind, if_neg hroot]
      rfl
    have hsearch := h.sound.search.retire rfl hstack hmet hz (h.later.edges.symm ▸ hr)
    refine ⟨t, hleave, { h.sound with search := hsearch }, h.later, h.number, fresh ++ [v], m, ?_, hlow, .inr ?_, ?_⟩
    · rw [hstack, List.append_assoc, List.singleton_append]
    · obtain ⟨i, hi⟩ := hs.number_of_mem hz
      have heq : i = m := Option.some.inj ((h.later.number z i hi).symm.trans hnumber)
      exact ⟨z, hz, heq ▸ hi, hr⟩
    · intro x hx y hy he i hi
      obtain hx | hx := List.mem_append.1 hx
      · exact hfresh x hx y hy he i hi
      · rw [List.mem_singleton.1 hx] at he
        exact (h.seen y (hseen y he)).2 hy i hi

end Scan

end St

open St

variable {edges : List (List ℕ)} {c : List ℕ} {v : ℕ}

/-- The visit of a vertex not met, that every vertex under visit reaches. The bound is enough where
no fewer vertices are left to meet. -/
theorem visit_spec (fuel : ℕ) {s : St} {path : List ℕ} {v : ℕ} (h : s.Sound path) (hv : v < s.edges.length)
    (hnew : s.number v = none) (hreach : ∀ u ∈ path, Relation.ReflTransGen (Edge s.edges) u v)
    (hfuel : s.unmet ≤ fuel) : ∃ t, visit fuel s v = .ok t ∧ Visited s path v t := by
  induction fuel generalizing s path v with
  | zero =>
    have := h.unmet_entered_lt hv hnew
    omega
  | succ fuel ih =>
    have hstart : Scanned s path v (s.entered v) [] s.next := {
      sound := h.entered hv hnew hreach
      later := h.later_entered hv hnew
      unmet := h.unmet_entered_lt hv hnew
      number := h.number_entered_self hv
      le := le_rfl
      reached := ⟨v, List.mem_cons_self, h.number_entered_self hv, .refl⟩
      seen := fun w hw => nomatch hw
      fresh := ⟨[], rfl, fun x hx => nomatch hx⟩ }
    have hlow : (s.entered v).low[v]? = some s.next := by rw [h.low_entered hv, if_pos rfl]
    have hsuccs : s.edges[v]? = some s.edges[v] := List.getElem?_eq_getElem hv
    have hstep : ∀ seen t, ∀ w ∈ s.edges[v], (∃ m, Scanned s path v t seen m ∧ t.low[v]? = some m) →
        ∃ u, follow (visit fuel) v t w = .ok u ∧ ∃ m, Scanned s path v u (seen ++ [w]) m ∧ u.low[v]? = some m := by
      rintro seen t w hw ⟨m, hscan, hlow⟩
      have he : Edge s.edges v w := ⟨_, hsuccs, hw⟩
      have hedges := hscan.later.edges
      have hvisit : t.number w = none → ∃ u, visit fuel t w = .ok u ∧ Visited t (v :: path) w u := by
        intro hwnew
        apply ih hscan.sound (hscan.sound.edge_lt v w (hedges ▸ he)) hwnew
        · intro u hu
          rw [hedges]
          obtain rfl | hu := List.mem_cons.1 hu
          · exact .single he
          · exact (hreach u hu).tail he
        · have := hscan.unmet
          omega
      obtain ⟨u, m', hfollow, hu⟩ := hscan.follow hlow hnew he hvisit
      exact ⟨u, hfollow, m', hu⟩
    obtain ⟨t, hfold, m, hscan, hlow⟩ := Outcome.exists_foldlM_seen hstep ⟨_, hstart, hlow⟩
    obtain ⟨u, hleave, hvisited⟩ := hscan.leave h hlow fun w he => by
      obtain ⟨succs, hget, hw⟩ := he
      rw [hsuccs] at hget
      cases hget
      exact hw
    refine ⟨u, ?_, hvisited⟩
    have hentered : (s.entered v).edges = s.edges := rfl
    rw [visit, h.enter_eq hv, Outcome.ok_bind, hentered, fetch_eq_ok_iff.2 hsuccs, Outcome.ok_bind, hfold,
      Outcome.ok_bind, hleave]

-- The whole pass

theorem number_start (v : ℕ) : (start edges).number v = none := by
  show ((List.replicate edges.length none)[v]?).join = none
  rw [List.getElem?_replicate]
  split <;> rfl

theorem exists_edge_of_mutual {w : ℕ} (hne : w ≠ v) (h : Mutual (Edge edges) v w) : ∃ x, Edge edges v x := by
  obtain heq | ⟨x, he, -⟩ := Relation.ReflTransGen.cases_head h.1
  · exact absurd heq.symm hne
  · exact ⟨x, he⟩

/-- A cycle has another vertex beside a vertex, or an edge from that to itself. -/
theorem IsCycle.other_or_loop (hc : IsCycle edges c) (v : ℕ) : (∃ w ∈ c, w ≠ v) ∨ Edge edges v v := by
  by_cases hother : ∃ w ∈ c, w ≠ v
  · exact .inl hother
  · push Not at hother
    obtain hlen | ⟨x, hx, he⟩ := hc.nontrivial
    · have hsub : c.Subperm [v] := List.subperm_of_subset (hc.ascending.imp ne_of_lt) fun x hx => by
        rw [hother x hx]
        exact List.mem_singleton_self v
      exact absurd hsub.length_le (by simpa using hlen)
    · exact .inr (hother x hx ▸ he)

theorem IsCycle.exists_edge (hc : IsCycle edges c) (hv : v ∈ c) : ∃ w, Edge edges v w := by
  obtain ⟨w, hw, hne⟩ | he := hc.other_or_loop v
  · exact exists_edge_of_mutual hne ((hc.component v hv w).1 hw)
  · exact ⟨v, he⟩

theorem Edge.lt {w : ℕ} (h : Edge edges v w) : v < edges.length := by
  obtain ⟨succs, hsuccs, -⟩ := h
  exact (List.getElem?_eq_some_iff.1 hsuccs).1

theorem IsCycle.lt (hc : IsCycle edges c) (hv : v ∈ c) : v < edges.length :=
  (hc.exists_edge hv).elim fun _ he => he.lt

theorem IsCycle.ne_nil (hc : IsCycle edges c) : c ≠ [] := by
  rintro rfl
  obtain hlen | ⟨x, hx, -⟩ := hc.nontrivial
  · cases hlen
  · cases hx

/-- The component of a vertex is a cycle where it has another vertex, or the vertex an edge to itself. -/
theorem exists_isCycle_iff (h : ∀ v w, Edge edges v w → w < edges.length) (v : ℕ) : (∃ c, IsCycle edges c ∧ v ∈ c) ↔
    (∃ w, w ≠ v ∧ Mutual (Edge edges) v w) ∨ Edge edges v v := by
  constructor
  · rintro ⟨c, hc, hv⟩
    refine (hc.other_or_loop v).imp_left ?_
    rintro ⟨w, hw, hne⟩
    exact ⟨w, hne, (hc.component v hv w).1 hw⟩
  · intro hv
    classical
    have hedge : ∃ w, Edge edges v w := by
      obtain ⟨w, hne, hm⟩ | he := hv
      · exact exists_edge_of_mutual hne hm
      · exact ⟨v, he⟩
    have hlt : ∀ w, Mutual (Edge edges) v w → w < edges.length := by
      intro w hm
      obtain heq | ⟨x, -, he⟩ := Relation.ReflTransGen.cases_tail hm.1
      · rw [heq]
        exact hedge.elim fun _ he => he.lt
      · exact h x w he
    have hmem : ∀ w, w ∈ (List.range edges.length).filter (Mutual (Edge edges) v) ↔ Mutual (Edge edges) v w := by
      intro w
      rw [List.mem_filter, List.mem_range, decide_eq_true_iff]
      exact and_iff_right_of_imp (hlt w)
    refine ⟨(List.range edges.length).filter (Mutual (Edge edges) v), ⟨List.pairwise_lt_range.filter _, ?_, ?_⟩,
      (hmem v).2 (.refl v)⟩
    · intro x hx w
      have hvx := (hmem x).1 hx
      rw [hmem]
      exact ⟨hvx.symm.trans, hvx.trans⟩
    · obtain ⟨w, hne, hm⟩ | he := hv
      · left
        have hsub : [v, w].Subperm ((List.range edges.length).filter (Mutual (Edge edges) v)) := by
          apply List.subperm_of_subset
          · simpa using hne.symm
          · intro x hx
            obtain rfl | rfl := List.mem_pair.1 hx
            · exact (hmem x).2 (.refl x)
            · exact (hmem x).2 hm
        exact hsub.length_le
      · exact .inr ⟨v, (hmem v).2 (.refl v), he⟩

theorem sound_start (h : ∀ succs ∈ edges, ∀ w ∈ succs, w < edges.length) : (start edges).Sound [] where
  edge_lt := by
    rintro v w ⟨succs, hsuccs, hw⟩
    exact h succs (List.mem_of_getElem? hsuccs) w hw
  length_index := List.length_replicate ..
  length_low := List.length_replicate ..
  length_onStack := List.length_replicate ..
  onStack_iff v := by simp [start, List.getElem?_replicate]
  number_lt v i hi := by
    rw [number_start] at hi
    cases hi
  descending := List.Pairwise.nil
  search := by
    have heq : (start edges).search [] = ⟨fun _ => False, [], []⟩ := by
      rw [St.search]
      congr
      funext v
      simp [number_start]
    rw [heq]
    exact Components.Search.sound_start
  out_nodup := List.nodup_nil
  mem_out c := by
    refine ⟨fun hc => (nomatch hc), fun ⟨hc, hdone⟩ => ?_⟩
    obtain ⟨v, rest, rfl⟩ := List.exists_cons_of_ne_nil hc.ne_nil
    obtain ⟨i, hi⟩ := (hdone v List.mem_cons_self).1
    rw [number_start] at hi
    cases hi

/-- The pass over a graph ends with every vertex met and no component open. -/
theorem exists_pass (h : ∀ succs ∈ edges, ∀ w ∈ succs, w < edges.length) :
    ∃ st : St, tarjanNontrivialSccs edges = .ok (st.out.insertionSort (· ≤ ·)) ∧ st.Sound [] ∧
      st.edges = edges ∧ ∀ v < edges.length, st.Done v := by
  have hstep : ∀ seen (st : St), ∀ v ∈ List.range edges.length,
      (st.Sound [] ∧ Later (start edges) st ∧ ∀ w ∈ seen, ∃ i, st.number w = some i) →
      ∃ t, (do
        match ← fetch st.index v with
        | none => visit edges.length st v
        | some _ => return st) = .ok t ∧
        t.Sound [] ∧ Later (start edges) t ∧ ∀ w ∈ seen ++ [v], ∃ i, t.number w = some i := by
    rintro seen st v hv ⟨hsound, hlater, hmet⟩
    rw [List.mem_range] at hv
    have hedges : st.edges = edges := hlater.edges
    obtain ⟨number, hindex⟩ : ∃ number, st.index[v]? = some number :=
      ⟨_, List.getElem?_eq_getElem (by rw [hsound.length_index, hedges]; exact hv)⟩
    rw [fetch_eq_ok_iff.2 hindex, Outcome.ok_bind]
    cases number with
    | none =>
      have hnew : st.number v = none := by rw [number, hindex, Option.join_some]
      have hunmet : st.unmet ≤ edges.length := hlater.unmet.trans (by simp [unmet, start])
      obtain ⟨t, hvisit, hvisited⟩ := visit_spec edges.length hsound (hedges.symm ▸ hv) hnew
        (fun u hu => nomatch hu) hunmet
      refine ⟨t, hvisit, hvisited.sound, hlater.trans hvisited.later, fun w hw => ?_⟩
      obtain hw | hw := List.mem_append.1 hw
      · exact (hmet w hw).imp fun i hi => hvisited.later.number w i hi
      · exact ⟨_, List.mem_singleton.1 hw ▸ hvisited.number⟩
    | some i =>
      refine ⟨st, rfl, hsound, hlater, fun w hw => ?_⟩
      obtain hw | hw := List.mem_append.1 hw
      · exact hmet w hw
      · exact ⟨i, by rw [List.mem_singleton.1 hw, number, hindex, Option.join_some]⟩
  have hstart : (start edges).Sound [] ∧ Later (start edges) (start edges) ∧
      ∀ v ∈ ([] : List ℕ), ∃ i, (start edges).number v = some i :=
    ⟨sound_start h, Later.refl _, fun v hv => nomatch hv⟩
  obtain ⟨st, hfold, hsound, hlater, hmet⟩ := Outcome.exists_foldlM_seen hstep hstart
  refine ⟨st, ?_, hsound, hlater.edges, fun v hv => ⟨hmet v (by simpa using hv), ?_⟩⟩
  · rw [tarjanNontrivialSccs, hfold]
    rfl
  · have hstack : st.stack = [] := hsound.search.stack_eq_nil rfl
    rw [hstack]
    exact List.not_mem_nil

/-- The pass answers the cycles of a graph, each once, in ascending order and each in ascending
order, and a vertex stands in one exactly where its component has another vertex or it has an
edge to itself. -/
theorem tarjanNontrivialSccs_exact (edges : List (List ℕ)) (h : ∀ succs ∈ edges, ∀ w ∈ succs, w < edges.length) :
    ∃ out, tarjanNontrivialSccs edges = .ok out ∧ out.Pairwise (· < ·) ∧ (∀ c, c ∈ out ↔ IsCycle edges c) ∧
      ∀ v, (∃ c ∈ out, v ∈ c) ↔ (∃ w, w ≠ v ∧ Mutual (Edge edges) v w) ∨ Edge edges v v := by
  obtain ⟨st, hpass, hsound, rfl, hdone⟩ := exists_pass h
  have hmem : ∀ c, c ∈ st.out.insertionSort (· ≤ ·) ↔ IsCycle st.edges c := by
    intro c
    rw [List.mem_insertionSort, hsound.mem_out]
    exact and_iff_left_of_imp fun hc v hv => hdone v (hc.lt hv)
  refine ⟨_, hpass, ?_, hmem, fun v => ?_⟩
  · have hsorted := List.pairwise_insertionSort (· ≤ ·) st.out
    have hnodup : (st.out.insertionSort (· ≤ ·)).Nodup :=
      (List.Perm.nodup_iff (List.perm_insertionSort _ _)).2 hsound.out_nodup
    exact (hsorted.and hnodup).imp fun hle => lt_of_le_of_ne hle.1 hle.2
  · rw [← exists_isCycle_iff hsound.edge_lt]
    exact exists_congr fun c => and_congr_left' (hmem c)

theorem tarjanNontrivialSccs_exact_selfLoop :
    tarjanNontrivialSccs [[1, 1], [2], [0, 3], [3], [2]] = .ok [[0, 1, 2], [3]] ∧
      ∃ out, tarjanNontrivialSccs [[1, 1], [2], [0, 3], [3], [2]] = .ok out ∧
        ∀ c, c ∈ out ↔ IsCycle [[1, 1], [2], [0, 3], [3], [2]] c := by
  obtain ⟨out, hout, -, hmem, -⟩ := tarjanNontrivialSccs_exact [[1, 1], [2], [0, 3], [3], [2]] (by decide)
  exact ⟨by decide, out, hout, hmem⟩

end Tarjan

end Coordination
