import Skep.Library.OrdSet
import Skep.Library.Outcome

/-!
# Walks over a graph of ordered successors

A graph given by each vertex's set of successors. One walk follows the only successor
from vertex to vertex, until there is none, there are several, or it comes upon a vertex
it has met. The other meets every vertex there is a path to. Both turn as often as there
are vertices, so a bound on these is fuel enough.
-/

namespace Reach

variable {κ : Type} [LinearOrder κ] (succs : κ → OrdSet κ)

def Step (a b : κ) : Prop := b ∈ succs a

/-- The one successor of a vertex. -/
def Sole (a b : κ) : Prop := (succs a).elems = [b]

def IsSink (a : κ) : Prop := ∀ b, ¬ Step succs a b

/-- A vertex with several successors. -/
def IsBranch (a : κ) : Prop := ∃ b c, b ≠ c ∧ Step succs a b ∧ Step succs a c

/-- The walk along the only successors: the vertices met, and the sink it halted at. -/
def followFrom {ε : Type} : ℕ → OrdSet κ → List κ → κ → Outcome ε (List κ × Option κ)
  | 0, _, _, _ => .fault
  | fuel + 1, visited, path, node =>
      match (succs node).elems with
      | [] => return (path, some node)
      | [next] =>
          if next ∈ visited then return (path, none)
          else followFrom fuel (visited.insert next) (path ++ [next]) next
      | _ :: _ :: _ => return (path, none)

def follow {ε : Type} (fuel : ℕ) (x : κ) : Outcome ε (List κ × Option κ) :=
  followFrom succs fuel (OrdSet.ofList [x]) [x] x

/-- Take the successors a walk has not met. -/
def expand (acc : OrdSet κ × List κ) (succ : κ) : OrdSet κ × List κ :=
  if succ ∈ acc.1 then acc else (acc.1.insert succ, succ :: acc.2)

/-- The walk over everything reachable, the vertices to expand on a stack. -/
def reachFrom {ε : Type} : ℕ → OrdSet κ → List κ → Outcome ε (OrdSet κ)
  | _, met, [] => return met
  | 0, _, _ :: _ => .fault
  | fuel + 1, met, x :: stack =>
      let (met, stack) := (succs x).elems.foldl expand (met, stack)
      reachFrom fuel met stack

def reach {ε : Type} (fuel : ℕ) (x : κ) : Outcome ε (OrdSet κ) :=
  reachFrom succs fuel (OrdSet.ofList [x]) [x]

variable {succs}

theorem isSink_iff {a : κ} : IsSink succs a ↔ (succs a).elems = [] := by
  rw [List.eq_nil_iff_forall_not_mem]
  rfl

theorem Sole.step {a b : κ} (h : Sole succs a b) : Step succs a b := by
  show b ∈ (succs a).elems
  rw [h]
  exact List.mem_singleton_self b

theorem Sole.eq_of_step {a b c : κ} (h : Sole succs a b) (hc : Step succs a c) : c = b := by
  have hc : c ∈ (succs a).elems := hc
  rw [h] at hc
  exact List.mem_singleton.1 hc

theorem sole_iff {a b : κ} : Sole succs a b ↔ Step succs a b ∧ ∀ c, Step succs a c → c = b := by
  constructor
  · exact fun h => ⟨h.step, fun c hc => h.eq_of_step hc⟩
  · rintro ⟨hb, hall⟩
    exact OrdSet.eq_of_ascending (succs a).ascending (List.pairwise_singleton _ b) fun c =>
      ⟨fun hc => List.mem_singleton.2 (hall c hc), fun hc => List.mem_singleton.1 hc ▸ hb⟩

theorem reachable_of_follows {x a : κ} (h : Relation.ReflTransGen (Sole succs) x a) :
    Relation.ReflTransGen (Step succs) x a := by
  induction h with
  | refl => exact .refl
  | tail _ hstep ih => exact ih.tail hstep.step

theorem isBranch_of_elems {a b c : κ} {rest : List κ} (h : (succs a).elems = b :: c :: rest) :
    IsBranch succs a := by
  have hasc := (succs a).ascending
  rw [h] at hasc
  have hmem : ∀ x ∈ b :: c :: rest, Step succs a x := fun x hx => by
    show x ∈ (succs a).elems
    rw [h]
    exact hx
  exact ⟨b, c, (List.rel_of_pairwise_cons hasc List.mem_cons_self).ne, hmem b (by simp), hmem c (by simp)⟩

theorem IsBranch.not_sole {a b : κ} (h : IsBranch succs a) : ¬ Sole succs a b := by
  rintro hsole
  obtain ⟨c, d, hne, hc, hd⟩ := h
  exact hne ((hsole.eq_of_step hc).trans (hsole.eq_of_step hd).symm)

theorem IsBranch.not_isSink {a : κ} (h : IsBranch succs a) : ¬ IsSink succs a := by
  obtain ⟨b, -, -, hb, -⟩ := h
  exact fun hsink => hsink b hb

/-- Two walks along the only successors from one vertex lie on one. -/
theorem follows_total {x a b : κ} (ha : Relation.ReflTransGen (Sole succs) x a)
    (hb : Relation.ReflTransGen (Sole succs) x b) :
    Relation.ReflTransGen (Sole succs) a b ∨ Relation.ReflTransGen (Sole succs) b a := by
  refine Relation.ReflTransGen.total_of_right_unique ?_ ha hb
  exact fun x y z hy hz => hz.eq_of_step hy.step

/-- Only one vertex in reach along the only successors has none. -/
theorem eq_of_isSink {x s a : κ} (hs : Relation.ReflTransGen (Sole succs) x s) (hsink : IsSink succs s)
    (ha : Relation.ReflTransGen (Step succs) x a) (hasink : IsSink succs a) : a = s := by
  induction hs using Relation.ReflTransGen.head_induction_on with
  | refl =>
    rcases ha.cases_head with rfl | ⟨b, hb, -⟩
    · rfl
    · exact absurd hb (hsink b)
  | head hstep _ ih =>
    rcases ha.cases_head with rfl | ⟨b, hb, hrest⟩
    · exact absurd hstep.step (hasink _)
    · rw [hstep.eq_of_step hb] at hrest
      exact ih hrest

/-- Where the walk along the only successors halts: at a sink, at a branch, or before a vertex it
has met. -/
inductive Halts (succs : κ → OrdSet κ) (x : κ) : Option κ → Prop
  | sink {s : κ} (hs : Relation.ReflTransGen (Sole succs) x s) (hsink : IsSink succs s) : Halts succs x (some s)
  | branch {b : κ} (hb : Relation.ReflTransGen (Sole succs) x b) (hbranch : IsBranch succs b) :
      Halts succs x none
  | cycle {c : κ} (hc : Relation.ReflTransGen (Sole succs) x c) (hcycle : Relation.TransGen (Sole succs) c c) :
      Halts succs x none

/-- A cycle along the only successors holds every vertex it reaches. -/
theorem cycle_of_follows {c a : κ} (hcycle : Relation.TransGen (Sole succs) c c)
    (ha : Relation.ReflTransGen (Sole succs) c a) : Relation.TransGen (Sole succs) a a := by
  induction ha with
  | refl => exact hcycle
  | tail _ hstep ih =>
    obtain ⟨b, hb, hback⟩ := Relation.TransGen.head'_iff.1 ih
    rw [hstep.eq_of_step hb.step] at hback
    exact Relation.TransGen.tail' hback hstep

/-- No sink is in reach of a cycle along the only successors. -/
theorem not_isSink_of_cycle {c a : κ} (hcycle : Relation.TransGen (Sole succs) c c)
    (ha : Relation.ReflTransGen (Sole succs) c a) : ¬ IsSink succs a := by
  obtain ⟨b, hb, -⟩ := Relation.TransGen.head'_iff.1 (cycle_of_follows hcycle ha)
  exact fun hsink => hsink b hb.step

theorem Halts.eq_some_iff {x s : κ} {stop : Option κ} (h : Halts succs x stop) :
    stop = some s ↔ Relation.ReflTransGen (Sole succs) x s ∧ IsSink succs s := by
  constructor
  · rintro rfl
    cases h with
    | sink hs hsink => exact ⟨hs, hsink⟩
  · rintro ⟨hs, hsink⟩
    cases h with
    | sink hs' hsink' => rw [eq_of_isSink hs hsink (reachable_of_follows hs') hsink']
    | branch hb hbranch =>
      exfalso
      rcases follows_total hs hb with hsb | hbs
      · rcases hsb.cases_head with rfl | ⟨t, ht, -⟩
        · exact hbranch.not_isSink hsink
        · exact hsink t ht.step
      · rcases hbs.cases_head with rfl | ⟨t, ht, -⟩
        · exact hbranch.not_isSink hsink
        · exact hbranch.not_sole ht
    | cycle hc hcycle =>
      exfalso
      rcases follows_total hs hc with hsc | hcs
      · rcases hsc.cases_head with rfl | ⟨t, ht, -⟩
        · exact not_isSink_of_cycle hcycle .refl hsink
        · exact hsink t ht.step
      · exact not_isSink_of_cycle hcycle hcs hsink

theorem Halts.eq_none_iff {x : κ} {stop : Option κ} (h : Halts succs x stop) :
    stop = none ↔ (∃ b, Relation.ReflTransGen (Sole succs) x b ∧ IsBranch succs b) ∨
      ∃ c, Relation.ReflTransGen (Sole succs) x c ∧ Relation.TransGen (Sole succs) c c := by
  constructor
  · rintro rfl
    cases h with
    | branch hb hbranch => exact .inl ⟨_, hb, hbranch⟩
    | cycle hc hcycle => exact .inr ⟨_, hc, hcycle⟩
  · intro hnone
    cases hstop : stop with
    | none => rfl
    | some s =>
      have hother : Halts succs x none := by
        rcases hnone with ⟨b, hb, hbranch⟩ | ⟨c, hc, hcycle⟩
        · exact .branch hb hbranch
        · exact .cycle hc hcycle
      exact absurd (hother.eq_some_iff.2 (h.eq_some_iff.1 hstop)) (by simp)

/-- What the walk along the only successors holds: the path to where it stands. -/
structure OnPath (succs : κ → OrdSet κ) (x : κ) (visited : OrdSet κ) (path : List κ) (node : κ) : Prop where
  mem_visited : ∀ a, a ∈ visited ↔ a ∈ path
  nodup : path.Nodup
  head : path.head? = some x
  last : path.getLast? = some node
  chain : path.IsChain (Sole succs)
  reach : ∀ a ∈ path, Relation.ReflTransGen (Sole succs) x a ∧ Relation.ReflTransGen (Sole succs) a node

theorem OnPath.follows {x node : κ} {visited : OrdSet κ} {path : List κ}
    (h : OnPath succs x visited path node) : Relation.ReflTransGen (Sole succs) x node :=
  (h.reach node (List.mem_of_getLast? h.last)).1

theorem OnPath.next {x node next : κ} {visited : OrdSet κ} {path : List κ}
    (h : OnPath succs x visited path node) (hnext : Sole succs node next) (hnew : next ∉ visited) :
    OnPath succs x (visited.insert next) (path ++ [next]) next := by
  have hnode := h.follows
  refine ⟨fun a => ?_, ?_, ?_, by simp, ?_, fun a ha => ?_⟩
  · rw [OrdSet.mem_insert, h.mem_visited, List.mem_append, List.mem_singleton]
    exact or_comm
  · rw [List.nodup_append]
    refine ⟨h.nodup, List.nodup_singleton _, fun a ha b hb => ?_⟩
    rw [List.mem_singleton] at hb
    rintro rfl
    exact hnew ((h.mem_visited _).2 (hb ▸ ha))
  · rw [List.head?_append, h.head]
    rfl
  · rw [List.isChain_append]
    refine ⟨h.chain, List.isChain_singleton _, fun a ha b hb => ?_⟩
    rw [h.last] at ha
    cases ha
    cases hb
    exact hnext
  · rcases List.mem_append.1 ha with ha | ha
    · exact ⟨(h.reach a ha).1, (h.reach a ha).2.tail hnext⟩
    · rw [List.mem_singleton.1 ha]
      exact ⟨hnode.tail hnext, .refl⟩

/-- What a halted walk along the only successors answers: the path, and where it stands at its end. -/
structure Followed (succs : κ → OrdSet κ) (x : κ) (path : List κ) (stop : Option κ) : Prop where
  halts : Halts succs x stop
  nodup : path.Nodup
  head : path.head? = some x
  chain : path.IsChain (Sole succs)
  reach : ∀ a ∈ path, Relation.ReflTransGen (Sole succs) x a
  last : ∃ node, path.getLast? = some node ∧ (stop = some node ∨
    stop = none ∧ (IsBranch succs node ∨ ∃ next ∈ path, Sole succs node next))

theorem OnPath.followed {x node : κ} {visited : OrdSet κ} {path : List κ} {stop : Option κ}
    (h : OnPath succs x visited path node) (hhalts : Halts succs x stop)
    (hstop : stop = some node ∨
      stop = none ∧ (IsBranch succs node ∨ ∃ next ∈ path, Sole succs node next)) :
    Followed succs x path stop :=
  ⟨hhalts, h.nodup, h.head, h.chain, fun a ha => (h.reach a ha).1, node, h.last, hstop⟩

variable {within : List κ} (hwithin : ∀ a b, Step succs a b → b ∈ within)

include hwithin

/-- The vertices of a walk are where it began and successors. -/
theorem length_le_of_reach {x : κ} {l : List κ} (hl : l.Nodup)
    (hreach : ∀ a ∈ l, Relation.ReflTransGen (Step succs) x a) : l.length ≤ within.length + 1 := by
  have hsub : l ⊆ x :: within := by
    intro a ha
    rcases (hreach a ha).cases_tail with rfl | ⟨b, -, hb⟩
    · exact List.mem_cons_self
    · exact List.mem_cons_of_mem _ (hwithin b a hb)
  exact (List.subperm_of_subset hl hsub).length_le

theorem followFrom_spec {ε : Type} {x : κ} (fuel : ℕ) {visited : OrdSet κ} {path : List κ} {node : κ}
    (h : OnPath succs x visited path node) (hfuel : within.length + 2 ≤ fuel + path.length) :
    ∃ out stop, (followFrom succs fuel visited path node : Outcome ε (List κ × Option κ)) =
      .ok (out, stop) ∧ Followed succs x out stop := by
  induction fuel generalizing visited path node with
  | zero =>
    have hlen := length_le_of_reach hwithin h.nodup fun a ha =>
      reachable_of_follows (h.reach a ha).1
    omega
  | succ fuel ih =>
    rw [followFrom]
    split
    · next helems =>
      have hsink := isSink_iff.2 helems
      exact ⟨path, some node, rfl, h.followed (.sink h.follows hsink) (.inl rfl)⟩
    · next next helems =>
      by_cases hmet : next ∈ visited
      · rw [if_pos hmet]
        have hnext := (h.mem_visited next).1 hmet
        obtain ⟨hx, hback⟩ := h.reach next hnext
        have hcycle : Relation.TransGen (Sole succs) next next := Relation.TransGen.tail' hback helems
        exact ⟨path, none, rfl, h.followed (.cycle hx hcycle) (.inr ⟨rfl, .inr ⟨next, hnext, helems⟩⟩)⟩
      · rw [if_neg hmet]
        refine ih (h.next helems hmet) ?_
        rw [List.length_append, List.length_singleton]
        omega
    · next helems =>
      have hbranch := isBranch_of_elems helems
      exact ⟨path, none, rfl, h.followed (.branch h.follows hbranch) (.inr ⟨rfl, .inl hbranch⟩)⟩

/-- The walk along the only successors halts, and how. -/
theorem follow_spec {ε : Type} (x : κ) : ∃ path stop,
    (follow succs (within.length + 1) x : Outcome ε (List κ × Option κ)) = .ok (path, stop) ∧
      Followed succs x path stop := by
  have hstart : OnPath succs x (OrdSet.ofList [x]) [x] x := by
    refine ⟨fun a => OrdSet.mem_ofList, List.nodup_singleton x, rfl, rfl, List.isChain_singleton x,
      fun a ha => ?_⟩
    rw [List.mem_singleton.1 ha]
    exact ⟨.refl, .refl⟩
  exact followFrom_spec hwithin _ hstart (by simp)

omit hwithin

/-- Expanding a vertex puts the successors not met yet on the stack, and in the set. -/
theorem foldl_expand (l : List κ) (met : OrdSet κ) (stack : List κ) : ∃ fresh,
    (l.foldl expand (met, stack)).2 = fresh ++ stack ∧ fresh.Nodup ∧ (∀ b ∈ fresh, b ∈ l ∧ b ∉ met) ∧
      ∀ b, b ∈ (l.foldl expand (met, stack)).1 ↔ b ∈ met ∨ b ∈ fresh := by
  induction l generalizing met stack with
  | nil => exact ⟨[], rfl, List.nodup_nil, (fun b h => nomatch h), fun b => by simp⟩
  | cons c l ih =>
    rw [List.foldl_cons]
    by_cases hc : c ∈ met
    · rw [expand, if_pos hc]
      obtain ⟨fresh, hstack, hnodup, hfresh, hmem⟩ := ih met stack
      exact ⟨fresh, hstack, hnodup, fun b hb => ⟨List.mem_cons_of_mem _ (hfresh b hb).1, (hfresh b hb).2⟩, hmem⟩
    · rw [expand, if_neg hc]
      obtain ⟨fresh, hstack, hnodup, hfresh, hmem⟩ := ih (met.insert c) (c :: stack)
      refine ⟨fresh ++ [c], by rw [hstack, List.append_assoc]; rfl, ?_, fun b hb => ?_, fun b => ?_⟩
      · rw [List.nodup_append]
        refine ⟨hnodup, List.nodup_singleton c, fun a ha b hb => ?_⟩
        rw [List.mem_singleton.1 hb]
        rintro rfl
        exact (hfresh a ha).2 (OrdSet.mem_insert.2 (.inl rfl))
      · rcases List.mem_append.1 hb with hb | hb
        · exact ⟨List.mem_cons_of_mem _ (hfresh b hb).1,
            fun h => (hfresh b hb).2 (OrdSet.mem_insert.2 (.inr h))⟩
        · rw [List.mem_singleton.1 hb]
          exact ⟨List.mem_cons_self, hc⟩
      · rw [hmem, OrdSet.mem_insert, List.mem_append, List.mem_singleton]
        tauto

theorem mem_foldl_expand {l : List κ} {met : OrdSet κ} {stack : List κ} {b : κ} (hb : b ∈ l) :
    b ∈ (l.foldl expand (met, stack)).1 := by
  induction l generalizing met stack with
  | nil => cases hb
  | cons c l ih =>
    rw [List.foldl_cons]
    rcases List.mem_cons.1 hb with rfl | hb
    · obtain ⟨fresh, -, -, -, hmem⟩ := foldl_expand l (expand (met, stack) b).1 (expand (met, stack) b).2
      refine (hmem b).2 (.inl ?_)
      by_cases hmet : b ∈ met
      · rwa [expand, if_pos hmet]
      · rw [expand, if_neg hmet]
        exact OrdSet.mem_insert.2 (.inl rfl)
    · exact ih hb

/-- What the walk over everything reachable holds: the vertices expanded, all of whose successors
are met, and those on the stack. -/
structure Explored (succs : κ → OrdSet κ) (x : κ) (met : OrdSet κ) (stack done : List κ) : Prop where
  mem_met : ∀ a, a ∈ met ↔ a ∈ done ++ stack
  nodup : (done ++ stack).Nodup
  closed : ∀ a ∈ done, ∀ b, Step succs a b → b ∈ met
  reachable : ∀ a ∈ met, Relation.ReflTransGen (Step succs) x a
  start : x ∈ met

theorem Explored.expand {x y : κ} {met : OrdSet κ} {stack done : List κ}
    (h : Explored succs x met (y :: stack) done) :
    Explored succs x ((succs y).elems.foldl Reach.expand (met, stack)).1
      ((succs y).elems.foldl Reach.expand (met, stack)).2 (done ++ [y]) := by
  obtain ⟨fresh, hstack, hfnodup, hfresh, hmem⟩ := foldl_expand (succs y).elems met stack
  have hy : y ∈ met := (h.mem_met y).2 (List.mem_append.2 (.inr List.mem_cons_self))
  have hperm : (done ++ [y] ++ (fresh ++ stack)).Perm ((done ++ y :: stack) ++ fresh) := by
    rw [List.append_assoc, List.append_assoc, List.perm_append_left_iff, List.singleton_append,
      List.cons_append]
    exact (List.perm_append_comm).cons y
  refine ⟨fun a => ?_, ?_, fun a ha b hb => ?_, fun a ha => ?_, (hmem x).2 (.inl h.start)⟩
  · rw [hmem, hstack, hperm.mem_iff, List.mem_append, h.mem_met]
  · rw [hstack, hperm.nodup_iff, List.nodup_append]
    refine ⟨h.nodup, hfnodup, fun a ha b hb => ?_⟩
    rintro rfl
    exact (hfresh a hb).2 ((h.mem_met a).2 ha)
  · rcases List.mem_append.1 ha with ha | ha
    · exact (hmem b).2 (.inl (h.closed a ha b hb))
    · rw [List.mem_singleton.1 ha] at hb
      exact mem_foldl_expand hb
  · rcases (hmem a).1 ha with ha | ha
    · exact h.reachable a ha
    · exact (h.reachable y hy).tail (hfresh a ha).1

/-- With nothing to expand, what is met is what is reachable. -/
theorem Explored.mem_met_iff {x : κ} {met : OrdSet κ} {done : List κ} (h : Explored succs x met [] done)
    (a : κ) : a ∈ met ↔ Relation.ReflTransGen (Step succs) x a := by
  refine ⟨h.reachable a, fun ha => ?_⟩
  induction ha with
  | refl => exact h.start
  | tail _ hstep ih => exact h.closed _ (by simpa using (h.mem_met _).1 ih) _ hstep

include hwithin

theorem reachFrom_spec {ε : Type} {x : κ} (fuel : ℕ) {met : OrdSet κ} {stack done : List κ}
    (h : Explored succs x met stack done) (hfuel : within.length + 1 ≤ fuel + done.length) :
    ∃ all, (reachFrom succs fuel met stack : Outcome ε (OrdSet κ)) = .ok all ∧
      ∀ a, a ∈ all ↔ Relation.ReflTransGen (Step succs) x a := by
  induction fuel generalizing met stack done with
  | zero =>
    cases stack with
    | nil =>
      exact ⟨met, rfl, h.mem_met_iff⟩
    | cons y stack =>
      exfalso
      have hlen := length_le_of_reach hwithin h.nodup fun a ha => h.reachable a ((h.mem_met a).2 ha)
      rw [List.length_append, List.length_cons] at hlen
      omega
  | succ fuel ih =>
    cases stack with
    | nil =>
      exact ⟨met, by rw [reachFrom]; rfl, h.mem_met_iff⟩
    | cons y stack =>
      rw [reachFrom]
      refine ih h.expand ?_
      rw [List.length_append, List.length_singleton]
      omega

/-- The walk over everything reachable meets it, and nothing else. -/
theorem reach_spec {ε : Type} (x : κ) : ∃ all,
    (reach succs (within.length + 1) x : Outcome ε (OrdSet κ)) = .ok all ∧
      ∀ a, a ∈ all ↔ Relation.ReflTransGen (Step succs) x a := by
  have hstart : Explored succs x (OrdSet.ofList [x]) [x] [] := by
    refine ⟨fun a => OrdSet.mem_ofList, List.nodup_singleton x, (fun a h => nomatch h), fun a ha => ?_,
      OrdSet.mem_ofList.2 (List.mem_singleton_self x)⟩
    rw [List.mem_singleton.1 (OrdSet.mem_ofList.1 ha)]
  exact reachFrom_spec hwithin _ hstart (by simp)

end Reach
