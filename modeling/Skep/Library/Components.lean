import Mathlib.Data.List.Nodup
import Mathlib.Logic.Relation
import Mathlib.Tactic

/-!
# Strong components by one depth-first search

A search under way has met some vertices. Those whose component is still open stand on a
stack, the latest first, and those under visit are a path among them. A vertex on the stack
reaches all that stand above it, and some vertex of the path from there down. So once no edge
leads from a vertex of the path, or from above it, to below it, what stands from it up is its
component.
-/

namespace Components

variable {κ : Type}

/-- Two suffixes of a list without repetition: the one that begins at an element of the other
is a suffix of it. -/
theorem suffix_of_mem {l r below : List κ} {v : κ} (hl : l.Nodup) (hv : v :: below <:+ l) (hr : r <:+ l)
    (hmem : v ∈ r) : v :: below <:+ r := by
  obtain h | h := List.suffix_or_suffix_of_suffix hv hr
  · exact h
  · obtain heq | hlt := h.sublist.length_le.eq_or_lt
    · exact (h.eq_of_length heq) ▸ List.suffix_rfl
    · have hbelow : r <:+ below := by
        obtain ⟨front, hfront⟩ := h
        cases front with
        | nil => exact absurd (congrArg List.length hfront) (by simpa using hlt.ne)
        | cons x front =>
          obtain ⟨-, htail⟩ := List.cons.inj hfront
          exact ⟨front, htail⟩
      exact absurd (hbelow.subset hmem) (List.nodup_cons.1 (hl.sublist hv.sublist)).1

variable (edge : κ → κ → Prop)

/-- Each of two vertices is reached from the other. -/
def Mutual (v w : κ) : Prop := Relation.ReflTransGen edge v w ∧ Relation.ReflTransGen edge w v

variable {edge}

theorem Mutual.refl (v : κ) : Mutual edge v v := ⟨.refl, .refl⟩

theorem Mutual.symm {v w : κ} (h : Mutual edge v w) : Mutual edge w v := ⟨h.2, h.1⟩

theorem Mutual.trans {u v w : κ} (h : Mutual edge u v) (h' : Mutual edge v w) : Mutual edge u w :=
  ⟨h.1.trans h'.1, h'.2.trans h.2⟩

/-- A search under way: the vertices met, those whose component is open, and those under visit. -/
structure Search (κ : Type) where
  met : κ → Prop
  /-- The latest first. -/
  stack : List κ
  /-- The innermost first. -/
  path : List κ

namespace Search

/-- A vertex is met and its component is closed. -/
def Done (s : Search κ) (v : κ) : Prop := s.met v ∧ v ∉ s.stack

/-- The invariant. -/
structure Sound (edge : κ → κ → Prop) (s : Search κ) : Prop where
  met_of_mem : ∀ v ∈ s.stack, s.met v
  nodup : s.stack.Nodup
  path_sublist : s.path.Sublist s.stack
  /-- No edge leads from a vertex whose visit ended to one not met. -/
  explored : ∀ v w, s.met v → v ∉ s.path → edge v w → s.met w
  /-- No edge leads from a closed component to an open one. -/
  closed : ∀ v w, s.Done v → edge v w → w ∉ s.stack
  reaches_above : s.stack.Pairwise fun w v => Relation.ReflTransGen edge v w
  reaches_path : ∀ above w below, s.stack = above ++ w :: below →
    ∃ v ∈ s.path, v ∈ w :: below ∧ Relation.ReflTransGen edge w v

theorem sound_start : Sound edge ⟨fun _ => False, [], []⟩ where
  met_of_mem _ h := nomatch h
  nodup := List.nodup_nil
  path_sublist := List.Sublist.slnil
  explored _ _ h := h.elim
  closed _ _ h := h.1.elim
  reaches_above := List.Pairwise.nil
  reaches_path above _ _ h := absurd h (by simp)

namespace Sound

variable {s : Search κ} {v z : κ} {path above below : List κ}

theorem done_of_edge (h : s.Sound edge) {w : κ} (hv : s.Done v) (he : edge v w) : s.Done w :=
  ⟨h.explored v w hv.1 (fun hp => hv.2 (h.path_sublist.subset hp)) he, h.closed v w hv he⟩

theorem done_of_reach (h : s.Sound edge) {w : κ} (hv : s.Done v) (hr : Relation.ReflTransGen edge v w) :
    s.Done w := by
  induction hr with
  | refl => exact hv
  | tail _ he ih => exact h.done_of_edge ih he

theorem reach_path_of_mem (h : s.Sound edge) {w : κ} (hw : w ∈ s.stack) :
    ∃ v ∈ s.path, Relation.ReflTransGen edge w v := by
  obtain ⟨above, below, hstack⟩ := List.append_of_mem hw
  obtain ⟨v, hv, -, hr⟩ := h.reaches_path above w below hstack
  exact ⟨v, hv, hr⟩

/-- Where no visit is under way no component is open. -/
theorem stack_eq_nil (h : s.Sound edge) (hpath : s.path = []) : s.stack = [] := by
  refine List.eq_nil_iff_forall_not_mem.2 fun w hw => ?_
  obtain ⟨v, hv, -⟩ := h.reach_path_of_mem hw
  rw [hpath] at hv
  cases hv

/-- A vertex not met, that every vertex under visit reaches, is met and its visit begins. -/
theorem enter (h : s.Sound edge) (hv : ¬ s.met v) (hreach : ∀ u ∈ s.path, Relation.ReflTransGen edge u v) :
    Sound edge ⟨fun w => w = v ∨ s.met w, v :: s.stack, v :: s.path⟩ where
  met_of_mem w hw := (List.mem_cons.1 hw).imp id (h.met_of_mem w)
  nodup := List.nodup_cons.2 ⟨fun hmem => hv (h.met_of_mem v hmem), h.nodup⟩
  path_sublist := h.path_sublist.cons_cons v
  explored u w hu hpath he := by
    obtain ⟨hne, hpath⟩ := not_or.1 (mt List.mem_cons.2 hpath)
    exact .inr (h.explored u w (hu.resolve_left hne) hpath he)
  closed u w hu he := by
    obtain ⟨hne, hstack⟩ := not_or.1 (mt List.mem_cons.2 hu.2)
    have hdone : s.Done w := h.done_of_edge ⟨hu.1.resolve_left hne, hstack⟩ he
    exact fun hw => (List.mem_cons.1 hw).elim (fun heq => hv (heq ▸ hdone.1)) hdone.2
  reaches_above := by
    refine List.pairwise_cons.2 ⟨fun w hw => ?_, h.reaches_above⟩
    obtain ⟨u, hu, hr⟩ := h.reach_path_of_mem hw
    exact hr.trans (hreach u hu)
  reaches_path above w below hstack := by
    cases above with
    | nil =>
      obtain ⟨rfl, -⟩ := List.cons.inj hstack
      exact ⟨v, List.mem_cons_self, List.mem_cons_self, .refl⟩
    | cons x above =>
      obtain ⟨-, hstack⟩ := List.cons.inj hstack
      obtain ⟨u, hu, hmem, hr⟩ := h.reaches_path above w below hstack
      exact ⟨u, List.mem_cons_of_mem _ hu, hmem, hr⟩

section Leave

variable (h : s.Sound edge) (hpath : s.path = v :: path) (hstack : s.stack = above ++ v :: below)

include h hstack

theorem not_mem_below : v ∉ below := by
  have hnodup := h.nodup
  rw [hstack] at hnodup
  exact (List.nodup_cons.1 hnodup.of_append_right).1

theorem disjoint_below {w : κ} (hw : w ∈ above ++ [v]) : w ∉ below := by
  have hnodup := h.nodup
  rw [hstack, List.append_cons] at hnodup
  exact List.disjoint_of_nodup_append hnodup hw

include hpath

/-- The rest of the path stands below the innermost vertex under visit. -/
theorem path_sublist_below : path.Sublist below := by
  have hsub := h.path_sublist
  rw [hpath, hstack] at hsub
  obtain ⟨high, low, heq, hhigh, hlow⟩ := List.sublist_append_iff.1 hsub
  cases high with
  | nil =>
    rw [List.nil_append] at heq
    exact List.cons_sublist_cons.1 (heq ▸ hlow)
  | cons x high =>
    obtain ⟨rfl, -⟩ := List.cons.inj heq
    have hnodup := h.nodup
    rw [hstack] at hnodup
    exact absurd List.mem_cons_self
      (List.disjoint_of_nodup_append hnodup (hhigh.subset List.mem_cons_self))

/-- A vertex above the innermost one under visit is not itself under visit. -/
theorem not_mem_path_of_above {w : κ} (hw : w ∈ above) : w ∉ s.path := by
  have hnodup := h.nodup
  rw [hstack] at hnodup
  rw [hpath, List.mem_cons, not_or]
  have hdisj := List.disjoint_of_nodup_append hnodup hw
  exact ⟨fun heq => hdisj (heq ▸ List.mem_cons_self), fun hp =>
    hdisj (List.mem_cons_of_mem _ ((h.path_sublist_below hpath hstack).subset hp))⟩

variable (hedges : ∀ w, edge v w → s.met w)

include hedges

omit hstack in
theorem explored_of_leave (u w : κ) (hu : s.met u) (hp : u ∉ path) (he : edge u w) : s.met w := by
  by_cases heq : u = v
  · exact hedges w (heq ▸ he)
  · refine h.explored u w hu ?_ he
    rw [hpath, List.mem_cons, not_or]
    exact ⟨heq, hp⟩

/-- A visit ends whose vertex reaches one below it: its component stays open. -/
theorem retire (hz : z ∈ below) (hvz : Relation.ReflTransGen edge v z) :
    Sound edge ⟨s.met, s.stack, path⟩ where
  met_of_mem := h.met_of_mem
  nodup := h.nodup
  path_sublist := List.sublist_of_cons_sublist (hpath ▸ h.path_sublist)
  explored := h.explored_of_leave hpath hedges
  closed := h.closed
  reaches_above := h.reaches_above
  reaches_path above' w below' hstack' := by
    obtain ⟨u, hu, hmem, hr⟩ := h.reaches_path above' w below' hstack'
    rw [hpath] at hu
    obtain rfl | hu := List.mem_cons.1 hu
    -- the witness was the vertex left: the one it reaches below has a witness of its own
    · obtain ⟨mid, low, hlow⟩ := List.append_of_mem hz
      obtain ⟨g, hg, hglow, hzg⟩ := h.reaches_path (above ++ u :: mid) z low (by rw [hstack, hlow]; simp)
      have hgbelow : g ∈ below := by
        rw [hlow]
        exact List.mem_append_right _ hglow
      rw [hpath] at hg
      obtain rfl | hg := List.mem_cons.1 hg
      · exact absurd hgbelow (h.not_mem_below hstack)
      · have hsuffix : u :: below <:+ w :: below' :=
          suffix_of_mem h.nodup ⟨above, hstack.symm⟩ ⟨above', hstack'.symm⟩ hmem
        exact ⟨g, hg, hsuffix.subset (List.mem_cons_of_mem _ hgbelow), hr.trans (hvz.trans hzg)⟩
    · exact ⟨u, hu, hmem, hr⟩

variable (hcut : ∀ x ∈ above ++ [v], ∀ y ∈ below, ¬ edge x y)

include hcut

/-- A visit ends and no edge leads below its vertex: its component is closed. -/
theorem close : Sound edge ⟨s.met, below, path⟩ where
  met_of_mem w hw := h.met_of_mem w (by rw [hstack]; exact List.mem_append_right _ (List.mem_cons_of_mem _ hw))
  nodup := by
    have hnodup := h.nodup
    rw [hstack] at hnodup
    exact (List.nodup_cons.1 hnodup.of_append_right).2
  path_sublist := h.path_sublist_below hpath hstack
  explored := h.explored_of_leave hpath hedges
  closed u w hu he := by
    by_cases hopen : u ∈ above ++ [v]
    · exact fun hw => hcut u hopen w hw he
    · have hdone : s.Done u := by
        refine ⟨hu.1, ?_⟩
        rw [hstack, List.append_cons, List.mem_append, not_or]
        exact ⟨hopen, hu.2⟩
      have hw := h.closed u w hdone he
      rw [hstack, List.append_cons, List.mem_append, not_or] at hw
      exact hw.2
  reaches_above := by
    have habove := h.reaches_above
    rw [hstack, List.append_cons] at habove
    exact (List.pairwise_append.1 habove).2.1
  reaches_path above' w below' hbelow := by
    replace hbelow : below = above' ++ w :: below' := hbelow
    obtain ⟨u, hu, hmem, hr⟩ := h.reaches_path (above ++ v :: above') w below' (by rw [hstack, hbelow]; simp)
    rw [hpath] at hu
    obtain rfl | hu := List.mem_cons.1 hu
    · refine absurd ?_ (h.not_mem_below hstack)
      rw [hbelow]
      exact List.mem_append_right _ hmem
    · exact ⟨u, hu, hmem, hr⟩

/-- What stands from the vertex up is then its component. -/
theorem mutual_iff (x : κ) : x ∈ above ++ [v] ↔ Mutual edge v x := by
  have hv : v ∈ s.stack := by
    rw [hstack]
    exact List.mem_append_right _ List.mem_cons_self
  have habove := h.reaches_above
  rw [hstack, List.pairwise_append, List.pairwise_cons] at habove
  constructor
  · intro hx
    have hvx : Relation.ReflTransGen edge v x := by
      obtain hx | hx := List.mem_append.1 hx
      · exact habove.2.2 x hx v List.mem_cons_self
      · exact List.mem_singleton.1 hx ▸ .refl
    have hmem : x ∈ s.stack := by
      rw [hstack, List.append_cons]
      exact List.mem_append_left _ hx
    obtain ⟨u, hu, hxu⟩ := h.reach_path_of_mem hmem
    rw [hpath] at hu
    obtain rfl | hu := List.mem_cons.1 hu
    · exact ⟨hvx, hxu⟩
    · have huv := habove.2.1.1 u ((h.path_sublist_below hpath hstack).subset hu)
      exact ⟨hvx, hxu.trans huv⟩
  · rintro ⟨hvx, hxv⟩
    have hout : x ∈ above ++ [v] ∨ s.Done x := by
      clear hxv
      induction hvx with
      | refl => exact .inl (by simp)
      | @tail u w _ he ih =>
        obtain hu | hu := ih
        · have hmet : s.met w := by
            obtain hu | hu := List.mem_append.1 hu
            · refine h.explored u w (h.met_of_mem u ?_) (h.not_mem_path_of_above hpath hstack hu) he
              rw [hstack]
              exact List.mem_append_left _ hu
            · exact hedges w (List.mem_singleton.1 hu ▸ he)
          by_cases hw : w ∈ above ++ [v]
          · exact .inl hw
          · refine .inr ⟨hmet, ?_⟩
            rw [hstack, List.append_cons, List.mem_append, not_or]
            exact ⟨hw, fun hbelow => hcut u hu w hbelow he⟩
        · exact .inr (h.done_of_edge hu he)
    exact hout.resolve_right fun hdone => (h.done_of_reach hdone hxv).2 hv

end Leave

end Sound

end Search

end Components
