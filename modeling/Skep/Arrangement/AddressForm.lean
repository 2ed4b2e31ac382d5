import Skep.Arrangement.Shot
import Skep.Arrangement.Reads

/-!
# Address forms

What an entry signature spells of a shot: each window by its address, each
stretch of the document's own content by its values. The request answers the form
from its runs, the member from its arrangement.
-/

/-- A run of an address form. -/
inductive SegmentRun where
  | value (run : Run)
  | window (run : Run)
  deriving DecidableEq

namespace Shot

/-- Whether a run is signed by its values: the document's own, or a named draft's. -/
def byValue (shot : Shot) (trunk : Address) (run : Run) : Bool :=
  (runOriginDocument run).any fun originDoc => originDoc == trunk || shot.isDraftNative originDoc

/-- One run of the request, after the form so far and the windows in hand. -/
def addressFormStep (shot : Shot) (trunk : Address) :
    List SegmentRun × List Run → ShotRun → List SegmentRun × List Run
  | (out, windows), stated =>
      if shot.byValue trunk stated.run then
        (out ++ windows.map .window ++ [.value stated.run], [])
      else (out, extendOrPushRun windows stated.run)

/-- The address form of the runs as the commit will place them. -/
def addressForm (shot : Shot) (doc : Address) : List SegmentRun :=
  let (out, windows) := shot.runs.foldl (shot.addressFormStep (trunkOf doc)) ([], [])
  out ++ windows.map .window

end Shot

namespace M5State

/-- The address form read at a member's first `placed` positions. -/
def addressFormOf (s : M5State) (member : Address) (placed : ℕ) : List SegmentRun :=
  ((s.contentList member).iterResolveRange 1 placed).map fun run =>
    if runOriginDocument run = some (trunkOf member) then .value run else .window run

end M5State

/-- A segment of the signed body: a stretch of values, or one window. -/
inductive BodySegment (β : Type) where
  | values (read : List β)
  | window (run : Run)
  deriving DecidableEq

section Segments

variable {β : Type} (read : Address → β)

/-- A run of the form in front of the segments after it. -/
def consSegment : SegmentRun → List (BodySegment β) → List (BodySegment β)
  | .window run, segs => .window run :: segs
  | .value run, .values vs :: segs => .values (run.addrs.map read ++ vs) :: segs
  | .value run, segs => .values (run.addrs.map read) :: segs

/-- The segments a form is spelled as: each window, and each maximal stretch of value
runs, read at each of its positions. -/
def bodySegments (form : List SegmentRun) : List (BodySegment β) :=
  form.foldr (consSegment read) []

/-- What a form has at one position: a value, or an address of a window. -/
def runCells : SegmentRun → List (β ⊕ Address)
  | .value run => run.addrs.map fun x => .inl (read x)
  | .window run => run.addrs.map .inr

/-- The positions of a segment. -/
def BodySegment.cells : BodySegment β → List (β ⊕ Address)
  | .values vs => vs.map .inl
  | .window run => run.addrs.map .inr

end Segments

/-- Neighbours of a form are not windows one run would hold. -/
def SegmentRun.Apart : SegmentRun → SegmentRun → Prop
  | .window left, .window right => iAdjacent left right.iStart = false
  | _, _ => True

/-- Neighbours of a body neither are both values nor windows one run would hold. -/
def BodySegment.Apart {β : Type} : BodySegment β → BodySegment β → Prop
  | .values _, .values _ => False
  | .window left, .window right => iAdjacent left right.iStart = false
  | _, _ => True

section Segments

variable {β : Type} {read : Address → β}

theorem BodySegment.cells_injective {s s' : BodySegment β} (hne : s.cells ≠ [])
    (h : s.cells = s'.cells) : s = s' := by
  cases s with
  | values vs =>
    cases s' with
    | values vs' => exact congrArg BodySegment.values (List.map_injective_iff.2 Sum.inl_injective h)
    | window run' =>
      obtain ⟨rest, hrest⟩ := run'.addrs_cons
      cases vs with
      | nil => exact absurd rfl hne
      | cons v vs => simp [cells, hrest] at h
  | window run =>
    cases s' with
    | values vs' =>
      obtain ⟨rest, hrest⟩ := run.addrs_cons
      cases vs' with
      | nil => simp [cells, hrest] at h
      | cons v vs' => simp [cells, hrest] at h
    | window run' =>
      have haddrs : run.addrs = run'.addrs := List.map_injective_iff.2 Sum.inr_injective h
      have hmerged : ∀ r : Run, Merged [r] := fun _ => List.isChain_singleton _
      have := merged_eq_of_denRuns_eq (hmerged run) (hmerged run') (by simpa using haddrs)
      exact congrArg BodySegment.window (List.cons.inj this).1

/-- A segment's neighbour does not start with what would continue it. -/
theorem BodySegment.Apart.not_continues {s t s' : BodySegment β} (h : s.Apart t) (hs : s.cells ≠ [])
    {c : β ⊕ Address} {rest rest' : List (β ⊕ Address)} (ht : t.cells = c :: rest)
    (hs' : s'.cells = s.cells ++ c :: rest') : False := by
  cases s with
  | values vs =>
    cases t with
    | values => exact h
    | window right =>
      obtain ⟨more, hmore⟩ := right.addrs_cons
      obtain rfl : c = .inr right.iStart := by simp [cells, hmore] at ht; exact ht.1.symm
      cases vs with
      | nil => exact hs rfl
      | cons v vs => cases s' <;> simp [cells, List.map_eq_append_iff, List.map_eq_cons_iff] at hs'
  | window left =>
    obtain ⟨more, hmore⟩ := left.addrs_cons
    cases s' with
    | values vs' => simp [cells, hmore, List.map_eq_cons_iff] at hs'
    | window run' =>
      obtain ⟨more', hmore'⟩ := run'.addrs_cons
      have hstart : run'.iStart = left.iStart := by
        have hfirst := congrArg List.head? hs'
        simpa [cells, hmore, hmore'] using hfirst
      have hlt : left.width < run'.width := by
        have := congrArg List.length hs'
        simp [cells] at this
        omega
      -- the cell past the window is the next address of its chain
      have hc : c = .inr (left.addrAt left.width) := by
        have hget := congrArg (fun l => l[left.width]?) hs'
        simp only [cells, List.getElem?_map, Run.getElem?_addrs hlt, Option.map_some] at hget
        rw [List.getElem?_append_right (by simp), List.length_map, Run.length_addrs, Nat.sub_self,
          List.getElem?_cons_zero, Option.some.injEq] at hget
        rw [← hget, Run.addrAt, Run.addrAt, hstart]
      cases t with
      | values vs => simp [cells, hc, List.map_eq_cons_iff] at ht
      | window right =>
        obtain ⟨more'', hmore''⟩ := right.addrs_cons
        have hfirst := congrArg List.head? ht
        simp only [cells, hmore'', hc, List.map_cons, List.head?_cons, Option.some.injEq,
          Sum.inr.injEq] at hfirst
        have hadj : iAdjacent left right.iStart = true := iAdjacent_iff.2 hfirst
        rw [show iAdjacent left right.iStart = false from h] at hadj
        cases hadj

theorem BodySegment.length_cells_le {s s' : BodySegment β} {l l' : List (BodySegment β)}
    (h : (s :: l).IsChain BodySegment.Apart) (hne : ∀ t ∈ s :: l, t.cells ≠ [])
    (hcells : (s :: l).flatMap BodySegment.cells = (s' :: l').flatMap BodySegment.cells) :
    s'.cells.length ≤ s.cells.length := by
  by_contra hlt
  rw [List.flatMap_cons, List.flatMap_cons] at hcells
  obtain ⟨rest', hrest'⟩ : s.cells <+: s'.cells :=
    List.prefix_of_prefix_length_le (hcells ▸ List.prefix_append _ _) (List.prefix_append _ _)
      (by omega)
  cases rest' with
  | nil =>
    rw [← hrest', List.append_nil] at hlt
    exact hlt le_rfl
  | cons c rest' =>
    rw [← hrest', List.append_assoc, List.append_cancel_left_eq, List.cons_append] at hcells
    cases l with
    | nil => cases hcells
    | cons t l =>
      cases ht : t.cells with
      | nil => exact hne t (by simp) ht
      | cons c' rest =>
        rw [List.flatMap_cons, ht, List.cons_append, List.cons.injEq] at hcells
        obtain ⟨rfl, -⟩ := hcells
        exact (List.isChain_cons_cons.1 h).1.not_continues (hne s (by simp)) ht hrest'.symm

theorem BodySegment.eq_of_cells {l l' : List (BodySegment β)} (h : l.IsChain BodySegment.Apart)
    (h' : l'.IsChain BodySegment.Apart) (hne : ∀ t ∈ l, t.cells ≠ []) (hne' : ∀ t ∈ l', t.cells ≠ [])
    (hcells : l.flatMap BodySegment.cells = l'.flatMap BodySegment.cells) : l = l' := by
  induction l generalizing l' with
  | nil =>
    cases l' with
    | nil => rfl
    | cons s' l' => simp [hne' s' (by simp)] at hcells
  | cons s l ih =>
    cases l' with
    | nil => simp [hne s (by simp)] at hcells
    | cons s' l' =>
      have hlen := le_antisymm (length_cells_le h' hne' hcells.symm) (length_cells_le h hne hcells)
      rw [List.flatMap_cons, List.flatMap_cons] at hcells
      obtain ⟨hhead, htail⟩ := List.append_inj hcells hlen
      obtain rfl := cells_injective (hne s (by simp)) hhead
      exact congrArg (s :: ·) (ih h.tail h'.tail (fun t ht => hne t (List.mem_cons_of_mem _ ht))
        (fun t ht => hne' t (List.mem_cons_of_mem _ ht)) htail)

/-- One run of the form adds its own positions in front. -/
theorem consSegment_cells (r : SegmentRun) (segs : List (BodySegment β)) :
    (consSegment read r segs).flatMap BodySegment.cells =
      runCells read r ++ segs.flatMap BodySegment.cells := by
  cases r with
  | window run => rfl
  | value run =>
    cases segs with
    | nil => simp [consSegment, runCells, BodySegment.cells]
    | cons s segs =>
      cases s <;> simp [consSegment, runCells, BodySegment.cells]

theorem consSegment_ne_nil {r : SegmentRun} {segs : List (BodySegment β)}
    (h : ∀ t ∈ segs, t.cells ≠ []) : ∀ t ∈ consSegment read r segs, t.cells ≠ [] := by
  have hne : ∀ run : Run, run.addrs ≠ [] := fun run => by
    obtain ⟨rest, hrest⟩ := run.addrs_cons
    rw [hrest]
    exact List.cons_ne_nil _ _
  intro t ht
  cases r with
  | window run =>
    rcases List.mem_cons.1 ht with rfl | ht
    · simp [BodySegment.cells, hne run]
    · exact h t ht
  | value run =>
    cases segs with
    | nil =>
      obtain rfl := List.mem_singleton.1 ht
      simp [BodySegment.cells, hne run]
    | cons s segs =>
      cases s with
      | values vs =>
        rcases List.mem_cons.1 ht with rfl | ht
        · simp [BodySegment.cells, hne run]
        · exact h t (List.mem_cons_of_mem _ ht)
      | window run' =>
        rcases List.mem_cons.1 ht with rfl | ht
        · simp [BodySegment.cells, hne run]
        · exact h t ht

/-- A body starts with a window where its form does. -/
theorem bodySegments_head {r : SegmentRun} {form : List SegmentRun} {run : Run}
    (h : .window run ∈ (bodySegments read (r :: form)).head?) : r = .window run := by
  cases r with
  | window run' =>
    cases h
    rfl
  | value run' =>
    rw [bodySegments, List.foldr_cons, ← bodySegments] at h
    cases hsegs : bodySegments read form with
    | nil => simp [hsegs, consSegment] at h
    | cons s segs => cases s <;> simp [hsegs, consSegment] at h

theorem bodySegments_apart {form : List SegmentRun} (h : form.IsChain SegmentRun.Apart) :
    (bodySegments read form).IsChain BodySegment.Apart := by
  induction form with
  | nil => exact List.isChain_nil
  | cons r form ih =>
    have htail := ih h.tail
    rw [bodySegments, List.foldr_cons, ← bodySegments]
    cases r with
    | window run =>
      refine List.isChain_cons.2 ⟨fun s hs => ?_, htail⟩
      cases s with
      | values vs => trivial
      | window run' =>
        cases form with
        | nil => cases hs
        | cons r' form =>
          obtain rfl := bodySegments_head hs
          exact (List.isChain_cons_cons.1 h).1
    | value run =>
      cases hsegs : bodySegments read form with
      | nil => exact List.isChain_singleton _
      | cons s segs =>
        rw [hsegs] at htail
        cases s with
        | values vs =>
          refine List.isChain_cons.2 ⟨fun t ht => ?_, htail.tail⟩
          have := (List.isChain_cons.1 htail).1 t ht
          cases t with
          | values => exact this
          | window => trivial
        | window run' => exact List.isChain_cons_cons.2 ⟨trivial, htail⟩

/-- The segments of a form read as the form does, and none is empty. -/
theorem bodySegments_spec (read : Address → β) (form : List SegmentRun) :
    (bodySegments read form).flatMap BodySegment.cells = form.flatMap (runCells read) ∧
      ∀ t ∈ bodySegments read form, t.cells ≠ [] := by
  induction form with
  | nil => simp [bodySegments]
  | cons r form ih =>
    rw [bodySegments, List.foldr_cons, ← bodySegments, List.flatMap_cons, ← ih.1]
    exact ⟨consSegment_cells r _, consSegment_ne_nil ih.2⟩

/-- Forms that read alike are spelled alike, where both are merged. -/
theorem bodySegments_eq {read' : Address → β} {form form' : List SegmentRun}
    (h : form.IsChain SegmentRun.Apart) (h' : form'.IsChain SegmentRun.Apart)
    (hcells : form.flatMap (runCells read) = form'.flatMap (runCells read')) :
    bodySegments read form = bodySegments read' form' := by
  obtain ⟨hform, hne⟩ := bodySegments_spec read form
  obtain ⟨hform', hne'⟩ := bodySegments_spec read' form'
  refine BodySegment.eq_of_cells (bodySegments_apart h) (bodySegments_apart h') hne hne' ?_
  rw [hform, hform', hcells]

theorem mem_runCells_of_mem_values {form : List SegmentRun} {vs : List β} {v : β}
    (h : .values vs ∈ bodySegments read form) (hv : v ∈ vs) :
    .inl v ∈ form.flatMap (runCells read) := by
  rw [← (bodySegments_spec read form).1, List.mem_flatMap]
  exact ⟨_, h, List.mem_map_of_mem hv⟩

end Segments

theorem isChain_map_window {runs : List Run} (h : Merged runs) :
    (runs.map SegmentRun.window).IsChain SegmentRun.Apart :=
  (List.isChain_map _).2 h

namespace Shot

section Form

variable {β : Type} {shot : Shot} {trunk : Address} {read : Address → β}

/-- What a run of the request reads as. -/
def statedCells (shot : Shot) (trunk : Address) (read : Address → β) (stated : ShotRun) :
    List (β ⊕ Address) :=
  stated.run.addrs.map fun x => if shot.byValue trunk stated.run then .inl (read x) else .inr x

/-- What the walk over the request has in hand: a merged form that ends in a value run,
and the windows past it. -/
structure FormSoFar (shot : Shot) (trunk : Address) (read : Address → β) (done : List ShotRun)
    (acc : List SegmentRun × List Run) : Prop where
  apart : acc.1.IsChain SegmentRun.Apart
  merged : Merged acc.2
  last : ∀ r ∈ acc.1.getLast?, ∃ run, r = .value run
  cells : (acc.1 ++ acc.2.map SegmentRun.window).flatMap (runCells read) =
    done.flatMap (statedCells shot trunk read)

theorem FormSoFar.isChain {done : List ShotRun} {acc : List SegmentRun × List Run}
    (h : FormSoFar shot trunk read done acc) :
    (acc.1 ++ acc.2.map SegmentRun.window).IsChain SegmentRun.Apart := by
  refine List.isChain_append.2 ⟨h.apart, isChain_map_window h.merged, fun r hr r' hr' => ?_⟩
  obtain ⟨run, rfl⟩ := h.last r hr
  trivial

theorem FormSoFar.step {done : List ShotRun} {acc : List SegmentRun × List Run}
    (h : FormSoFar shot trunk read done acc) (stated : ShotRun) :
    FormSoFar shot trunk read (done ++ [stated]) (shot.addressFormStep trunk acc stated) := by
  rw [addressFormStep]
  split
  · next hvalue =>
    refine ⟨List.isChain_append.2 ⟨h.isChain, List.isChain_singleton _, fun r hr r' hr' => ?_⟩,
      List.isChain_nil, fun r hr => ?_, ?_⟩
    · cases hr'
      cases r <;> trivial
    · rw [List.getLast?_concat, Option.mem_def, Option.some.injEq] at hr
      exact ⟨_, hr.symm⟩
    · rw [List.map_nil, List.append_nil, List.flatMap_append, h.cells, List.flatMap_append]
      simp [statedCells, hvalue, runCells]
  · next hwindow =>
    obtain ⟨hmerged, hden⟩ := extendOrPushRun_spec stated.run h.merged
    refine ⟨h.apart, hmerged, h.last, ?_⟩
    have hcells : ∀ runs : List Run, (runs.map SegmentRun.window).flatMap (runCells read) =
        (denRuns runs).map .inr := fun runs => by
      rw [denRuns, List.map_flatMap, List.flatMap_map]
      rfl
    rw [List.flatMap_append, List.flatMap_append, ← h.cells, List.flatMap_append, hcells, hcells,
      hden]
    simp [statedCells, hwindow]

/-- The request's form is merged, and reads as its runs do. -/
theorem addressForm_spec (shot : Shot) (doc : Address) (read : Address → β) :
    (shot.addressForm doc).IsChain SegmentRun.Apart ∧
      (shot.addressForm doc).flatMap (runCells read) =
        shot.runs.flatMap (statedCells shot (trunkOf doc) read) := by
  have hfold : FormSoFar shot (trunkOf doc) read shot.runs
      (shot.runs.foldl (shot.addressFormStep (trunkOf doc)) ([], [])) := by
    induction shot.runs using List.reverseRecOn with
    | nil => exact ⟨List.isChain_nil, List.isChain_nil, by simp, rfl⟩
    | append_singleton done stated ih =>
      rw [List.foldl_append, List.foldl_cons, List.foldl_nil]
      exact ih.step stated
  exact ⟨hfold.isChain, hfold.cells⟩

end Form

end Shot

namespace M5State

/-- The member's form is merged, and reads each position by its own origin. -/
theorem addressFormOf_spec {β : Type} (s : M5State) (member : Address) (placed : ℕ)
    (read : Address → β) : (s.addressFormOf member placed).IsChain SegmentRun.Apart ∧
      (s.addressFormOf member placed).flatMap (runCells read) =
        ((s.contentList member).den.take placed).map fun x =>
          if x.originDocument = some (trunkOf member) then .inl (read x) else .inr x := by
  rw [addressFormOf]
  refine ⟨(List.isChain_map _).2 (((s.contentList member).merged_iterResolveRange 1 placed).imp
    fun left right h => ?_), ?_⟩
  · split <;> split <;> trivial
  · have hden : denRuns ((s.contentList member).iterResolveRange 1 placed) =
        (s.contentList member).den.take placed := by
      rw [RunList.den_iterResolveRange, RunList.positions, max_self, Nat.sub_self, List.drop_zero,
        List.take_eq_take_iff, RunList.length_den]
      omega
    rw [← hden, denRuns, List.map_flatMap, List.flatMap_map]
    refine List.flatMap_congr fun run _ => ?_
    rw [← List.map_congr_left fun x hx => by rw [runOriginDocument_of_mem hx]]
    split <;> rfl

end M5State
