import Skep.Arrangement.Run
import Skep.Address.SpanSet

/-!
# Run-lists

The stored form of an arrangement: runs in order, maximally merged. V-positions
are prefix sums that nothing stores, so every operation is a split at a
boundary and a coalescing pass. What a run-list stands for is the plain list
of its addresses, and the operations are the plain list's.

## Main results

- `coalesced_spec` — coalescing merges and keeps the addresses
- `denRuns_splitRuns` — a split parts the addresses at the ordinal
- `RunList.eq_of_den_eq` — run-lists with the same addresses are equal
- `runList_refines_addresses` — every operation is the plain list's
-/

/-- Whether a run starts where `left` ends. -/
def iAdjacent (left : Run) (rightStart : Address) : Bool := left.reach == rightStart.tumbler

/-- The run `left` widened by `width` addresses. -/
def Run.widen (left : Run) (width : ℕ) : Run :=
  ⟨left.iStart, left.width + width, Nat.add_pos_left left.pos width, left.full⟩

/-- Accumulate a run: widen the last one where the new one is I-adjacent to it. -/
def extendOrPushRun (runs : List Run) (run : Run) : List Run :=
  match runs.getLast? with
  | some last =>
      if iAdjacent last run.iStart then runs.dropLast ++ [last.widen run.width]
      else runs ++ [run]
  | none => runs ++ [run]

/-- The eager coalesce. -/
def coalesced (runs : List Run) : List Run := runs.foldl extendOrPushRun []

/-- A run at its implicit V-start. -/
structure Block where
  vStart : ℕ
  run : Run

/-- The first V-position past the block. -/
def Block.vReach (b : Block) : ℕ := b.vStart + b.run.width

/-- The runs at their V-starts, the first one's being `vStart`. -/
def blocksFrom (vStart : ℕ) : List Run → List Block
  | [] => []
  | run :: rest => ⟨vStart, run⟩ :: blocksFrom (vStart + run.width) rest

/-- The runs at their V-starts. -/
def blocksOf (runs : List Run) : List Block := blocksFrom 1 runs

/-- The split of the runs from V-position `vStart` on. -/
def splitFrom (ord vStart : ℕ) (h : vStart ≤ ord) : List Run → List Run × List Run
  | [] => ([], [])
  | run :: rest =>
      if hb : ord = vStart then ([], run :: rest)
      else if hi : ord < vStart + run.width then
        ([⟨run.iStart, ord - vStart, by omega, run.full⟩],
          run.clip (ord - vStart) (run.width - (ord - vStart)) (by omega) :: rest)
      else
        let (left, right) := splitFrom ord (vStart + run.width) (by omega) rest
        (run :: left, right)

/-- Split a sequence of runs at the boundary before V-position `ord`. -/
def splitRuns (runs : List Run) (ord : ℕ) : List Run × List Run :=
  if h : ord ≤ 1 then ([], runs) else splitFrom ord 1 (by omega) runs

/-- No two consecutive runs are I-adjacent. -/
def Merged (runs : List Run) : Prop :=
  runs.IsChain fun left right => iAdjacent left right.iStart = false

/-- The addresses a sequence of runs stands for. -/
def denRuns (runs : List Run) : List Address := runs.flatMap Run.addrs

@[simp] theorem denRuns_nil : denRuns [] = [] := rfl

@[simp] theorem denRuns_cons (run : Run) (runs : List Run) :
    denRuns (run :: runs) = run.addrs ++ denRuns runs := List.flatMap_cons

@[simp] theorem denRuns_append (runs runs' : List Run) : denRuns (runs ++ runs') = denRuns runs ++ denRuns runs' :=
  List.flatMap_append

theorem iAdjacent_iff {left : Run} {a : Address} :
    iAdjacent left a = true ↔ a = left.addrAt left.width := by
  rw [iAdjacent, beq_iff_eq, ← Address.tumbler_injective.eq_iff, eq_comm]
  rfl

/-- Widening by an I-adjacent run appends that run's addresses. -/
theorem addrs_widen {left run : Run} (h : iAdjacent left run.iStart = true) :
    (left.widen run.width).addrs = left.addrs ++ run.addrs := by
  rw [iAdjacent_iff] at h
  rw [Run.addrs_eq, Run.addrs_eq, Run.addrs_eq, h]
  exact Run.range_map_advance left.iStart left.width run.width

/-- One accumulation step keeps the list merged and appends the addresses. -/
theorem extendOrPushRun_spec {runs : List Run} (run : Run) (h : Merged runs) :
    Merged (extendOrPushRun runs run) ∧ denRuns (extendOrPushRun runs run) = denRuns runs ++ run.addrs := by
  rw [extendOrPushRun]
  split
  · next last hlast =>
    obtain ⟨front, rfl⟩ := List.getLast?_eq_some_iff.1 hlast
    split
    · next hadj =>
      rw [List.dropLast_concat]
      refine ⟨?_, by simp [addrs_widen hadj]⟩
      -- the widened run starts where the last one did
      rw [Merged, List.isChain_append] at h ⊢
      refine ⟨h.1, List.isChain_singleton _, fun x hx y hy => ?_⟩
      cases hy
      exact h.2.2 x hx last rfl
    · next hadj =>
      refine ⟨?_, by simp⟩
      rw [Merged, List.isChain_append]
      refine ⟨h, List.isChain_singleton _, fun x hx y hy => ?_⟩
      cases hy
      rw [List.getLast?_concat, Option.mem_def, Option.some.injEq] at hx
      rw [← hx]
      exact Bool.eq_false_iff.2 hadj
  · next hnone =>
    rw [List.getLast?_eq_none_iff.1 hnone]
    exact ⟨List.isChain_singleton _, by simp⟩

theorem foldl_extendOrPushRun_spec (runs : List Run) {acc : List Run} (h : Merged acc) :
    Merged (runs.foldl extendOrPushRun acc) ∧
      denRuns (runs.foldl extendOrPushRun acc) = denRuns acc ++ denRuns runs := by
  induction runs generalizing acc with
  | nil => exact ⟨h, by simp⟩
  | cons run runs ih =>
    obtain ⟨hmerged, hden⟩ := extendOrPushRun_spec run h
    obtain ⟨h1, h2⟩ := ih hmerged
    refine ⟨h1, ?_⟩
    rw [List.foldl_cons, h2, hden, denRuns_cons, List.append_assoc]

/-- Coalescing merges and keeps the addresses. -/
theorem coalesced_spec (runs : List Run) : Merged (coalesced runs) ∧ denRuns (coalesced runs) = denRuns runs :=
  foldl_extendOrPushRun_spec runs List.isChain_nil

theorem merged_coalesced (runs : List Run) : Merged (coalesced runs) := (coalesced_spec runs).1

@[simp] theorem denRuns_coalesced (runs : List Run) : denRuns (coalesced runs) = denRuns runs :=
  (coalesced_spec runs).2

/-- A first run that something non-adjacent follows is as wide as the addresses allow. -/
private theorem width_le_of_den_eq {r r' : Run} {l l' : List Run} (h : Merged (r :: l))
    (hstart : r.iStart = r'.iStart) (hden : denRuns (r :: l) = denRuns (r' :: l')) :
    r'.width ≤ r.width := by
  by_contra hlt
  obtain ⟨n, hn⟩ := Nat.exists_eq_add_of_lt (not_le.1 hlt)
  have hwide : r'.addrs = r.addrs ++ r.addrAt r.width ::
      (List.range n).map ((r.iStart.advance r.width).advance 1).advance := by
    rw [Run.addrs_eq, Run.addrs_eq, ← hstart, hn, Nat.add_assoc, Run.range_map_advance,
      Nat.add_comm n 1, Run.range_map_advance]
    simp [Run.addrAt]
  rw [denRuns_cons, denRuns_cons, hwide, List.append_assoc, List.append_cancel_left_eq] at hden
  cases l with
  | nil => simp at hden
  | cons s l =>
    obtain ⟨rest, hrest⟩ := s.addrs_cons
    rw [denRuns_cons, hrest, List.cons_append, List.cons_append, List.cons.injEq] at hden
    have hsep := (List.isChain_cons_cons.1 h).1
    rw [iAdjacent_iff.2 hden.1] at hsep
    simp at hsep

/-- Merged runs with the same addresses are the same runs. -/
theorem merged_eq_of_denRuns_eq {l l' : List Run} (h : Merged l) (h' : Merged l')
    (hden : denRuns l = denRuns l') : l = l' := by
  induction l generalizing l' with
  | nil =>
    cases l' with
    | nil => rfl
    | cons r' l' =>
      obtain ⟨rest, hrest⟩ := r'.addrs_cons
      simp [hrest] at hden
  | cons r l ih =>
    cases l' with
    | nil =>
      obtain ⟨rest, hrest⟩ := r.addrs_cons
      simp [hrest] at hden
    | cons r' l' =>
      have hstart : r.iStart = r'.iStart := by
        obtain ⟨rest, hrest⟩ := r.addrs_cons
        obtain ⟨rest', hrest'⟩ := r'.addrs_cons
        have heq := hden
        rw [denRuns_cons, denRuns_cons, hrest, hrest', List.cons_append, List.cons_append] at heq
        exact (List.cons.inj heq).1
      have hwidth : r.width = r'.width := le_antisymm
        (width_le_of_den_eq h' hstart.symm hden.symm) (width_le_of_den_eq h hstart hden)
      have hr : r = r' := Run.ext hstart hwidth
      subst hr
      rw [denRuns_cons, denRuns_cons, List.append_cancel_left_eq] at hden
      exact congrArg (r :: ·) (ih h.tail h'.tail hden)

theorem splitFrom_spec (runs : List Run) (ord vStart : ℕ) (h : vStart ≤ ord) :
    denRuns (splitFrom ord vStart h runs).1 = (denRuns runs).take (ord - vStart) ∧
      denRuns (splitFrom ord vStart h runs).2 = (denRuns runs).drop (ord - vStart) := by
  induction runs generalizing vStart with
  | nil => simp [splitFrom]
  | cons run rest ih =>
    rw [splitFrom]
    split
    · next hb => simp [hb]
    · next hb =>
      split
      · next hi =>
        -- the boundary falls inside this run
        have hkept : 0 < ord - vStart := by omega
        have hleft : (⟨run.iStart, ord - vStart, hkept, run.full⟩ : Run).addrs =
            run.addrs.take (ord - vStart) := by
          have := Run.addrs_clip (r := run) (k := 0) hkept (by omega)
          rwa [List.drop_zero, Run.addrs_eq, Run.iStart_clip, Address.advance_zero] at this
        have hright := Run.addrs_clip (r := run) (k := ord - vStart)
          (n := run.width - (ord - vStart)) (by omega) (by omega)
        rw [List.take_of_length_le (by simp)] at hright
        simp only [denRuns_cons, denRuns_nil, List.append_nil, hleft, hright]
        rw [List.take_append_of_le_length (by simp; omega),
          List.drop_append_of_le_length (by simp; omega)]
        exact ⟨rfl, rfl⟩
      · next hi =>
        obtain ⟨h1, h2⟩ := ih (vStart + run.width) (by omega)
        have hoff : ord - vStart = run.addrs.length + (ord - (vStart + run.width)) := by
          rw [Run.length_addrs]
          omega
        simp only [denRuns_cons, h1, h2, hoff, List.take_length_add_append, List.drop_length_add_append]
        exact ⟨trivial, trivial⟩

/-- A split parts the addresses at the ordinal. -/
theorem denRuns_splitRuns (runs : List Run) (ord : ℕ) :
    denRuns (splitRuns runs ord).1 = (denRuns runs).take (ord - 1) ∧
      denRuns (splitRuns runs ord).2 = (denRuns runs).drop (ord - 1) := by
  rw [splitRuns]
  split
  · next h =>
    rw [Nat.sub_eq_zero_of_le h]
    simp
  · exact splitFrom_spec runs ord 1 (by omega)

/-- The part of a block inside `[lo, hi)`. -/
def clipBlock (lo : ℕ) (hi : Option ℕ) (b : Block) (hlo : ∀ h ∈ hi, lo < h)
    (hstart : ∀ h ∈ hi, b.vStart < h) : Option Run :=
  if hr : b.vReach ≤ lo then none
  else
    let first := max b.vStart lo
    let past := hi.elim b.vReach (min b.vReach)
    if first = b.vStart ∧ past = b.vReach then some b.run
    else some (b.run.clip (first - b.vStart) (past - first) (by
      have hpos := b.run.pos
      have hreach : b.vReach = b.vStart + b.run.width := rfl
      cases hi with
      | none => simp only [past, first, Option.elim_none]; omega
      | some h =>
        have h1 := hlo h rfl
        have h2 := hstart h rfl
        simp only [past, first, Option.elim_some]
        omega))

/-- The runs of the blocks clipped to `[lo, hi)`, the walk stopping at `hi`. -/
def clippedFrom (lo : ℕ) (hi : Option ℕ) (hlo : ∀ h ∈ hi, lo < h) : List Block → List Run
  | [] => []
  | b :: bs =>
      if hstart : ∀ h ∈ hi, b.vStart < h then
        (clipBlock lo hi b hlo hstart).toList ++ clippedFrom lo hi hlo bs
      else []

/-- The runs clipped to V-positions `[lo, hi)`. -/
def clippedRuns (runs : List Run) (lo : ℕ) (hi : Option ℕ) (hlo : ∀ h ∈ hi, lo < h) : List Run :=
  clippedFrom lo hi hlo (blocksOf runs)

/-- The first `hi - lo` of a list, all of it where there is no `hi`. -/
def upTo (hi : Option ℕ) (lo : ℕ) (l : List Address) : List Address :=
  hi.elim l fun h => l.take (h - lo)

theorem denRuns_clipBlock {lo : ℕ} {hi : Option ℕ} {b : Block} (hlo : ∀ h ∈ hi, lo < h)
    (hstart : ∀ h ∈ hi, b.vStart < h) : denRuns (clipBlock lo hi b hlo hstart).toList =
      upTo hi (max lo b.vStart) (b.run.addrs.drop (lo - b.vStart)) := by
  have hpos := b.run.pos
  have hreach : b.vReach = b.vStart + b.run.width := rfl
  rw [clipBlock]
  split
  · next hr =>
    rw [List.drop_eq_nil_of_le (by rw [Run.length_addrs]; omega)]
    cases hi <;> simp [upTo]
  · next hr =>
    simp only
    split
    · next hwhole =>
      have hdrop : lo - b.vStart = 0 := by omega
      simp only [hdrop, List.drop_zero, Option.toList_some, denRuns_cons, denRuns_nil, List.append_nil]
      cases hi with
      | none => rfl
      | some h =>
        have := hwhole.2
        simp only [Option.elim_some] at this
        rw [upTo, Option.elim_some, List.take_of_length_le (by rw [Run.length_addrs]; omega)]
    · next hpart =>
      have hoff : max b.vStart lo - b.vStart = lo - b.vStart := by omega
      have hlen : (b.run.addrs.drop (lo - b.vStart)).length = b.run.width - (lo - b.vStart) := by
        rw [List.length_drop, Run.length_addrs]
      simp only [Option.toList_some, denRuns_cons, denRuns_nil, List.append_nil]
      cases hi with
      | none =>
        rw [Run.addrs_clip _ (by simp only [Option.elim_none]; omega), hoff, upTo,
          Option.elim_none, List.take_of_length_le]
        simp only [Option.elim_none]
        omega
      | some h =>
        have h1 := hlo h rfl
        have h2 := hstart h rfl
        rw [Run.addrs_clip _ (by simp only [Option.elim_some]; omega), hoff]
        simp only [upTo, Option.elim_some]
        rw [List.take_eq_take_iff, hlen]
        omega

theorem denRuns_clippedFrom (runs : List Run) {lo : ℕ} {hi : Option ℕ} (hlo : ∀ h ∈ hi, lo < h)
    (v : ℕ) : denRuns (clippedFrom lo hi hlo (blocksFrom v runs)) =
      upTo hi (max lo v) ((denRuns runs).drop (lo - v)) := by
  induction runs generalizing v with
  | nil => cases hi <;> simp [blocksFrom, clippedFrom, upTo]
  | cons run rest ih =>
    rw [blocksFrom, clippedFrom]
    split
    · next hstart =>
      rw [denRuns_append, denRuns_clipBlock, ih, denRuns_cons, List.drop_append, Run.length_addrs]
      have hoff : lo - v - run.width = lo - (v + run.width) := by omega
      cases hi with
      | none => simp only [upTo, Option.elim_none, hoff]
      | some h =>
        simp only [upTo, Option.elim_some, hoff, List.take_append, List.length_drop,
          Run.length_addrs]
        congr 2
        omega
    · next hstop =>
      cases hi with
      | none => simp at hstop
      | some h =>
        have : h ≤ v := by simpa using hstop
        have hzero : h - max lo v = 0 := by omega
        simp [upTo, hzero]

/-- A clipped block starts where it did past `lo`, and reaches where it did before `hi`. -/
theorem clipBlock_ends {lo : ℕ} {hi : Option ℕ} {b : Block} {hlo : ∀ h ∈ hi, lo < h}
    {hstart : ∀ h ∈ hi, b.vStart < h} {run : Run} (h : clipBlock lo hi b hlo hstart = some run) :
    (lo ≤ b.vStart → run.iStart = b.run.iStart) ∧
      ((∀ h ∈ hi, b.vReach ≤ h) → run.addrAt run.width = b.run.addrAt b.run.width) := by
  have hreach : b.vReach = b.vStart + b.run.width := rfl
  rw [clipBlock] at h
  split at h
  · cases h
  · next hr =>
    simp only at h
    split at h
    · obtain rfl := Option.some.inj h
      exact ⟨fun _ => rfl, fun _ => rfl⟩
    · obtain rfl := Option.some.inj h
      refine ⟨fun hle => ?_, fun hle => ?_⟩
      · rw [Run.iStart_clip, Nat.max_eq_left hle, Nat.sub_self, Address.advance_zero]
      · have hpast : hi.elim b.vReach (min b.vReach) = b.vReach := by
          cases hi with
          | none => rfl
          | some past => exact Nat.min_eq_left (hle past rfl)
        rw [Run.addrAt, Run.iStart_clip, Run.width_clip, hpast, Run.addrAt, Address.advance_advance]
        congr 1
        omega

theorem merged_clippedFrom {runs : List Run} (h : Merged runs) {lo : ℕ} {hi : Option ℕ}
    (hlo : ∀ h ∈ hi, lo < h) (v : ℕ) : Merged (clippedFrom lo hi hlo (blocksFrom v runs)) ∧
      (lo ≤ v → ∀ run ∈ (clippedFrom lo hi hlo (blocksFrom v runs)).head?,
        ∃ first ∈ runs.head?, run.iStart = first.iStart) := by
  induction runs generalizing v with
  | nil =>
    refine ⟨List.isChain_nil, ?_⟩
    rintro - run ⟨⟩
  | cons first rest ih =>
    obtain ⟨hmerged, hhead⟩ := ih h.tail (v + first.width)
    rw [blocksFrom, clippedFrom]
    split
    · next hstart =>
      cases hclip : clipBlock lo hi ⟨v, first⟩ hlo hstart with
      | none =>
        refine ⟨hmerged, fun hle => ?_⟩
        -- a block past `lo` is not dropped
        rw [clipBlock] at hclip
        split at hclip
        · next hr =>
          have hpos := first.pos
          have : v + first.width ≤ lo := hr
          omega
        · simp only at hclip
          split at hclip <;> cases hclip
      | some run =>
        obtain ⟨hfirst, hlast⟩ := clipBlock_ends hclip
        refine ⟨List.isChain_cons.2 ⟨fun next hnext => ?_, hmerged⟩, fun hle run' hrun' => ?_⟩
        · have hkept : lo ≤ v + first.width := by
            rw [clipBlock] at hclip
            split at hclip
            · cases hclip
            · next hr => exact (not_le.1 hr).le
          obtain ⟨second, hsecond, hnext'⟩ := hhead hkept next hnext
          -- the walk went on, so this block was not clipped at its end
          have hpast : ∀ h ∈ hi, v + first.width ≤ h := fun past hpast => by
            by_contra hlt
            cases rest with
            | nil => cases hsecond
            | cons second' rest' =>
              rw [blocksFrom, clippedFrom, dif_neg fun hall => by
                have := hall past hpast
                simp only at this
                omega] at hnext
              cases hnext
          have hsep := (List.isChain_cons.1 h).1 second hsecond
          rw [Bool.eq_false_iff] at hsep ⊢
          intro hadj
          refine hsep (iAdjacent_iff.2 ?_)
          rw [← hnext', iAdjacent_iff.1 hadj, hlast hpast]
        · obtain rfl := Option.some.inj hrun'
          exact ⟨first, rfl, hfirst hle⟩
    · next hstop =>
      refine ⟨List.isChain_nil, ?_⟩
      rintro - run ⟨⟩

theorem denRuns_clippedRuns (runs : List Run) {lo : ℕ} {hi : Option ℕ} (hlo : ∀ h ∈ hi, lo < h)
    (hone : 1 ≤ lo) :
    denRuns (clippedRuns runs lo hi hlo) = upTo hi lo ((denRuns runs).drop (lo - 1)) := by
  rw [clippedRuns, blocksOf, denRuns_clippedFrom, Nat.max_eq_left hone]

/-- The stored form of an arrangement: merged runs. -/
structure RunList where
  runs : List Run
  merged : Merged runs

namespace RunList

@[ext] theorem ext {l l' : RunList} (h : l.runs = l'.runs) : l = l' := by
  cases l
  cases l'
  cases h
  rfl

instance : DecidableEq RunList := fun l l' => decidable_of_iff (l.runs = l'.runs) RunList.ext_iff.symm

/-- The list with no run. -/
def empty : RunList := ⟨[], List.isChain_nil⟩

/-- The stored form of any sequence of runs. -/
def ofRuns (runs : List Run) : RunList := ⟨coalesced runs, merged_coalesced runs⟩

/-- The decoding door: whatever runs the bytes held, merged. -/
def decode (shadow : List Run) : RunList := ofRuns shadow

/-- The number of arranged positions. -/
def totalWidth (l : RunList) : ℕ := (l.runs.map Run.width).sum

/-- The number of runs. -/
def runCount (l : RunList) : ℕ := l.runs.length

def isEmpty (l : RunList) : Bool := l.runs.isEmpty

/-- The runs at their V-starts. -/
def iterBlocks (l : RunList) : List Block := blocksOf l.runs

/-- The run arranged at V-position `ord` and the offset in it. -/
def locate (l : RunList) (ord : ℕ) : Option (Run × ℕ) :=
  if ord = 0 then none
  else (l.iterBlocks.find? fun b => ord < b.vReach).map fun b => (b.run, ord - b.vStart)

/-- The address arranged at V-position `ord`. -/
def point (l : RunList) (ord : ℕ) : Option Address :=
  (l.locate ord).map fun (run, off) => run.addrAt off

/-- Whether some run's extent holds the address. -/
def holds (l : RunList) (a : Address) : Bool := l.runs.any fun r => r.iextent.contains a.tumbler

def splitAt (l : RunList) (ord : ℕ) : List Run × List Run := splitRuns l.runs ord

/-- Insert runs before V-position `ord`. -/
def spliceIn (l : RunList) (ord : ℕ) (newRuns : List Run) : RunList :=
  let (acc, right) := l.splitAt ord
  ofRuns (acc ++ newRuns ++ right)

/-- Insert a run past the last position. -/
def append (l : RunList) (run : Run) : RunList := l.spliceIn (l.totalWidth + 1) [run]

/-- Drop the `width` positions from `start` on. -/
def removeRange (l : RunList) (start width : ℕ) : RunList :=
  let (left, rest) := l.splitAt start
  let (_, right) := splitRuns rest (width + 1)
  ofRuns (left ++ right)

/-- Cut a prefix at each of the cuts, the last first, and put the regions in
the order they come off. -/
def reorderRegions (pre : List Run) : List ℕ → List Run × List Run
  | [] => (pre, [])
  | cut :: cuts =>
      let (left, region) := splitRuns pre cut
      let (pre', regions) := reorderRegions left cuts
      (pre', region ++ regions)

/-- Exchange the regions between the cuts. -/
def reorder (l : RunList) (cutOrdinals : List ℕ) : RunList :=
  match cutOrdinals.reverse with
  | [] => l
  | last :: remaining =>
      let (pre, exteriorRight) := l.splitAt last
      let (out, regions) := reorderRegions pre remaining
      ofRuns (out ++ regions ++ exteriorRight)

/-- The runs covering V-positions `[ord, ord + count)`. -/
def iterResolveRange (l : RunList) (ord count : ℕ) : List Run :=
  if h : max ord 1 < ord + count then
    clippedRuns l.runs (max ord 1) (some (ord + count)) (by rintro _ ⟨⟩; exact h)
  else []

/-- The runs covering the V-positions from `ord` on. -/
def iterResolveFrom (l : RunList) (ord : ℕ) : List Run :=
  clippedRuns l.runs (max ord 1) none (by simp)

/-- The I-image: the runs' extents, uncoalesced. -/
def image (l : RunList) : SpanSet := ⟨l.runs.map Run.iextent⟩

/-- The addresses the list stands for. -/
def den (l : RunList) : List Address := denRuns l.runs

@[simp] theorem length_den (l : RunList) : l.den.length = l.totalWidth := by
  simp only [den, denRuns, List.length_flatMap, totalWidth, Run.length_addrs]

@[simp] theorem den_ofRuns (runs : List Run) : (ofRuns runs).den = denRuns runs :=
  denRuns_coalesced runs

/-- Run-lists with the same addresses are equal. -/
theorem eq_of_den_eq {l l' : RunList} (h : l.den = l'.den) : l = l' :=
  RunList.ext (merged_eq_of_denRuns_eq l.merged l'.merged h)

theorem den_spliceIn (l : RunList) (ord : ℕ) (newRuns : List Run) :
    (l.spliceIn ord newRuns).den =
      l.den.take (ord - 1) ++ denRuns newRuns ++ l.den.drop (ord - 1) := by
  obtain ⟨h1, h2⟩ := denRuns_splitRuns l.runs ord
  simp only [spliceIn, splitAt, den_ofRuns, denRuns_append, h1, h2]
  rfl

theorem den_append (l : RunList) (run : Run) : (l.append run).den = l.den ++ run.addrs := by
  rw [append, den_spliceIn, Nat.add_sub_cancel, ← length_den, List.take_length, List.drop_length]
  simp

theorem den_removeRange (l : RunList) (start width : ℕ) : (l.removeRange start width).den =
    l.den.take (start - 1) ++ l.den.drop (start - 1 + width) := by
  obtain ⟨h1, h2⟩ := denRuns_splitRuns l.runs start
  obtain ⟨-, h4⟩ := denRuns_splitRuns (splitRuns l.runs start).2 (width + 1)
  simp only [removeRange, splitAt, den_ofRuns, denRuns_append, h1, h4, h2, Nat.add_sub_cancel,
    List.drop_drop]
  rfl

/-- Positions `[start, stop)` of a list, counted from 1. -/
def positions (l : List Address) (start stop : ℕ) : List Address :=
  (l.take (stop - 1)).drop (start - 1)

/-- Cutting a prefix at `a` and then at an earlier `b` parts it as the plain list. -/
theorem den_reorder_three (l : RunList) {a b c : ℕ} (hab : a ≤ b) (hbc : b ≤ c) :
    (l.reorder [a, b, c]).den =
      l.den.take (a - 1) ++ positions l.den b c ++ positions l.den a b ++ l.den.drop (c - 1) := by
  simp only [reorder, List.reverse_cons, List.reverse_nil, List.nil_append, List.cons_append,
    splitAt, reorderRegions, den_ofRuns, denRuns_append, denRuns_splitRuns, List.append_nil,
    positions, List.take_take]
  rw [Nat.min_eq_left (show b - 1 ≤ c - 1 by omega), Nat.min_eq_left (show a - 1 ≤ b - 1 by omega)]
  simp [den]

theorem den_reorder_four (l : RunList) {a b c d : ℕ} (hab : a ≤ b) (hbc : b ≤ c) (hcd : c ≤ d) :
    (l.reorder [a, b, c, d]).den =
      l.den.take (a - 1) ++ positions l.den c d ++ positions l.den b c ++ positions l.den a b ++
        l.den.drop (d - 1) := by
  simp only [reorder, List.reverse_cons, List.reverse_nil, List.nil_append, List.cons_append,
    splitAt, reorderRegions, den_ofRuns, denRuns_append, denRuns_splitRuns, List.append_nil,
    positions, List.take_take]
  rw [Nat.min_eq_left (show c - 1 ≤ d - 1 by omega), Nat.min_eq_left (show b - 1 ≤ c - 1 by omega),
    Nat.min_eq_left (show a - 1 ≤ b - 1 by omega)]
  simp [den]

theorem den_iterResolveFrom (l : RunList) (ord : ℕ) :
    denRuns (l.iterResolveFrom ord) = l.den.drop (max ord 1 - 1) :=
  denRuns_clippedRuns l.runs (by simp) (le_max_right _ _)

theorem den_iterResolveRange (l : RunList) (ord count : ℕ) :
    denRuns (l.iterResolveRange ord count) =
      positions l.den (max ord 1) (min (ord + count) (l.totalWidth + 1)) := by
  rw [iterResolveRange, positions, ← length_den]
  split
  · next h =>
    rw [denRuns_clippedRuns l.runs _ (le_max_right _ _), upTo, Option.elim_some, List.drop_take]
    refine List.take_eq_take_iff.2 ?_
    rw [List.length_drop]
    have : (denRuns l.runs).length = l.den.length := rfl
    omega
  · next h =>
    rw [denRuns_nil, List.drop_eq_nil_of_le]
    rw [List.length_take]
    omega

theorem merged_iterResolveRange (l : RunList) (ord count : ℕ) :
    Merged (l.iterResolveRange ord count) := by
  rw [iterResolveRange]
  split
  · exact (merged_clippedFrom l.merged _ 1).1
  · exact List.isChain_nil

theorem find?_blocksFrom (runs : List Run) {v ord : ℕ} (h : v ≤ ord) :
    ((blocksFrom v runs).find? fun b => decide (ord < b.vReach)).map
      (fun b => b.run.addrAt (ord - b.vStart)) = (denRuns runs)[ord - v]? := by
  induction runs generalizing v with
  | nil => rfl
  | cons run rest ih =>
    rw [blocksFrom, List.find?_cons, denRuns_cons]
    by_cases hlt : ord < v + run.width
    · have hreach : ord < Block.vReach ⟨v, run⟩ := hlt
      simp only [hreach, decide_true, Option.map_some]
      rw [List.getElem?_append_left (by rw [Run.length_addrs]; omega),
        Run.getElem?_addrs (by omega)]
    · have hreach : ¬ ord < Block.vReach ⟨v, run⟩ := hlt
      simp only [hreach, decide_false]
      rw [ih (by omega), List.getElem?_append_right (by rw [Run.length_addrs]; omega),
        Run.length_addrs]
      congr 1
      omega

theorem point_eq (l : RunList) (ord : ℕ) :
    l.point ord = if ord = 0 then none else l.den[ord - 1]? := by
  rw [point, locate]
  split
  · rfl
  · next h =>
    rw [Option.map_map]
    exact find?_blocksFrom l.runs (Nat.one_le_iff_ne_zero.2 h)

theorem point_succ (l : RunList) (k : ℕ) : l.point (k + 1) = l.den[k]? := by
  rw [point_eq, if_neg (Nat.succ_ne_zero k), Nat.add_sub_cancel]

end RunList

/-- **Run-lists refine address sequences canonically.** A run-list is merged and
is determined by its addresses; every mutator is the plain list's edit, an
ordinal past either end clamped to it; every read is the plain list's read. -/
theorem runList_refines_addresses (l : RunList) :
    (∀ left right, [left, right] <:+: l.runs → iAdjacent left right.iStart = false) ∧
    (∀ l' : RunList, l = l' ↔ l.den = l'.den) ∧
    (∀ shadow, (RunList.decode shadow).den = denRuns shadow) ∧
    (∀ run, (l.append run).den = l.den ++ run.addrs) ∧
    (∀ ord newRuns, (l.spliceIn ord newRuns).den =
      l.den.take (min (max ord 1) (l.totalWidth + 1) - 1) ++ denRuns newRuns ++
        l.den.drop (min (max ord 1) (l.totalWidth + 1) - 1)) ∧
    (∀ start width, 1 ≤ start → start + width ≤ l.totalWidth + 1 →
      (l.removeRange start width).den =
        RunList.positions l.den 1 start ++
          RunList.positions l.den (start + width) (l.totalWidth + 1)) ∧
    (∀ a b c, 1 ≤ a → a < b → b < c → c ≤ l.totalWidth + 1 →
      (l.reorder [a, b, c]).den =
        RunList.positions l.den 1 a ++ RunList.positions l.den b c ++
          RunList.positions l.den a b ++ RunList.positions l.den c (l.totalWidth + 1)) ∧
    (∀ a b c d, 1 ≤ a → a < b → b < c → c < d → d ≤ l.totalWidth + 1 →
      (l.reorder [a, b, c, d]).den =
        RunList.positions l.den 1 a ++ RunList.positions l.den c d ++
          RunList.positions l.den b c ++ RunList.positions l.den a b ++
          RunList.positions l.den d (l.totalWidth + 1)) ∧
    (∀ ord count, denRuns (l.iterResolveRange ord count) =
      RunList.positions l.den (max ord 1) (min (ord + count) (l.totalWidth + 1))) ∧
    (∀ ord, denRuns (l.iterResolveFrom ord) =
      RunList.positions l.den (max ord 1) (l.totalWidth + 1)) ∧
    (∀ ord x, l.point ord = some x ↔ 1 ≤ ord ∧ ord ≤ l.totalWidth ∧ l.den[ord - 1]? = some x) := by
  have hall : ∀ k, RunList.positions l.den k (l.totalWidth + 1) = l.den.drop (k - 1) := fun k => by
    rw [RunList.positions, Nat.add_sub_cancel, ← RunList.length_den, List.take_length]
  have hhead : ∀ k, RunList.positions l.den 1 k = l.den.take (k - 1) := fun k => by
    rw [RunList.positions, Nat.sub_self, List.drop_zero]
  refine ⟨fun left right h => ?_, fun l' => ⟨fun h => h ▸ rfl, RunList.eq_of_den_eq⟩,
    RunList.den_ofRuns, l.den_append, fun ord newRuns => ?_, fun start width h1 _ => ?_,
    fun a b c _ hab hbc _ => ?_, fun a b c d _ hab hbc hcd _ => ?_, l.den_iterResolveRange,
    fun ord => ?_, fun ord x => ?_⟩
  · exact (List.isChain_cons_cons.1 ( List.IsChain.infix l.merged h)).1
  · rw [RunList.den_spliceIn]
    by_cases hord : ord ≤ l.totalWidth + 1
    · rw [show min (max ord 1) (l.totalWidth + 1) - 1 = ord - 1 by omega]
    · -- past the end both split points leave the whole list on the left
      rw [show min (max ord 1) (l.totalWidth + 1) - 1 = l.den.length by
          rw [RunList.length_den]; omega,
        List.take_length, List.drop_length,
        List.take_of_length_le (by rw [RunList.length_den]; omega),
        List.drop_eq_nil_of_le (by rw [RunList.length_den]; omega)]
  · rw [hall, hhead, RunList.den_removeRange, show start + width - 1 = start - 1 + width by omega]
  · rw [hall, hhead, RunList.den_reorder_three l hab.le hbc.le]
  · rw [hall, hhead, RunList.den_reorder_four l hab.le hbc.le hcd.le]
  · rw [hall, RunList.den_iterResolveFrom]
  · rw [RunList.point_eq]
    split
    · next h => simp [h]
    · next h =>
      constructor
      · intro hx
        obtain ⟨hlt, -⟩ := List.getElem?_eq_some_iff.1 hx
        rw [RunList.length_den] at hlt
        exact ⟨by omega, by omega, hx⟩
      · exact fun hx => hx.2.2
