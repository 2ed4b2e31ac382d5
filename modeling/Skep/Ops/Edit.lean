import Skep.Ops.Effect
import Skep.Arrangement.Shot

/-!
# The edits in place

INSERT, COPY, REINSTATE, DELETE and REARRANGE. Each passes the write gate,
refuses a published target, refuses an edit typed before the arrangement last
moved, and stages the records of its edit.
-/

/-- Whether an insert is declared as a deposit, and of which type. -/
inductive Deposit where
  | undeclared
  | declared (ty : Address)
  deriving DecidableEq

inductive InsertError where
  | docNotRegistered
  | notOwner (a : Address)
  | publishedTarget
  | arrangementMoved (asOf current : ℕ)
  | notContentSubspace
  | outOfBounds
  | emptyContent
  | mint (e : MintError)
  | content (e : ContentError)
  deriving DecidableEq

inductive CopyError where
  | docNotRegistered
  | notOwner (a : Address)
  | publishedTarget
  | arrangementMoved (asOf current : ℕ)
  | notContentSubspace
  | outOfBounds
  | sourceNotRegistered
  | emptySource
  | notOrdinalVSpan
  | sourceNotContentSubspace
  | danglingSource
  | tooManyRuns
  | emptyResult
  deriving DecidableEq

inductive ReinstateError where
  | docNotRegistered
  | notOwner (a : Address)
  | publishedTarget
  | arrangementMoved (asOf current : ℕ)
  | notContentSubspace
  | outOfBounds
  | badRun
  | sourceNotRegistered
  | danglingSource
  | tooManyRuns
  | emptyResult
  deriving DecidableEq

inductive DeleteError where
  | docNotRegistered
  | notOwner (a : Address)
  | publishedTarget
  | arrangementMoved (asOf current : ℕ)
  | notContentSubspace
  | notArranged
  | outOfBounds
  | emptyWidth
  deriving DecidableEq

inductive RearrangeError where
  | docNotRegistered
  | notOwner (a : Address)
  | publishedTarget
  | arrangementMoved (asOf current : ℕ)
  | badCutCount
  | notAscending
  | notContentSubspace
  | outOfBounds
  | emptyContentSubspace
  deriving DecidableEq

def commonsTypeSubspace : ℕ := 3

def depositClassOrdinals : List ℕ := [1, 2, 55, 56]

/-- The types a deposit into a published chain may declare. -/
def depositClassTypes {ε : Type} : Outcome ε (List Address) :=
  depositClassOrdinals.mapM fun ord =>
    (elemAddr ⟨ghostHomeDocument, commonsTypeSubspace, ord⟩).expect

def maxCopyResolveSteps : ℕ := 1048576

namespace Vstream

/-- The arrangement an insert lands in: the document's own, or for a deposit
past a published chain's content the one its head arranges. -/
def insertSurface (w : World) (doc : Address) (pos : VPos) (deposit : Deposit) :
    Outcome InsertError Address :=
  if publishedTarget w.m3 doc = false then return doc
  else
    match deposit with
    | .undeclared => .err .publishedTarget
    | .declared ty => do
        let types ← depositClassTypes
        Outcome.refuseIf (ty ∉ types) .publishedTarget
        let surface := depositSurface w.m3 doc
        Outcome.refuseIf (w.m5.namesFreshContentPosition surface pos = false) .publishedTarget
        return surface

/-- Mint and store values in order, the one-byte values as stretches. -/
def placeValues (home : Address) : Staging World → List Val → List UInt8 → List Run →
    Outcome InsertError (List Run × Staging World)
  | stg, [], pending, runs => flushForPlacement .mint .content stg home pending runs
  | stg, value :: values, pending, runs =>
      match value.bytes with
      | [byte] => placeValues home stg values (pending ++ [byte]) runs
      | _ => do
          let (runs, stg) ← flushForPlacement .mint .content stg home pending runs
          let (runs, stg) ← allocateForPlacement .mint .content stg home value runs
          placeValues home stg values [] runs

def insert (stg : Staging World) (caller : Caller) (doc : Address) (pos : VPos)
    (values : List Val) (deposit : Deposit) (asOf : AsOf) :
    Outcome InsertError (Address × Staging World) := do
  gateWrite stg.working.m3 caller doc .docNotRegistered .notOwner
  let surface ← insertSurface stg.working doc pos deposit
  Outcome.refuseSome (arrangementMoved stg.working.m5 surface asOf) fun p =>
    .arrangementMoved p.1 p.2
  Outcome.refuseIf (values = []) .emptyContent
  Outcome.refuseIf (pos.isContent = false) .notContentSubspace
  Outcome.refuseIf (stg.working.m5.admitsContentBoundary surface pos.ordinal = false) .outOfBounds
  let (runs, stg) ← placeValues doc stg values [] []
  -- a value places at least one run
  let first ← Outcome.expectSome runs.head?
  let stg ← stg.push (Record.arrangement (.contentPlace surface pos.ordinal runs))
  return (first.iStart, stg)

/-- Accumulate the runs one source resolves to, each with a value at its start. -/
def copyResolved (content : ContentStore) : List Run → List Run → Outcome CopyError (List Run)
  | [], runs => return runs
  | run :: resolved, runs => do
      Outcome.refuseIf (content.contains run.iStart.tumbler = false) .danglingSource
      let runs ← placeCapped runs run .tooManyRuns
      copyResolved content resolved runs

/-- Resolve the sources in order. -/
def copySpecs (w : World) : List VSpec → ℕ → List Run → Outcome CopyError (List Run)
  | [], _, runs => return runs
  | spec :: specs, steps, runs => do
      Outcome.refuseIf (w.m3.isRegisteredDocument spec.source = false) .sourceNotRegistered
      let vspan ← Outcome.okOr (asOrdinalVspan spec.span) .notOrdinalVSpan
      Outcome.refuseIf (vspan.isContent = false) .sourceNotContentSubspace
      Outcome.refuseIf (w.m5.contentIsEmpty spec.source = true) .emptySource
      let steps := steps + w.m5.contentRunCount spec.source
      Outcome.refuseIf (maxCopyResolveSteps < steps) .tooManyRuns
      let runs ← copyResolved w.content (w.m5.iterResolve spec.source spec.span) runs
      copySpecs w specs steps runs

def copy (stg : Staging World) (caller : Caller) (doc : Address) (pos : VPos) (specs : List VSpec)
    (asOf : AsOf) : Outcome CopyError (Unit × Staging World) := do
  let w := stg.working
  gateWrite w.m3 caller doc .docNotRegistered .notOwner
  Outcome.refuseIf (publishedTarget w.m3 doc = true) .publishedTarget
  Outcome.refuseSome (arrangementMoved w.m5 doc asOf) fun p => .arrangementMoved p.1 p.2
  Outcome.refuseIf (pos.isContent = false) .notContentSubspace
  Outcome.refuseIf (w.m5.admitsContentBoundary doc pos.ordinal = false) .outOfBounds
  let runs ← copySpecs w specs 0 []
  Outcome.refuseIf (runs = []) .emptyResult
  let stg ← stg.push (Record.arrangement (.contentPlace doc pos.ordinal runs))
  return ((), stg)

/-- Accumulate the runs a client names, each judged against its stated origin
and stored at every position. -/
def reinstateRuns (w : World) : List ShotRun → List Run → Outcome ReinstateError (List Run)
  | [], placement => return placement
  | shotRun :: runs, placement => do
      let originDoc ← Outcome.okOr (runOriginDocument shotRun.run) .badRun
      Outcome.refuseIf (originDoc ≠ trunkOf shotRun.origin) .badRun
      Outcome.refuseIf (w.m3.isRegisteredDocument originDoc = false) .sourceNotRegistered
      Outcome.refuseIf (w.content.covered shotRun.run.iStart.tumbler shotRun.run.width = false)
        .danglingSource
      let placement ← placeCapped placement shotRun.run .tooManyRuns
      reinstateRuns w runs placement

def stageReinstateAt (stg : Staging World) (caller : Caller) (doc : Address) (pos : VPos)
    (runs : List ShotRun) (asOf : AsOf) : Outcome ReinstateError (Unit × Staging World) := do
  let w := stg.working
  gateWrite w.m3 caller doc .docNotRegistered .notOwner
  Outcome.refuseIf (publishedTarget w.m3 doc = true) .publishedTarget
  Outcome.refuseSome (arrangementMoved w.m5 doc asOf) fun p => .arrangementMoved p.1 p.2
  Outcome.refuseIf (pos.isContent = false) .notContentSubspace
  Outcome.refuseIf (w.m5.admitsContentBoundary doc pos.ordinal = false) .outOfBounds
  let placement ← reinstateRuns w runs []
  Outcome.refuseIf (placement = []) .emptyResult
  let stg ← stg.push (Record.arrangement (.contentPlace doc pos.ordinal placement))
  return ((), stg)

def stageDeleteAt (stg : Staging World) (caller : Caller) (doc : Address) (pos : VPos) (width : ℕ)
    (asOf : AsOf) : Outcome DeleteError (Unit × Staging World) := do
  let w := stg.working
  gateWrite w.m3 caller doc .docNotRegistered .notOwner
  Outcome.refuseIf (publishedTarget w.m3 doc = true) .publishedTarget
  Outcome.refuseSome (arrangementMoved w.m5 doc asOf) fun p => .arrangementMoved p.1 p.2
  Outcome.refuseIf (pos.isContent = false) .notContentSubspace
  Outcome.refuseIf (w.m5.arrangesContentPosition doc pos.ordinal = false) .notArranged
  Outcome.refuseIf (w.m5.containsContentRange doc pos.ordinal width = false) .outOfBounds
  Outcome.refuseIf (width = 0) .emptyWidth
  let stg ← stg.push (Record.arrangement (.contentRemove doc pos.ordinal width))
  return ((), stg)

/-- The first and the last of three or four cuts. -/
def outerCuts (cuts : List VPos) : Option (VPos × VPos) :=
  match cuts with
  | [first, _, last] => some (first, last)
  | [first, _, _, last] => some (first, last)
  | _ => none

def rearrange (stg : Staging World) (caller : Caller) (doc : Address) (cuts : List VPos)
    (asOf : AsOf) : Outcome RearrangeError (Unit × Staging World) := do
  let w := stg.working
  gateWrite w.m3 caller doc .docNotRegistered .notOwner
  Outcome.refuseIf (publishedTarget w.m3 doc = true) .publishedTarget
  Outcome.refuseSome (arrangementMoved w.m5 doc asOf) fun p => .arrangementMoved p.1 p.2
  let (first, last) ← Outcome.okOr (outerCuts cuts) .badCutCount
  Outcome.refuseIf (¬ cuts.IsChain fun a b => a.ordinal < b.ordinal) .notAscending
  Outcome.refuseIf (cuts.any (fun c => !c.isContent) = true) .notContentSubspace
  Outcome.refuseIf (w.m5.admitsContentBoundary doc first.ordinal = false ∨
    w.m5.admitsContentBoundary doc last.ordinal = false) .outOfBounds
  Outcome.refuseIf (w.m5.contentIsEmpty doc = true) .emptyContentSubspace
  let stg ← stg.push (Record.arrangement (.contentReorder doc (cuts.map VPos.ordinal)))
  return ((), stg)

end Vstream

theorem supplied_of_bytesAt {w : World} {elems : List Record} {x : Address} {b : List UInt8}
    (h : w.content.bytesAt x.tumbler = some b) : Supplied w elems x := by
  rw [ContentStore.bytesAt, Option.map_eq_some_iff] at h
  obtain ⟨p, hp, rfl⟩ := h
  refine .inl ⟨p.asBytes, ?_⟩
  rw [ContentStore.bytesAt, ContentStore.valueAt_of_entries (ContentStore.entries_applyAll _ _) hp,
    Option.map_some]

theorem bytesAt_of_covered {s : ContentStore} {run : Run}
    (h : s.covered run.iStart.tumbler run.width = true) {x : Address} (hx : x ∈ run.addrs) :
    ∃ b, s.bytesAt x.tumbler = some b := by
  obtain ⟨k, hk, rfl⟩ := Run.mem_addrs_iff.1 hx
  exact ContentStore.covered_iff.1 h k hk

namespace M5State

theorem admitsContentBoundary_iff {s : M5State} {doc : Address} {ord : ℕ} :
    s.admitsContentBoundary doc ord = true ↔ 1 ≤ ord ∧ ord ≤ s.contentCount doc + 1 := by
  simp [admitsContentBoundary]

theorem namesFreshContentPosition_iff {s : M5State} {doc : Address} {pos : VPos} :
    s.namesFreshContentPosition doc pos = true ↔
      pos.isContent = true ∧ s.contentCount doc < pos.ordinal := by
  simp [namesFreshContentPosition]

/-- A range of content resolves to addresses the source arranges. -/
theorem arranges_of_mem_iterResolve {s : M5State} {doc x : Address} {span : Span}
    {vspan : OrdinalVSpan} (hspan : asOrdinalVspan span = some vspan)
    (hcontent : vspan.isContent = true) (h : x ∈ denRuns (s.iterResolve doc span)) :
    s.Arranges doc x := by
  rw [OrdinalVSpan.isContent, beq_iff_eq] at hcontent
  simp only [iterResolve, hspan, hcontent, DocArrangement.list, if_true] at h
  rw [RunList.den_iterResolveRange, RunList.positions] at h
  exact List.mem_of_mem_take (List.mem_of_mem_drop h)

end M5State

namespace Vstream

theorem placeValues_minted {home : Address} {values : List Val} {stg stg' : Staging World}
    {pending : List UInt8} {runs runs' : List Run} (hm : Merged runs)
    (h : placeValues home stg values pending runs = .ok (runs', stg')) :
    ∃ addrs, MintedAll stg stg' home ((pending.map fun b => [b]) ++ values.map Val.bytes) addrs ∧
      Merged runs' ∧ denRuns runs' = denRuns runs ++ addrs := by
  induction values generalizing stg pending runs with
  | nil =>
    rw [List.map_nil, List.append_nil]
    exact flushForPlacement_minted hm h
  | cons value values ih =>
    rw [placeValues] at h
    split at h
    · next byte hbyte =>
      obtain ⟨addrs, hminted, hrest⟩ := ih hm h
      refine ⟨addrs, ?_, hrest⟩
      rw [List.map_cons, hbyte]
      simpa using hminted
    · simp only [Outcome.bind_eq_ok_iff, Prod.exists] at h
      obtain ⟨runs₁, stg₁, hflush, runs₂, stg₂, hplace, hrest⟩ := h
      obtain ⟨addrs₁, hminted₁, hm₁, hden₁⟩ := flushForPlacement_minted hm hflush
      obtain ⟨addrs₂, hminted₂, hm₂, hden₂⟩ := allocateForPlacement_minted hm₁ hplace
      obtain ⟨addrs₃, hminted₃, hm₃, hden₃⟩ := ih hm₂ hrest
      refine ⟨addrs₁ ++ (addrs₂ ++ addrs₃), hminted₁.trans (hminted₂.trans hminted₃), hm₃, ?_⟩
      rw [hden₃, hden₂, hden₁, List.append_assoc, List.append_assoc]

theorem insertSurface_eq_ok {w : World} {doc surface : Address} {pos : VPos} {deposit : Deposit}
    (h : insertSurface w doc pos deposit = .ok surface) :
    publishedTarget w.m3 doc = false ∧ surface = doc ∨
      publishedTarget w.m3 doc = true ∧ surface = depositSurface w.m3 doc ∧
        w.m5.namesFreshContentPosition surface pos = true := by
  unfold insertSurface at h
  split at h
  · next hpub => exact .inl ⟨hpub, (Outcome.ok.inj h).symm⟩
  · next hpub =>
    rw [Bool.not_eq_false] at hpub
    cases deposit with
    | undeclared => cases h
    | declared ty =>
      simp only [Outcome.bind_eq_ok_iff, Outcome.refuseIf_eq_ok_iff, Outcome.pure_eq,
        Outcome.ok.injEq, exists_const, Bool.not_eq_false] at h
      obtain ⟨types, -, -, hfresh, rfl⟩ := h
      exact .inr ⟨hpub, rfl, hfresh⟩

theorem insert_eq_ok {stg stg' : Staging World} {caller : Caller} {doc a : Address} {pos : VPos}
    {values : List Val} {deposit : Deposit} {asOf : AsOf}
    (h : insert stg caller doc pos values deposit asOf = .ok (a, stg')) :
    stg.working.m3.isRegisteredDocument doc = true ∧ ∃ surface,
      insertSurface stg.working doc pos deposit = .ok surface ∧
      arrangementMoved stg.working.m5 surface asOf = none ∧
      ∃ recs, stg.Pushed recs stg' ∧ Effect stg.working none recs := by
  simp only [insert, Outcome.bind_eq_ok_iff, gateWrite_eq_ok_iff, Outcome.refuseSome_eq_ok_iff,
    Outcome.refuseIf_eq_ok_iff, Outcome.expectSome_eq_ok_iff, Outcome.pure_eq, Outcome.ok.injEq,
    Prod.exists, Prod.mk.injEq, exists_const, Bool.not_eq_false] at h
  obtain ⟨⟨hreg, -⟩, surface, hsurface, hmoved, -, hcontent, hbound, runs, mid, hplace, first, -,
    last, hpush, -, rfl⟩ := h
  obtain ⟨addrs, hminted, -, hden⟩ := placeValues_minted List.isChain_nil hplace
  obtain ⟨elems, helems, hmints⟩ := hminted.pushed
  have hsupplied : ∀ x ∈ denRuns runs, Supplied stg.working elems x := by
    intro x hx
    rw [hden] at hx
    exact hminted.supplied helems hx
  refine ⟨hreg, surface, hsurface, hmoved, _, helems.append (Staging.pushed_of_push hpush), ?_⟩
  rcases insertSurface_eq_ok hsurface with ⟨hprivate, rfl⟩ | ⟨hpub, rfl, hfresh⟩
  · have hedits : ∀ r ∈ [] ++ [M5Rec.contentPlace surface pos.ordinal runs],
        Edits stg.working elems none surface r := by simpa using .place _ hsupplied
    exact .edit hreg hprivate hmints hedits (by simp) (by simp [M5Rec.Adds])
  · -- the first position past the content is the only one in bounds that is fresh
    obtain ⟨-, hle⟩ := M5State.admitsContentBoundary_iff.1 hbound
    obtain ⟨-, hlt⟩ := M5State.namesFreshContentPosition_iff.1 hfresh
    have hord : pos.ordinal = stg.working.m5.contentCount (depositSurface stg.working.m3 doc) + 1 := by
      omega
    rw [hord]
    exact .deposit hreg hpub hmints hsupplied

theorem effect_of_edits {w : World} {doc : Address} {stated : Option Base} {clear fill : List M5Rec}
    (hreg : w.m3.isRegisteredDocument doc = true) (hprivate : publishedTarget w.m3 doc = false)
    (h : ∀ r ∈ clear ++ fill, Edits w [] stated doc r) (hclear : ∀ r ∈ clear, r.stated = [])
    (hfill : ∀ r ∈ fill, r.Adds) :
    Effect w (stated.map fun _ => doc) ((clear ++ fill).map Record.arrangement) :=
  .edit hreg hprivate (fun _ hr => absurd hr List.not_mem_nil) h hclear hfill

/-- An edit that stages one record of its own document. -/
theorem effect_of_push {ε : Type} {stg stg' : Staging World} {doc : Address} {r : M5Rec}
    (hreg : stg.working.m3.isRegisteredDocument doc = true)
    (hprivate : publishedTarget stg.working.m3 doc = false) (hr : Edits stg.working [] none doc r)
    (hpush : (stg.push (Record.arrangement r) : Outcome ε (Staging World)) = .ok stg') :
    ∃ recs, stg.Pushed recs stg' ∧ Effect stg.working none recs := by
  have hclear : ∀ r' ∈ [r] ++ [], Edits stg.working [] none doc r' := by simpa using hr
  have hfill : ∀ r' ∈ [] ++ [r], Edits stg.working [] none doc r' := by simpa using hr
  refine ⟨_, Staging.pushed_of_push hpush, ?_⟩
  cases hr with
  | place => exact effect_of_edits hreg hprivate hfill (by simp) (by simp [M5Rec.Adds])
  | base source merge hstated => cases hstated
  | remove => exact effect_of_edits hreg hprivate hclear (by simp [M5Rec.stated]) (by simp)
  | reorder => exact effect_of_edits hreg hprivate hclear (by simp [M5Rec.stated]) (by simp)

theorem copyResolved_eq_ok {content : ContentStore} {resolved runs runs' : List Run}
    (h : copyResolved content resolved runs = .ok runs') :
    runs' = resolved.foldl extendOrPushRun runs := by
  induction resolved generalizing runs with
  | nil => exact (Outcome.ok.inj h).symm
  | cons run resolved ih =>
    simp only [copyResolved, Outcome.bind_eq_ok_iff] at h
    obtain ⟨-, -, runs₁, hplace, hrest⟩ := h
    rw [ih hrest, (placeCapped_eq_ok hplace).1]
    rfl

/-- Every address a copy places is one some source arranges. -/
theorem copySpecs_arranged {w : World} {specs : List VSpec} {steps : ℕ} {runs runs' : List Run}
    (hm : Merged runs) (hruns : ∀ x ∈ denRuns runs, ∃ d, w.m5.Arranges d x)
    (h : copySpecs w specs steps runs = .ok runs') : ∀ x ∈ denRuns runs', ∃ d, w.m5.Arranges d x := by
  induction specs generalizing steps runs with
  | nil =>
    cases h
    exact hruns
  | cons spec specs ih =>
    simp only [copySpecs, Outcome.bind_eq_ok_iff, Outcome.refuseIf_eq_ok_iff,
      Outcome.okOr_eq_ok_iff, exists_const, Bool.not_eq_false] at h
    obtain ⟨-, vspan, hvspan, hcontent, -, -, runs₁, hresolved, hrest⟩ := h
    obtain ⟨hm₁, hden₁⟩ := foldl_extendOrPushRun_spec (w.m5.iterResolve spec.source spec.span) hm
    rw [← copyResolved_eq_ok hresolved] at hm₁ hden₁
    refine ih hm₁ (fun x hx => ?_) hrest
    rw [hden₁] at hx
    rcases List.mem_append.1 hx with hx | hx
    · exact hruns x hx
    · exact ⟨spec.source, M5State.arranges_of_mem_iterResolve hvspan hcontent hx⟩

theorem copy_eq_ok {stg stg' : Staging World} {caller : Caller} {doc : Address} {pos : VPos}
    {specs : List VSpec} {asOf : AsOf} {u : Unit}
    (h : copy stg caller doc pos specs asOf = .ok (u, stg')) :
    stg.working.m3.isRegisteredDocument doc = true ∧
      arrangementMoved stg.working.m5 doc asOf = none ∧
      ∃ recs, stg.Pushed recs stg' ∧ Effect stg.working none recs := by
  simp only [copy, Outcome.bind_eq_ok_iff, gateWrite_eq_ok_iff, Outcome.refuseSome_eq_ok_iff,
    Outcome.refuseIf_eq_ok_iff, Outcome.pure_eq, Outcome.ok.injEq, Prod.mk.injEq, exists_const,
    Bool.not_eq_true] at h
  obtain ⟨⟨hreg, -⟩, hprivate, hmoved, -, -, runs, hcopy, -, last, hpush, -, rfl⟩ := h
  have harranged := copySpecs_arranged List.isChain_nil (by simp) hcopy
  exact ⟨hreg, hmoved, effect_of_push hreg hprivate
    (.place _ fun x hx => .inr (harranged x hx)) hpush⟩

/-- Every address a reinstatement places has a value. -/
theorem reinstateRuns_stored {w : World} {runs : List ShotRun} {placement placement' : List Run}
    (hm : Merged placement)
    (hplaced : ∀ x ∈ denRuns placement, ∃ b, w.content.bytesAt x.tumbler = some b)
    (h : reinstateRuns w runs placement = .ok placement') :
    ∀ x ∈ denRuns placement', ∃ b, w.content.bytesAt x.tumbler = some b := by
  induction runs generalizing placement with
  | nil =>
    cases h
    exact hplaced
  | cons shotRun runs ih =>
    simp only [reinstateRuns, Outcome.bind_eq_ok_iff, Outcome.refuseIf_eq_ok_iff,
      Outcome.okOr_eq_ok_iff, exists_const, Bool.not_eq_false] at h
    obtain ⟨originDoc, -, -, -, hcovered, placement₁, hplace, hrest⟩ := h
    obtain ⟨hm₁, hden₁⟩ := extendOrPushRun_spec shotRun.run hm
    rw [← (placeCapped_eq_ok hplace).1] at hm₁ hden₁
    refine ih hm₁ (fun x hx => ?_) hrest
    rw [hden₁] at hx
    rcases List.mem_append.1 hx with hx | hx
    · exact hplaced x hx
    · exact bytesAt_of_covered hcovered hx

theorem stageReinstateAt_pushes {stg stg' : Staging World} {caller : Caller} {doc : Address}
    {pos : VPos} {runs : List ShotRun} {asOf : AsOf} {u : Unit}
    (h : stageReinstateAt stg caller doc pos runs asOf = .ok (u, stg')) :
    stg.working.m3.isRegisteredDocument doc = true ∧ publishedTarget stg.working.m3 doc = false ∧
      arrangementMoved stg.working.m5 doc asOf = none ∧ ∃ placement,
        (∀ x ∈ denRuns placement, ∃ b, stg.working.content.bytesAt x.tumbler = some b) ∧
        (stg.push (Record.arrangement (.contentPlace doc pos.ordinal placement)) :
          Outcome ReinstateError (Staging World)) = .ok stg' := by
  simp only [stageReinstateAt, Outcome.bind_eq_ok_iff, gateWrite_eq_ok_iff,
    Outcome.refuseSome_eq_ok_iff, Outcome.refuseIf_eq_ok_iff, Outcome.pure_eq, Outcome.ok.injEq,
    Prod.mk.injEq, exists_const, Bool.not_eq_true] at h
  obtain ⟨⟨hreg, -⟩, hprivate, hmoved, -, -, placement, hplace, -, last, hpush, -, rfl⟩ := h
  exact ⟨hreg, hprivate, hmoved, placement,
    reinstateRuns_stored List.isChain_nil (by simp) hplace, hpush⟩

theorem stageReinstateAt_eq_ok {stg stg' : Staging World} {caller : Caller} {doc : Address}
    {pos : VPos} {runs : List ShotRun} {asOf : AsOf} {u : Unit}
    (h : stageReinstateAt stg caller doc pos runs asOf = .ok (u, stg')) :
    stg.working.m3.isRegisteredDocument doc = true ∧
      arrangementMoved stg.working.m5 doc asOf = none ∧
      ∃ recs, stg.Pushed recs stg' ∧ Effect stg.working none recs := by
  obtain ⟨hreg, hprivate, hmoved, placement, hstored, hpush⟩ := stageReinstateAt_pushes h
  refine ⟨hreg, hmoved, effect_of_push hreg hprivate (.place _ fun x hx => ?_) hpush⟩
  obtain ⟨b, hb⟩ := hstored x hx
  exact supplied_of_bytesAt hb

theorem stageDeleteAt_pushes {stg stg' : Staging World} {caller : Caller} {doc : Address}
    {pos : VPos} {width : ℕ} {asOf : AsOf} {u : Unit}
    (h : stageDeleteAt stg caller doc pos width asOf = .ok (u, stg')) :
    stg.working.m3.isRegisteredDocument doc = true ∧ publishedTarget stg.working.m3 doc = false ∧
      arrangementMoved stg.working.m5 doc asOf = none ∧
      (stg.push (Record.arrangement (.contentRemove doc pos.ordinal width)) :
        Outcome DeleteError (Staging World)) = .ok stg' := by
  simp only [stageDeleteAt, Outcome.bind_eq_ok_iff, gateWrite_eq_ok_iff,
    Outcome.refuseSome_eq_ok_iff, Outcome.refuseIf_eq_ok_iff, Outcome.pure_eq, Outcome.ok.injEq,
    Prod.mk.injEq, exists_const, Bool.not_eq_true] at h
  obtain ⟨⟨hreg, -⟩, hprivate, hmoved, -, -, -, -, last, hpush, -, rfl⟩ := h
  exact ⟨hreg, hprivate, hmoved, hpush⟩

theorem stageDeleteAt_eq_ok {stg stg' : Staging World} {caller : Caller} {doc : Address}
    {pos : VPos} {width : ℕ} {asOf : AsOf} {u : Unit}
    (h : stageDeleteAt stg caller doc pos width asOf = .ok (u, stg')) :
    stg.working.m3.isRegisteredDocument doc = true ∧
      arrangementMoved stg.working.m5 doc asOf = none ∧
      ∃ recs, stg.Pushed recs stg' ∧ Effect stg.working none recs := by
  obtain ⟨hreg, hprivate, hmoved, hpush⟩ := stageDeleteAt_pushes h
  exact ⟨hreg, hmoved, effect_of_push hreg hprivate (.remove _ _) hpush⟩

theorem rearrange_eq_ok {stg stg' : Staging World} {caller : Caller} {doc : Address}
    {cuts : List VPos} {asOf : AsOf} {u : Unit}
    (h : rearrange stg caller doc cuts asOf = .ok (u, stg')) :
    stg.working.m3.isRegisteredDocument doc = true ∧
      arrangementMoved stg.working.m5 doc asOf = none ∧
      ∃ recs, stg.Pushed recs stg' ∧ Effect stg.working none recs := by
  simp only [rearrange, Outcome.bind_eq_ok_iff, gateWrite_eq_ok_iff, Outcome.refuseSome_eq_ok_iff,
    Outcome.refuseIf_eq_ok_iff, Outcome.okOr_eq_ok_iff, Outcome.pure_eq, Outcome.ok.injEq,
    Prod.exists, Prod.mk.injEq, exists_const, Bool.not_eq_true] at h
  obtain ⟨⟨hreg, -⟩, hprivate, hmoved, first, last, -, -, -, -, -, stg₁, hpush, -, rfl⟩ := h
  exact ⟨hreg, hmoved, effect_of_push hreg hprivate (.reorder _) hpush⟩

theorem placeValues_eq_err {home : Address} {values : List Val} {stg : Staging World}
    {pending : List UInt8} {runs : List Run} {e : InsertError}
    (h : placeValues home stg values pending runs = .err e) :
    (∃ m, e = .mint m) ∨ ∃ c, e = .content c := by
  induction values generalizing stg pending runs with
  | nil => exact flushForPlacement_eq_err h
  | cons value values ih =>
    rw [placeValues] at h
    split at h
    · exact ih h
    · rcases Outcome.bind_eq_err_iff.1 h with h | ⟨_, -, h⟩
      · exact flushForPlacement_eq_err h
      · rcases Outcome.bind_eq_err_iff.1 h with h | ⟨_, -, h⟩
        · exact allocateForPlacement_eq_err h
        · exact ih h

theorem insertSurface_eq_err {w : World} {doc : Address} {pos : VPos} {deposit : Deposit}
    {e : InsertError} (h : insertSurface w doc pos deposit = .err e) : e = .publishedTarget := by
  unfold insertSurface at h
  split at h
  · cases h
  · cases deposit with
    | undeclared => exact (Outcome.err.inj h).symm
    | declared ty =>
      have htypes : ∀ e, (depositClassTypes : Outcome InsertError (List Address)) ≠ .err e := by
        intro e
        simp [depositClassTypes, depositClassOrdinals, Outcome.bind_eq_err_iff]
      simp only [Outcome.bind_eq_err_iff, htypes, Outcome.refuseIf_eq_err_iff, Outcome.pure_eq,
        reduceCtorEq, and_false, exists_false, or_false, false_or] at h
      obtain ⟨_, -, ⟨-, rfl⟩ | ⟨_, -, -, rfl⟩⟩ := h <;> rfl

/-- An insert refused as stale was typed before its surface last moved. -/
theorem insert_eq_moved {stg : Staging World} {caller : Caller} {doc : Address} {pos : VPos}
    {values : List Val} {deposit : Deposit} {asOf : AsOf} {typed current : ℕ}
    (h : insert stg caller doc pos values deposit asOf = .err (.arrangementMoved typed current)) :
    ∃ surface, insertSurface stg.working doc pos deposit = .ok surface ∧
      arrangementMoved stg.working.m5 surface asOf = some (typed, current) := by
  rw [insert] at h
  rcases Outcome.bind_eq_err_iff.1 h with h | ⟨_, -, h⟩
  · rcases gateWrite_eq_err h with h | h <;> cases h
  rcases Outcome.bind_eq_err_iff.1 h with h | ⟨surface, hsurface, h⟩
  · cases insertSurface_eq_err h
  refine ⟨surface, hsurface, ?_⟩
  simp only [Outcome.bind_eq_err_iff, Outcome.refuseSome_eq_err_iff, Outcome.refuseIf_eq_err_iff,
    Outcome.expectSome_ne_err, Staging.push_ne_err, Outcome.pure_eq, InsertError.arrangementMoved.injEq,
    reduceCtorEq, and_false, exists_false, or_false, false_or, Prod.exists] at h
  rcases h with ⟨_, _, hmoved, rfl, rfl⟩ | ⟨_, -, _, -, _, -, _, -, h⟩
  · exact hmoved
  · rcases placeValues_eq_err h with ⟨m, h⟩ | ⟨c, h⟩ <;> cases h

theorem placeCapped_eq_err {ε : Type} {runs : List Run} {run : Run} {e x : ε}
    (h : placeCapped runs run e = .err x) : x = e := by
  simp only [placeCapped, Outcome.bind_eq_err_iff, Outcome.refuseIf_eq_err_iff, Outcome.pure_eq,
    reduceCtorEq, and_false, exists_false, or_false] at h
  exact h.2.symm

theorem copyResolved_ne_moved {content : ContentStore} {resolved runs : List Run}
    {typed current : ℕ} :
    copyResolved content resolved runs ≠ .err (.arrangementMoved typed current) := by
  induction resolved generalizing runs with
  | nil => simp [copyResolved]
  | cons run resolved ih =>
    intro h
    simp only [copyResolved, Outcome.bind_eq_err_iff, Outcome.refuseIf_eq_err_iff, reduceCtorEq,
      and_false, false_or, ih, exists_false, or_false] at h
    obtain ⟨-, -, h⟩ := h
    cases placeCapped_eq_err h

theorem copySpecs_ne_moved {w : World} {specs : List VSpec} {steps : ℕ} {runs : List Run}
    {typed current : ℕ} : copySpecs w specs steps runs ≠ .err (.arrangementMoved typed current) := by
  induction specs generalizing steps runs with
  | nil => simp [copySpecs]
  | cons spec specs ih =>
    simp only [copySpecs, ne_eq, Outcome.bind_eq_err_iff, Outcome.refuseIf_eq_err_iff,
      Outcome.okOr_eq_err_iff, copyResolved_ne_moved, ih, reduceCtorEq, and_false, exists_false,
      or_self, not_false_eq_true]

theorem copy_eq_moved {stg : Staging World} {caller : Caller} {doc : Address} {pos : VPos}
    {specs : List VSpec} {asOf : AsOf} {typed current : ℕ}
    (h : copy stg caller doc pos specs asOf = .err (.arrangementMoved typed current)) :
    arrangementMoved stg.working.m5 doc asOf = some (typed, current) := by
  rcases Outcome.bind_eq_err_iff.1 h with h | ⟨_, -, h⟩
  · rcases gateWrite_eq_err h with h | h <;> cases h
  simp only [Outcome.bind_eq_err_iff, Outcome.refuseSome_eq_err_iff, Outcome.refuseIf_eq_err_iff,
    copySpecs_ne_moved, Staging.push_ne_err, Outcome.pure_eq, CopyError.arrangementMoved.injEq,
    reduceCtorEq, and_false, exists_false, or_false, false_or, Prod.exists] at h
  obtain ⟨-, -, _, _, hmoved, rfl, rfl⟩ := h
  exact hmoved

theorem reinstateRuns_ne_moved {w : World} {runs : List ShotRun} {placement : List Run}
    {typed current : ℕ} :
    reinstateRuns w runs placement ≠ .err (.arrangementMoved typed current) := by
  induction runs generalizing placement with
  | nil => simp [reinstateRuns]
  | cons shotRun runs ih =>
    intro h
    simp only [reinstateRuns, Outcome.bind_eq_err_iff, Outcome.refuseIf_eq_err_iff,
      Outcome.okOr_eq_err_iff, ih, reduceCtorEq, and_false, exists_false, or_false,
      false_or] at h
    obtain ⟨_, -, _, -, _, -, _, -, h⟩ := h
    cases placeCapped_eq_err h

theorem stageReinstateAt_eq_moved {stg : Staging World} {caller : Caller} {doc : Address}
    {pos : VPos} {runs : List ShotRun} {asOf : AsOf} {typed current : ℕ}
    (h : stageReinstateAt stg caller doc pos runs asOf = .err (.arrangementMoved typed current)) :
    arrangementMoved stg.working.m5 doc asOf = some (typed, current) := by
  rcases Outcome.bind_eq_err_iff.1 h with h | ⟨_, -, h⟩
  · rcases gateWrite_eq_err h with h | h <;> cases h
  simp only [Outcome.bind_eq_err_iff, Outcome.refuseSome_eq_err_iff, Outcome.refuseIf_eq_err_iff,
    reinstateRuns_ne_moved, Staging.push_ne_err, Outcome.pure_eq,
    ReinstateError.arrangementMoved.injEq, reduceCtorEq, and_false, exists_false, or_false, false_or,
    Prod.exists] at h
  obtain ⟨-, -, _, _, hmoved, rfl, rfl⟩ := h
  exact hmoved

theorem stageDeleteAt_eq_moved {stg : Staging World} {caller : Caller} {doc : Address}
    {pos : VPos} {width : ℕ} {asOf : AsOf} {typed current : ℕ}
    (h : stageDeleteAt stg caller doc pos width asOf = .err (.arrangementMoved typed current)) :
    arrangementMoved stg.working.m5 doc asOf = some (typed, current) := by
  rcases Outcome.bind_eq_err_iff.1 h with h | ⟨_, -, h⟩
  · rcases gateWrite_eq_err h with h | h <;> cases h
  simp only [Outcome.bind_eq_err_iff, Outcome.refuseSome_eq_err_iff, Outcome.refuseIf_eq_err_iff,
    Staging.push_ne_err, Outcome.pure_eq, DeleteError.arrangementMoved.injEq, reduceCtorEq,
    and_false, exists_false, or_false, false_or, Prod.exists] at h
  obtain ⟨-, -, _, _, hmoved, rfl, rfl⟩ := h
  exact hmoved

theorem rearrange_eq_moved {stg : Staging World} {caller : Caller} {doc : Address}
    {cuts : List VPos} {asOf : AsOf} {typed current : ℕ}
    (h : rearrange stg caller doc cuts asOf = .err (.arrangementMoved typed current)) :
    arrangementMoved stg.working.m5 doc asOf = some (typed, current) := by
  rcases Outcome.bind_eq_err_iff.1 h with h | ⟨_, -, h⟩
  · rcases gateWrite_eq_err h with h | h <;> cases h
  simp only [Outcome.bind_eq_err_iff, Outcome.refuseSome_eq_err_iff, Outcome.refuseIf_eq_err_iff,
    Outcome.okOr_eq_err_iff, Staging.push_ne_err, Outcome.pure_eq,
    RearrangeError.arrangementMoved.injEq, reduceCtorEq, and_false, exists_false, or_false, false_or,
    Prod.exists] at h
  obtain ⟨-, -, _, _, hmoved, rfl, rfl⟩ := h
  exact hmoved

end Vstream
