import Skep.Ops.Edit

/-!
# Landings

A landing replaces the whole content of a document by the runs a client states,
and may restate the base a draft is edited from. It stages the removal of what
stands, the placement of the runs and the base, in one transaction.
-/

inductive SetArrangementError where
  | docNotRegistered
  | notOwner (a : Address)
  | publishedTarget
  | arrangementMoved (asOf current : ℕ)
  | baseNotInChain
  | baseExtentTooLarge
  | forkBaseMoved (source : Address)
  | noBaseToRecord
  | badRun
  | sourceNotRegistered
  | danglingSource
  | tooManyRuns
  deriving DecidableEq

/-- What a landing states: its runs, the head it copied, the base it records and
the sides it reconciles. -/
structure SetArrangement where
  runs : List ShotRun
  head : Option Base
  base : Option Base
  merge : Option (List Address)
  deriving DecidableEq

namespace Vstream

def inChain (member trunk : Address) : Bool := member == trunk || trunkOf member == trunk

def judgeRegistration (m3 : M3State) (pair : Base) : Outcome SetArrangementError Unit :=
  Outcome.refuseIf (m3.isRegisteredDocument pair.member = false) .sourceNotRegistered

/-- A stated pair names a registered member of the chain and no more than it holds. -/
def judgePair (m3 : M3State) (m5 : M5State) (pair : Base) (trunk : Address) :
    Outcome SetArrangementError Unit := do
  judgeRegistration m3 pair
  Outcome.refuseIf (inChain pair.member trunk = false) .baseNotInChain
  Outcome.refuseIf (m5.contentCount pair.member < pair.extent) .baseExtentTooLarge

/-- The removal's verdicts. The whole content of a document meets no shape verdict. -/
def ofDelete {α : Type} : Outcome DeleteError α → Outcome SetArrangementError α
  | .ok a => .ok a
  | .err .docNotRegistered => .err .docNotRegistered
  | .err (.notOwner a) => .err (.notOwner a)
  | .err .publishedTarget => .err .publishedTarget
  | .err (.arrangementMoved asOf current) => .err (.arrangementMoved asOf current)
  | .err .notContentSubspace => .fault
  | .err .notArranged => .fault
  | .err .outOfBounds => .fault
  | .err .emptyWidth => .fault
  | .fault => .fault

/-- The placement's verdicts. A placement at the first ordinal meets no shape verdict. -/
def ofReinstate {α : Type} : Outcome ReinstateError α → Outcome SetArrangementError α
  | .ok a => .ok a
  | .err .docNotRegistered => .err .docNotRegistered
  | .err (.notOwner a) => .err (.notOwner a)
  | .err .publishedTarget => .err .publishedTarget
  | .err (.arrangementMoved asOf current) => .err (.arrangementMoved asOf current)
  | .err .badRun => .err .badRun
  | .err .sourceNotRegistered => .err .sourceNotRegistered
  | .err .danglingSource => .err .danglingSource
  | .err .tooManyRuns => .err .tooManyRuns
  | .err .notContentSubspace => .fault
  | .err .outOfBounds => .fault
  | .err .emptyResult => .fault
  | .fault => .fault

/-- The published document a fork without a recorded base was taken from. -/
def publishedForkSource (w : World) (doc : Address) : Option Address :=
  match w.m5.draftBase doc, w.m5.forkSource doc with
  | none, some source => if publishedTarget w.m3 source = true then some source else none
  | _, _ => none

/-- The head a landing copied is judged against the chain it is drawn from. -/
def judgeHead (w : World) (doc : Address) (head : Base) : Outcome SetArrangementError Unit := do
  let forkSource := publishedForkSource w doc
  let chain := ((w.m5.draftBase doc).map fun b => trunkOf b.base).orElse fun _ =>
    forkSource.map trunkOf
  match chain with
  | some chain => judgePair w.m3 w.m5 head chain
  | none => judgeRegistration w.m3 head
  Outcome.refuseSome (forkSource.filter fun source => source ≠ head.member) .forkBaseMoved

/-- The base a landing records is judged against the chain of the one that stands. -/
def judgeBase (w : World) (doc : Address) (base : Base) : Outcome SetArrangementError Unit := do
  let standing ← Outcome.okOr (w.m5.draftBase doc) .noBaseToRecord
  judgePair w.m3 w.m5 base (trunkOf standing.base)

/-- Judge the part of a request that is there. -/
def judgeStated (stated : Option Base) (judge : Base → Outcome SetArrangementError Unit) :
    Outcome SetArrangementError Unit :=
  match stated with
  | some pair => judge pair
  | none => return ()

/-- The reconciliation a landing records. -/
def recordedMerge (request : SetArrangement) : Option Merge :=
  match request.head, request.merge with
  | some head, some sides => some ⟨sides, head.member, head.extent⟩
  | _, _ => none

/-- Remove all a document arranges. -/
def stageClear (stg : Staging World) (caller : Caller) (doc : Address) (count : ℕ) :
    Outcome SetArrangementError (Staging World) :=
  if count = 0 then return stg
  else do
    let ((), stg) ← ofDelete (stageDeleteAt stg caller doc (.content 1) count .unchecked)
    return stg

/-- Place the runs a landing states. -/
def stageFill (stg : Staging World) (caller : Caller) (doc : Address) (runs : List ShotRun) :
    Outcome SetArrangementError (Staging World) :=
  if runs = [] then return stg
  else do
    let ((), stg) ← ofReinstate (stageReinstateAt stg caller doc (.content 1) runs .unchecked)
    return stg

/-- Record the base a landing states. -/
def stageBase (stg : Staging World) (doc : Address) (request : SetArrangement)
    (standing : Option DraftBase) : Outcome SetArrangementError (Staging World) :=
  match request.base, standing with
  | some base, some standing =>
      stg.push (Record.arrangement
        (.draftBase doc base.member base.extent standing.source (recordedMerge request)))
  | _, _ => return stg

def stageSetArrangement (stg : Staging World) (caller : Caller) (doc : Address)
    (request : SetArrangement) (asOf : AsOf) :
    Outcome SetArrangementError (Option Address × Staging World) := do
  let w := stg.working
  gateWrite w.m3 caller doc .docNotRegistered .notOwner
  Outcome.refuseIf (publishedTarget w.m3 doc = true) .publishedTarget
  Outcome.refuseSome (arrangementMoved w.m5 doc asOf) fun p => .arrangementMoved p.1 p.2
  judgeStated request.head (judgeHead w doc)
  judgeStated request.base (judgeBase w doc)
  let headMoved := request.head.bind fun head =>
    (trunkHead w.m3 head.member).filter fun current => current ≠ head.member
  let standing := w.m5.draftBase doc
  let stg ← stageClear stg caller doc (w.m5.contentCount doc)
  let stg ← stageFill stg caller doc request.runs
  let stg ← stageBase stg doc request standing
  return (headMoved, stg)

theorem inChain_iff {member trunk : Address} :
    inChain member trunk = true ↔ member = trunk ∨ trunkOf member = trunk := by
  simp [inChain]

/-- A pair judged against a chain names a registered member of it. -/
theorem judgePair_eq_ok {m3 : M3State} {m5 : M5State} {pair : Base} {trunk : Address} {u : Unit}
    (h : judgePair m3 m5 pair trunk = .ok u) : m3.isRegisteredDocument pair.member = true ∧
      (pair.member = trunk ∨ trunkOf pair.member = trunk) ∧
      pair.extent ≤ m5.contentCount pair.member := by
  simp only [judgePair, judgeRegistration, Outcome.bind_eq_ok_iff, Outcome.refuseIf_eq_ok_iff,
    exists_const, Bool.not_eq_false, not_lt, inChain_iff] at h
  exact h

@[simp] theorem ofDelete_eq_ok_iff {α : Type} {x : Outcome DeleteError α} {a : α} :
    ofDelete x = .ok a ↔ x = .ok a := by
  cases x with
  | ok b => simp [ofDelete]
  | err e => cases e <;> simp [ofDelete]
  | fault => simp [ofDelete]

@[simp] theorem ofReinstate_eq_ok_iff {α : Type} {x : Outcome ReinstateError α} {a : α} :
    ofReinstate x = .ok a ↔ x = .ok a := by
  cases x with
  | ok b => simp [ofReinstate]
  | err e => cases e <;> simp [ofReinstate]
  | fault => simp [ofReinstate]

/-- The records of one step of a landing, each as `P` has it. -/
def Stages (w : World) (stated : Option Base) (doc : Address) (P : M5Rec → Prop) (stg stg' : Staging World) : Prop :=
  ∃ recs : List M5Rec, stg.Pushed (recs.map Record.arrangement) stg' ∧
    ∀ r ∈ recs, Edits w [] stated doc r ∧ P r

theorem Stages.refl (w : World) (stated : Option Base) (doc : Address) (P : M5Rec → Prop)
    (stg : Staging World) : Stages w stated doc P stg stg :=
  ⟨[], .nil _, by simp⟩

theorem Stages.trans {w : World} {stated : Option Base} {doc : Address} {P : M5Rec → Prop}
    {stg mid stg' : Staging World} (h : Stages w stated doc P stg mid)
    (h' : Stages w stated doc P mid stg') : Stages w stated doc P stg stg' := by
  obtain ⟨recs, hrecs, hall⟩ := h
  obtain ⟨recs', hrecs', hall'⟩ := h'
  refine ⟨recs ++ recs', ?_, fun r hr => (List.mem_append.1 hr).elim (hall r) (hall' r)⟩
  rw [List.map_append]
  exact hrecs.append hrecs'

theorem Stages.of_push {ε : Type} {w : World} {stated : Option Base} {doc : Address}
    {P : M5Rec → Prop} {stg stg' : Staging World} {r : M5Rec} (hr : Edits w [] stated doc r) (hP : P r)
    (h : (stg.push (Record.arrangement r) : Outcome ε (Staging World)) = .ok stg') :
    Stages w stated doc P stg stg' :=
  ⟨[r], Staging.pushed_of_push h, by simpa using ⟨hr, hP⟩⟩

/-- Arrangement records leave the content store alone. -/
theorem Stages.content_eq {w : World} {stated : Option Base} {doc : Address} {P : M5Rec → Prop}
    {stg stg' : Staging World} (h : Stages w stated doc P stg stg') : stg'.working.content = stg.working.content := by
  obtain ⟨recs, hrecs, -⟩ := h
  rw [World.pushed_content hrecs, List.filterMap_map]
  have hnone : recs.filterMap (Record.content? ∘ Record.arrangement) = [] :=
    List.filterMap_eq_nil_iff.2 fun _ _ => rfl
  rw [hnone]
  rfl

theorem stageClear_stages {w : World} (stated : Option Base) {stg stg' : Staging World} {caller : Caller} {doc : Address}
    {count : ℕ} (h : stageClear stg caller doc count = .ok stg') :
    Stages w stated doc (fun r => r.stated = []) stg stg' := by
  rw [stageClear] at h
  split at h
  · cases h
    exact .refl _ _ _ _ _
  · simp only [Outcome.bind_eq_ok_iff, ofDelete_eq_ok_iff, Outcome.pure_eq, Outcome.ok.injEq,
      Prod.exists] at h
    obtain ⟨u, mid, hdelete, rfl⟩ := h
    exact .of_push (.remove _ _) rfl (stageDeleteAt_pushes hdelete).2.2.2

theorem stageFill_stages {w : World} {stated : Option Base} {stg stg' : Staging World} {caller : Caller} {doc : Address}
    {runs : List ShotRun} (hw : stg.working.content = w.content)
    (h : stageFill stg caller doc runs = .ok stg') : Stages w stated doc M5Rec.Adds stg stg' := by
  rw [stageFill] at h
  split at h
  · cases h
    exact .refl _ _ _ _ _
  · simp only [Outcome.bind_eq_ok_iff, ofReinstate_eq_ok_iff, Outcome.pure_eq, Outcome.ok.injEq,
      Prod.exists] at h
    obtain ⟨u, mid, hreinstate, rfl⟩ := h
    obtain ⟨-, -, -, placement, hstored, hpush⟩ := stageReinstateAt_pushes hreinstate
    refine .of_push (.place _ fun x hx => ?_) trivial hpush
    obtain ⟨b, hb⟩ := hstored x hx
    exact supplied_of_bytesAt (hw ▸ hb)

theorem stageBase_stages {w : World} {stg stg' : Staging World} {doc : Address}
    {request : SetArrangement} {u : Unit}
    (hjudge : judgeStated request.base (judgeBase w doc) = .ok u)
    (h : stageBase stg doc request (w.m5.draftBase doc) = .ok stg') :
    Stages w request.base doc M5Rec.Adds stg stg' := by
  unfold stageBase at h
  split at h
  · next base standing hbase hstanding =>
    simp only [judgeStated, hbase, judgeBase, Outcome.bind_eq_ok_iff, Outcome.okOr_eq_ok_iff,
      hstanding, Option.some.injEq, exists_eq_left'] at hjudge
    obtain ⟨hreg, hchain, hextent⟩ := judgePair_eq_ok hjudge
    refine .of_push (.base _ _ hbase hstanding hreg ?_ hextent) trivial h
    rcases hchain with hchain | hchain
    · rw [hchain, trunkOf_trunkOf]
    · exact hchain
  · cases h
    exact .refl _ _ _ _ _

theorem stageSetArrangement_eq_ok {stg stg' : Staging World} {caller : Caller} {doc : Address}
    {request : SetArrangement} {asOf : AsOf} {headMoved : Option Address}
    (h : stageSetArrangement stg caller doc request asOf = .ok (headMoved, stg')) :
    stg.working.m3.isRegisteredDocument doc = true ∧
      arrangementMoved stg.working.m5 doc asOf = none ∧
      ∃ recs, stg.Pushed recs stg' ∧ Effect stg.working (request.base.map fun _ => doc) recs := by
  simp only [stageSetArrangement, Outcome.bind_eq_ok_iff, gateWrite_eq_ok_iff,
    Outcome.refuseSome_eq_ok_iff, Outcome.refuseIf_eq_ok_iff, Outcome.pure_eq, Outcome.ok.injEq,
    Prod.mk.injEq, exists_const, Bool.not_eq_true] at h
  obtain ⟨⟨hreg, -⟩, hprivate, hmoved, u, -, v, hbase, cleared, hclear, filled, hfill, based, hstage,
    -, rfl⟩ := h
  have hcleared := stageClear_stages (w := stg.working) request.base hclear
  have hfilled := (stageFill_stages hcleared.content_eq hfill).trans (stageBase_stages hbase hstage)
  obtain ⟨clear, hclears, hclear⟩ := hcleared
  obtain ⟨fill, hfills, hfill⟩ := hfilled
  have hpushed := hclears.append hfills
  rw [← List.map_append] at hpushed
  refine ⟨hreg, hmoved, _, hpushed, effect_of_edits hreg hprivate (fun r hr => ?_)
    (fun r hr => (hclear r hr).2) fun r hr => (hfill r hr).2⟩
  exact (List.mem_append.1 hr).elim (fun hr => (hclear r hr).1) fun hr => (hfill r hr).1

theorem arrangementMoved_unchecked (m5 : M5State) (doc : Address) :
    arrangementMoved m5 doc .unchecked = none := rfl

theorem ofDelete_eq_moved {α : Type} {x : Outcome DeleteError α} {typed current : ℕ}
    (h : ofDelete x = .err (.arrangementMoved typed current)) :
    x = .err (.arrangementMoved typed current) := by
  cases x with
  | ok a => cases h
  | err e => cases e <;> cases h; rfl
  | fault => cases h

theorem ofReinstate_eq_moved {α : Type} {x : Outcome ReinstateError α} {typed current : ℕ}
    (h : ofReinstate x = .err (.arrangementMoved typed current)) :
    x = .err (.arrangementMoved typed current) := by
  cases x with
  | ok a => cases h
  | err e => cases e <;> cases h; rfl
  | fault => cases h

section Moved

variable {stg : Staging World} {caller : Caller} {doc : Address} {typed current : ℕ}

theorem stageClear_ne_moved {count : ℕ} :
    stageClear stg caller doc count ≠ .err (.arrangementMoved typed current) := by
  intro h
  rw [stageClear] at h
  split at h
  · cases h
  · rcases Outcome.bind_eq_err_iff.1 h with h | ⟨_, -, h⟩
    · have := stageDeleteAt_eq_moved (ofDelete_eq_moved h)
      rw [arrangementMoved_unchecked] at this
      cases this
    · cases h

/-- An unchecked placement is never refused as stale. -/
theorem stageFill_ne_moved {runs : List ShotRun} :
    stageFill stg caller doc runs ≠ .err (.arrangementMoved typed current) := by
  intro h
  rw [stageFill] at h
  split at h
  · cases h
  · rcases Outcome.bind_eq_err_iff.1 h with h | ⟨_, -, h⟩
    · have := stageReinstateAt_eq_moved (ofReinstate_eq_moved h)
      rw [arrangementMoved_unchecked] at this
      cases this
    · cases h

theorem stageBase_ne_err {request : SetArrangement} {standing : Option DraftBase}
    {e : SetArrangementError} : stageBase stg doc request standing ≠ .err e := by
  unfold stageBase
  split
  · exact Staging.push_ne_err
  · simp

theorem judgePair_ne_moved {m3 : M3State} {m5 : M5State} {pair : Base} {trunk : Address} :
    judgePair m3 m5 pair trunk ≠ .err (.arrangementMoved typed current) := by
  simp [judgePair, judgeRegistration, Outcome.bind_eq_err_iff]

theorem judgeHead_ne_moved {w : World} {head : Base} :
    judgeHead w doc head ≠ .err (.arrangementMoved typed current) := by
  intro h
  simp only [judgeHead] at h
  split at h
  · simp [Outcome.bind_eq_err_iff, judgePair_ne_moved] at h
  · simp [Outcome.bind_eq_err_iff, judgeRegistration] at h

theorem judgeBase_ne_moved {w : World} {base : Base} :
    judgeBase w doc base ≠ .err (.arrangementMoved typed current) := by
  simp [judgeBase, Outcome.bind_eq_err_iff, judgePair_ne_moved]

theorem stageSetArrangement_eq_moved {request : SetArrangement} {asOf : AsOf}
    (h : stageSetArrangement stg caller doc request asOf =
      .err (.arrangementMoved typed current)) :
    arrangementMoved stg.working.m5 doc asOf = some (typed, current) := by
  have hhead : judgeStated request.head (judgeHead stg.working doc) ≠
      .err (.arrangementMoved typed current) := by
    cases request.head with
    | none => simp [judgeStated]
    | some head => exact judgeHead_ne_moved
  have hbase : judgeStated request.base (judgeBase stg.working doc) ≠
      .err (.arrangementMoved typed current) := by
    cases request.base with
    | none => simp [judgeStated]
    | some base => exact judgeBase_ne_moved
  rcases Outcome.bind_eq_err_iff.1 h with h | ⟨_, -, h⟩
  · rcases gateWrite_eq_err h with h | h <;> cases h
  simp only [Outcome.bind_eq_err_iff, Outcome.refuseSome_eq_err_iff, Outcome.refuseIf_eq_err_iff,
    hhead, hbase, stageClear_ne_moved, stageFill_ne_moved, stageBase_ne_err, Outcome.pure_eq,
    SetArrangementError.arrangementMoved.injEq, reduceCtorEq, and_false, exists_false, or_false,
    false_or, Prod.exists] at h
  obtain ⟨-, -, _, _, hmoved, rfl, rfl⟩ := h
  exact hmoved

end Moved

end Vstream
