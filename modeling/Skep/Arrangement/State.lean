import Skep.Arrangement.Provenance
import Skep.Namespace.Chain

/-!
# The arrangement slice

Every document's content and link arrangement, what each has ever arranged, the
extent a chain's first version was born with, the terms of each shot, the
source of each fork, the commit each arrangement last moved at, and the base
each draft was last known to be edited from. Seven records move the slice.
-/

/-- A document's arrangements, by subspace. -/
@[ext] structure DocArrangement where
  content : RunList
  link : RunList
  deriving DecidableEq

def DocArrangement.empty : DocArrangement := ⟨RunList.empty, RunList.empty⟩

/-- The run-list of a subspace. -/
def DocArrangement.list (a : DocArrangement) (subspace : ℕ) : Option RunList :=
  if subspace = contentSubspace then some a.content
  else if subspace = linkSubspace then some a.link
  else none

/-- A reconciliation: what was reconciled, and how much of the head was copied. -/
structure Merge where
  sides : List Address
  head : Address
  headCopied : ℕ
  deriving DecidableEq

/-- A reconciliation as recorded, at the position that recorded it. -/
structure Marker where
  sides : List Address
  head : Address
  headCopied : ℕ
  pos : ℕ
  deriving DecidableEq

def Merge.ofMarker (m : Marker) : Merge := ⟨m.sides, m.head, m.headCopied⟩

def Merge.stamped (m : Merge) (seq : ℕ) : Marker := ⟨m.sides, m.head, m.headCopied, seq⟩

/-- What a draft is edited from. -/
structure DraftBase where
  base : Address
  extent : ℕ
  source : Address
  merge : Option Marker
  deriving DecidableEq

/-- What a shot placed, and the base extent it stated. -/
structure ShotTerms where
  placed : ℕ
  baseExtent : Option ℕ
  deriving DecidableEq

/-- The records of the arrangement slice. -/
inductive M5Rec where
  | contentPlace (doc : Address) (ordinal : ℕ) (runs : List Run)
  | contentRemove (doc : Address) (start width : ℕ)
  | contentReorder (doc : Address) (cutOrdinals : List ℕ)
  | linkSeat (doc link : Address)
  | versionSnapshot (source new : Address)
  | shotPlace (doc : Address) (runs : List Run) (terms : ShotTerms) (draft : Option Address)
  | draftBase (draft base : Address) (extent : ℕ) (source : Address) (merge : Option Merge)
  deriving DecidableEq

/-- The arrangement slice. -/
structure M5State where
  arrangements : OrdMap Address DocArrangement
  provenance : Provenance
  birthExtents : OrdMap Address ℕ
  shotTerms : OrdMap Address ShotTerms
  forkSources : OrdMap Address Address
  arrangedAt : OrdMap Address ℕ
  draftBases : OrdMap Address DraftBase

namespace M5State

def genesis : M5State :=
  ⟨OrdMap.empty, Provenance.empty, OrdMap.empty, OrdMap.empty, OrdMap.empty, OrdMap.empty,
    OrdMap.empty⟩

def arrangementOf (s : M5State) (doc : Address) : DocArrangement :=
  (s.arrangements.get doc).getD DocArrangement.empty

def contentList (s : M5State) (doc : Address) : RunList := (s.arrangementOf doc).content

def linkList (s : M5State) (doc : Address) : RunList := (s.arrangementOf doc).link

def arrangementsWithContent (s : M5State) (doc : Address) (f : RunList → RunList) :
    OrdMap Address DocArrangement :=
  let arr := s.arrangementOf doc
  s.arrangements.insert doc { arr with content := f arr.content }

def arrangementsWithLink (s : M5State) (doc : Address) (f : RunList → RunList) :
    OrdMap Address DocArrangement :=
  let arr := s.arrangementOf doc
  s.arrangements.insert doc { arr with link := f arr.link }

/-- Note what a chain's first version was born with, once. -/
def birthExtentsNoting (s : M5State) (doc : Address) (bornWith : ℕ) : OrdMap Address ℕ :=
  if isBirthVersion doc = false ∨ s.birthExtents.contains doc = true then s.birthExtents
  else s.birthExtents.insert doc bornWith

def birthExtent (s : M5State) (doc : Address) : Option ℕ := s.birthExtents.get doc

def forkSource (s : M5State) (doc : Address) : Option Address := s.forkSources.get doc

def draftBase (s : M5State) (draft : Address) : Option DraftBase := s.draftBases.get draft

/-- The entry of the draft a shot rendered moves to what the shot minted. -/
def draftBasesAfterShot (s : M5State) (doc : Address) (extent : ℕ) :
    Option Address → OrdMap Address DraftBase
  | some draft =>
      let source := ((s.draftBases.get draft).map DraftBase.source).getD doc
      s.draftBases.insert draft ⟨doc, extent, source, none⟩
  | none => s.draftBases

/-- Seat a link past the last one, where its address is a full position. -/
def arrangementsSeating (s : M5State) (doc link : Address) : OrdMap Address DocArrangement :=
  match Run.new link 1 with
  | .ok seated => s.arrangementsWithLink doc fun l => l.append seated
  | .err _ | .fault => s.arrangements

/-- Fold one record, `seq` being the position it commits at. -/
def applyM5 (s : M5State) (seq : ℕ) : M5Rec → M5State
  | .contentPlace doc ordinal runs =>
      { s with
        arrangements := s.arrangementsWithContent doc fun c => c.spliceIn ordinal runs
        provenance := s.provenance.append doc runs
        arrangedAt := s.arrangedAt.insert doc seq }
  | .shotPlace doc runs terms draft =>
      let content := (s.contentList doc).spliceIn 1 runs
      let s' := { s with
        birthExtents := s.birthExtentsNoting doc content.totalWidth
        shotTerms := s.shotTerms.insert doc terms
        draftBases := s.draftBasesAfterShot doc content.totalWidth draft
        arrangedAt := s.arrangedAt.insert doc seq }
      if runs.isEmpty then s'
      else
        { s' with
          arrangements := s.arrangementsWithContent doc fun _ => content
          provenance := s.provenance.append doc runs }
  | .contentRemove doc start width =>
      { s with
        arrangements := s.arrangementsWithContent doc fun c => c.removeRange start width
        arrangedAt := s.arrangedAt.insert doc seq }
  | .contentReorder doc cutOrdinals =>
      { s with
        arrangements := s.arrangementsWithContent doc fun c => c.reorder cutOrdinals
        arrangedAt := s.arrangedAt.insert doc seq }
  | .linkSeat doc link => { s with arrangements := s.arrangementsSeating doc link }
  | .versionSnapshot source new =>
      let content := s.contentList source
      let s' := { s with
        birthExtents := s.birthExtentsNoting new content.totalWidth
        forkSources := s.forkSources.insert new source
        arrangedAt := s.arrangedAt.insert new seq }
      if content.isEmpty then s'
      else
        { s' with
          arrangements := s.arrangements.insert new ⟨content, RunList.empty⟩
          provenance := s.provenance.append new content.runs }
  | .draftBase draft base extent source merge =>
      { s with
        draftBases :=
          s.draftBases.insert draft ⟨base, extent, source, merge.map fun m => m.stamped seq⟩ }

/-- Fold records in order, each at its own position. -/
def applyAll (s : M5State) (recs : List (ℕ × M5Rec)) : M5State :=
  recs.foldl (fun s r => s.applyM5 r.1 r.2) s

end M5State

/-- The arrangement a record moves. -/
def M5Rec.moves : M5Rec → Option Address
  | .contentPlace doc .. | .contentRemove doc .. | .contentReorder doc _ | .shotPlace doc .. =>
      some doc
  | .versionSnapshot _ new => some new
  | .linkSeat .. | .draftBase .. => none

/-- The runs a record states. -/
def M5Rec.stated : M5Rec → List Run
  | .contentPlace _ _ runs | .shotPlace _ runs _ _ => runs
  | _ => []

/-- A record that only adds to what a document arranges. -/
def M5Rec.Adds : M5Rec → Prop
  | .contentRemove .. | .contentReorder .. | .versionSnapshot .. => False
  | _ => True

namespace M5State

/-- The content a record leaves the arrangement it moves. -/
def contentAfter (s : M5State) : M5Rec → RunList
  | .contentPlace doc ordinal runs => (s.contentList doc).spliceIn ordinal runs
  | .contentRemove doc start width => (s.contentList doc).removeRange start width
  | .contentReorder doc cutOrdinals => (s.contentList doc).reorder cutOrdinals
  | .shotPlace doc runs _ _ =>
      if runs.isEmpty then s.contentList doc else (s.contentList doc).spliceIn 1 runs
  | .versionSnapshot source new =>
      if (s.contentList source).isEmpty then s.contentList new else s.contentList source
  | .linkSeat .. | .draftBase .. => RunList.empty

/-- The runs a record adds to the provenance of the arrangement it moves. -/
def placed (s : M5State) : M5Rec → List Run
  | .contentPlace _ _ runs | .shotPlace _ runs _ _ => runs
  | .versionSnapshot source _ => (s.contentList source).runs
  | .contentRemove .. | .contentReorder .. | .linkSeat .. | .draftBase .. => []

private theorem contentList_of_insert {s s' : M5State} {d : Address} {arr : DocArrangement}
    (h : s'.arrangements = s.arrangements.insert d arr) (doc : Address) :
    s'.contentList doc = if d = doc then arr.content else s.contentList doc := by
  rw [contentList, arrangementOf, h, OrdMap.get_insert]
  by_cases hd : doc = d
  · simp [hd]
  · simp [hd, Ne.symm hd, contentList, arrangementOf]

private theorem contentList_of_eq {s s' : M5State} (h : s'.arrangements = s.arrangements) :
    s'.contentList = s.contentList := by
  funext doc
  rw [contentList, arrangementOf, h, contentList, arrangementOf]

theorem contentList_applyM5 (s : M5State) (seq : ℕ) (r : M5Rec) (doc : Address) :
    (s.applyM5 seq r).contentList doc =
      if r.moves = some doc then s.contentAfter r else s.contentList doc := by
  cases r with
  | contentPlace d ordinal runs =>
    rw [contentList_of_insert rfl]
    simp [M5Rec.moves, contentAfter, contentList]
  | contentRemove d start width =>
    rw [contentList_of_insert rfl]
    simp [M5Rec.moves, contentAfter, contentList]
  | contentReorder d cutOrdinals =>
    rw [contentList_of_insert rfl]
    simp [M5Rec.moves, contentAfter, contentList]
  | shotPlace d runs terms draft =>
    by_cases hruns : runs.isEmpty = true
    · rw [applyM5, if_pos hruns, contentList_of_eq (s := s) rfl]
      simp only [M5Rec.moves, contentAfter, hruns, if_true, Option.some.injEq]
      split
      · next hd => rw [hd]; rfl
      · rfl
    · rw [applyM5, if_neg hruns, contentList_of_insert rfl]
      simp [M5Rec.moves, contentAfter, hruns]
  | linkSeat d link =>
    simp only [M5Rec.moves, reduceCtorEq, if_false, applyM5]
    cases hrun : Run.new link 1 with
    | ok seated =>
      rw [contentList_of_insert (s := s) (by rw [arrangementsSeating, hrun]; rfl)]
      split
      · next hd => rw [← hd]; rfl
      · rfl
    | err e => rw [contentList_of_eq (s := s) (by rw [arrangementsSeating, hrun])]
    | fault => rw [contentList_of_eq (s := s) (by rw [arrangementsSeating, hrun])]
  | versionSnapshot source new =>
    by_cases hempty : (s.contentList source).isEmpty = true
    · rw [applyM5, if_pos hempty, contentList_of_eq (s := s) rfl]
      simp only [M5Rec.moves, contentAfter, hempty, if_true, Option.some.injEq]
      split
      · next hd => rw [hd]; rfl
      · rfl
    · rw [applyM5, if_neg hempty, contentList_of_insert rfl]
      simp [M5Rec.moves, contentAfter, hempty]
  | draftBase draft base extent source merge => rfl

/-- The spans of every document's provenance after a record. -/
theorem everContained_applyM5 (s : M5State) (seq : ℕ) (r : M5Rec) (doc : Address) :
    ((s.applyM5 seq r).provenance.everContained doc).spans =
      (s.provenance.everContained doc).spans ++
        if r.moves = some doc then (s.placed r).map Run.iextent else [] := by
  cases r with
  | contentPlace d ordinal runs =>
    rw [applyM5, Provenance.spans_everContained_append]
    simp [M5Rec.moves, placed, eq_comm]
  | shotPlace d runs terms draft =>
    by_cases hruns : runs.isEmpty = true
    · rw [applyM5, if_pos hruns]
      simp [placed, List.isEmpty_iff.1 hruns]
    · rw [applyM5, if_neg hruns, Provenance.spans_everContained_append]
      simp [M5Rec.moves, placed, eq_comm]
  | versionSnapshot source new =>
    by_cases hempty : (s.contentList source).isEmpty = true
    · rw [applyM5, if_pos hempty]
      simp [placed, List.isEmpty_iff.1 hempty]
    · rw [applyM5, if_neg hempty, Provenance.spans_everContained_append]
      simp [M5Rec.moves, placed, eq_comm]
  | contentRemove d start width => simp [applyM5, placed]
  | contentReorder d cutOrdinals => simp [applyM5, placed]
  | linkSeat d link => simp [applyM5, M5Rec.moves]
  | draftBase draft base extent source merge => simp [applyM5, M5Rec.moves]

/-- The last position each arrangement moved at, after a record. -/
theorem arrangedAt_applyM5 (s : M5State) (seq : ℕ) (r : M5Rec) (doc : Address) :
    (s.applyM5 seq r).arrangedAt.get doc =
      if r.moves = some doc then some seq else s.arrangedAt.get doc := by
  cases r with
  | shotPlace d runs terms draft =>
    rw [applyM5]
    split <;> simp [M5Rec.moves, OrdMap.get_insert, eq_comm]
  | versionSnapshot source new =>
    rw [applyM5]
    split <;> simp [M5Rec.moves, OrdMap.get_insert, eq_comm]
  | _ => simp [applyM5, M5Rec.moves, OrdMap.get_insert, eq_comm]

/-- The arrangement whose birth a record may note, and the extent it is born with. -/
def born (s : M5State) : M5Rec → Option (Address × ℕ)
  | .shotPlace doc runs _ _ => some (doc, ((s.contentList doc).spliceIn 1 runs).totalWidth)
  | .versionSnapshot source new => some (new, (s.contentList source).totalWidth)
  | _ => none

theorem birthExtentsNoting_get (s : M5State) (doc : Address) (n : ℕ) (m : Address) :
    (s.birthExtentsNoting doc n).get m = s.birthExtent m ∨
      (m = doc ∧ s.birthExtent m = none ∧ isBirthVersion m = true ∧
        (s.birthExtentsNoting doc n).get m = some n) := by
  rw [birthExtentsNoting]
  split
  · exact .inl rfl
  · next h =>
    rw [not_or, Bool.not_eq_false, Bool.not_eq_true] at h
    by_cases hm : m = doc
    · subst hm
      have hnone : s.birthExtent m = none := by
        have hc := h.2
        rw [OrdMap.contains, Option.isSome_eq_false_iff, Option.isNone_iff_eq_none] at hc
        exact hc
      exact .inr ⟨rfl, hnone, h.1, by rw [OrdMap.get_insert_self]⟩
    · exact .inl (OrdMap.get_insert_of_ne _ _ hm)

/-- A birth extent is noted once, of a chain's first version. -/
theorem birthExtent_applyM5 (s : M5State) (seq : ℕ) (r : M5Rec) (m : Address) :
    (s.applyM5 seq r).birthExtent m = s.birthExtent m ∨
      ∃ n, s.born r = some (m, n) ∧ s.birthExtent m = none ∧ isBirthVersion m = true ∧
        (s.applyM5 seq r).birthExtent m = some n := by
  cases r with
  | shotPlace doc runs terms draft =>
    have hget : (s.applyM5 seq (.shotPlace doc runs terms draft)).birthExtent m =
        (s.birthExtentsNoting doc ((s.contentList doc).spliceIn 1 runs).totalWidth).get m := by
      rw [applyM5]
      split <;> rfl
    rw [hget]
    rcases s.birthExtentsNoting_get doc ((s.contentList doc).spliceIn 1 runs).totalWidth m with
      h | ⟨rfl, hnone, hbirth, h⟩
    · exact .inl h
    · exact .inr ⟨_, rfl, hnone, hbirth, h⟩
  | versionSnapshot source new =>
    have hget : (s.applyM5 seq (.versionSnapshot source new)).birthExtent m =
        (s.birthExtentsNoting new (s.contentList source).totalWidth).get m := by
      rw [applyM5]
      split <;> rfl
    rw [hget]
    rcases s.birthExtentsNoting_get new (s.contentList source).totalWidth m with
      h | ⟨rfl, hnone, hbirth, h⟩
    · exact .inl h
    · exact .inr ⟨_, rfl, hnone, hbirth, h⟩
  | _ => exact .inl rfl

theorem draftBase_applyM5 (s : M5State) (seq : ℕ) (r : M5Rec) (d : Address) :
    (s.applyM5 seq r).draftBase d =
      match r with
      | .draftBase draft base extent source merge =>
          if d = draft then some ⟨base, extent, source, merge.map fun m => m.stamped seq⟩
          else s.draftBase d
      | .shotPlace doc runs _ (some draft) =>
          if d = draft then
            some ⟨doc, ((s.contentList doc).spliceIn 1 runs).totalWidth,
              ((s.draftBase draft).map DraftBase.source).getD doc, none⟩
          else s.draftBase d
      | _ => s.draftBase d := by
  cases r with
  | draftBase draft base extent source merge =>
    simp only [applyM5, M5State.draftBase, OrdMap.get_insert]
  | shotPlace doc runs terms draft =>
    have hget : (s.applyM5 seq (.shotPlace doc runs terms draft)).draftBase d =
        (s.draftBasesAfterShot doc ((s.contentList doc).spliceIn 1 runs).totalWidth draft).get d := by
      rw [applyM5]
      split <;> rfl
    rw [hget]
    cases draft with
    | none => rfl
    | some draft => simp only [draftBasesAfterShot, OrdMap.get_insert, M5State.draftBase]
  | versionSnapshot source new =>
    rw [applyM5]
    split <;> rfl
  | _ => rfl

theorem linkList_applyM5 (s : M5State) (seq : ℕ) (r : M5Rec) (d : Address) :
    (s.applyM5 seq r).linkList d = s.linkList d ∨
      (∃ link run, r = .linkSeat d link ∧ (s.applyM5 seq r).linkList d = (s.linkList d).append run) ∨
      ∃ source, r = .versionSnapshot source d ∧ (s.applyM5 seq r).linkList d = RunList.empty := by
  have hinsert : ∀ {s' : M5State} {doc : Address} {arr : DocArrangement},
      s'.arrangements = s.arrangements.insert doc arr →
        s'.linkList d = if d = doc then arr.link else s.linkList d := by
    intro s' doc arr h
    rw [linkList, arrangementOf, h, OrdMap.get_insert]
    split <;> rfl
  have hkept : ∀ {s' : M5State} {doc : Address} {arr : DocArrangement},
      s'.arrangements = s.arrangements.insert doc arr → arr.link = s.linkList doc →
        s'.linkList d = s.linkList d := by
    intro s' doc arr h harr
    rw [hinsert h, harr]
    split
    · next hd => rw [hd]
    · rfl
  cases r with
  | contentPlace doc ordinal runs => exact .inl (hkept rfl rfl)
  | contentRemove doc start width => exact .inl (hkept rfl rfl)
  | contentReorder doc cutOrdinals => exact .inl (hkept rfl rfl)
  | shotPlace doc runs terms draft =>
    rw [applyM5]
    split
    · exact .inl rfl
    · exact .inl (hkept rfl rfl)
  | linkSeat doc link =>
    cases hrun : Run.new link 1 with
    | ok seated =>
      have h := @hinsert (s.applyM5 seq (.linkSeat doc link)) _ _ (by
        rw [applyM5, arrangementsSeating, hrun]
        rfl)
      split at h
      · next hd =>
        subst hd
        exact .inr (.inl ⟨link, seated, rfl, h⟩)
      · exact .inl h
    | err e => exact .inl (by simp only [applyM5, arrangementsSeating, hrun, linkList, arrangementOf])
    | fault => exact .inl (by simp only [applyM5, arrangementsSeating, hrun, linkList, arrangementOf])
  | versionSnapshot source new =>
    rw [applyM5]
    split
    · exact .inl rfl
    · rw [hinsert rfl]
      split
      · next hd => exact .inr (.inr ⟨source, by rw [hd], rfl⟩)
      · exact .inl rfl
  | draftBase draft base extent source merge => exact .inl rfl

end M5State
