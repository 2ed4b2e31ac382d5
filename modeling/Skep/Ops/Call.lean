import Skep.Ops.SetArrangement
import Skep.Ops.Fork
import Skep.Ops.Publish
import Skep.Namespace.Ownership

/-!
# The calls of a board

The operations on documents, the creation of nodes, accounts and documents, and
the part of a link's creation that moves these slices: its mint and its seat.
-/

inductive SeatError where
  | notLinkAddress
  | notHomeLink
  | alreadySeated
  deriving DecidableEq

/-- Seat a link in its home document, once. -/
def stageSeatLink (m5 : M5State) (doc link : Address) : Outcome SeatError M5Rec := do
  Outcome.refuseIf (Run.admitsStart link = false ∨ link.subspace ≠ some linkSubspace) .notLinkAddress
  Outcome.refuseIf (documentOf link ≠ some doc) .notHomeLink
  Outcome.refuseIf (m5.seatsLink doc link = true) .alreadySeated
  return .linkSeat doc link

inductive LinkError where
  | mint (e : MintError)
  | seat (e : SeatError)
  deriving DecidableEq

/-- Mint the next link address of a home document, and seat it. -/
def stageLink (stg : Staging World) (home : Address) : Outcome LinkError (Address × Staging World) := do
  let (link, m3rec) ← (stg.working.m3.mintLink home).mapErr .mint
  let stg ← stg.push (Record.namespaceRec m3rec)
  let seat ← (stageSeatLink stg.working.m5 home link).mapErr .seat
  let stg ← stg.push (Record.arrangement seat)
  return (link, stg)

/-- Why a call was refused. -/
inductive Refusal where
  | insert (e : InsertError)
  | copy (e : CopyError)
  | reinstate (e : ReinstateError)
  | delete (e : DeleteError)
  | rearrange (e : RearrangeError)
  | setArrangement (e : SetArrangementError)
  | version (e : VersionError)
  | stage (e : StageError)
  | publish (e : PublishError)
  | link (e : LinkError)
  | ofNamespace (e : NamespaceError)

inductive Call where
  | insert (caller : Caller) (doc : Address) (pos : VPos) (values : List Val) (deposit : Deposit)
      (asOf : AsOf)
  | copy (caller : Caller) (doc : Address) (pos : VPos) (specs : List VSpec) (asOf : AsOf)
  | reinstate (caller : Caller) (doc : Address) (pos : VPos) (runs : List ShotRun) (asOf : AsOf)
  | delete (caller : Caller) (doc : Address) (pos : VPos) (width : ℕ) (asOf : AsOf)
  | rearrange (caller : Caller) (doc : Address) (cuts : List VPos) (asOf : AsOf)
  | setArrangement (caller : Caller) (doc : Address) (request : SetArrangement) (asOf : AsOf)
  | version (principal : PrincipalId) (source : Address) (published : Option Bool)
  | stage (principal : PrincipalId) (source : Address)
  | publish (caller : Caller) (doc : Address) (shot : Shot) (readable : World → Address → Bool)
  | makeLink (home : Address)
  | ofNamespace (call : NamespaceCall)

/-- What a transaction leaves staged. -/
def staged {ε α : Type} (x : Outcome ε (α × Staging World)) (refuse : ε → Refusal) :
    Outcome Refusal (Unit × Staging World) := do
  let (_, stg) ← x.mapErr refuse
  return ((), stg)

/-- Stage the records of an operation of the namespace. -/
def stageNamespace (snapshot : World) (stg : Staging World) (call : NamespaceCall) :
    Outcome NamespaceError (Address × Staging World) := do
  let (addr, recs) ← call.recs snapshot.m3 stg.base.m3 stg.working.m3
  let stg ← stg.pushAll (recs.map Record.namespaceRec)
  return (addr, stg)

/-- A call's transaction, `snapshot` being the world it found before. -/
def Call.perform (snapshot : World) (stg : Staging World) :
    Call → Outcome Refusal (Unit × Staging World)
  | insert caller doc pos values deposit asOf =>
      staged (Vstream.insert stg caller doc pos values deposit asOf) .insert
  | copy caller doc pos specs asOf => staged (Vstream.copy stg caller doc pos specs asOf) .copy
  | reinstate caller doc pos runs asOf =>
      staged (Vstream.stageReinstateAt stg caller doc pos runs asOf) .reinstate
  | delete caller doc pos width asOf =>
      staged (Vstream.stageDeleteAt stg caller doc pos width asOf) .delete
  | rearrange caller doc cuts asOf =>
      staged (Vstream.rearrange stg caller doc cuts asOf) .rearrange
  | setArrangement caller doc request asOf =>
      staged (Vstream.stageSetArrangement stg caller doc request asOf) .setArrangement
  | version principal source published =>
      staged (Vstream.version snapshot stg principal source published) .version
  | stage principal source => staged (Vstream.stage snapshot stg principal source) .stage
  | publish caller doc shot readable =>
      staged (Vstream.stagePublish stg caller doc shot readable) .publish
  | makeLink home => staged (stageLink stg home) .link
  | ofNamespace call => staged (stageNamespace snapshot stg call) .ofNamespace

@[simp] theorem staged_eq_ok_iff {ε α : Type} {x : Outcome ε (α × Staging World)}
    {refuse : ε → Refusal} {u : Unit} {stg : Staging World} :
    staged x refuse = .ok (u, stg) ↔ ∃ a, x = .ok (a, stg) := by
  simp [staged, Outcome.bind_eq_ok_iff]

theorem stageLink_effect {stg stg' : Staging World} {home link : Address}
    (h : stageLink stg home = .ok (link, stg')) :
    ∃ recs, stg.Pushed recs stg' ∧ Effect stg.working none recs := by
  simp only [stageLink, stageSeatLink, Outcome.bind_eq_ok_iff, Outcome.mapErr_eq_ok_iff,
    Outcome.refuseIf_eq_ok_iff, Outcome.pure_eq, Outcome.ok.injEq, Prod.exists, Prod.mk.injEq,
    exists_const] at h
  obtain ⟨a, r, hmint, mid, hpush, _, ⟨-, -, -, rfl⟩, last, hseat, rfl, rfl⟩ := h
  obtain ⟨hhome, rfl, hns, -⟩ := M3State.mintLink_eq_ok hmint
  have hlv := (M3State.element_of_namespaceOf (level_of_registered hhome)
    (show linkSubspace ≠ 0 by decide) (M3State.linkNs_comps home) rfl hns).2.1
  exact ⟨_, (Staging.pushed_of_push hpush).append (Staging.pushed_of_push hseat), .seat hhome hlv⟩

/-- The calls that record the base of a draft: the one that mints it, a landing on
it that states a base, a shot it renders. -/
inductive Call.Installs (recs : List Record) : Call → Address → Prop
  | stage (principal : PrincipalId) (source : Address) {draft : Address}
      (h : Record.namespaceRec (.allocate draft false) ∈ recs) :
      Installs recs (.stage principal source) draft
  | landing (caller : Caller) (draft : Address) {request : SetArrangement} (asOf : AsOf)
      {base : Base} (h : request.base = some base) :
      Installs recs (.setArrangement caller draft request asOf) draft
  | shot (caller : Caller) (doc : Address) {shot : Shot} (readable : World → Address → Bool)
      {draft : Address} (h : shot.draft = some draft) :
      Installs recs (.publish caller doc shot readable) draft

/-- What an accepted call stages over the newest world. -/
theorem Call.effect {snapshot w : World} {first : ℕ} {stg : Staging World} {c : Call} {u : Unit}
    (hgrows : snapshot.m3.Grows w.m3) (h : c.perform snapshot (.start w first) = .ok (u, stg)) :
    ∃ inst recs, (Staging.start w first).Pushed recs stg ∧ Effect w inst recs ∧
      ∀ d, inst = some d → c.Installs recs d := by
  -- all but three calls record no base
  have hnone : ∀ {x : Staging World}, (∃ recs, (Staging.start w first).Pushed recs x ∧
      Effect w none recs) → ∃ inst recs, (Staging.start w first).Pushed recs x ∧
        Effect w inst recs ∧ ∀ d, inst = some d → c.Installs recs d := by
    rintro x ⟨recs, hrecs, heffect⟩
    exact ⟨none, recs, hrecs, heffect, fun _ hd => nomatch hd⟩
  cases c with
  | insert =>
    obtain ⟨a, h⟩ := staged_eq_ok_iff.1 h
    obtain ⟨-, surface, -, -, heffect⟩ := Vstream.insert_eq_ok h
    exact hnone heffect
  | copy =>
    obtain ⟨a, h⟩ := staged_eq_ok_iff.1 h
    exact hnone (Vstream.copy_eq_ok h).2.2
  | reinstate =>
    obtain ⟨a, h⟩ := staged_eq_ok_iff.1 h
    exact hnone (Vstream.stageReinstateAt_eq_ok h).2.2
  | delete =>
    obtain ⟨a, h⟩ := staged_eq_ok_iff.1 h
    exact hnone (Vstream.stageDeleteAt_eq_ok h).2.2
  | rearrange =>
    obtain ⟨a, h⟩ := staged_eq_ok_iff.1 h
    exact hnone (Vstream.rearrange_eq_ok h).2.2
  | setArrangement caller doc request asOf =>
    obtain ⟨a, h⟩ := staged_eq_ok_iff.1 h
    obtain ⟨-, -, recs, hrecs, heffect⟩ := Vstream.stageSetArrangement_eq_ok h
    refine ⟨_, recs, hrecs, heffect, fun d hd => ?_⟩
    obtain ⟨base, hbase, rfl⟩ := Option.map_eq_some_iff.1 hd
    exact .landing caller _ asOf hbase
  | version =>
    obtain ⟨a, h⟩ := staged_eq_ok_iff.1 h
    exact hnone (Vstream.version_effect h)
  | stage principal source =>
    obtain ⟨a, h⟩ := staged_eq_ok_iff.1 h
    obtain ⟨inst, recs, hrecs, heffect, hinst⟩ := Vstream.stage_effect hgrows h
    exact ⟨inst, recs, hrecs, heffect, fun d hd => .stage principal source (hinst d hd)⟩
  | publish caller doc shot readable =>
    obtain ⟨⟨member, pairing⟩, h⟩ := staged_eq_ok_iff.1 h
    obtain ⟨fresh, placement, hpublished⟩ := Vstream.stagePublish_eq_ok h
    obtain ⟨recs, hrecs, heffect⟩ := hpublished.effect
    exact ⟨_, recs, hrecs, heffect, fun d hd => .shot caller doc readable hd⟩
  | makeLink home =>
    obtain ⟨a, h⟩ := staged_eq_ok_iff.1 h
    exact hnone (stageLink_effect h)
  | ofNamespace call =>
    obtain ⟨a, h⟩ := staged_eq_ok_iff.1 h
    simp only [stageNamespace, Outcome.bind_eq_ok_iff, Outcome.pure_eq, Outcome.ok.injEq,
      Prod.exists, Prod.mk.injEq] at h
    obtain ⟨addr, recs, hrecs, mid, hpush, -, rfl⟩ := h
    exact hnone ⟨_, Staging.pushed_of_pushAll hpush, .entity (NamespaceCall.entityRecs hrecs)⟩
