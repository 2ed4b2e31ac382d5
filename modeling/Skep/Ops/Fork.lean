import Skep.Ops.Effect

/-!
# Forks

VERSION and STAGE. Both mint a document and snapshot the reading surface of
their source into it. The branch is chosen on the world the call found, before
its transaction; the mint and the snapshot read the working world.
-/

inductive VersionError where
  | sourceNotRegistered
  | notAPrincipal
  | nodeTierCrossOwner
  | privateSourceVersionless
  | privateVersionOfPublished
  | mint (e : MintError)
  deriving DecidableEq

inductive StageError where
  | sourceNotRegistered
  | notAPrincipal
  | nodeTierCrossOwner
  | mint (e : MintError)
  deriving DecidableEq

/-- Where a version is minted: under its source, or under the account of another owner. -/
inductive VersionBranch where
  | owned
  | crossOwner (pfx : Address)
  deriving DecidableEq

namespace Vstream

def versionBranch (snapshot : M3State) (principal : PrincipalId) (source : Address) :
    Outcome VersionError VersionBranch := do
  Outcome.refuseIf (snapshot.isRegisteredDocument source = false) .sourceNotRegistered
  if snapshot.isEffectiveOwner principal source = true then return .owned
  else
    let pfx ← Outcome.okOr (snapshot.principalPrefix principal) .notAPrincipal
    Outcome.refuseIf (snapshot.isRegisteredAccount pfx = false) .nodeTierCrossOwner
    return .crossOwner pfx

/-- The mint of a version, on the branch chosen before. -/
def mintFork (m3 : M3State) (source : Address) (published : Option Bool) :
    VersionBranch → Outcome VersionError (Address × M3Rec)
  | .owned => do
      let sourcePublished := publishedTarget m3 source
      let forkPublished := published.getD sourcePublished
      Outcome.refuseIf (sourcePublished = false) .privateSourceVersionless
      Outcome.refuseIf (forkPublished = false) .privateVersionOfPublished
      (m3.mintVersion source forkPublished).mapErr .mint
  | .crossOwner pfx =>
      (m3.mintDocument pfx (published.getD (publishedTarget m3 source))).mapErr .mint

def version (snapshot : World) (stg : Staging World) (principal : PrincipalId) (source : Address)
    (published : Option Bool) : Outcome VersionError (Address × Staging World) := do
  let branch ← versionBranch snapshot.m3 principal source
  let m3 := stg.working.m3
  let (fork, m3rec) ← mintFork m3 source published branch
  let surface := readingSurface m3 source
  let stg ← stg.push (Record.namespaceRec m3rec)
  let stg ← stg.push (Record.arrangement (.versionSnapshot surface fork))
  return (fork, stg)

/-- The account a staged draft is minted under. -/
def stagePrefix (snapshot : M3State) (principal : PrincipalId) (source : Address) :
    Outcome StageError Address := do
  Outcome.refuseIf (snapshot.isRegisteredDocument source = false) .sourceNotRegistered
  let pfx ← Outcome.okOr (snapshot.principalPrefix principal) .notAPrincipal
  Outcome.refuseIf (snapshot.isRegisteredAccount pfx = false) .nodeTierCrossOwner
  return pfx

/-- The base a staged draft records, and the reconciliation it inherits. -/
def recordedBase (w : World) (surface : Address) : Option (Address × ℕ × Option Merge) :=
  if publishedTarget w.m3 surface = true then some (surface, w.m5.contentCount surface, none)
  else (w.m5.draftBase surface).map fun standing =>
    (standing.base, standing.extent, standing.merge.map Merge.ofMarker)

def stage (snapshot : World) (stg : Staging World) (principal : PrincipalId) (source : Address) :
    Outcome StageError (Address × Staging World) := do
  let pfx ← stagePrefix snapshot.m3 principal source
  let w := stg.working
  let surface := readingSurface w.m3 source
  let (draft, m3rec) ← (w.m3.mintDocument pfx false).mapErr .mint
  let stg ← stg.push (Record.namespaceRec m3rec)
  let stg ← stg.push (Record.arrangement (.versionSnapshot surface draft))
  match recordedBase w surface with
  | some (base, extent, merge) =>
      let stg ← stg.push (Record.arrangement (.draftBase draft base extent surface merge))
      return (draft, stg)
  | none => return (draft, stg)

theorem mintFork_eq_ok {w : World} {source new : Address} {published : Option Bool}
    {branch : VersionBranch} {r : M3Rec} (h : mintFork w.m3 source published branch = .ok (new, r)) :
    ∃ pub, r = .allocate new pub ∧ ForkMint w new pub := by
  cases branch with
  | owned =>
    simp only [mintFork, Outcome.bind_eq_ok_iff, Outcome.refuseIf_eq_ok_iff,
      Outcome.mapErr_eq_ok_iff, exists_const, Bool.not_eq_false] at h
    obtain ⟨hsource, hfork, hmint⟩ := h
    rw [hfork] at hmint
    obtain ⟨hreg, rfl, hnew, -⟩ := M3State.mintVersion_eq_ok hmint
    exact ⟨true, rfl, .version hreg hsource hnew⟩
  | crossOwner pfx =>
    rw [mintFork, Outcome.mapErr_eq_ok_iff] at h
    obtain ⟨hreg, rfl, hnew, -⟩ := M3State.mintDocument_eq_ok h
    exact ⟨_, rfl, .document _ hreg hnew⟩

theorem version_effect {snapshot : World} {stg stg' : Staging World} {principal : PrincipalId}
    {source new : Address} {published : Option Bool}
    (h : version snapshot stg principal source published = .ok (new, stg')) :
    ∃ recs, stg.Pushed recs stg' ∧ Effect stg.working none recs := by
  simp only [version, Outcome.bind_eq_ok_iff, Outcome.pure_eq, Outcome.ok.injEq, Prod.exists,
    Prod.mk.injEq] at h
  obtain ⟨branch, -, fork, r, hmint, mid, hpush, last, hsnap, rfl, rfl⟩ := h
  obtain ⟨pub, rfl, hfork⟩ := mintFork_eq_ok hmint
  exact ⟨_, (Staging.pushed_of_push hpush).append (Staging.pushed_of_push hsnap), .fork _ hfork⟩

/-- The surface a registered document is read at is registered. -/
theorem readingSurface_registered {m3 : M3State} {doc : Address}
    (h : m3.isRegisteredDocument doc = true) :
    m3.isRegisteredDocument (readingSurface m3 doc) = true := by
  rw [readingSurface]
  split
  · exact h
  · split
    · exact h
    · cases hhead : trunkHead m3 doc with
      | none => exact h
      | some head => exact (M3State.trunkHead_registered hhead).1

theorem stage_effect {snapshot : World} {stg stg' : Staging World} {principal : PrincipalId}
    {source new : Address} (hgrows : snapshot.m3.Grows stg.working.m3)
    (h : stage snapshot stg principal source = .ok (new, stg')) :
    ∃ inst recs, stg.Pushed recs stg' ∧ Effect stg.working inst recs ∧
      ∀ d, inst = some d → Record.namespaceRec (.allocate d false) ∈ recs := by
  simp only [stage, Outcome.bind_eq_ok_iff, Outcome.mapErr_eq_ok_iff, Prod.exists] at h
  obtain ⟨pfx, hpfx, draft, r, hmint, mid, hpush, snapped, hsnap, h⟩ := h
  have hsource : stg.working.m3.isRegisteredDocument source = true := by
    simp only [stagePrefix, Outcome.bind_eq_ok_iff, Outcome.refuseIf_eq_ok_iff, exists_const,
      Bool.not_eq_false] at hpfx
    exact hgrows.registered _ hpfx.1
  obtain ⟨hreg, rfl, hnew, -⟩ := M3State.mintDocument_eq_ok hmint
  have hpushed := (Staging.pushed_of_push hpush).append (Staging.pushed_of_push hsnap)
  rw [recordedBase] at h
  split at h
  · next base extent merge hrecorded =>
    simp only [Outcome.bind_eq_ok_iff, Outcome.pure_eq, Outcome.ok.injEq, Prod.mk.injEq] at h
    obtain ⟨last, hbase, rfl, rfl⟩ := h
    refine ⟨_, _, hpushed.append (Staging.pushed_of_push hbase), .stage hreg hnew ?_, ?_⟩
    · split at hrecorded
      · next hpub =>
        cases hrecorded
        exact .measured (readingSurface_registered hsource) hpub
      · obtain ⟨standing, hstanding, heq⟩ := Option.map_eq_some_iff.1 hrecorded
        cases heq
        exact .inherited hstanding
    · rintro d ⟨⟩
      exact List.mem_cons_self
  · cases h
    refine ⟨_, _, hpushed, .fork _ (.document _ hreg hnew), ?_⟩
    rintro d ⟨⟩

end Vstream
