import Skep.Arrangement.RunUnion
import Skep.Arrangement.State

/-!
# Publish shots

What a client states when it publishes: the base it edited from, the drafts it
drew on and the runs of the new version. Runs that come from a named draft are
minted again in the published document.
-/

/-- The trunk a content address was minted under. -/
def Address.originDocument (a : Address) : Option Address :=
  if a.subspace = some contentSubspace then (documentOf a).map trunkOf else none

/-- The trunk a run's content was minted under. -/
def runOriginDocument (run : Run) : Option Address := run.iStart.originDocument

/-- A run and the document the client says it is from. -/
structure ShotRun where
  origin : Address
  run : Run
  deriving DecidableEq

/-- The member a shot is based on, and how much of it the client saw. -/
structure Base where
  member : Address
  extent : ℕ
  deriving DecidableEq

structure Shot where
  base : Option Base
  draft : Option Address
  also : List Address
  runs : List ShotRun
  deriving DecidableEq

namespace Shot

/-- The trunks of the drafts the shot names. -/
def namedDrafts (shot : Shot) : List Address := (shot.draft.toList ++ shot.also).map trunkOf

def isDraftNative (shot : Shot) (originDoc : Address) : Bool :=
  shot.namedDrafts.any fun draft => draft == originDoc

/-- Whether the addresses of a run are minted again. -/
def reinserts (shot : Shot) (run : Run) : Bool :=
  (runOriginDocument run).any shot.isDraftNative

def reinsertedRuns (shot : Shot) : List Run :=
  (shot.runs.map ShotRun.run).filter shot.reinserts

def reinsertedValues (shot : Shot) : ℕ :=
  ((RunUnion.of shot.reinsertedRuns).runs.map Run.width).sum

end Shot

/-- A full element position, by its document, its subspace and its ordinal. -/
theorem Address.originDocument_of_parts {a d : Address} {s n : ℕ} (hd : d.level = .document)
    (hs : s ≠ 0) (hn : n ≠ 0) (h : a.comps = d.comps ++ [0, s, n]) :
    a.originDocument = if s = contentSubspace then some (trunkOf d) else none := by
  obtain ⟨-, hdoc, hfield⟩ := element_of_parts (e := [s, n]) hd (by simp)
    (by simp [Ne.symm hs, Ne.symm hn]) h
  rw [originDocument, subspace, hfield, hdoc]
  simp

theorem Address.originDocument_of_chain {a b : Address} (ha : Run.admitsStart a = true)
    (h : a.chain = b.chain) : a.originDocument = b.originDocument := by
  obtain ⟨d, hd, s, n, hs, hn, hcomps⟩ := Run.admitsStart_iff.1 ha
  have hsplit : ∀ k, d.comps ++ [0, s, k] = (d.comps ++ [0, s]) ++ [k] := fun k => by simp
  have hchain : b.chain = d.comps ++ [0, s] := by
    rw [← h, chain, hcomps, hsplit, List.dropLast_concat]
  have hordinal : ordinal b.tumbler ≠ 0 := fun hzero => by
    have := b.getLast?_ne_zero
    rw [b.comps_eq_chain, hzero] at this
    simp at this
  rw [originDocument_of_parts hd hs.ne' hn.ne' hcomps,
    originDocument_of_parts hd hs.ne' hordinal (by rw [b.comps_eq_chain, hchain, hsplit])]

/-- The origin of a run is each of its addresses' own. -/
theorem runOriginDocument_of_mem {run : Run} {x : Address} (h : x ∈ run.addrs) :
    x.originDocument = runOriginDocument run := by
  have hfull : Run.admitsStart x = true := by
    obtain ⟨k, -, rfl⟩ := Run.mem_addrs_iff.1 h
    exact Run.admitsStart_advance run.full k
  exact Address.originDocument_of_chain hfull (Run.mem_addrs_iff_ordinal.1 h).1

namespace Shot

theorem isDraftNative_iff {shot : Shot} {d : Address} :
    shot.isDraftNative d = true ↔ d ∈ shot.namedDrafts := by
  simp [isDraftNative]

theorem reinserts_iff {shot : Shot} {run : Run} : shot.reinserts run = true ↔
    ∃ d ∈ shot.namedDrafts, runOriginDocument run = some d := by
  rw [reinserts, Option.any_eq_true]
  constructor
  · rintro ⟨d, hd, hnative⟩
    exact ⟨d, isDraftNative_iff.1 hnative, hd⟩
  · rintro ⟨d, hd, hrun⟩
    exact ⟨d, hrun, isDraftNative_iff.2 hd⟩

theorem reinsertedValues_eq (shot : Shot) :
    shot.reinsertedValues = (denRuns shot.reinsertedRuns).dedup.length := by
  have hlen : shot.reinsertedValues = (denRuns (RunUnion.of shot.reinsertedRuns).runs).length := by
    simp only [reinsertedValues, denRuns, List.length_flatMap, Run.length_addrs]
  rw [hlen]
  refine List.Perm.length_eq ((List.perm_ext_iff_of_nodup (RunUnion.nodup_runs _)
    (List.nodup_dedup _)).2 fun x => ?_)
  rw [List.mem_dedup, RunUnion.mem_runs_iff]

end Shot
