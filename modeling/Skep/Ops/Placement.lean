import Skep.World.World

/-!
# Gates and placement

What the operations share: the write gate, the check of a typed edit against
the arrangement's last move, and the two steps that mint content addresses,
store values there and accumulate the runs to place.
-/

/-- Who asks. -/
inductive Caller where
  | principal (id : PrincipalId)
  | system
  deriving DecidableEq, Repr

def Caller.isOwner (c : Caller) (m3 : M3State) (doc : Address) : Bool :=
  match c with
  | system => true
  | principal id => m3.isEffectiveOwner id doc

/-- Whether an edit states the position it was typed at. -/
inductive AsOf where
  | typed (seq : ℕ)
  | unchecked
  deriving DecidableEq, Repr

/-- The registration gate and the ownership gate. -/
def gateWrite {ε : Type} (m3 : M3State) (caller : Caller) (doc : Address) (notRegistered : ε)
    (notOwner : Address → ε) : Outcome ε Unit := do
  Outcome.refuseIf (m3.isRegisteredDocument doc = false) notRegistered
  Outcome.refuseIf (caller.isOwner m3 doc = false) (notOwner doc)

/-- The position an edit was typed at and the later one its arrangement moved at. -/
def arrangementMoved (m5 : M5State) (doc : Address) (asOf : AsOf) : Option (ℕ × ℕ) :=
  match asOf with
  | .unchecked => none
  | .typed typed =>
      match m5.arrangedAt.get doc with
      | some current => if typed < current then some (typed, current) else none
      | none => none

@[simp] theorem gateWrite_eq_ok_iff {ε : Type} {m3 : M3State} {caller : Caller} {doc : Address}
    {e : ε} {e' : Address → ε} {u : Unit} : gateWrite m3 caller doc e e' = .ok u ↔
      m3.isRegisteredDocument doc = true ∧ caller.isOwner m3 doc = true := by
  simp [gateWrite, Outcome.bind_eq_ok_iff]

theorem gateWrite_eq_err {ε : Type} {m3 : M3State} {caller : Caller} {doc : Address}
    {e x : ε} {e' : Address → ε} (h : gateWrite m3 caller doc e e' = .err x) : x = e ∨ x = e' doc := by
  simp only [gateWrite, Outcome.bind_eq_err_iff, Outcome.refuseIf_eq_err_iff] at h
  rcases h with ⟨-, rfl⟩ | ⟨-, -, -, rfl⟩
  · exact .inl rfl
  · exact .inr rfl

theorem arrangementMoved_eq_none_iff {m5 : M5State} {doc : Address} {asOf : AsOf} :
    arrangementMoved m5 doc asOf = none ↔
      ∀ typed, asOf = .typed typed → ∀ current, m5.arrangedAt.get doc = some current →
        current ≤ typed := by
  cases asOf with
  | unchecked => simp [arrangementMoved]
  | typed typed =>
    simp only [arrangementMoved, AsOf.typed.injEq, forall_eq']
    cases m5.arrangedAt.get doc <;> simp

section Steps

variable {ε : Type} (ofMint : MintError → ε) (ofContent : ContentError → ε)

/-- Mint one content address, store the value there, accumulate its run. -/
def allocateForPlacement (stg : Staging World) (home : Address) (value : Val) (runs : List Run) :
    Outcome ε (List Run × Staging World) := do
  let (addr, m3rec) ← (stg.working.m3.mintContent home).mapErr ofMint
  let stg ← stg.push (Record.namespaceRec m3rec)
  let write ← (stageWrite stg.working.content addr value).mapErr ofContent
  let stg ← stg.push (Record.content write)
  -- a minted content address is a full position
  let run ← (Run.new addr 1).expect
  return (extendOrPushRun runs run, stg)

/-- Mint a content address for each byte, store the stretch there, accumulate its run. -/
def allocateStretchForPlacement (stg : Staging World) (home : Address) (bytes : List UInt8)
    (runs : List Run) : Outcome ε (List Run × Staging World) := do
  let width := bytes.length
  let (first, m3rec) ← (stg.working.m3.mintContentRange home width).mapErr ofMint
  let stg ← stg.push (Record.namespaceRec m3rec)
  let stretch ← (stageStretch stg.working.content first bytes).mapErr ofContent
  let stg ← stg.push (Record.contentStretch stretch)
  let run ← (Run.new first width).expect
  return (extendOrPushRun runs run, stg)

/-- Store the bytes gathered so far, where there are any. -/
def flushForPlacement (stg : Staging World) (home : Address) (pending : List UInt8)
    (runs : List Run) : Outcome ε (List Run × Staging World) :=
  if pending = [] then return (runs, stg)
  else allocateStretchForPlacement ofMint ofContent stg home pending runs

end Steps

def maxPlacedRuns : ℕ := 65536

/-- Accumulate one run to place, under the cap on them. -/
def placeCapped {ε : Type} (runs : List Run) (run : Run) (tooMany : ε) : Outcome ε (List Run) := do
  let runs := extendOrPushRun runs run
  Outcome.refuseIf (maxPlacedRuns < runs.length) tooMany
  return runs

/-- The content frontier of a home document. -/
def contentFrontier (w : World) (home : Address) : ℕ := w.m3.effectiveFrontier (contentNs home)

/-- A placement step: it pushes records that mint elements, issues the run of the
next addresses of the home's content chain, and stores the values there. -/
structure Minted (stg stg' : Staging World) (home : Address) (values : List (List UInt8))
    (run : Run) : Prop where
  pushed : ∃ recs, stg.Pushed recs stg' ∧ ∀ r ∈ recs, r.MintsElement
  start : run.iStart.comps = home.comps ++ [0, contentSubspace, contentFrontier stg.working home + 1]
  width : run.width = values.length
  frontier : contentFrontier stg'.working home =
    contentFrontier stg.working home + values.length
  others : ∀ key, key ≠ contentNs home →
    stg'.working.m3.effectiveFrontier key = stg.working.m3.effectiveFrontier key
  fresh : ∀ k < run.width, stg.working.content.bytesAt (run.tumblerAt k) = none
  stored : ∀ k < run.width, stg'.working.content.bytesAt (run.tumblerAt k) = values[k]?
  kept : ∀ t b, stg.working.content.bytesAt t = some b →
    stg'.working.content.bytesAt t = some b

theorem level_of_registered {m3 : M3State} {home : Address}
    (h : m3.isRegisteredDocument home = true) : home.level = .document :=
  M3State.level_of_isRegisteredDocument h

theorem content_of_namespaceOf {m3 : M3State} {home a : Address}
    (hhome : m3.isRegisteredDocument home = true) (h : namespaceOf a = some (contentNs home)) :
    a.comps = home.comps ++ [0, contentSubspace, ordinal a.tumbler] ∧ a.level = .element := by
  obtain ⟨h1, h2, -⟩ := M3State.element_of_namespaceOf (level_of_registered hhome)
    (show contentSubspace ≠ 0 by decide) (M3State.contentNs_comps home) rfl h
  exact ⟨h1, h2⟩

theorem working_of_push_namespace {ε : Type} {stg stg' : Staging World} {r : M3Rec}
    (h : (stg.push (Record.namespaceRec r) : Outcome ε (Staging World)) = .ok stg') :
    ∃ seq, (stg.working.m3.applyM3 seq r : Outcome Empty M3State) = .ok stg'.working.m3 ∧
      stg'.working.content = stg.working.content := by
  simp only [Staging.push, Outcome.bind_eq_ok_iff, Outcome.expect_eq_ok_iff, Outcome.pure_eq,
    Outcome.ok.injEq] at h
  obtain ⟨w, hw, rfl⟩ := h
  obtain ⟨h1, -, h3⟩ := (World.apply_eq_ok hw).1 r rfl
  exact ⟨_, h1, h3⟩

/-- The issue of a content address moves its home's frontier onto it. -/
theorem contentFrontier_of_allocate {ε : Type} {s s' : M3State} {seq : ℕ} {home a : Address}
    {pub : Bool} (h : (s.applyM3 seq (.allocate a pub) : Outcome ε M3State) = .ok s')
    (hkey : namespaceOf a = some (contentNs home)) :
    s'.effectiveFrontier (contentNs home) = s.effectiveFrontier (contentNs home) + 1 := by
  obtain ⟨key, hkey', hn, rfl⟩ := M3State.applyM3_allocate_iff.1 h
  cases hkey.symm.trans hkey'
  have hge : ghostFloor (contentNs home) ≤ s.effectiveFrontier (contentNs home) := le_max_right _ _
  rw [M3State.effectiveFrontier, OrdMap.get_insert_self, Option.getD_some, hn]
  omega

theorem contentFrontier_of_allocateRange {ε : Type} {s s' : M3State} {seq : ℕ} {home a : Address}
    {count : ℕ} (h : (s.applyM3 seq (.allocateRange a count) : Outcome ε M3State) = .ok s')
    (hkey : namespaceOf a = some (contentNs home)) :
    s'.effectiveFrontier (contentNs home) = s.effectiveFrontier (contentNs home) + count := by
  obtain ⟨key, hkey', hn, rfl⟩ := M3State.applyM3_allocateRange_iff.1 h
  cases hkey.symm.trans hkey'
  have hge : ghostFloor (contentNs home) ≤ s.effectiveFrontier (contentNs home) := le_max_right _ _
  rw [M3State.effectiveFrontier, OrdMap.get_insert_self, Option.getD_some, hn]
  omega

/-- An issue on one chain leaves the frontier of every other. -/
theorem effectiveFrontier_of_allocate {ε : Type} {s s' : M3State} {seq : ℕ} {a : Address}
    {pub : Bool} {key : NsKey} (h : (s.applyM3 seq (.allocate a pub) : Outcome ε M3State) = .ok s')
    (hkey : namespaceOf a ≠ some key) : s'.effectiveFrontier key = s.effectiveFrontier key := by
  obtain ⟨key', hkey', -, rfl⟩ := M3State.applyM3_allocate_iff.1 h
  have hne : key ≠ key' := by
    rintro rfl
    exact hkey hkey'
  rw [M3State.effectiveFrontier, OrdMap.get_insert_of_ne _ _ hne]
  rfl

theorem effectiveFrontier_of_allocateRange {ε : Type} {s s' : M3State} {seq : ℕ} {a : Address}
    {count : ℕ} {key : NsKey}
    (h : (s.applyM3 seq (.allocateRange a count) : Outcome ε M3State) = .ok s')
    (hkey : namespaceOf a ≠ some key) : s'.effectiveFrontier key = s.effectiveFrontier key := by
  obtain ⟨key', hkey', -, rfl⟩ := M3State.applyM3_allocateRange_iff.1 h
  have hne : key ≠ key' := by
    rintro rfl
    exact hkey hkey'
  rw [M3State.effectiveFrontier, OrdMap.get_insert_of_ne _ _ hne]
  rfl

theorem allocateForPlacement_spec {ε : Type} {ofMint : MintError → ε} {ofContent : ContentError → ε}
    {stg stg' : Staging World} {home : Address} {value : Val} {runs runs' : List Run}
    (h : allocateForPlacement ofMint ofContent stg home value runs = .ok (runs', stg')) :
    ∃ run, Minted stg stg' home [value.bytes] run ∧ runs' = extendOrPushRun runs run := by
  simp only [allocateForPlacement, stageWrite, Outcome.bind_eq_ok_iff, Outcome.mapErr_eq_ok_iff,
    Outcome.refuseIf_eq_ok_iff, Outcome.expect_eq_ok_iff, Outcome.pure_eq, Outcome.ok.injEq,
    Prod.exists, Prod.mk.injEq, exists_const, Bool.not_eq_true] at h
  obtain ⟨addr, m3rec, hmint, mid, hpush1, write, ⟨hfree, rfl⟩, stg2, hpush2, run, hrun, rfl, rfl⟩ := h
  obtain ⟨hreg, rfl, hns, hord⟩ := M3State.mintContent_eq_ok hmint
  obtain ⟨hcomps, hlv⟩ := content_of_namespaceOf hreg hns
  obtain ⟨rfl, hwidth⟩ := Run.new_eq_ok_iff.1 hrun
  obtain ⟨seq, hm3, hcontent⟩ := working_of_push_namespace hpush1
  have hw2 : stg2.working.m3 = mid.working.m3 ∧
      stg2.working.content = mid.working.content.applyWrite ⟨run.iStart, value⟩ := by
    simp only [Staging.push, Outcome.bind_eq_ok_iff, Outcome.expect_eq_ok_iff, Outcome.pure_eq,
      Outcome.ok.injEq] at hpush2
    obtain ⟨w, hw, rfl⟩ := hpush2
    cases hw
    exact ⟨rfl, rfl⟩
  have hbytes := ContentStore.bytesAt_applyWrite (s := mid.working.content)
    (r := ⟨run.iStart, value⟩) hfree
  have hzero : run.tumblerAt 0 = run.iStart.tumbler := Tumbler.shift_zero _
  have hfresh : stg.working.content.bytesAt run.iStart.tumbler = none := by
    rw [← hcontent]
    exact ContentStore.bytesAt_eq_none_of_not_contains hfree
  refine ⟨run, ⟨⟨_, (Staging.pushed_of_push hpush1).append (Staging.pushed_of_push hpush2), ?_⟩,
    by rw [hcomps, hord]; rfl, hwidth, ?_, fun key hkey => ?_, fun k hk => ?_, fun k hk => ?_,
    fun t b hb => ?_⟩, rfl⟩
  · simpa [Record.MintsElement, M3Rec.MintsElement] using hlv
  · rw [contentFrontier, hw2.1]
    exact contentFrontier_of_allocate hm3 hns
  · rw [hw2.1]
    exact effectiveFrontier_of_allocate hm3 (by rw [hns]; simpa using Ne.symm hkey)
  · rw [show k = 0 by omega, hzero, hfresh]
  · rw [show k = 0 by omega, hw2.2, hbytes, hzero]
    simp
  · rw [hw2.2, hbytes, hcontent]
    split
    · next heq =>
      rw [heq] at hb
      rw [hb] at hfresh
      cases hfresh
    · exact hb

theorem allocateStretchForPlacement_spec {ε : Type} {ofMint : MintError → ε}
    {ofContent : ContentError → ε} {stg stg' : Staging World} {home : Address}
    {bytes : List UInt8} {runs runs' : List Run}
    (h : allocateStretchForPlacement ofMint ofContent stg home bytes runs = .ok (runs', stg')) :
    ∃ run, Minted stg stg' home (bytes.map fun b => [b]) run ∧
      runs' = extendOrPushRun runs run := by
  simp only [allocateStretchForPlacement, Outcome.bind_eq_ok_iff, Outcome.mapErr_eq_ok_iff,
    Outcome.expect_eq_ok_iff, Outcome.pure_eq, Outcome.ok.injEq, Prod.exists,
    Prod.mk.injEq] at h
  obtain ⟨first, m3rec, hmint, mid, hpush1, stretch, hstage, stg2, hpush2, run, hrun, rfl, rfl⟩ := h
  obtain ⟨-, hreg, rfl, hns, hord⟩ := M3State.mintContentRange_eq_ok hmint
  obtain ⟨hcomps, hlv⟩ := content_of_namespaceOf hreg hns
  obtain ⟨rfl, hwidth⟩ := Run.new_eq_ok_iff.1 hrun
  obtain ⟨seq, hm3, hcontent⟩ := working_of_push_namespace hpush1
  obtain ⟨hfree, hroom, hne, rfl⟩ := stageStretch_eq_ok hstage
  have hw2 : stg2.working.m3 = mid.working.m3 ∧
      stg2.working.content = mid.working.content.applyStretch ⟨run.iStart, bytes, hne⟩ := by
    simp only [Staging.push, Outcome.bind_eq_ok_iff, Outcome.expect_eq_ok_iff, Outcome.pure_eq,
      Outcome.ok.injEq] at hpush2
    obtain ⟨w, hw, rfl⟩ := hpush2
    cases hw
    exact ⟨rfl, rfl⟩
  have hbytes := ContentStore.bytesAt_applyStretch (s := mid.working.content)
    (r := ⟨run.iStart, bytes, hne⟩) hfree hroom
  have hnone : ∀ {t k}, offsetIn run.iStart.tumbler bytes.length t = some k →
      mid.working.content.bytesAt t = none := fun hk =>
    ContentStore.bytesAt_eq_none_of_room (r := ⟨run.iStart, bytes, hne⟩) hfree hroom hk
  have hoffset : ∀ k < run.width, offsetIn run.iStart.tumbler bytes.length (run.tumblerAt k) =
      some k := fun k hk => offsetIn_eq_some_iff.2 ⟨hwidth ▸ hk, rfl⟩
  refine ⟨run, ⟨⟨_, (Staging.pushed_of_push hpush1).append (Staging.pushed_of_push hpush2), ?_⟩,
    by rw [hcomps, hord]; rfl, by simpa using hwidth, ?_, fun key hkey => ?_, fun k hk => ?_,
    fun k hk => ?_, fun t b hb => ?_⟩, rfl⟩
  · simpa [Record.MintsElement, M3Rec.MintsElement] using hlv
  · rw [contentFrontier, hw2.1, contentFrontier_of_allocateRange hm3 hns, List.length_map]
    rfl
  · rw [hw2.1]
    exact effectiveFrontier_of_allocateRange hm3 (by rw [hns]; simpa using Ne.symm hkey)
  · rw [← hcontent]
    exact hnone (hoffset k hk)
  · have hlt : k < bytes.length := hwidth ▸ hk
    rw [hw2.2, hbytes, hoffset k hk, List.getElem?_map, List.getElem?_eq_getElem hlt,
      Option.map_some, List.drop_eq_getElem_cons hlt]
    rfl
  · rw [hw2.2, hbytes]
    cases hoff : offsetIn run.iStart.tumbler bytes.length t with
    | none =>
      rw [hcontent]
      exact hb
    | some k =>
      have := hnone hoff
      rw [hcontent, hb] at this
      cases this

/-- Placement steps in a row, and the addresses they issue. -/
structure MintedAll (stg stg' : Staging World) (home : Address) (values : List (List UInt8))
    (addrs : List Address) : Prop where
  pushed : ∃ recs, stg.Pushed recs stg' ∧ ∀ r ∈ recs, r.MintsElement
  comps : addrs.map Address.comps = (List.range values.length).map fun k =>
    home.comps ++ [0, contentSubspace, contentFrontier stg.working home + 1 + k]
  frontier : contentFrontier stg'.working home =
    contentFrontier stg.working home + values.length
  others : ∀ key, key ≠ contentNs home →
    stg'.working.m3.effectiveFrontier key = stg.working.m3.effectiveFrontier key
  fresh : ∀ x ∈ addrs, stg.working.content.bytesAt x.tumbler = none
  stored : ∀ (k : ℕ) (x : Address), addrs[k]? = some x → stg'.working.content.bytesAt x.tumbler = values[k]?
  kept : ∀ t b, stg.working.content.bytesAt t = some b →
    stg'.working.content.bytesAt t = some b

namespace MintedAll

theorem nil (stg : Staging World) (home : Address) : MintedAll stg stg home [] [] :=
  ⟨⟨[], .nil stg, by simp⟩, rfl, rfl, fun _ _ => rfl, by simp, by simp, fun _ _ h => h⟩

theorem length_eq {stg stg' : Staging World} {home : Address} {values : List (List UInt8)}
    {addrs : List Address} (h : MintedAll stg stg' home values addrs) :
    addrs.length = values.length := by
  simpa using congrArg List.length h.comps

theorem of_minted {stg stg' : Staging World} {home : Address} {values : List (List UInt8)}
    {run : Run} (h : Minted stg stg' home values run) :
    MintedAll stg stg' home values run.addrs := by
  refine ⟨h.pushed, ?_, h.frontier, h.others, fun x hx => ?_, fun k x hx => ?_, h.kept⟩
  · rw [Run.addrs_eq, List.map_map, h.width]
    refine List.map_congr_left fun k _ => ?_
    have hparts : run.iStart.comps = (home.comps ++ [0, contentSubspace]) ++
        [contentFrontier stg.working home + 1] := by
      rw [h.start]
      simp
    rw [Function.comp_apply, Run.comps_advance_of_parts hparts]
    simp
  · obtain ⟨k, hk, rfl⟩ := Run.mem_addrs_iff.1 hx
    exact h.fresh k hk
  · have hk : k < run.width := by
      rw [← Run.length_addrs]
      exact (List.getElem?_eq_some_iff.1 hx).1
    rw [Run.getElem?_addrs hk, Option.some.injEq] at hx
    rw [← hx]
    exact h.stored k hk

theorem trans {stg mid stg' : Staging World} {home : Address} {values values' : List (List UInt8)}
    {addrs addrs' : List Address} (h : MintedAll stg mid home values addrs)
    (h' : MintedAll mid stg' home values' addrs') :
    MintedAll stg stg' home (values ++ values') (addrs ++ addrs') := by
  obtain ⟨recs, hrecs, hmints⟩ := h.pushed
  obtain ⟨recs', hrecs', hmints'⟩ := h'.pushed
  refine ⟨⟨recs ++ recs', hrecs.append hrecs', ?_⟩, ?_, ?_, fun key hkey => ?_, ?_, ?_, ?_⟩
  · intro r hr
    exact (List.mem_append.1 hr).elim (hmints r) (hmints' r)
  · rw [List.map_append, h.comps, h'.comps, h.frontier, List.length_append, List.range_add,
      List.map_append, List.map_map]
    congr 1
    refine List.map_congr_left fun k _ => ?_
    rw [Function.comp_apply, Nat.add_right_comm _ values.length 1, Nat.add_assoc _ values.length k]
  · rw [h'.frontier, h.frontier, List.length_append, Nat.add_assoc]
  · rw [h'.others key hkey, h.others key hkey]
  · intro x hx
    rcases List.mem_append.1 hx with hx | hx
    · exact h.fresh x hx
    · -- what the first steps find stored the second ones would
      by_contra hne
      obtain ⟨b, hb⟩ := Option.ne_none_iff_exists'.1 hne
      have := h'.fresh x hx
      rw [h.kept _ _ hb] at this
      cases this
  · intro k x hx
    by_cases hk : k < addrs.length
    · rw [List.getElem?_append_left hk] at hx
      rw [List.getElem?_append_left (h.length_eq ▸ hk)]
      have hmid := h.stored k x hx
      rw [List.getElem?_eq_getElem (h.length_eq ▸ hk)] at hmid ⊢
      exact h'.kept _ _ hmid
    · rw [List.getElem?_append_right (not_lt.1 hk)] at hx
      rw [List.getElem?_append_right (h.length_eq ▸ not_lt.1 hk), ← h.length_eq]
      exact h'.stored _ x hx
  · exact fun t b hb => h'.kept t b (h.kept t b hb)

end MintedAll

/-- A step onto accumulated runs: they stand for the addresses it issues besides. -/
theorem allocateForPlacement_minted {ε : Type} {ofMint : MintError → ε}
    {ofContent : ContentError → ε} {stg stg' : Staging World} {home : Address} {value : Val}
    {runs runs' : List Run} (hm : Merged runs)
    (h : allocateForPlacement ofMint ofContent stg home value runs = .ok (runs', stg')) :
    ∃ addrs, MintedAll stg stg' home [value.bytes] addrs ∧ Merged runs' ∧
      denRuns runs' = denRuns runs ++ addrs := by
  obtain ⟨run, hrun, rfl⟩ := allocateForPlacement_spec h
  exact ⟨run.addrs, .of_minted hrun, extendOrPushRun_spec run hm⟩

theorem allocateStretchForPlacement_minted {ε : Type} {ofMint : MintError → ε}
    {ofContent : ContentError → ε} {stg stg' : Staging World} {home : Address}
    {bytes : List UInt8} {runs runs' : List Run} (hm : Merged runs)
    (h : allocateStretchForPlacement ofMint ofContent stg home bytes runs = .ok (runs', stg')) :
    ∃ addrs, MintedAll stg stg' home (bytes.map fun b => [b]) addrs ∧ Merged runs' ∧
      denRuns runs' = denRuns runs ++ addrs := by
  obtain ⟨run, hrun, rfl⟩ := allocateStretchForPlacement_spec h
  exact ⟨run.addrs, .of_minted hrun, extendOrPushRun_spec run hm⟩

theorem flushForPlacement_minted {ε : Type} {ofMint : MintError → ε}
    {ofContent : ContentError → ε} {stg stg' : Staging World} {home : Address}
    {pending : List UInt8} {runs runs' : List Run} (hm : Merged runs)
    (h : flushForPlacement ofMint ofContent stg home pending runs = .ok (runs', stg')) :
    ∃ addrs, MintedAll stg stg' home (pending.map fun b => [b]) addrs ∧ Merged runs' ∧
      denRuns runs' = denRuns runs ++ addrs := by
  rw [flushForPlacement] at h
  split at h
  · next hnil =>
    cases h
    rw [hnil]
    exact ⟨[], .nil _ _, hm, by simp⟩
  · exact allocateStretchForPlacement_minted hm h

theorem placeCapped_eq_ok {ε : Type} {runs runs' : List Run} {run : Run} {e : ε}
    (h : placeCapped runs run e = .ok runs') : runs' = extendOrPushRun runs run ∧
      runs'.length ≤ maxPlacedRuns := by
  simp only [placeCapped, Outcome.bind_eq_ok_iff, Outcome.refuseIf_eq_ok_iff, Outcome.pure_eq,
    Outcome.ok.injEq, exists_const, not_lt] at h
  obtain ⟨hlen, rfl⟩ := h
  exact ⟨rfl, hlen⟩

section Errors

variable {ε : Type} {ofMint : MintError → ε} {ofContent : ContentError → ε} {stg : Staging World}
  {home : Address} {runs : List Run} {e : ε}

/-- A step is refused with the error of its mint or of its store. -/
theorem allocateForPlacement_eq_err {value : Val}
    (h : allocateForPlacement ofMint ofContent stg home value runs = .err e) :
    (∃ m, e = ofMint m) ∨ ∃ c, e = ofContent c := by
  simp only [allocateForPlacement, Outcome.bind_eq_err_iff, Outcome.mapErr_eq_err_iff,
    Staging.push_ne_err, Outcome.expect_ne_err, Outcome.pure_eq, reduceCtorEq, and_false,
    exists_false, or_false, false_or] at h
  rcases h with ⟨m, -, rfl⟩ | ⟨_, -, _, -, c, -, rfl⟩
  · exact .inl ⟨m, rfl⟩
  · exact .inr ⟨c, rfl⟩

theorem allocateStretchForPlacement_eq_err {bytes : List UInt8}
    (h : allocateStretchForPlacement ofMint ofContent stg home bytes runs = .err e) :
    (∃ m, e = ofMint m) ∨ ∃ c, e = ofContent c := by
  simp only [allocateStretchForPlacement, Outcome.bind_eq_err_iff, Outcome.mapErr_eq_err_iff,
    Staging.push_ne_err, Outcome.expect_ne_err, Outcome.pure_eq, reduceCtorEq, and_false,
    exists_false, or_false, false_or] at h
  rcases h with ⟨m, -, rfl⟩ | ⟨_, -, _, -, c, -, rfl⟩
  · exact .inl ⟨m, rfl⟩
  · exact .inr ⟨c, rfl⟩

theorem flushForPlacement_eq_err {pending : List UInt8}
    (h : flushForPlacement ofMint ofContent stg home pending runs = .err e) :
    (∃ m, e = ofMint m) ∨ ∃ c, e = ofContent c := by
  rw [flushForPlacement] at h
  split at h
  · cases h
  · exact allocateStretchForPlacement_eq_err h

end Errors
