import Skep.Coordination.Cycles
import Skep.Coordination.Driving

/-!
# The armer graph

One rule has an edge to another where what its fires deposit lies in the footprint that
registration recorded of the other's trigger. A fire changes no verdict but of a rule it has an
edge to, so whatever feeds back through fires alone stands in a component that the handle reports.
-/

namespace List

theorem Forall₂.getElem? {α β : Type} {R : α → β → Prop} {l : List α} {l' : List β} (h : Forall₂ R l l') {i : ℕ} {a : α}
    (hi : l[i]? = some a) : ∃ b, l'[i]? = some b ∧ R a b := by
  induction h generalizing i with
  | nil => cases hi
  | @cons a b l l' hab _ ih =>
    cases i with
    | zero =>
      cases hi
      exact ⟨b, rfl, hab⟩
    | succ i => exact ih hi

end List

namespace Coordination

/-- The rule whose turn it was. -/
def Turn.ruleId (t : Turn) : Option ℕ := t.picked.map fun p => p.2.1.id

namespace Coordinator

variable (co : Coordinator) (handle : DefHandle)

/-- The footprint that registration records of a rule's trigger, from its flat expansion. -/
def registeredFootprint (rule : Rule) : Outcome RuleError Footprint := do
  let validated ← co.validateRule handle rule
  let analysis ← (analyzeTerm ⟨co.catalog, rule.view, false⟩ validated.flatExpansion).expect
  return analysis.fp

/-- The footprints recorded at the registration of the rules, in their order. -/
def Records (footprints : List Footprint) : Prop :=
  List.Forall₂ (fun rule fp => ∃ raw flat, raw.Built co.catalog co.defs ∧ co.Registered handle raw flat rule ∧
    co.registeredFootprint handle raw = .ok fp) co.rules footprints

/-- The rules that each rule has an edge to. -/
def armerEdges (footprints : List Footprint) : Outcome Empty (List (List ℕ)) := do
  let emitted ← co.rules.mapM fun r => co.emission r.action
  return emitted.map fun e =>
    (List.range co.rules.length).filter fun j => footprints[j]?.any (·.armedBy e)

/-- The components of the graph that are cycles, by the identifiers of their rules. -/
def armerCycles (footprints : List Footprint) : Outcome Empty (List (List ℕ)) := do
  let edges ← co.armerEdges footprints
  let sccs ← tarjanNontrivialSccs edges
  sccs.mapM fun scc => scc.mapM fun i => do
    let rule ← Tarjan.fetch co.rules i
    return rule.id

/-- An edge of the graph, by identifiers. -/
def ArmerEdge (footprints : List Footprint) (id id' : ℕ) : Prop :=
  ∃ (fired rule : CheckedRule) (e : Emission) (fp : Footprint) (j : ℕ), fired ∈ co.rules ∧ fired.id = id ∧
    co.emission fired.action = .ok e ∧ co.rules[j]? = some rule ∧ rule.id = id' ∧ footprints[j]? = some fp ∧
      fp.armedBy e = true

/-- A fire of one rule changes a verdict of another's trigger. -/
def Arms (id id' : ℕ) : Prop :=
  ∃ fired ∈ co.rules, fired.id = id ∧ ∃ rule ∈ co.rules, rule.id = id' ∧ ∃ attempt arg out w x,
    attempt.base.Sound ∧ co.fire ⟨id, arg⟩ attempt = .ok (out, w) ∧
      co.triggerTrue ⟨w, attempt.base.guest⟩ rule x ≠ co.triggerTrue attempt.base rule x

/-- A turn changes a verdict of the rule that a later turn picks. -/
def Rearms (t u : Turn) : Prop :=
  ∃ rule ∈ co.rules, u.ruleId = some rule.id ∧
    ∃ x, co.triggerTrue (co.landing t) rule x ≠ co.triggerTrue t.attempt.base rule x

variable {co handle} {cat : TypeCatalog} {defs : DefSource} {footprints : List Footprint}

/-- Worlds that agree on the recorded footprint have a trigger's verdicts in common. -/
theorem triggerTrue_recorded {rule : CheckedRule} {raw : Rule} {flat : Term} {fp : Footprint}
    (hans : handle.Answers co.catalog co.defs) (hbuilt : raw.Built co.catalog co.defs)
    (hreg : co.Registered handle raw flat rule) (hfp : co.registeredFootprint handle raw = .ok fp)
    {w w' : CoordinationWorld} (hs : w.Sound) (hs' : w'.Sound) (hagree : fp.Agrees co.catalog.registry w w') (x : Arg) :
    co.triggerTrue w rule x = co.triggerTrue w' rule x := by
  simp only [registeredFootprint, hreg.validated, Outcome.ok_bind, Outcome.bind_eq_ok_iff, Outcome.expect_eq_ok_iff,
    Outcome.pure_eq, Outcome.ok.injEq] at hfp
  obtain ⟨a, ha, rfl⟩ := hfp
  obtain ⟨-, -, hchecked, -, hflat, -⟩ := validateRule_spec hans hbuilt hreg.validated
  rw [← hreg.view] at ha
  dsimp only at hchecked hflat
  rcases hflat with ⟨-, rfl⟩ | hexpanded
  · exact congrArg (Outcome.bind · asBool) (evalTerm_congr hs hs' _ _ ha hagree)
  · rw [triggerTrue_eq hchecked hexpanded, triggerTrue_eq hchecked hexpanded]
    exact congrArg (Outcome.bind · asBool) (evalTerm_congr hs hs' _ _ ha hagree)

/-- What a registered rule's fires deposit has a class. -/
theorem WellRegistered.exists_emission (hans : handle.Answers cat defs) (hwell : co.WellRegistered cat defs handle)
    {rule : CheckedRule} (hrule : rule ∈ co.rules) : ∃ e, co.emission rule.action = .ok e := by
  obtain ⟨raw, flat, hbuilt, hreg⟩ := hwell.registered rule hrule
  obtain rfl := hwell.sameCatalog
  obtain rfl := hwell.sameDefs
  obtain ⟨-, -, -, -, -, hmarker⟩ := validateRule_spec hans hbuilt hreg.validated
  cases haction : rule.action with
  | marker home ty =>
    obtain ⟨entry, hentry, -⟩ := hmarker home ty (hreg.action.symm.trans haction)
    refine ⟨.marker entry.coverage, ?_⟩
    rw [emission, TypeCatalog.classOf, hentry]
    rfl
  | nullify home => exact ⟨_, rfl⟩

theorem WellRegistered.id_eq (hwell : co.WellRegistered cat defs handle) {i : ℕ} {rule : CheckedRule}
    (hget : co.rules[i]? = some rule) : rule.id = i + 1 := by
  have hid : (co.rules.map CheckedRule.id)[i]? = some rule.id := by rw [List.getElem?_map, hget, Option.map_some]
  rw [hwell.ids, List.getElem?_range' (List.getElem?_eq_some_iff.1 hget).1, Option.some.injEq] at hid
  omega

theorem fire_rotate (i : ℕ) (a : Arg) (occurrence : Occurrence) (attempt : Attempt) :
    (co.rotate i a).fire occurrence attempt = co.fire occurrence attempt := by
  have hrules : (co.rotate i a).rules.map (fun r => { r with lastPick := none }) =
      co.rules.map fun r => { r with lastPick := none } := by
    refine List.ext_getElem? fun j => ?_
    rw [List.getElem?_map, List.getElem?_map, rotate_rules, Option.map_map]
    congr 1
    funext rule
    simp only [Function.comp_apply]
    split <;> rfl
  have hfind : ((co.rotate i a).rules.find? fun r => r.id == occurrence.rule).map (fun r => { r with lastPick := none }) =
      (co.rules.find? fun r => r.id == occurrence.rule).map fun r => { r with lastPick := none } := by
    have hstrip := congrArg (List.find? fun r => r.id == occurrence.rule) hrules
    rwa [List.find?_map, List.find?_map] at hstrip
  unfold fire
  cases hnew : (co.rotate i a).rules.find? fun r => r.id == occurrence.rule with
  | none =>
    rw [hnew, Option.map_none, eq_comm, Option.map_eq_none_iff] at hfind
    rw [hfind]
    rfl
  | some r =>
    rw [hnew, Option.map_some, eq_comm, Option.map_eq_some_iff] at hfind
    obtain ⟨r', hr', hsame⟩ := hfind
    cases r
    cases r'
    simp only [CheckedRule.mk.injEq] at hsame
    obtain ⟨rfl, rfl, rfl, rfl, rfl, -⟩ := hsame
    rw [hr']
    rfl

theorem landing_rotate (i : ℕ) (a : Arg) (t : Turn) : (co.rotate i a).landing t = co.landing t := by
  unfold landing
  simp only [fire_rotate]

/-- What the turns of a drive fired, they fired of the working set it began with. -/
theorem Drives.fires {co' : Coordinator} {w w' : CoordinationWorld} {ts : List Turn} (h : co.Drives w ts co' w')
    (hwell : co.WellRegistered cat defs handle) (hs : w.Sound) : ∀ t ∈ ts, t.attempt.base.Sound ∧
      (co.landing t = t.attempt.base ∨ ∃ fired ∈ co.rules, t.ruleId = some fired.id ∧ ∃ arg out w,
        co.fire ⟨fired.id, arg⟩ t.attempt = .ok (out, w) ∧ co.landing t = ⟨w, t.attempt.base.guest⟩) := by
  induction h with
  | nil => exact List.forall_mem_nil _
  | @cons co co' co'' w w' t ts hpeek hsnap hbase hpick hstep hrest ih =>
    have hrun := (hpeek.trans hsnap).trans hbase
    obtain ⟨-, hs₁⟩ := CoordinationWorld.Grows.of_run hrun hs
    obtain ⟨-, hs₂⟩ := CoordinationWorld.Grows.of_run (hrun.trans (landing_step hwell hpick hstep)) hs
    refine List.forall_mem_cons.2 ⟨⟨hs₁, ?_⟩, fun u hu => ?_⟩
    · cases turned hpick hstep with
      | quiescent _ _ _ hlands | failed _ _ _ hlands => exact .inl hlands
      | @fired idx rule arg out w hpicked _ hfire _ hlands =>
        rw [hpicked] at hpick
        obtain ⟨-, -, -, hget, -, -⟩ := pick_eq_some hpick
        rw [fire_rotate] at hfire
        refine .inr ⟨rule, List.mem_of_getElem? hget, ?_, arg, out, w, hfire, hlands⟩
        rw [Turn.ruleId, hpicked]
        rfl
    · obtain ⟨hsound, hlands⟩ := ih (turn_wellRegistered hwell hstep) hs₂ u hu
      refine ⟨hsound, ?_⟩
      rcases step_eq_ok hstep with ⟨-, rfl, -⟩ | ⟨i, r, a, -, rfl, -⟩
      · exact hlands
      · rw [landing_rotate] at hlands
        refine hlands.imp_right ?_
        rintro ⟨fired, hmem, hid, arg, out, w, hfire, hlands⟩
        obtain ⟨j, hj⟩ := List.getElem?_of_mem hmem
        rw [rotate_rules, Option.map_eq_some_iff] at hj
        obtain ⟨fired', hget, rfl⟩ := hj
        refine ⟨fired', List.mem_of_getElem? hget, ?_⟩
        have hsame : (if i = j then { fired' with lastPick := some a.keyAddr } else fired').id = fired'.id := by
          split <;> rfl
        rw [hsame] at hid hfire
        rw [fire_rotate] at hfire
        exact ⟨hid, arg, out, w, hfire, hlands⟩

/-- The graph of a working set, each rule's edges read off what it emits. -/
theorem exists_armerEdges (hans : handle.Answers cat defs) (hwell : co.WellRegistered cat defs handle)
    (footprints : List Footprint) : ∃ edges, co.armerEdges footprints = .ok edges ∧ edges.length = co.rules.length ∧
      ∀ i j, Tarjan.Edge edges i j ↔ ∃ fired e fp, co.rules[i]? = some fired ∧ co.emission fired.action = .ok e ∧
        j < co.rules.length ∧ footprints[j]? = some fp ∧ fp.armedBy e = true := by
  obtain ⟨emitted, hemitted, hsame⟩ := Outcome.exists_mapM (R := fun rule e => co.emission rule.action = .ok e)
    fun rule hrule => (hwell.exists_emission hans hrule).imp fun e he => ⟨he, he⟩
  refine ⟨_, by rw [armerEdges, hemitted]; rfl, by rw [List.length_map, hsame.length_eq], fun i j => ?_⟩
  constructor
  · rintro ⟨succs, hsuccs, hj⟩
    rw [List.getElem?_map, Option.map_eq_some_iff] at hsuccs
    obtain ⟨e, he, rfl⟩ := hsuccs
    obtain ⟨hj, harmed⟩ := List.mem_filter.1 hj
    obtain ⟨fp, hfp, harmed⟩ := (Option.any_eq_true _ _).1 harmed
    obtain ⟨fired, hfired, hemits⟩ := hsame.flip.getElem? he
    exact ⟨fired, e, fp, hfired, hemits, List.mem_range.1 hj, hfp, harmed⟩
  · rintro ⟨fired, e, fp, hfired, hemits, hj, hfp, harmed⟩
    obtain ⟨e', he', hemits'⟩ := hsame.getElem? hfired
    obtain rfl : e = e' := Outcome.ok.inj (hemits.symm.trans hemits')
    refine ⟨_, by rw [List.getElem?_map, he', Option.map_some], List.mem_filter.2 ⟨List.mem_range.2 hj, ?_⟩⟩
    exact (Option.any_eq_true _ _).2 ⟨fp, hfp, harmed⟩

/-- A fire that changes a verdict has an edge to the verdict's rule. -/
theorem Arms.edge (hans : handle.Answers cat defs) (hwell : co.WellRegistered cat defs handle)
    (hrec : co.Records handle footprints) {edges : List (List ℕ)} (hedge : ∀ i j, Tarjan.Edge edges i j ↔
      ∃ fired e fp, co.rules[i]? = some fired ∧ co.emission fired.action = .ok e ∧ j < co.rules.length ∧
        footprints[j]? = some fp ∧ fp.armedBy e = true) {id id' : ℕ} (h : co.Arms id id') :
    ∃ i j, id = i + 1 ∧ id' = j + 1 ∧ Tarjan.Edge edges i j := by
  obtain ⟨fired, hfired, rfl, rule, hrule, rfl, attempt, arg, out, w, x, hs, hfire, hchanged⟩ := h
  obtain ⟨i, hi⟩ := List.getElem?_of_mem hfired
  obtain ⟨j, hj⟩ := List.getElem?_of_mem hrule
  obtain ⟨e, he⟩ := hwell.exists_emission hans hfired
  obtain ⟨fp, hfp, raw, flat, hbuilt, hreg, hrecorded⟩ := hrec.getElem? hj
  refine ⟨i, j, hwell.id_eq hi, hwell.id_eq hj,
    (hedge i j).2 ⟨fired, e, fp, hi, he, (List.getElem?_eq_some_iff.1 hj).1, hfp, ?_⟩⟩
  by_contra harm
  rw [Bool.not_eq_true] at harm
  obtain ⟨hagree, hsound⟩ := fire_agrees hfire (hwell.find hi) he harm
  obtain rfl := hwell.sameCatalog
  obtain rfl := hwell.sameDefs
  exact hchanged (triggerTrue_recorded hans hbuilt hreg hrecorded hs (hsound hs) hagree x).symm

/-- A closed walk through two vertices puts them in one cycle of the graph. -/
theorem exists_isCycle_of_walk {edges : List (List ℕ)} (hlt : ∀ v w, Tarjan.Edge edges v w → w < edges.length) {i j : ℕ}
    (h : Relation.TransGen (Tarjan.Edge edges) i j) (h' : Relation.TransGen (Tarjan.Edge edges) j i) :
    ∃ c, Tarjan.IsCycle edges c ∧ i ∈ c ∧ j ∈ c := by
  have hloop : (∃ w, w ≠ i ∧ Components.Mutual (Tarjan.Edge edges) i w) ∨ Tarjan.Edge edges i i := by
    obtain ⟨k, hik, hki⟩ := Relation.TransGen.head'_iff.1 (h.trans h')
    by_cases hk : k = i
    · exact .inr (hk ▸ hik)
    · exact .inl ⟨k, hk, .single hik, hki⟩
  obtain ⟨c, hc, hi⟩ := (Tarjan.exists_isCycle_iff hlt i).2 hloop
  exact ⟨c, hc, hi, (hc.component i hi j).2 ⟨h.to_reflTransGen, h'.to_reflTransGen⟩⟩

/-- A turn that changes a verdict fired a rule, and that rule arms the verdict's. -/
theorem Rearms.arms {t u : Turn} (h : co.Rearms t u) (hs : t.attempt.base.Sound)
    (hfires : co.landing t = t.attempt.base ∨ ∃ fired ∈ co.rules, t.ruleId = some fired.id ∧ ∃ arg out w,
      co.fire ⟨fired.id, arg⟩ t.attempt = .ok (out, w) ∧ co.landing t = ⟨w, t.attempt.base.guest⟩) :
    ∃ id id', t.ruleId = some id ∧ u.ruleId = some id' ∧ co.Arms id id' := by
  obtain ⟨rule, hrule, hid, x, hchanged⟩ := h
  rcases hfires with hsame | ⟨fired, hfired, hfid, arg, out, w, hfire, hlands⟩
  · exact absurd (by rw [hsame]) hchanged
  · rw [hlands] at hchanged
    exact ⟨fired.id, rule.id, hfid, hid, fired, hfired, rfl, rule, hrule, rfl, t.attempt, arg, out, w, x, hs, hfire,
      hchanged⟩

/-- Of turns each of which changes a verdict that the next is picked by, each arms every later one. -/
theorem Drives.arms {co' : Coordinator} {w w' : CoordinationWorld} {ts chain : List Turn} (h : co.Drives w ts co' w')
    (hwell : co.WellRegistered cat defs handle) (hs : w.Sound) (hsub : chain.Sublist ts) (hchain : chain.IsChain co.Rearms) :
    chain.Pairwise fun t u => ∃ id id', t.ruleId = some id ∧ u.ruleId = some id' ∧ Relation.TransGen co.Arms id id' := by
  have hfires := h.fires hwell hs
  have htrans : IsTrans Turn fun t u => ∃ id id', t.ruleId = some id ∧ u.ruleId = some id' ∧
      Relation.TransGen co.Arms id id' := by
    refine ⟨fun t u v => ?_⟩
    rintro ⟨id, id', ht, hu, harms⟩ ⟨id₁, id₂, hu', hv, harms'⟩
    obtain rfl : id' = id₁ := Option.some.inj (hu.symm.trans hu')
    exact ⟨id, id₂, ht, hv, harms.trans harms'⟩
  refine List.isChain_iff_pairwise.1 (hchain.imp_of_mem_imp fun t u ht _ hrearms => ?_)
  obtain ⟨hsound, hlands⟩ := hfires t (hsub.subset ht)
  obtain ⟨id, id', hid, hid', harms⟩ := hrearms.arms hsound hlands
  exact ⟨id, id', hid, hid', .single harms⟩

/-- The turns of a drive picked rules of the working set it began with. -/
theorem Drives.ruleId_mem {co' : Coordinator} {w w' : CoordinationWorld} {ts : List Turn} (h : co.Drives w ts co' w') :
    ∀ t ∈ ts, ∀ id, t.ruleId = some id → id ∈ co.rules.map CheckedRule.id := by
  induction h with
  | nil => exact List.forall_mem_nil _
  | cons _ _ _ hpick hstep _ ih =>
    refine List.forall_mem_cons.2 ⟨fun id hid => ?_, fun u hu id hid => ?_⟩
    · obtain ⟨⟨idx, rule, arg⟩, hpicked, rfl⟩ := Option.map_eq_some_iff.1 hid
      rw [hpicked] at hpick
      obtain ⟨-, -, -, hget, -, -⟩ := pick_eq_some hpick
      exact List.mem_map_of_mem (List.mem_of_getElem? hget)
    · have hmem := ih u hu id hid
      rcases step_eq_ok hstep with ⟨-, rfl, -⟩ | ⟨i, r, a, -, rfl, -⟩
      · exact hmem
      · rwa [rotate_ids] at hmem

/-- The answer is the cycles of the graph, by identifiers. -/
theorem exists_armerCycles (hans : handle.Answers cat defs) (hwell : co.WellRegistered cat defs handle)
    (footprints : List Footprint) : ∃ edges cycles, co.armerCycles footprints = .ok cycles ∧
      (∀ v w, Tarjan.Edge edges v w → w < edges.length) ∧
      (∀ i j, Tarjan.Edge edges i j ↔ ∃ fired e fp, co.rules[i]? = some fired ∧ co.emission fired.action = .ok e ∧
        j < co.rules.length ∧ footprints[j]? = some fp ∧ fp.armedBy e = true) ∧
      ∀ c, c ∈ cycles ↔ ∃ scc, Tarjan.IsCycle edges scc ∧ c = scc.map (· + 1) := by
  obtain ⟨edges, hedges, hlen, hedge⟩ := exists_armerEdges hans hwell footprints
  have hlt : ∀ v w, Tarjan.Edge edges v w → w < edges.length := by
    intro v w he
    obtain ⟨_, _, _, -, -, hw, -⟩ := (hedge v w).1 he
    exact hlen ▸ hw
  obtain ⟨st, hpass, hsound, rfl, hdone⟩ := Tarjan.exists_pass fun succs hsuccs w hw =>
    (List.getElem?_of_mem hsuccs).elim fun v hv => hlt v w ⟨succs, hv, hw⟩
  have hmem : ∀ c, c ∈ st.out.insertionSort (· ≤ ·) ↔ Tarjan.IsCycle st.edges c := by
    intro c
    rw [List.mem_insertionSort, hsound.mem_out]
    exact and_iff_left_of_imp fun hc v hv => hdone v (hc.lt hv)
  have hids : ∀ scc ∈ st.out.insertionSort (· ≤ ·), (scc.mapM fun i => do
      let rule ← Tarjan.fetch co.rules i
      return rule.id : Outcome Empty (List ℕ)) = .ok (scc.map (· + 1)) := by
    intro scc hscc
    refine Outcome.mapM_eq_ok fun i hi => ?_
    have hi' := ((hmem scc).1 hscc).lt hi
    rw [hlen] at hi'
    have hget := List.getElem?_eq_getElem hi'
    rw [Tarjan.fetch_eq_ok_iff.2 hget, Outcome.ok_bind, hwell.id_eq hget]
    rfl
  refine ⟨st.edges, (st.out.insertionSort (· ≤ ·)).map (·.map (· + 1)), ?_, hlt, hedge, fun c => ?_⟩
  · rw [armerCycles, hedges, Outcome.ok_bind, hpass, Outcome.ok_bind]
    exact Outcome.mapM_eq_ok hids
  · rw [List.mem_map]
    exact exists_congr fun scc => and_congr (hmem scc) eq_comm

/-- **The coupling warning misses no feedback through fires.** Two rules whose fires can change one
another's verdicts, through other rules or at once, stand in one reported component, and a reported
component is a cycle of the graph. Over any turns, a chain in which each turn changes a verdict of
the rule that the next picks comes back to no rule that is not reported, so it has at most as many
turns as there are rules where nothing is. -/
theorem armerCycles_reports (hans : handle.Answers cat defs) (hset : WorkingSet handle cat defs co)
    (hrec : co.Records handle footprints) : ∃ cycles, co.armerCycles footprints = .ok cycles ∧
      (∀ id id', Relation.TransGen co.Arms id id' → Relation.TransGen co.Arms id' id → ∃ c ∈ cycles, id ∈ c ∧ id' ∈ c) ∧
      (∀ c ∈ cycles, (∀ id ∈ c, ∀ id' ∈ c, Relation.ReflTransGen (co.ArmerEdge footprints) id id') ∧
        (1 < c.length ∨ ∃ id ∈ c, co.ArmerEdge footprints id id)) ∧
      ∀ w ts co' w', co.Drives w ts co' w' → w.Sound → ∀ chain : List Turn, chain.Sublist ts → chain.IsChain co.Rearms →
        (chain.Pairwise fun t u => ∀ id, t.ruleId = some id → u.ruleId = some id → ∃ c ∈ cycles, id ∈ c) ∧
          (cycles = [] → (∀ t ∈ chain, t.ruleId.isSome = true) → chain.length ≤ co.rules.length) := by
  have hwell := hset.registered
  obtain ⟨edges, cycles, hcycles, hlt, hedge, hmem⟩ := exists_armerCycles hans hwell footprints
  have hwalk : ∀ id id', Relation.TransGen co.Arms id id' →
      ∃ i j, id = i + 1 ∧ id' = j + 1 ∧ Relation.TransGen (Tarjan.Edge edges) i j := by
    intro id id' h
    induction h with
    | single h =>
      obtain ⟨i, j, hi, hj, he⟩ := h.edge hans hwell hrec hedge
      exact ⟨i, j, hi, hj, .single he⟩
    | tail _ h ih =>
      obtain ⟨i, j, hi, hj, hwalk⟩ := ih
      obtain ⟨j', k, hj', hk, he⟩ := h.edge hans hwell hrec hedge
      obtain rfl : j = j' := Nat.succ.inj (hj.symm.trans hj')
      exact ⟨i, k, hi, hk, hwalk.tail he⟩
  have hreported : ∀ id id', Relation.TransGen co.Arms id id' → Relation.TransGen co.Arms id' id →
      ∃ c ∈ cycles, id ∈ c ∧ id' ∈ c := by
    intro id id' h h'
    obtain ⟨i, j, rfl, rfl, hij⟩ := hwalk _ _ h
    obtain ⟨j', i', hj', hi', hji⟩ := hwalk _ _ h'
    obtain rfl := Nat.succ.inj hi'
    obtain rfl := Nat.succ.inj hj'
    obtain ⟨c, hc, hi, hj⟩ := exists_isCycle_of_walk hlt hij hji
    exact ⟨_, (hmem _).2 ⟨c, hc, rfl⟩, List.mem_map_of_mem hi, List.mem_map_of_mem hj⟩
  have hgraph : ∀ i j, Tarjan.Edge edges i j → co.ArmerEdge footprints (i + 1) (j + 1) := by
    intro i j he
    obtain ⟨fired, e, fp, hi, hemits, hj, hfp, harmed⟩ := (hedge i j).1 he
    have hget := List.getElem?_eq_getElem hj
    exact ⟨fired, _, e, fp, j, List.mem_of_getElem? hi, hwell.id_eq hi, hemits, hget, hwell.id_eq hget, hfp, harmed⟩
  refine ⟨cycles, hcycles, hreported, fun c hc => ?_, fun w ts co' w' hdrives hs chain hsub hchain => ?_⟩
  · obtain ⟨scc, hscc, rfl⟩ := (hmem c).1 hc
    refine ⟨fun id hid id' hid' => ?_, ?_⟩
    · obtain ⟨i, hi, rfl⟩ := List.mem_map.1 hid
      obtain ⟨j, hj, rfl⟩ := List.mem_map.1 hid'
      exact ((hscc.component i hi j).1 hj).1.lift (· + 1) hgraph
    · rw [List.length_map]
      refine hscc.nontrivial.imp_right ?_
      rintro ⟨v, hv, hloop⟩
      exact ⟨v + 1, List.mem_map_of_mem hv, hgraph v v hloop⟩
  · have hpairs := hdrives.arms hwell hs hsub hchain
    have hreport : chain.Pairwise fun t u => ∀ id, t.ruleId = some id → u.ruleId = some id → ∃ c ∈ cycles, id ∈ c := by
      refine hpairs.imp fun {t u} hboth id ht hu => ?_
      obtain ⟨id₁, id₂, ht', hu', harms⟩ := hboth
      obtain rfl : id₁ = id := Option.some.inj (ht'.symm.trans ht)
      obtain rfl : id₂ = id₁ := Option.some.inj (hu'.symm.trans hu)
      obtain ⟨c, hc, hmem, -⟩ := hreported _ _ harms harms
      exact ⟨c, hc, hmem⟩
    refine ⟨hreport, fun hnone hpicked => ?_⟩
    subst hnone
    have hnodup : (chain.map Turn.ruleId).Nodup := by
      rw [List.Nodup, List.pairwise_map]
      refine (List.Pairwise.and_mem.1 hreport).imp fun {t u} hboth hsame => ?_
      obtain ⟨ht, -, hreport⟩ := hboth
      obtain ⟨id, hid⟩ := Option.isSome_iff_exists.1 (hpicked t ht)
      obtain ⟨c, hc, -⟩ := hreport id hid (hsame.symm.trans hid)
      cases hc
    have hsubset : chain.map Turn.ruleId ⊆ (co.rules.map CheckedRule.id).map some := by
      intro k hk
      obtain ⟨t, ht, rfl⟩ := List.mem_map.1 hk
      obtain ⟨id, hid⟩ := Option.isSome_iff_exists.1 (hpicked t ht)
      rw [hid]
      exact List.mem_map_of_mem (hdrives.ruleId_mem t (hsub.subset ht) id hid)
    simpa using (List.subperm_of_subset hnodup hsubset).length_le

end Coordinator

/-- The rule that retires what is certified reads the slice it writes, and is reported. -/
theorem armerCycles_reports_retirer : ∃ fp cycles, retirer.registeredFootprint noDefs retireCertified = .ok fp ∧
    retirer.armerCycles [fp] = .ok cycles ∧ cycles = [[1]] ∧
    ∀ w ts co' w', retirer.Drives w ts co' w' → w.Sound → ∀ chain : List Turn, chain.Sublist ts →
      chain.IsChain retirer.Rearms → chain.Pairwise fun t u => ∀ id, t.ruleId = some id → u.ruleId = some id →
        ∃ c ∈ cycles, id ∈ c := by
  have hok : (retirer.registeredFootprint noDefs retireCertified).isOk = true := by decide +kernel
  obtain ⟨fp, hfp⟩ := Outcome.isOk_iff.1 hok
  have hrec : retirer.Records noDefs [fp] :=
    .cons ⟨retireCertified, _, retireCertified_built, ⟨rfl, rfl, rfl⟩, hfp⟩ .nil
  obtain ⟨cycles, hcycles, -, -, hdrives⟩ :=
    Coordinator.armerCycles_reports (noDefs_answers _ _) retirer_workingSet hrec
  have hone : ((retirer.registeredFootprint noDefs retireCertified).toOption.bind fun fp =>
      (retirer.armerCycles [fp]).toOption) = some [[1]] := by decide +kernel
  rw [hfp, Outcome.toOption, Option.bind_some, hcycles] at hone
  refine ⟨fp, cycles, hfp, hcycles, Option.some.inj hone, fun w ts co' w' h hs chain hsub hchain => ?_⟩
  exact (hdrives w ts co' w' h hs chain hsub hchain).1

end Coordination
