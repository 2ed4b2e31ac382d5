import Skep.Coordination.Footprint
import Skep.Coordination.Sorting
import Skep.Library.Returns
import Skep.Links.Members

/-!
# Every read returns

At a sound world whose links denote addresses no read of the evaluator meets what it trusts the
checker and the store to exclude.
-/

/-- Whatever the slots of the tuple denote is an address. -/
def Tuple.DenotesAddresses (t : Tuple) : Prop :=
  ∀ x ∈ t.fromSlot.addrs ++ t.toSlot.addrs, ∃ b : Address, b.tumbler = x

namespace Coordination

/-- A value that denotes addresses, if it is a tuple. -/
def Value.DenotesAddresses : Value → Prop
  | .tuple t => t.DenotesAddresses
  | .bool _ | .addr _ | .addrSet _ | .optAddr _ | .addrSeq _ | .map _ | .nat _ | .optNat _ => True

/-- A value of a sort. -/
structure Value.HasSort (x : Value) (s : ValueSort) : Prop where
  sort : x.sort = s
  denotes : x.DenotesAddresses

namespace Value.HasSort

theorem bool (b : Bool) : (Value.bool b).HasSort .bool := ⟨rfl, trivial⟩

theorem addr (a : Address) : (Value.addr a).HasSort .addr := ⟨rfl, trivial⟩

theorem addrSet (s : OrdSet Address) : (Value.addrSet s).HasSort .addrSet := ⟨rfl, trivial⟩

theorem optAddr (o : Option Address) : (Value.optAddr o).HasSort .optAddr := ⟨rfl, trivial⟩

theorem addrSeq (l : List Address) : (Value.addrSeq l).HasSort .addrSeq := ⟨rfl, trivial⟩

theorem map (m : List (CoverageClass × Address)) : (Value.map m).HasSort .map := ⟨rfl, trivial⟩

theorem nat (n : ℕ) : (Value.nat n).HasSort .nat := ⟨rfl, trivial⟩

theorem optNat (o : Option ℕ) : (Value.optNat o).HasSort .optNat := ⟨rfl, trivial⟩

end Value.HasSort

section

variable {x : Value}

theorem asBool_returns (h : x.HasSort .bool) : (asBool x).Returns fun _ => True := by
  obtain ⟨hsort, -⟩ := h
  cases x <;> first | exact ⟨_, rfl, trivial⟩ | cases hsort

theorem asAddr_returns (h : x.HasSort .addr) : (asAddr x).Returns fun _ => True := by
  obtain ⟨hsort, -⟩ := h
  cases x <;> first | exact ⟨_, rfl, trivial⟩ | cases hsort

theorem asSet_returns (h : x.HasSort .addrSet) : (asSet x).Returns fun _ => True := by
  obtain ⟨hsort, -⟩ := h
  cases x <;> first | exact ⟨_, rfl, trivial⟩ | cases hsort

theorem asNat_returns (h : x.HasSort .nat) : (asNat x).Returns fun _ => True := by
  obtain ⟨hsort, -⟩ := h
  cases x <;> first | exact ⟨_, rfl, trivial⟩ | cases hsort

end

theorem addrElem_returns {e : Arg} (h : e.toValue.HasSort .addr) : (addrElem e).Returns fun _ => True := by
  obtain ⟨hsort, -⟩ := h
  cases e with
  | addr a => exact ⟨a, rfl, trivial⟩
  | tuple t => cases hsort

theorem lift_returns {t : Tumbler} (h : ∃ b : Address, b.tumbler = t) : (lift t).Returns fun _ => True := by
  obtain ⟨b, rfl⟩ := h
  exact ⟨b, Outcome.expect_eq_ok_iff.2 (validate_eq_ok_iff.2 rfl), trivial⟩

theorem mem_addrs_of_singleDenoted {e : Endset} {x : Tumbler} (h : e.singleDenoted = some x) : x ∈ e.addrs := by
  rw [Endset.singleDenoted] at h
  split at h
  · cases h
  · cases haddrs : e.addrs with
    | nil =>
      rw [haddrs] at h
      cases h
    | cons first rest =>
      rw [haddrs] at h
      simp only at h
      split at h
      · cases h
      · cases h
        exact List.mem_cons_self

namespace GuestLinks

variable {reg : TypeRegistry} {g : GuestLinks} {ty : Endset} {c : CoverageClass} {s : Slice}

theorem denotes_of_mem_slice (hd : g.unfiltered.DenotesAddresses) {t : Tuple} (h : t ∈ g.slice reg c s) :
    t.DenotesAddresses := by
  obtain ⟨e, he, rfl⟩ := List.mem_map.1 (List.mem_filter.1 h).1
  exact hd e.1 e.2 (LinkState.mem_typedLinks.1 he).1

theorem observe_returns (hd : g.unfiltered.DenotesAddresses) (hc : coverageClass ty = .ok c) (pat : Pattern) :
    (g.observe reg ty pat s).Returns fun l => ∀ t ∈ l, t.DenotesAddresses :=
  .of_eq (observe_eq hc pat) fun _ ht => denotes_of_mem_slice hd (List.mem_filter.1 ht).1

theorem denoteSlot_returns {tuples : List Tuple} {slot : Tuple → Endset}
    (h : ∀ t ∈ tuples, ∀ x ∈ (slot t).addrs, ∃ b : Address, b.tumbler = x) :
    (denoteSlot tuples slot).Returns fun _ => True := by
  refine Outcome.Returns.bind (.mapM (R := fun _ => True) fun x hx => ?_) fun addrs _ => .pure trivial
  obtain ⟨t, ht, hx⟩ := List.mem_flatMap.1 hx
  exact lift_returns (h t ht x hx)

theorem members_returns (hd : g.unfiltered.DenotesAddresses) (hc : coverageClass ty = .ok c) :
    (g.members reg ty s).Returns fun _ => True :=
  (observe_returns hd hc {}).bind fun _ hts => denoteSlot_returns fun t ht x hx => hts t ht x (List.mem_append_left _ hx)

theorem targetsOf_returns (hd : g.unfiltered.DenotesAddresses) (hc : coverageClass ty = .ok c) (x : Address) :
    (g.targetsOf reg ty x s).Returns fun _ => True :=
  (observe_returns hd hc _).bind fun _ hts => denoteSlot_returns fun t ht x hx => hts t ht x (List.mem_append_right _ hx)

theorem sourcesTo_returns (hd : g.unfiltered.DenotesAddresses) (hc : coverageClass ty = .ok c) (x : Address) :
    (g.sourcesTo reg ty x).Returns fun _ => True :=
  (observe_returns hd hc _).bind fun _ hts => denoteSlot_returns fun t ht x hx => hts t ht x (List.mem_append_left _ hx)

theorem tuplesDenoting_returns (hd : g.unfiltered.DenotesAddresses) (hc : coverageClass ty = .ok c) (x : Address) :
    (g.tuplesDenoting reg ty x s).Returns fun l => ∀ t ∈ l, t.DenotesAddresses :=
  (observe_returns hd hc _).bind fun _ hts => .pure fun t ht => hts t (List.mem_filter.1 ht).1

theorem targetsOfDenoting_returns (hd : g.unfiltered.DenotesAddresses) (hc : coverageClass ty = .ok c) (x : Address) :
    (g.targetsOfDenoting reg ty x).Returns fun _ => True :=
  (tuplesDenoting_returns hd hc x).bind fun _ hts =>
    denoteSlot_returns fun t ht x hx => hts t ht x (List.mem_append_right _ hx)

theorem targetOf_returns (hd : g.unfiltered.DenotesAddresses) (hc : coverageClass ty = .ok c) (x : Address) :
    (g.targetOf reg ty x).Returns fun _ => True := by
  refine (tuplesDenoting_returns hd hc x).bind fun ts hts => ?_
  have hone : ∀ t ∈ ts, (t.toSlot.singleDenoted.mapM lift).Returns fun _ => True := by
    intro t ht
    cases hto : t.toSlot.singleDenoted with
    | none => exact .pure trivial
    | some x =>
      refine (lift_returns (hts t ht x (List.mem_append_right _ ?_))).bind fun a _ => .pure trivial
      exact mem_addrs_of_singleDenoted hto
  rcases ts with _ | ⟨t, _ | ⟨t', ts⟩⟩
  · exact .pure trivial
  · exact hone t List.mem_cons_self
  · exact .pure trivial

theorem forwardClaims_returns (hd : g.unfiltered.DenotesAddresses) (hc : coverageClass ty = .ok c) :
    (g.forwardClaims reg ty).Returns fun _ => True := by
  refine (observe_returns hd hc {}).bind fun ts hts => .foldlM (fun fwd t ht => ?_) _
  refine .foldlM (fun fwd old hold => ?_) fwd
  refine (lift_returns (hts t ht old (List.mem_append_left _ hold))).bind fun a _ => ?_
  refine Outcome.Returns.bind (.mapM (R := fun _ => True) fun new hnew => ?_) fun news _ => .pure trivial
  exact lift_returns (hts t ht new (List.mem_append_right _ hnew))

/-- A walk of distinct addresses, each but the last with a successor, has turns left. -/
theorem walkFrom_returns {fwd : OrdMap Address (OrdSet Address)} (fuel : ℕ) (pre : List Address) (node : Address)
    (hnodup : (pre ++ [node]).Nodup) (hkeys : ∀ a ∈ pre, ∃ v, fwd.get a = some v)
    (hfuel : fwd.entries.length < fuel + pre.length) : (walkFrom fwd fuel (pre ++ [node]) node).Returns fun _ => True := by
  induction fuel generalizing pre node with
  | zero =>
    have hsub : pre ⊆ fwd.entries.map Prod.fst := by
      intro a ha
      obtain ⟨v, hv⟩ := hkeys a ha
      exact List.mem_map.2 ⟨(a, v), OrdMap.get_eq_some_iff.1 hv, rfl⟩
    have hle := ((hnodup.sublist (List.sublist_append_left pre [node])).subperm hsub).length_le
    rw [List.length_map] at hle
    omega
  | succ fuel ih =>
    rw [walkFrom]
    split
    · exact .pure trivial
    · next next hnext =>
      split
      · exact .pure trivial
      · next hnew =>
        refine ih (pre ++ [node]) next (List.nodup_append.2 ⟨hnodup, List.nodup_singleton _, ?_⟩) ?_ ?_
        · rintro a ha b hb rfl
          exact hnew (List.mem_singleton.1 hb ▸ ha)
        · intro a ha
          rcases List.mem_append.1 ha with ha | ha
          · exact hkeys a ha
          · obtain rfl := List.mem_singleton.1 ha
            cases hget : fwd.get a with
            | some v => exact ⟨v, rfl⟩
            | none =>
              rw [succsOperative, hget] at hnext
              cases hnext
        · rw [List.length_append, List.length_singleton]
          omega
    · exact .pure trivial

theorem walkClaims_returns (fwd : OrdMap Address (OrdSet Address)) (x : Address) :
    (walkClaims fwd x).Returns fun _ => True :=
  walkFrom_returns _ [] x (List.nodup_singleton x) (List.forall_mem_nil _) (Nat.lt_succ_self _)

theorem succs_returns (hd : g.unfiltered.DenotesAddresses) (hc : coverageClass ty = .ok c) (x : Address) :
    (g.succs reg ty x).Returns fun _ => True :=
  (forwardClaims_returns hd hc).bind fun _ _ => .pure trivial

theorem chain_returns (hd : g.unfiltered.DenotesAddresses) (hc : coverageClass ty = .ok c) (x : Address) :
    (g.chain reg ty x).Returns fun _ => True :=
  (forwardClaims_returns hd hc).bind fun fwd _ => (walkClaims_returns fwd x).bind fun _ _ => .pure trivial

theorem tip_returns (hd : g.unfiltered.DenotesAddresses) (hc : coverageClass ty = .ok c) (x : Address) :
    (g.tip reg ty x).Returns fun _ => True :=
  (forwardClaims_returns hd hc).bind fun fwd _ => (walkClaims_returns fwd x).bind fun _ _ => .pure trivial

theorem isInChain_returns (hd : g.unfiltered.DenotesAddresses) (hc : coverageClass ty = .ok c) (x y : Address) :
    (g.isInChain reg ty x y).Returns fun _ => True :=
  (forwardClaims_returns hd hc).bind fun fwd _ => (walkClaims_returns fwd x).bind fun _ _ => .pure trivial

end GuestLinks

/-- A key that a guard passes is cataloged, and its type declares what the guard asks. -/
theorem get_of_guarded {cat : TypeCatalog} {tr : TypeRef} {guard : Guard} {k : TypeKey}
    (h : cat.guarded tr guard = .ok k) :
    ∃ e, cat.get k = some e ∧ ∀ b, guard = .needs b → e.declares b = true := by
  have hk := eq_of_guarded h
  subst hk
  simp only [TypeCatalog.guarded, Outcome.bind_eq_ok_iff, Outcome.okOr_eq_ok_iff] at h
  obtain ⟨e, he, h⟩ := h
  refine ⟨e, he, ?_⟩
  rintro b rfl
  simp only [Outcome.bind_eq_ok_iff, Outcome.refuseIf_eq_ok_iff, Bool.not_eq_false] at h
  exact h.choose_spec.1

section

variable {w : CoordinationWorld} {cat : TypeCatalog} {view : View} {defs : Option DefSource} {k : TypeKey}

theorem filteredBy_returns {c : CoverageClass} (hc : coverageClass k = .ok c) (x : Address) :
    ((w.ctx cat view defs).filteredBy k x).Returns fun _ => True :=
  .of_eq (GuestLinks.isK_eq hc _) trivial

theorem uvKeeps_returns (hk : ∃ e, cat.get k = some e) (x : Address) :
    ((w.ctx cat view defs).uvKeeps k x).Returns fun _ => True := by
  obtain ⟨e, he⟩ := hk
  rw [EvalCtx.uvKeeps]
  split
  · exact .pure trivial
  · refine Outcome.Returns.bind (P := fun _ => True) ?_ fun b _ => .pure trivial
    refine Outcome.Returns.bind (.of_eq (P := fun _ => True) (TypeCatalog.classOf_eq_ok_iff.2 ⟨e, he, rfl⟩) trivial)
      fun c _ => ?_
    refine .anyM fun j hj => ?_
    split
    · exact filteredBy_returns (TypeCatalog.coverageClass_of_readFilter hj) x
    · exact .pure trivial

theorem uvRewrite_returns (hk : ∃ e, cat.get k = some e) (answer : OrdSet Address) :
    ((w.ctx cat view defs).uvRewrite k answer).Returns fun _ => True :=
  (Outcome.Returns.keepM fun x _ => uvKeeps_returns hk x).bind fun _ _ => .pure trivial

theorem membersAt_returns (hd : w.links.DenotesAddresses) (hk : ∃ e, cat.get k = some e) :
    ((w.ctx cat view defs).membersAt k).Returns fun _ => True := by
  obtain ⟨e, he⟩ := hk
  exact (GuestLinks.members_returns hd (TypeCatalog.coverageClass_of_get he)).bind fun s _ => uvRewrite_returns ⟨e, he⟩ s

theorem targetsOfAt_returns (hd : w.links.DenotesAddresses) (hk : ∃ e, cat.get k = some e) (x : Address) :
    ((w.ctx cat view defs).targetsOfAt k x).Returns fun _ => True := by
  obtain ⟨e, he⟩ := hk
  have hc := TypeCatalog.coverageClass_of_get he
  have hrewrite : ∀ s, ((w.ctx cat view defs).uvRewrite k s).Returns fun _ => True := uvRewrite_returns ⟨e, he⟩
  rw [EvalCtx.targetsOfAt]
  split
  · exact (GuestLinks.targetsOfDenoting_returns hd hc x).bind fun s _ => hrewrite s
  · exact (GuestLinks.targetsOf_returns hd hc x).bind fun s _ => hrewrite s
  · exact (GuestLinks.targetsOf_returns hd hc x).bind fun s _ => hrewrite s

theorem targetsKeyed_returns (hd : w.links.DenotesAddresses) (x : Address) :
    ((w.ctx cat view defs).targetsKeyed x).Returns fun _ => True := by
  refine .foldlM (fun out j hj => ?_) []
  refine (GuestLinks.targetOf_returns hd (TypeCatalog.coverageClass_of_reverseLookup hj) x).bind fun o _ => ?_
  cases o with
  | none => exact .pure trivial
  | some a => exact .pure trivial

/-- **An atom at a key that its position admits returns a value of its sort.** -/
theorem KeyedRead.eval_returns (hs : w.Sound) (hd : w.links.DenotesAddresses) {r : KeyedRead} {tr : TypeRef}
    (hk : cat.guarded tr r.guard = .ok k) {x : Value} (hx : x.HasSort r.operand) :
    (r.eval (w.ctx cat view defs) k x).Returns fun y => y.HasSort r.result := by
  obtain ⟨e, he, hneeds⟩ := get_of_guarded hk
  have hc := TypeCatalog.coverageClass_of_get he
  cases r with
  | isK =>
    refine (asAddr_returns hx).bind fun a _ => ?_
    exact Outcome.Returns.bind (.of_eq (P := fun _ => True) (GuestLinks.isK_eq hc _) trivial) fun b _ => .pure (.bool b)
  | targetsOf =>
    exact (asAddr_returns hx).bind fun a _ => (targetsOfAt_returns hd ⟨e, he⟩ a).bind fun s _ => .pure (.addrSet s)
  | isFiltered =>
    exact (asAddr_returns hx).bind fun a _ => (filteredBy_returns hc a).bind fun b _ => .pure (.bool b)
  | succs =>
    exact (asAddr_returns hx).bind fun a _ => (GuestLinks.succs_returns hd hc a).bind fun s _ =>
      (uvRewrite_returns ⟨e, he⟩ s).bind fun s _ => .pure (.addrSet s)
  | chain =>
    refine (asAddr_returns hx).bind fun a _ => (GuestLinks.chain_returns hd hc a).bind fun path _ => ?_
    exact (Outcome.Returns.keepM fun y _ => uvKeeps_returns ⟨e, he⟩ y).bind fun l _ => .pure (.addrSeq l)
  | tip =>
    refine (asAddr_returns hx).bind fun a _ => (GuestLinks.tip_returns hd hc a).bind fun tip _ => ?_
    cases tip with
    | sink b => exact .pure (.optAddr _)
    | indeterminate => exact .pure (.optAddr _)
  | sourcesTo =>
    exact (asAddr_returns hx).bind fun a _ => (GuestLinks.sourcesTo_returns hd hc a).bind fun s _ =>
      (uvRewrite_returns ⟨e, he⟩ s).bind fun s _ => .pure (.addrSet s)
  | targetOf =>
    exact (asAddr_returns hx).bind fun a _ => (GuestLinks.targetOf_returns hd hc a).bind fun o _ => .pure (.optAddr o)
  | age =>
    refine (asAddr_returns hx).bind fun a _ => ?_
    refine Outcome.Returns.bind (P := fun b => b = true → ∃ t ∈ w.look.slice cat.registry e.coverage .active, t.addr = a)
      (.of_eq (GuestLinks.isActiveTuple_eq hc a) fun hany => ?_) fun b hb => ?_
    · obtain ⟨t, ht, haddr⟩ := List.any_eq_true.1 hany
      exact ⟨t, ht, beq_iff_eq.1 haddr⟩
    · split
      · next htrue =>
        obtain ⟨t, ht, rfl⟩ := hb htrue
        exact Outcome.Returns.bind (.of_eq (P := fun _ => True) (age_eq hs ht) trivial) fun o _ => .pure (.optNat o)
      · exact .pure (.optNat _)
  | stale =>
    refine (asNat_returns hx).bind fun n _ => ?_
    have hage : cat.registry.declares e.coverage .age = true := by
      obtain ⟨ty, -, rfl⟩ := TypeCatalog.get_eq_some he
      have hdeclares := hneeds .age rfl
      simpa [TypeRegistry.declares, TypeCatalog.entry, CatalogEntry.declares] using hdeclares
    have hstale := Outcome.expect_eq_ok_iff (ε := Empty) |>.2 (look_stale_eq hs hc hage (min n maxHorizon))
    exact Outcome.Returns.bind (.of_eq (P := fun _ => True) hstale trivial) fun s _ =>
      (uvRewrite_returns ⟨e, he⟩ s).bind fun s _ => .pure (.addrSet s)

/-- An operation on an operand of a sort that it takes returns a value of its result's sort. -/
theorem UnaryOp.eval_returns (hs : w.Sound) (hd : w.links.DenotesAddresses) {op : UnaryOp}
    (hop : op.guarded cat = .ok op) {s : ValueSort} (hwants : op.wants s = .ok ()) {x : Value} (hx : x.HasSort s) :
    (op.eval (w.ctx cat view defs) x).Returns fun y => y.HasSort op.result := by
  have hsort : ∀ {expected}, want expected s = .ok () → s = expected := by
    intro expected h
    exact (not_ne_iff.1 (Outcome.refuseIf_eq_ok_iff.1 h)).symm
  cases op with
  | keyed r tr =>
    obtain rfl := hsort hwants
    simp only [UnaryOp.guarded, Outcome.bind_eq_ok_iff, Outcome.pure_eq, Outcome.ok.injEq, UnaryOp.keyed.injEq] at hop
    obtain ⟨k, hk, -, rfl⟩ := hop
    exact KeyedRead.eval_returns hs hd hk hx
  | targetsKeyed =>
    obtain rfl := hsort hwants
    exact (asAddr_returns hx).bind fun a _ => (targetsKeyed_returns hd a).bind fun m _ => .pure (.map m)
  | isDoc =>
    obtain rfl := hsort hwants
    exact (asAddr_returns hx).bind fun a _ => .pure (.bool _)
  | isEmpty =>
    obtain rfl := hsort hwants
    exact (asSet_returns hx).bind fun a _ => .pure (.bool _)
  | elems =>
    obtain rfl := hsort hwants
    obtain ⟨hxs, -⟩ := hx
    cases x <;> first | exact .pure (.addrSet _) | cases hxs
  | mapGet tr =>
    obtain rfl := hsort hwants
    simp only [UnaryOp.guarded, Outcome.bind_eq_ok_iff, Outcome.pure_eq, Outcome.ok.injEq, UnaryOp.mapGet.injEq] at hop
    obtain ⟨k, hk, rfl⟩ := hop
    obtain ⟨e, he, -⟩ := get_of_guarded hk
    refine Outcome.Returns.bind (.of_eq (P := fun key => key = k) rfl rfl) ?_
    rintro _ rfl
    refine Outcome.Returns.bind (.of_eq (P := fun _ => True) (TypeCatalog.classOf_eq_ok_iff.2 ⟨e, he, rfl⟩) trivial)
      fun c _ => ?_
    obtain ⟨hxs, -⟩ := hx
    cases x <;> first | exact .pure (.optAddr _) | cases hxs
  | defined =>
    have hopt := Outcome.refuseIf_eq_ok_iff.1 hwants
    obtain ⟨rfl, -⟩ := hx
    cases x <;> first | exact .pure (.bool _) | exact absurd (by simp [Value.sort]) hopt
  | not =>
    obtain rfl := hsort hwants
    exact (asBool_returns hx).bind fun b _ => .pure (.bool _)

/-- An operation on two operands of its sorts returns a value of its result's sort. -/
theorem BinaryOp.eval_returns (hd : w.links.DenotesAddresses) {op : BinaryOp} (hop : op.guarded cat = .ok op)
    {x y : Value} (hx : x.HasSort op.operands.1) (hy : y.HasSort op.operands.2) :
    (op.eval (w.ctx cat view defs) x y).Returns fun z => z.HasSort op.result := by
  cases op with
  | isInChain tr =>
    simp only [BinaryOp.guarded, Outcome.bind_eq_ok_iff, Outcome.pure_eq, Outcome.ok.injEq, BinaryOp.isInChain.injEq] at hop
    obtain ⟨k, hk, rfl⟩ := hop
    obtain ⟨e, he, -⟩ := get_of_guarded hk
    exact (asAddr_returns hx).bind fun a _ => (asAddr_returns hy).bind fun b _ =>
      (GuestLinks.isInChain_returns hd (TypeCatalog.coverageClass_of_get he) a b).bind fun c _ => .pure (.bool c)
  | addrEq | prefixOf | t1Lt =>
    exact (asAddr_returns hx).bind fun a _ => (asAddr_returns hy).bind fun b _ => .pure (.bool _)
  | setMem => exact (asAddr_returns hx).bind fun a _ => (asSet_returns hy).bind fun b _ => .pure (.bool _)
  | setEq => exact (asSet_returns hx).bind fun a _ => (asSet_returns hy).bind fun b _ => .pure (.bool _)
  | natEq | natLe => exact (asNat_returns hx).bind fun a _ => (asNat_returns hy).bind fun b _ => .pure (.bool _)
  | natAdd => exact (asNat_returns hx).bind fun a _ => (asNat_returns hy).bind fun b _ => .pure (.nat _)

end

end Coordination
