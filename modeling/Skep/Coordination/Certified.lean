import Skep.Coordination.Driving
import Skep.Coordination.Stability
import Skep.Links.CoverageIdentity

/-!
# Rules that the lint certifies

A certified rule's trigger denies a membership at the audit view, and its fires deposit that very
membership. Once a fire at an argument has not failed, the trigger is false there in every later
world, whoever else writes and whatever is retracted. Where the arguments of all rules stay among
finitely many, turns without a failure come to quiescence.
-/

/-- A tuple of the class that the look sees at the audit slice covers the address. -/
def CoordinationWorld.marks (w : CoordinationWorld) (reg : TypeRegistry) (c : CoverageClass) (a : Address) : Bool :=
  (w.look.slice reg c .audit).any fun t => t.fromSlot.covers a.tumbler

namespace Coordination

section

variable {reg : TypeRegistry} {w w' : CoordinationWorld} {c : CoverageClass} {a : Address}

theorem marks_grows (hg : w.Grows w') (hs : w.Sound) (h : w.marks reg c a = true) : w'.marks reg c a = true := by
  obtain ⟨t, ht, hcovers⟩ := List.any_eq_true.1 h
  exact List.any_eq_true.2 ⟨t, slice_grows hg hs ht, hcovers⟩

/-- A link of the class, homed where the guest class may read, marks what it covers. -/
theorem marks_of_link {addr : Address} {l : Link} (hl : w.links.readlink addr = some l)
    (hc : coverageClass l.typeSlot = .ok c) (hcovers : l.fromSlot.covers a.tumbler = true)
    (hread : ∃ d, documentOf addr = some d ∧ w.guest d = true) : w.marks reg c a = true := by
  obtain ⟨d, hdoc, hguest⟩ := hread
  refine List.any_eq_true.2 ⟨l.tuple addr, mem_look_slice.2 ⟨l, hl, hc, ?_, rfl, ?_⟩, hcovers⟩
  · exact fun hview => absurd hview Bool.false_ne_true
  · show (documentOf addr).any w.guest = true
    rw [hdoc]
    exact hguest

theorem covers_of_class {e : Endset} (h : coverageClass e = coverageClass (enc [a])) : e.covers a.tumbler = true := by
  have hdenoting : e.isAddressDenoting = true := by
    by_contra hnot
    rw [coverageClass_enc, coverageClass, if_neg hnot] at h
    obtain ⟨extents, -, h⟩ := Outcome.bind_eq_ok_iff.1 h
    cases h
  rw [(class_eq_iff_covers hdenoting (isAddressDenoting_enc [a])).1 h a.tumbler]
  exact covers_enc_self (List.mem_singleton_self a)

end

/-- The trigger denies the membership that the rule's fires deposit, and the domain only grows. -/
structure CheckedRule.Extinguishes (co : Coordinator) (rule : CheckedRule) (c : CoverageClass) : Prop where
  action : ∃ home ty, rule.action = .marker home ty ∧ coverageClass ty = .ok c
  trigger : ∀ w a, co.triggerTrue w rule (.addr a) = .ok (!w.marks co.catalog.registry c a)
  tuple : ∀ w t b, co.triggerTrue w rule (.tuple t) ≠ .ok b
  domain : ∃ a, analyzeDom ⟨co.catalog, rule.view, false⟩ rule.domain.dom = .ok a ∧ a.growOnly = true

/-- The rule and the argument that the turn took. -/
def Turn.key (t : Turn) : Option (ℕ × Address) := t.picked.map fun p => (p.1, p.2.2.keyAddr)

theorem Turn.takes_of_key {t : Turn} {idx : ℕ} {x : Address} (h : t.key = some (idx, x)) : t.takes idx x = true := by
  obtain ⟨p, hpicked, hkey⟩ := Option.map_eq_some_iff.1 h
  obtain ⟨rfl, rfl⟩ := Prod.mk.inj hkey
  simp [Turn.takes, hpicked]

/-- The turn's fire was refused. -/
def Turn.isFailed (t : Turn) : Bool :=
  match t.outcome with
  | .failed .. => true
  | .fired .. | .deduped .. | .noOp | .quiescent => false

namespace Coordinator

variable (co : Coordinator) (handle : DefHandle)

/-- A rule of the working set whose submission the lint certifies, its home registered. -/
def CertifiedAt (w : CoordinationWorld) (idx : ℕ) : Prop :=
  ∃ rule raw flat, co.rules[idx]? = some rule ∧ raw.Built co.catalog co.defs ∧ co.Registered handle raw flat rule ∧
    co.certifyRule handle raw = .ok .certifiedTerminating ∧ w.m3.isRegisteredDocument rule.action.home = true

variable {co handle} {rule : CheckedRule} {raw : Rule} {flat : Term} {c : CoverageClass} {idx : ℕ}

theorem negatedMembership_eq_some {t : Term} {param : VarId} {k : TypeKey}
    (h : negatedMembership t param = .ok (some k)) :
    t = .unary .not (.unary (.keyed .isK (.concrete k)) (.var param)) := by
  unfold negatedMembership at h
  split at h
  · next tr v =>
    split at h
    · next hv =>
      subst hv
      cases tr with
      | concrete k' =>
        cases h
        rfl
      | classVar v => cases h
    · cases h
  · cases h
  · cases h

/-- A negated membership of its variable, at the audit view. -/
theorem evalTerm_negated {w : CoordinationWorld} {cat : TypeCatalog} {defs : Option DefSource}
    {call : TypedTerm → Env → Outcome Empty Value} {k : TypeKey} (hc : coverageClass k = .ok c) (v : VarId) (x : Value) :
    evalTerm (w.ctx cat .audit defs) call (Env.empty.bind v x) (.unary .not (.unary (.keyed .isK (.concrete k)) (.var v))) =
      (asAddr x).bind fun a => .ok (.bool (!w.marks cat.registry c a)) := by
  have hread : ∀ a : Address, (w.ctx cat .audit defs).isKAt k a = .ok (w.marks cat.registry c a) :=
    fun a => GuestLinks.isK_eq hc a.tumbler
  have hvar : evalTerm (w.ctx cat .audit defs) call (Env.empty.bind v x) (.var v) = .ok x := by
    simp [evalTerm, Env.bind, Outcome.expectSome]
  have hmember : evalTerm (w.ctx cat .audit defs) call (Env.empty.bind v x) (.unary (.keyed .isK (.concrete k)) (.var v)) =
      (asAddr x).bind fun a => .ok (.bool (w.marks cat.registry c a)) := by
    rw [evalTerm, hvar]
    show ((asAddr x).bind fun a => ((w.ctx cat .audit defs).isKAt k a).bind fun b => .ok (Value.bool b)) = _
    simp only [hread]
    rfl
  rw [evalTerm, hmember]
  cases x <;> rfl

theorem markerLeg_eq_true {v : Validated} (h : co.markerLeg raw v = .ok true) :
    raw.view = .audit ∧ ∃ home ty k c, raw.action = .marker home ty ∧
      v.flatExpansion = .unary .not (.unary (.keyed .isK (.concrete k)) (.var v.trigger.param.1)) ∧
      coverageClass k = .ok c ∧ coverageClass ty = .ok c := by
  cases haction : raw.action with
  | marker home ty =>
    rw [markerLeg, haction] at h
    dsimp only at h
    split at h
    · next hview =>
      obtain ⟨found, hfound, h⟩ := Outcome.bind_eq_ok_iff.1 h
      cases found with
      | none => cases h
      | some k =>
        obtain ⟨c, hc, h⟩ := Outcome.bind_eq_ok_iff.1 h
        obtain ⟨c', hc', h⟩ := Outcome.bind_eq_ok_iff.1 h
        obtain rfl : c = c' := of_decide_eq_true (Outcome.ok.inj h)
        exact ⟨hview, home, ty, k, c, rfl, negatedMembership_eq_some hfound, TypeCatalog.coverageClass_of_classOf hc,
          TypeCatalog.coverageClass_of_classOf hc'⟩
    · cases h
  | nullify home =>
    rw [markerLeg, haction] at h
    cases h

theorem certifyRule_extinguishes (hans : handle.Answers co.catalog co.defs) (hbuilt : raw.Built co.catalog co.defs)
    (hreg : co.Registered handle raw flat rule) (h : co.certifyRule handle raw = .ok .certifiedTerminating) :
    ∃ c, rule.Extinguishes co c := by
  simp only [certifyRule, Outcome.bind_eq_ok_iff, Outcome.expect_eq_ok_iff] at h
  obtain ⟨v, hvalid, analysis, -, marker, hmarker, domain, hdomain, h⟩ := h
  obtain rfl : v = ⟨rule.domain, rule.trigger, flat⟩ := Outcome.ok.inj (hvalid.symm.trans hreg.validated)
  obtain ⟨-, -, hchecked, -, hflat, -⟩ := validateRule_spec hans hbuilt hvalid
  dsimp only at hchecked hflat hdomain
  split at h
  · next hlegs =>
    simp only [Bool.and_eq_true] at hlegs
    obtain ⟨⟨-, rfl⟩, hgrow⟩ := hlegs
    obtain ⟨hview, home, ty, k, c, haction, hspelled, hk, hty⟩ := markerLeg_eq_true hmarker
    dsimp only at hspelled
    have hread : ∀ w arg, co.triggerTrue w rule arg =
        (asAddr arg.toValue).bind fun a => .ok (!w.marks co.catalog.registry c a) := by
      intro w arg
      have heval : ∀ defs call, (evalTerm (w.ctx co.catalog rule.view defs) call
          (Env.empty.bind rule.trigger.param.1 arg.toValue) flat).bind asBool =
            (asAddr arg.toValue).bind fun a => .ok (!w.marks co.catalog.registry c a) := by
        intro defs call
        rw [hreg.view, hview, hspelled, evalTerm_negated hk]
        cases arg <;> rfl
      rcases hflat with ⟨-, rfl⟩ | hexpanded
      · exact heval (some co.defs) _
      · exact (triggerTrue_eq hchecked hexpanded w arg).trans (heval none _)
    refine ⟨c, ⟨home, ty, hreg.action.trans haction, hty⟩, fun w a => hread w (.addr a), fun w t b hb => ?_,
      domain, hreg.view ▸ hdomain, hgrow⟩
    rw [hread] at hb
    cases hb
  · cases h

/-- A rotation changes nothing of what is certified. -/
theorem extinguishes_rotate (h : rule.Extinguishes co c) (idx : ℕ) (arg : Arg) (last : Option Address) :
    CheckedRule.Extinguishes (co.rotate idx arg) { rule with lastPick := last } c :=
  ⟨h.action, h.trigger, h.tuple, h.domain⟩

/-- The trigger of a certified rule holds at addresses alone, and at none that is marked. -/
theorem extinguishes_true (h : rule.Extinguishes co c) {w : CoordinationWorld} {arg : Arg}
    (htrue : co.triggerTrue w rule arg = .ok true) : ∃ a, arg = .addr a ∧ w.marks co.catalog.registry c a = false := by
  cases arg with
  | addr a =>
    rw [h.trigger, Outcome.ok.injEq, Bool.not_eq_true'] at htrue
    exact ⟨a, rfl, htrue⟩
  | tuple t => exact absurd htrue (h.tuple w t true)

/-- A link with the key of the marker marks the argument. -/
theorem marks_of_emitted {w : LinkWorld} {base : CoordinationWorld} {home a : Address} {ty : TypeKey} {value : Link}
    {d : Deposited} (hc : coverageClass ty = .ok c) (hvalue : emitTuple ty a [] = some value)
    (h : Emitted co.catalog.registry base.toLinkWorld base.guest home value d w) (hguest : base.guest home = true) :
    CoordinationWorld.marks ⟨w, base.guest⟩ co.catalog.registry c a = true := by
  obtain rfl : value = ⟨enc [a], enc [], ty⟩ := by
    rw [emitTuple] at hvalue
    split at hvalue
    · cases hvalue
    · exact (Option.some.inj hvalue).symm
  obtain ⟨l, hl, hkey, hhome⟩ := h.stands
  have hread : ∃ doc, documentOf d.address = some doc ∧ base.guest doc = true :=
    hhome.elim (fun hdoc => ⟨home, hdoc, hguest⟩) id
  rcases hkey with rfl | ⟨key, hkey, hsame⟩
  · exact marks_of_link hl hc (covers_enc_self (List.mem_singleton_self a)) hread
  · simp only [DedupKey.of, Outcome.bind_eq_ok_iff, Outcome.pure_eq, Outcome.ok.injEq] at hkey hsame
    obtain ⟨cty, hty, cfrom, hfrom, cto, -, rfl⟩ := hkey
    obtain ⟨cty', hty', cfrom', hfrom', cto', -, hkeys⟩ := hsame
    obtain ⟨rfl, rfl, -⟩ := DedupKey.mk.inj hkeys
    refine marks_of_link hl ?_ (covers_of_class (hfrom'.trans hfrom.symm)) hread
    rw [hty', ← hty, hc]

variable {cat : TypeCatalog} {defs : DefSource} {co' : Coordinator} {t : Turn}

/-- **A turn that does not fail marks the argument it took.** -/
theorem Turned.marks (h : co.Turned t co') (hans : handle.Answers cat defs) (hwell : co.WellRegistered cat defs handle)
    (hpick : co.pick t.snap = .ok t.picked) (hsound : t.snap.Sound ∧ t.attempt.snap.Sound ∧ t.attempt.base.Sound)
    (hsnap : t.snap.Grows t.attempt.snap) (hbase : t.attempt.snap.Grows t.attempt.base)
    (hland : t.attempt.base.Grows (co.landing t))
    (hdenotes : t.outcome = .noOp → t.snap.links.DenotesAddresses ∧ t.attempt.snap.links.DenotesAddresses)
    (hget : co.rules[idx]? = some rule) (hext : rule.Extinguishes co c)
    (hhome : t.attempt.snap.m3.isRegisteredDocument rule.action.home = true) (hfailed : t.isFailed = false) {x : Address}
    (htakes : t.takes idx x = true) : (co.landing t).marks co.catalog.registry c x = true := by
  cases h with
  | quiescent hpicked =>
    rw [Turn.takes, hpicked] at htakes
    cases htakes
  | failed _ _ houtcome =>
    rw [Turn.isFailed, houtcome] at hfailed
    cases hfailed
  | @fired idx' rule' arg out w hpicked hrotated hfire houtcome hlands =>
    have hat : idx' = idx ∧ arg.keyAddr = x := by simpa [Turn.takes, hpicked] using htakes
    obtain ⟨rfl, rfl⟩ := hat
    rw [hpicked] at hpick
    obtain ⟨-, -, -, hget', hnext, -⟩ := pick_eq_some hpick
    obtain rfl : rule = rule' := Option.some.inj (hget.symm.trans hget')
    obtain ⟨elems, helems, harg, htrue, -⟩ := nextPick_spec hnext
    obtain ⟨a, rfl, -⟩ := extinguishes_true hext htrue
    rcases fire_eq_ok hfire (hwell.find_rotate hget _) with ⟨rfl, -, hnone⟩ |
      ⟨found, value, d, hfound, hguest, hvalue, hemitted, -⟩
    · -- the domain still has the argument, so it is the trigger that no longer holds
      obtain ⟨hd, hd'⟩ := hdenotes houtcome
      have hlater : Later t.snap t.attempt.snap := ⟨hsnap, hsound.1, hsound.2.1, hd, hd'⟩
      obtain ⟨ad, had, hgrow⟩ := hext.domain
      have haccepted := hwell.accepted hans (List.mem_of_getElem? hget)
      obtain rfl := hwell.sameCatalog
      obtain rfl := hwell.sameDefs
      obtain ⟨elems', helems', hsub⟩ := enumRuleDom_grown hlater haccepted had hgrow elems helems
      obtain ⟨elems'', helems'', hnone⟩ := firstEnabled_spec (fun elem => elem.sameElement (.addr a)) hnone
      obtain rfl : elems' = elems'' := Outcome.ok.inj (helems'.symm.trans helems'')
      have hfalse : co.triggerTrue t.attempt.snap rule (.addr a) = .ok false :=
        hnone _ (hsub harg) (beq_self_eq_true a)
      rw [hext.trigger, Outcome.ok.injEq, Bool.not_eq_false'] at hfalse
      exact marks_grows (hbase.trans hland) hsound.2.1 hfalse
    · obtain ⟨home, ty, haction, hc⟩ := hext.action
      obtain ⟨-, -, -, hsame, -⟩ := firstEnabled_spec (fun elem => elem.sameElement (.addr a)) hfound
      have hkey := Arg.keyAddr_of_sameElement hsame
      rw [hkey] at hvalue
      simp only [haction, FireAction.home] at hguest hvalue hemitted hhome
      rw [hlands]
      exact marks_of_emitted hc hvalue hemitted ((hbase.guest home hhome).trans hguest)

/-- The rule at the index is as the lint certifies, for the class, and its home is registered. -/
def ExtinctAt (co : Coordinator) (w : CoordinationWorld) (idx : ℕ) (c : CoverageClass) : Prop :=
  ∃ rule, co.rules[idx]? = some rule ∧ CheckedRule.Extinguishes co rule c ∧
    w.m3.isRegisteredDocument rule.action.home = true

variable {w w' : CoordinationWorld} {ts : List Turn}

theorem ExtinctAt.turn (h : co.ExtinctAt w idx c) (hg : w.Grows w') {snap : CoordinationWorld} {attempt : Attempt}
    {outcome : StepOutcome} (hstep : co.step snap attempt = .ok (co', outcome)) :
    co'.ExtinctAt w' idx c ∧ co'.catalog = co.catalog := by
  obtain ⟨rule, hget, hext, hhome⟩ := h
  rcases step_eq_ok hstep with ⟨-, rfl, -⟩ | ⟨i, r, arg, -, rfl, -⟩
  · exact ⟨⟨rule, hget, hext, hg.world.documents _ hhome⟩, rfl⟩
  · refine ⟨⟨_, by rw [rotate_rules, hget]; rfl, ?_⟩, rfl⟩
    split
    · exact ⟨extinguishes_rotate hext i arg _, hg.world.documents _ hhome⟩
    · exact ⟨extinguishes_rotate hext i arg _, hg.world.documents _ hhome⟩

/-- **Once marked, an argument is never taken again.** -/
theorem Drives.untaken (h : co.Drives w ts co' w') (hwell : co.WellRegistered cat defs handle) (hs : w.Sound)
    (hext : co.ExtinctAt w idx c) {x : Address} (hmarks : w.marks co.catalog.registry c x = true) :
    ∀ t ∈ ts, t.takes idx x = false := by
  induction h with
  | nil => exact List.forall_mem_nil _
  | @cons co co' co'' w w' t ts hpeek hsnap hbase hpick hstep hrest ih =>
    obtain ⟨hpeeked, hs₁⟩ := CoordinationWorld.Grows.of_run hpeek hs
    obtain ⟨hlanded, hs₂⟩ := CoordinationWorld.Grows.of_run
      (((hpeek.trans hsnap).trans hbase).trans (landing_step hwell hpick hstep)) hs
    obtain ⟨hext', hcat⟩ := hext.turn hlanded hstep
    refine List.forall_mem_cons.2 ⟨?_, ih (turn_wellRegistered hwell hstep) hs₂ hext' ?_⟩
    · by_contra htakes
      rw [Bool.not_eq_false] at htakes
      obtain ⟨rule, hget, hext, -⟩ := hext
      rcases step_eq_ok hstep with ⟨hnone, -, -⟩ | ⟨i, r, arg, hsome, -, -⟩
      · rw [Turn.takes, Outcome.ok.inj (hpick.symm.trans hnone)] at htakes
        cases htakes
      · rw [Turn.takes, Outcome.ok.inj (hpick.symm.trans hsome)] at htakes
        obtain ⟨rfl, rfl⟩ : i = idx ∧ arg.keyAddr = x := by simpa using htakes
        obtain ⟨-, -, -, hget', hnext, -⟩ := pick_eq_some hsome
        obtain rfl : rule = r := Option.some.inj (hget.symm.trans hget')
        obtain ⟨-, -, -, htrue, -⟩ := nextPick_spec hnext
        obtain ⟨a, rfl, hunmarked⟩ := extinguishes_true hext htrue
        have hmarked := marks_grows hpeeked hs hmarks
        rw [Arg.keyAddr, hunmarked] at hmarked
        cases hmarked
    · rw [hcat]
      exact marks_grows hlanded hs hmarks

/-- An argument that a turn took without failing is taken by no later turn. -/
theorem Drives.settled (h : co.Drives w ts co' w') (hans : handle.Answers cat defs)
    (hwell : co.WellRegistered cat defs handle) (hs : w.Sound)
    (hdenotes : ∀ t ∈ ts, t.outcome = .noOp → t.snap.links.DenotesAddresses ∧ t.attempt.snap.links.DenotesAddresses) :
    ts.Pairwise fun t u => t.isFailed = false → ∀ idx c x, co.ExtinctAt w idx c → t.takes idx x = true →
      u.takes idx x = false := by
  induction h with
  | nil => exact .nil
  | @cons co co' co'' w w' t ts hpeek hsnap hbase hpick hstep hrest ih =>
    obtain ⟨hpeeked, hs₁⟩ := CoordinationWorld.Grows.of_run hpeek hs
    obtain ⟨hsnapped, hs₂⟩ := CoordinationWorld.Grows.of_run hsnap hs₁
    obtain ⟨hbased, hs₃⟩ := CoordinationWorld.Grows.of_run hbase hs₂
    obtain ⟨hlanded, hs₄⟩ := CoordinationWorld.Grows.of_run (landing_step hwell hpick hstep) hs₃
    have hgrows := ((hpeeked.trans hsnapped).trans hbased).trans hlanded
    have hwell' := turn_wellRegistered hwell hstep
    obtain ⟨hdenotesHere, hdenotes⟩ := List.forall_mem_cons.1 hdenotes
    refine .cons (fun u hu hfailed idx c x hext htakes => ?_)
      ((ih hwell' hs₄ hdenotes).imp fun hlater hfailed idx c x hext => hlater hfailed idx c x (hext.turn hgrows hstep).1)
    obtain ⟨hext', hcat⟩ := hext.turn hgrows hstep
    obtain ⟨rule, hget, hext, hhome⟩ := hext
    have hmarks := (turned hpick hstep).marks hans hwell hpick ⟨hs₁, hs₂, hs₃⟩ hsnapped hbased hlanded hdenotesHere
      hget hext ((hpeeked.trans hsnapped).world.documents _ hhome) hfailed htakes
    exact hrest.untaken hwell' hs₄ hext' (hcat ▸ hmarks) u hu

/-- A turn takes what its rule's domain holds, and answers quiescent where nothing is enabled. -/
theorem Drives.turns (h : co.Drives w ts co' w') : ∀ t ∈ ts,
    (∀ idx rule arg, t.picked = some (idx, rule, arg) → co.Ranges t.snap idx arg.keyAddr) ∧
      (t.picked = none → t.outcome = .quiescent ∧ ∀ idx arg, ¬ co.Enabled t.snap idx arg) := by
  induction h with
  | nil => exact List.forall_mem_nil _
  | @cons co co' co'' w w' t ts _ _ _ hpick hstep _ ih =>
    refine List.forall_mem_cons.2 ⟨⟨fun idx rule arg hpicked => ?_, fun hpicked => ?_⟩, fun u hu => ?_⟩
    · rw [hpicked] at hpick
      obtain ⟨-, -, -, hget, hnext, -⟩ := pick_eq_some hpick
      obtain ⟨elems, helems, harg, -⟩ := nextPick_spec hnext
      exact ⟨rule, elems, hget, helems, List.mem_map_of_mem harg⟩
    · rw [hpicked] at hpick
      rcases step_eq_ok hstep with ⟨-, -, houtcome⟩ | ⟨i, r, arg, hsome, -, -⟩
      · refine ⟨houtcome, ?_⟩
        rintro idx arg ⟨rule, elems, hget, helems, harg, htrigger⟩
        exact (pick_eq_none_iff.1 hpick rule (List.mem_of_getElem? hget)).not_enabled hget arg
          ⟨rule, elems, hget, helems, harg, htrigger⟩
      · cases hpick.symm.trans hsome
    · obtain ⟨hranges, hquiet⟩ := ih u hu
      rcases step_eq_ok hstep with ⟨-, rfl, -⟩ | ⟨i, r, a, -, rfl, -⟩
      · exact ⟨hranges, hquiet⟩
      · refine ⟨fun idx rule arg hpicked => (rotate_ranges i a _).1 (hranges idx rule arg hpicked), fun hpicked => ?_⟩
        exact ⟨(hquiet hpicked).1, fun idx arg henabled => (hquiet hpicked).2 idx arg ((rotate_enabled i a).2 henabled)⟩

/-- What is certified of a submission is so of its rule. -/
theorem CertifiedAt.extinct (hans : handle.Answers co.catalog co.defs) (h : co.CertifiedAt handle w idx) :
    ∃ c, co.ExtinctAt w idx c := by
  obtain ⟨rule, raw, flat, hget, hbuilt, hreg, hcertified, hhome⟩ := h
  obtain ⟨c, hext⟩ := certifyRule_extinguishes hans hbuilt hreg hcertified
  exact ⟨c, rule, hget, hext, hhome⟩

/-- **A certified rule takes no argument twice, and certified rules come to quiescence.** Over any
turns of a working set, whoever else writes between and whatever is retracted: an argument that a
certified rule's turn took without failing is taken by none of its later turns. Where every rule is
certified, no turn fails, and the domains keep to `keys`, one of more turns than there are keys
answers quiescent, with nothing enabled at its snapshot. -/
theorem certified_terminates (hans : handle.Answers cat defs) (hset : WorkingSet handle cat defs co) (hs : w.Sound)
    (h : co.Drives w ts co' w')
    (hdenotes : ∀ t ∈ ts, t.outcome = .noOp → t.snap.links.DenotesAddresses ∧ t.attempt.snap.links.DenotesAddresses) :
    (ts.Pairwise fun t u => t.isFailed = false → ∀ idx x, co.CertifiedAt handle w idx → t.takes idx x = true →
      u.takes idx x = false) ∧
    ∀ keys : Finset (ℕ × Address), (∀ idx < co.rules.length, co.CertifiedAt handle w idx) →
      (∀ t ∈ ts, t.isFailed = false) → (∀ t ∈ ts, ∀ idx k, co.Ranges t.snap idx k → (idx, k) ∈ keys) →
        keys.card < ts.length → ∃ t ∈ ts, t.outcome = .quiescent ∧ ∀ idx arg, ¬ co.Enabled t.snap idx arg := by
  have hwell := hset.registered
  obtain rfl := hwell.sameCatalog
  obtain rfl := hwell.sameDefs
  have hsettled := h.settled hans hwell hs hdenotes
  refine ⟨hsettled.imp fun hlater hfailed idx x hcertified => ?_, fun keys hall hnone hranges hcard => ?_⟩
  · obtain ⟨c, hext⟩ := hcertified.extinct hans
    exact hlater hfailed idx c x hext
  · by_contra hbusy
    have hturns := h.turns
    have hpicked : ∀ t ∈ ts, t.picked.isSome = true := by
      intro t ht
      by_contra hnot
      rw [Option.not_isSome_iff_eq_none] at hnot
      exact hbusy ⟨t, ht, ((hturns t ht).2 hnot)⟩
    have hnodup : (ts.map Turn.key).Nodup := by
      rw [List.Nodup, List.pairwise_map]
      refine (List.Pairwise.and_mem.1 hsettled).imp fun {t u} hboth hsame => ?_
      obtain ⟨ht, -, hlater⟩ := hboth
      obtain ⟨⟨idx, rule, arg⟩, hpick⟩ := Option.isSome_iff_exists.1 (hpicked t ht)
      obtain ⟨_, _, hget, -⟩ := (hturns t ht).1 idx rule arg hpick
      obtain ⟨c, hext⟩ := (hall idx (List.getElem?_eq_some_iff.1 hget).1).extinct hans
      have huntaken := hlater (hnone t ht) idx c arg.keyAddr hext (by simp [Turn.takes, hpick])
      rw [Turn.takes_of_key (hsame.symm.trans (by rw [Turn.key, hpick]; rfl))] at huntaken
      cases huntaken
    have hsub : (ts.map Turn.key).toFinset ⊆ keys.image some := by
      intro k hk
      obtain ⟨t, ht, rfl⟩ := List.mem_map.1 (List.mem_toFinset.1 hk)
      obtain ⟨⟨idx, rule, arg⟩, hpick⟩ := Option.isSome_iff_exists.1 (hpicked t ht)
      rw [Turn.key, hpick]
      exact Finset.mem_image_of_mem some (hranges t ht idx _ ((hturns t ht).1 idx rule arg hpick))
    have hle := (Finset.card_le_card hsub).trans Finset.card_image_le
    rw [List.toFinset_card_of_nodup hnodup, List.length_map] at hle
    exact absurd hcard hle.not_gt

end Coordinator

private def openWorld (w : LinkWorld) : CoordinationWorld := ⟨w, fun _ => true⟩

private def openAttempt (w : LinkWorld) : Attempt := ⟨openWorld w, openWorld w, 1, none⟩

private def openTurn (w : LinkWorld) (picked : Option (ℕ × CheckedRule × Arg)) (outcome : StepOutcome) : Turn :=
  ⟨openWorld w, openAttempt w, picked, outcome⟩

/-- A turn over a world that nobody else writes to. -/
private def turnOver (co : Coordinator) (w : LinkWorld) : Outcome EmitCoreError (Turn × Coordinator × LinkWorld) := do
  let picked ← (co.pick (openWorld w)).expect
  let (co', outcome) ← (co.step (openWorld w) (openAttempt w)).expect
  let t := openTurn w picked outcome
  return (t, co', (co.landing t).toLinkWorld)

private def certifiedHead : Link := ⟨enc [headDocument], enc [], TypeRegistry.build.reservedType .predStable⟩

/-- The rule's domain is the head document alone, and the turn does not fail. -/
private def overHeadAlone (t : Turn) : Bool :=
  (retirer.rules.all fun rule => decide (retirer.enumRuleDom t.snap rule = .ok [.addr headDocument])) && !t.isFailed

private theorem ranges_head {t : Turn} (h : overHeadAlone t = true) {idx : ℕ} {k : Address}
    (hranges : retirer.Ranges t.snap idx k) : (idx, k) ∈ ({(0, headDocument)} : Finset (ℕ × Address)) := by
  obtain ⟨rule, elems, hget, helems, hk⟩ := hranges
  have hidx : idx = 0 := Nat.lt_one_iff.1 (List.getElem?_eq_some_iff.1 hget).1
  have halone := List.all_eq_true.1 (Bool.and_eq_true _ _ ▸ h).1 rule (List.mem_of_getElem? hget)
  rw [of_decide_eq_true halone, Outcome.ok.injEq] at helems
  subst helems
  rw [List.map_cons, List.map_nil, List.mem_singleton] at hk
  rw [Finset.mem_singleton, hidx, hk]
  rfl

private theorem failed_of_overHead {t : Turn} (h : overHeadAlone t = true) : t.isFailed = false :=
  Bool.not_eq_true' _ ▸ (Bool.and_eq_true _ _ ▸ h).2

private theorem drives_turnOver {co co₁ co₂ : Coordinator} {w w₁ : LinkWorld} {w₂ : CoordinationWorld} {t : Turn}
    {ts : List Turn} (h : turnOver co w = .ok (t, co₁, w₁)) (hrest : co₁.Drives (openWorld w₁) ts co₂ w₂) :
    co.Drives (openWorld w) (t :: ts) co₂ w₂ := by
  simp only [turnOver, Outcome.bind_eq_ok_iff, Outcome.expect_eq_ok_iff, Prod.exists, Outcome.pure_eq, Outcome.ok.injEq,
    Prod.mk.injEq] at h
  obtain ⟨picked, hpick, co', outcome, hstep, rfl, rfl, rfl⟩ := h
  have hguest : (co.landing (openTurn w picked outcome)).guest = fun _ => true := by
    unfold Coordinator.landing
    split
    · rfl
    · split <;> rfl
  refine .cons .refl .refl .refl hpick hstep ?_
  rwa [openWorld, ← hguest] at hrest

/-- Of two turns of a certified rule over one certificate, one answers quiescent. -/
theorem certified_terminates_retirer : ∃ d w t co₁ w₁ u co₂ w₂,
    mintAndDeposit TypeRegistry.build LinkWorld.genesis 1 headDocument certifiedHead = .ok (d, w) ∧
    turnOver retirer w = .ok (t, co₁, w₁) ∧ turnOver co₁ w₁ = .ok (u, co₂, w₂) ∧
    (t.outcome = .quiescent ∨ u.outcome = .quiescent) := by
  have hok : (mintAndDeposit TypeRegistry.build LinkWorld.genesis 1 headDocument certifiedHead >>= fun p =>
      turnOver retirer p.2 >>= fun r => turnOver r.2.1 r.2.2 >>= fun r' =>
        (Outcome.require (overHeadAlone r.1 = true ∧ overHeadAlone r'.1 = true ∧ r.1.outcome ≠ .noOp ∧
          r'.1.outcome ≠ .noOp) : Outcome EmitCoreError Unit)).isOk = true := by decide +kernel
  obtain ⟨v, hok⟩ := Outcome.isOk_iff.1 hok
  obtain ⟨⟨d, w⟩, hfirst, hok⟩ := Outcome.bind_eq_ok_iff.1 hok
  obtain ⟨⟨t, co₁, w₁⟩, ht, hok⟩ := Outcome.bind_eq_ok_iff.1 hok
  obtain ⟨⟨u, co₂, w₂⟩, hu, hok⟩ := Outcome.bind_eq_ok_iff.1 hok
  obtain ⟨halone, halone', hnoOp, hnoOp'⟩ := Outcome.require_eq_ok_iff.1 hok
  have hemitted : Emitted TypeRegistry.build LinkWorld.genesis (fun _ => true) _ _ d w := mintAndDeposit_spec hfirst
  have hworld : (openWorld w).Sound ∧ (openWorld w).m3.isRegisteredDocument headDocument = true := by
    rcases hemitted.step with rfl | hlink
    · exact ⟨LinkWorld.sound_genesis, by decide +kernel⟩
    · exact ⟨hlink.sound LinkWorld.sound_genesis, hlink.grows.documents _ (by decide +kernel)⟩
  have hdrives : retirer.Drives (openWorld w) [t, u] co₂ (openWorld w₂) :=
    drives_turnOver ht (drives_turnOver hu (.nil _ _))
  have hcertified : retirer.CertifiedAt noDefs (openWorld w) 0 :=
    ⟨_, retireCertified, _, rfl, retireCertified_built, ⟨rfl, rfl, rfl⟩, rfl, hworld.2⟩
  obtain ⟨-, hends⟩ := Coordinator.certified_terminates (noDefs_answers _ _) retirer_workingSet hworld.1 hdrives
    (by simp [hnoOp, hnoOp'])
  have hturns : ∀ s ∈ [t, u], overHeadAlone s = true :=
    List.forall_mem_cons.2 ⟨halone, List.forall_mem_singleton.2 halone'⟩
  obtain ⟨s, hs, hquiet, -⟩ := hends {(0, headDocument)} (fun idx hidx => Nat.lt_one_iff.1 hidx ▸ hcertified)
    (fun s hs => failed_of_overHead (hturns s hs)) (fun s hs idx k => ranges_head (hturns s hs)) Nat.one_lt_two
  refine ⟨d, w, t, co₁, w₁, u, co₂, w₂, hfirst, ht, hu, ?_⟩
  rcases List.mem_cons.1 hs with rfl | hs
  · exact .inl hquiet
  · obtain rfl := List.mem_singleton.1 hs
    exact .inr hquiet

end Coordination
