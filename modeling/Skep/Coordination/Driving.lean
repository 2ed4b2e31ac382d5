import Skep.Coordination.Arming
import Skep.Coordination.Growing
import Skep.Coordination.Registration

/-!
# Turns over a growing world

Each turn peeks at a world no earlier than the last turn's, its fire asks again at one no earlier
than the peek, and its write runs over one no earlier than that. Whatever anyone commits between
stands in the later one.
-/

section

variable {reg : TypeRegistry} {w w' : LinkWorld} {seq : ℕ} {visibility : Address → Bool} {caller : Caller}
  {home addr : Address}

/-- A marker's write answers an incumbent of the marker, or mints it. -/
theorem emit_emitted {ty : Endset} {source : Address} {targets : List Address}
    (h : emit reg w seq visibility caller home ty source targets = .ok (addr, w')) :
    ∃ value d, emitTuple ty source targets = some value ∧ d.address = addr ∧ Emitted reg w visibility home value d w' := by
  simp only [emit, Outcome.bind_eq_ok_iff, Outcome.okOr_eq_ok_iff, Prod.exists] at h
  obtain ⟨-, -, -, -, -, -, -, -, -, -, value, hvalue, d, w'', hcore, h⟩ := h
  cases h
  exact ⟨value, d, hvalue, rfl, emitCore_spec (liftErr_eq_ok hcore)⟩

theorem nullify_emitted {target : Address} (h : nullify reg w seq visibility caller home target = .ok (addr, w')) :
    ∃ d : Deposited, d.address = addr ∧ Emitted reg w visibility home (retractionTuple reg home target) d w' := by
  simp only [nullify, Outcome.bind_eq_ok_iff, Prod.exists] at h
  obtain ⟨-, -, -, -, next, -, -, -, d, w'', hcore, h⟩ := h
  cases h
  exact ⟨d, rfl, emitCore_spec (liftErr_eq_ok hcore)⟩

/-- The link an emission answers stands afterwards, with the value's key. -/
theorem Emitted.stands {value : Link} {d : Deposited} (h : Emitted reg w visibility home value d w') :
    ∃ l, w'.links.readlink d.address = some l ∧ (l = value ∨ ∃ key, DedupKey.of value = .ok key ∧ DedupKey.of l = .ok key) ∧
      (documentOf d.address = some home ∨ ∃ doc, documentOf d.address = some doc ∧ visibility doc = true) := by
  cases h with
  | fresh hmint hm3 hlinks =>
    obtain ⟨hreg, -, hns, -⟩ := M3State.mintLink_eq_ok hmint
    refine ⟨value, ?_, .inl rfl, .inl (M3State.documentOf_of_linkNs (M3State.level_of_isRegisteredDocument hreg) hns)⟩
    exact (LinkState.readlink_deposit hlinks _).trans (if_pos rfl)
  | incumbent hl hkey hsame _ hreadable => exact ⟨_, hl, .inr ⟨_, hkey, hsame⟩, .inr hreadable⟩

end

namespace Coordination

theorem Arg.keyAddr_of_sameElement {e e' : Arg} (h : e.sameElement e' = true) : e.keyAddr = e'.keyAddr := by
  cases e <;> cases e' <;> first | exact beq_iff_eq.1 h | cases h

namespace Coordinator

variable (co : Coordinator)

/-- The link that a fire at an address deposits. -/
def fireValue (reg : TypeRegistry) (action : FireAction) (x : Address) : Option Link :=
  match action with
  | .marker _ ty => emitTuple ty x []
  | .nullify home => some (retractionTuple reg home x)

/-- The world after a turn. -/
def landing (t : Turn) : CoordinationWorld :=
  match t.picked with
  | none => t.attempt.base
  | some (idx, rule, arg) =>
      match (co.rotate idx arg).fire ⟨rule.id, arg⟩ t.attempt with
      | .ok (_, w) => ⟨w, t.attempt.base.guest⟩
      | .err _ | .fault => t.attempt.base

/-- Turns over a growing world. -/
inductive Drives : Coordinator → CoordinationWorld → List Turn → Coordinator → CoordinationWorld → Prop
  | nil (co : Coordinator) (w : CoordinationWorld) : Drives co w [] co w
  | cons {co co' co'' : Coordinator} {w w' : CoordinationWorld} {t : Turn} {ts : List Turn}
      (hpeek : Relation.ReflTransGen (CoordinationWorld.Step co.catalog.registry) w t.snap)
      (hsnap : Relation.ReflTransGen (CoordinationWorld.Step co.catalog.registry) t.snap t.attempt.snap)
      (hbase : Relation.ReflTransGen (CoordinationWorld.Step co.catalog.registry) t.attempt.snap t.attempt.base)
      (hpick : co.pick t.snap = .ok t.picked) (hstep : co.step t.snap t.attempt = .ok (co', t.outcome))
      (hrest : Drives co' (co.landing t) ts co'' w') : Drives co w (t :: ts) co'' w'

variable {co} {w : LinkWorld} {rule : CheckedRule} {arg : Arg} {idx : ℕ} {attempt : Attempt} {out : FireOutcome}

/-- What a fire that returns did: nothing, where the occurrence is not enabled at the fire's own
snapshot; else one write of its rule's link at a home that the guest class may read there. -/
theorem fire_eq_ok {occurrence : Occurrence} (h : co.fire occurrence attempt = .ok (out, w))
    (hfind : co.rules.find? (fun r => r.id == occurrence.rule) = some rule) :
    (out = .noOp ∧ w = attempt.base.toLinkWorld ∧
      co.firstEnabled attempt.snap rule (fun elem => return elem.sameElement occurrence.arg) = .ok none) ∨
    ∃ arg value d, co.firstEnabled attempt.snap rule (fun elem => return elem.sameElement occurrence.arg) =
        .ok (some arg) ∧ attempt.snap.guest rule.action.home = true ∧
      fireValue co.catalog.registry rule.action arg.keyAddr = some value ∧
      Emitted co.catalog.registry attempt.base.toLinkWorld attempt.base.guest rule.action.home value d w ∧
      out = firedOrDeduped attempt.snap d.address := by
  simp only [fire, hfind, Outcome.expectSome, Outcome.bind_eq_ok_iff, Outcome.expect_eq_ok_iff, Outcome.ok.injEq,
    exists_eq_left'] at h
  obtain ⟨found, hfound, h⟩ := h
  cases found with
  | none =>
    cases h
    exact .inl ⟨rfl, rfl, hfound⟩
  | some arg =>
    right
    simp only [Outcome.bind_eq_ok_iff, Outcome.refuseSome_eq_ok_iff] at h
    obtain ⟨-, hboundary, h⟩ := h
    have hguest : attempt.snap.guest rule.action.home = true := by
      have hread := List.find?_eq_none.1 hboundary rule.action.home List.mem_cons_self
      simpa using hread
    cases haction : rule.action with
    | marker home ty =>
      rw [haction] at h hguest
      simp only [Outcome.bind_eq_ok_iff, Outcome.mapErr_eq_ok_iff, Prod.exists] at h
      obtain ⟨effect, w', hwrite, h⟩ := h
      cases h
      obtain ⟨value, d, hvalue, rfl, hemitted⟩ := emit_emitted (transact_eq_ok hwrite)
      exact ⟨arg, value, d, hfound, hguest, hvalue, hemitted, rfl⟩
    | nullify home =>
      rw [haction] at h hguest
      simp only [Outcome.bind_eq_ok_iff, Outcome.mapErr_eq_ok_iff, Prod.exists] at h
      obtain ⟨effect, w', hwrite, h⟩ := h
      cases h
      obtain ⟨d, rfl, hemitted⟩ := nullify_emitted (transact_eq_ok hwrite)
      exact ⟨arg, _, d, hfound, hguest, rfl, hemitted, rfl⟩

/-- A fire's outcome as its step reports it. -/
def stepOutcome (rule : ℕ) (arg : Address) : FireOutcome → StepOutcome
  | .fired effect => .fired rule arg effect
  | .deduped effect => .deduped rule arg effect
  | .noOp => .noOp

/-- What a turn that returns comes to. -/
inductive Turned (co : Coordinator) (t : Turn) (co' : Coordinator) : Prop
  | quiescent (hpicked : t.picked = none) (hsame : co' = co) (houtcome : t.outcome = .quiescent)
      (hlands : co.landing t = t.attempt.base)
  | failed {idx : ℕ} {rule : CheckedRule} {arg : Arg} {err : FireError} (hpicked : t.picked = some (idx, rule, arg))
      (hrotated : co' = co.rotate idx arg) (houtcome : t.outcome = .failed rule.id arg.keyAddr err)
      (hlands : co.landing t = t.attempt.base)
  | fired {idx : ℕ} {rule : CheckedRule} {arg : Arg} {out : FireOutcome} {w : LinkWorld}
      (hpicked : t.picked = some (idx, rule, arg)) (hrotated : co' = co.rotate idx arg)
      (hfire : (co.rotate idx arg).fire ⟨rule.id, arg⟩ t.attempt = .ok (out, w))
      (houtcome : t.outcome = stepOutcome rule.id arg.keyAddr out)
      (hlands : co.landing t = ⟨w, t.attempt.base.guest⟩)

theorem turned {co' : Coordinator} {t : Turn} (hpick : co.pick t.snap = .ok t.picked)
    (hstep : co.step t.snap t.attempt = .ok (co', t.outcome)) : co.Turned t co' := by
  obtain ⟨picked, hpick', h⟩ := Outcome.bind_eq_ok_iff.1 hstep
  obtain rfl : t.picked = picked := Outcome.ok.inj (hpick.symm.trans hpick')
  cases hpicked : t.picked with
  | none =>
    rw [hpicked] at h
    obtain ⟨rfl, houtcome⟩ := Prod.mk.inj (Outcome.ok.inj h)
    exact .quiescent hpicked rfl houtcome.symm (by rw [landing, hpicked])
  | some p =>
    obtain ⟨idx, rule, arg⟩ := p
    rw [hpicked] at h
    dsimp only at h
    cases hfire : (co.rotate idx arg).fire ⟨rule.id, arg⟩ t.attempt with
    | ok r =>
      obtain ⟨out, w⟩ := r
      rw [hfire] at h
      have hlands : co.landing t = ⟨w, t.attempt.base.guest⟩ := by
        rw [landing, hpicked]
        dsimp only
        rw [hfire]
      cases out <;>
      · obtain ⟨rfl, houtcome⟩ := Prod.mk.inj (Outcome.ok.inj h)
        exact .fired hpicked rfl hfire houtcome.symm hlands
    | err e =>
      rw [hfire] at h
      obtain ⟨rfl, houtcome⟩ := Prod.mk.inj (Outcome.ok.inj h)
      refine .failed hpicked rfl houtcome.symm ?_
      rw [landing, hpicked]
      dsimp only
      rw [hfire]
    | fault =>
      rw [hfire] at h
      cases h

variable {handle : DefHandle} {cat : TypeCatalog} {defs : DefSource}

/-- An identifier names the rule that the rotation moved. -/
theorem WellRegistered.find_rotate (hwell : co.WellRegistered cat defs handle) (hget : co.rules[idx]? = some rule)
    (arg : Arg) : (co.rotate idx arg).rules.find? (fun r => r.id == rule.id) =
      some { rule with lastPick := some arg.keyAddr } := by
  have hmoved : (co.rotate idx arg).rules[idx]? = some { rule with lastPick := some arg.keyAddr } := by
    rw [rotate_rules, hget, Option.map_some, if_pos rfl]
  exact (hwell.rotate idx arg).find hmoved

theorem landing_step {co' : Coordinator} {t : Turn} (hwell : co.WellRegistered cat defs handle)
    (hpick : co.pick t.snap = .ok t.picked) (hstep : co.step t.snap t.attempt = .ok (co', t.outcome)) :
    Relation.ReflTransGen (CoordinationWorld.Step co.catalog.registry) t.attempt.base (co.landing t) := by
  cases turned hpick hstep with
  | quiescent _ _ _ hlands | failed _ _ _ hlands => rw [hlands]
  | @fired idx rule arg out w hpicked hrotated hfire houtcome hlands =>
    rw [hlands]
    rw [hpicked] at hpick
    obtain ⟨-, -, -, hget, -, -⟩ := pick_eq_some hpick
    rcases fire_eq_ok hfire (hwell.find_rotate hget arg) with ⟨-, rfl, -⟩ | ⟨_, value, d, -, -, -, hemitted, -⟩
    · exact .refl
    · rcases hemitted.step with rfl | hlink
      · exact .refl
      · exact .single ⟨hlink, fun _ _ => rfl⟩

theorem turn_wellRegistered {co' : Coordinator} {t : Turn} (hwell : co.WellRegistered cat defs handle)
    (hstep : co.step t.snap t.attempt = .ok (co', t.outcome)) : co'.WellRegistered cat defs handle := by
  rcases step_eq_ok hstep with ⟨-, rfl, -⟩ | ⟨idx, rule, arg, -, rfl, -⟩
  · exact hwell
  · exact hwell.rotate idx arg

/-- **Turns lead to a later world**, and keep the working set's invariant. -/
theorem Drives.grows {co' : Coordinator} {w w' : CoordinationWorld} {ts : List Turn} (h : Drives co w ts co' w')
    (hwell : co.WellRegistered cat defs handle) (hs : w.Sound) :
    w.Grows w' ∧ w'.Sound ∧ co'.WellRegistered cat defs handle := by
  induction h with
  | nil co w => exact ⟨.refl w, hs, hwell⟩
  | cons hpeek hsnap hbase hpick hstep _ ih =>
    have hland := ((hpeek.trans hsnap).trans hbase).trans (landing_step hwell hpick hstep)
    obtain ⟨hgrows, hs'⟩ := CoordinationWorld.Grows.of_run hland hs
    obtain ⟨hrest, hs'', hwell'⟩ := ih (turn_wellRegistered hwell hstep) hs'
    exact ⟨hgrows.trans hrest, hs'', hwell'⟩

/-- A tuple is counted for a fire at the address: the marker alone in front at the rule's home, or
the retraction from the home of that address alone. -/
def attributes (action : FireAction) (x : Address) (t : Tuple) : Bool :=
  match action with
  | .marker home _ => t.fromSlot.singleDenoted == some x.tumbler && documentOf t.addr == some home
  | .nullify home => t.fromSlot.singleDenoted == some home.tumbler && t.toSlot.singleDenoted == some x.tumbler

/-- The type and the probes of the tuples that fires at the address deposit. -/
def attributed (reg : TypeRegistry) (action : FireAction) (x : Address) : TypeKey × Pattern :=
  match action with
  | .marker _ ty => (ty, { fromProbes := [x.tumbler] })
  | .nullify home => (reg.reservedType .retraction, ⟨[home.tumbler], [x.tumbler]⟩)

variable (co) in
/-- The fires of a rule at an address, counted in the store. -/
def fireCount (w : LinkWorld) (id : ℕ) (x : Address) : Outcome Empty ℕ :=
  match co.rules.find? fun r => r.id == id with
  | none => return 0
  | some rule => do
      let (ty, pat) := attributed co.catalog.registry rule.action x
      let tuples ← w.links.observe co.catalog.registry ty pat .audit
      return (tuples.filter (attributes rule.action x)).length

end Coordinator

/-- The fire of a turn at the address, of the rule, deposited a link that the world of its write
did not have. -/
def Turn.deposits (t : Turn) (id : ℕ) (x : Address) : Bool :=
  match t.outcome with
  | .fired rule arg effect | .deduped rule arg effect =>
      rule == id && arg == x && (t.attempt.base.links.readlink effect).isNone
  | .failed .. | .noOp | .quiescent => false

/-- The tuple of a link that counts for a fire of the action at the address. -/
def Counted (reg : TypeRegistry) (action : FireAction) (x : Address) (w : LinkWorld) (t : Tuple) : Prop :=
  ∃ l, w.links.readlink t.addr = some l ∧
    coverageClass l.typeSlot = coverageClass (Coordinator.attributed reg action x).1 ∧
    (Coordinator.attributed reg action x).2.admits l = true ∧ t = l.tuple t.addr ∧ Coordinator.attributes action x t = true

namespace Coordinator

variable {co : Coordinator} {idx : ℕ} {handle : DefHandle} {cat : TypeCatalog} {defs : DefSource}

section

variable {reg : TypeRegistry} {action : FireAction} {x : Address} {c : CoverageClass}

theorem counted_grows {w w' : LinkWorld} (hg : w.Grows w') {t : Tuple} (h : Counted reg action x w t) :
    Counted reg action x w' t := by
  obtain ⟨l, hl, h⟩ := h
  exact ⟨l, hg.links _ _ hl, h⟩

theorem exists_counted (hc : coverageClass (attributed reg action x).1 = .ok c) (w : LinkWorld) : ∃ l : List Tuple,
    (do
      let tuples ← w.links.observe reg (attributed reg action x).1 (attributed reg action x).2 .audit
      return (tuples.filter (attributes action x)).length : Outcome Empty ℕ) = .ok l.length ∧ l.Nodup ∧
      ∀ t, t ∈ l ↔ Counted reg action x w t := by
  obtain ⟨tuples, htuples⟩ : ∃ tuples, w.links.observe reg (attributed reg action x).1 (attributed reg action x).2 .audit =
      .ok tuples := by
    rw [LinkState.observe, hc]
    exact ⟨_, rfl⟩
  refine ⟨tuples.filter (attributes action x), by rw [htuples]; rfl, ?_, fun t => ?_⟩
  · have hkeys := @LinkState.typedLinks_ascending reg w.links c .audit
    rw [LinkState.observe, hc, Outcome.ok_bind, Outcome.pure_eq, Outcome.ok.injEq] at htuples
    subst htuples
    refine List.Nodup.filter _ (List.Nodup.of_map Tuple.addr ?_)
    rw [List.map_map]
    exact (hkeys.imp ne_of_lt).sublist (List.filter_sublist.map Prod.fst)
  · rw [List.mem_filter, LinkState.mem_observe hc htuples]
    constructor
    · rintro ⟨⟨l, hl, hty, -, hadmits, ht⟩, hattr⟩
      exact ⟨l, hl, hty.trans hc.symm, hadmits, ht, hattr⟩
    · rintro ⟨l, hl, hty, hadmits, ht, hattr⟩
      exact ⟨⟨l, hl, hty.trans hc, fun hview => absurd hview Bool.false_ne_true, hadmits, ht⟩, hattr⟩

theorem singleDenoted_enc (a : Address) : (enc [a]).singleDenoted = some a.tumbler := by
  simp [Endset.singleDenoted]

theorem counted_fireValue {w : LinkWorld} {value : Link} {addr : Address}
    (hvalue : fireValue reg action x = some value) (hl : w.links.readlink addr = some value)
    (hhome : documentOf addr = some action.home) : Counted reg action x w (value.tuple addr) := by
  cases action with
  | marker home ty =>
    rw [fireValue, emitTuple] at hvalue
    split at hvalue
    · cases hvalue
    · cases hvalue
      refine ⟨_, hl, rfl, ?_, rfl, ?_⟩
      · simp [attributed, Pattern.admits, covers_enc_self]
      · have hhome' : documentOf addr = some home := hhome
        simp [attributes, Link.tuple, singleDenoted_enc, hhome']
  | nullify home =>
    cases hvalue
    refine ⟨_, hl, rfl, ?_, rfl, ?_⟩
    · simp [attributed, Pattern.admits, retractionTuple, covers_enc_self]
    · simp [attributes, Link.tuple, retractionTuple, singleDenoted_enc]

end

/-- A turn's deposit is reported fired, and is counted where it lands and not before. -/
theorem Turned.counted {co' : Coordinator} {t : Turn} {id : ℕ} {x : Address} (h : co.Turned t co')
    (hwell : co.WellRegistered cat defs handle) (hpick : co.pick t.snap = .ok t.picked)
    (hgrows : t.attempt.snap.Grows t.attempt.base) {rule : CheckedRule} (hget : co.rules[idx]? = some rule)
    (hid : rule.id = id) (hdeposits : t.deposits id x = true) :
    (∃ effect, t.outcome = .fired id x effect) ∧ ∃ u : Tuple, t.attempt.base.links.readlink u.addr = none ∧
      Counted co.catalog.registry rule.action x (co.landing t).toLinkWorld u := by
  cases h with
  | quiescent _ _ houtcome =>
    rw [Turn.deposits, houtcome] at hdeposits
    cases hdeposits
  | failed _ _ houtcome =>
    rw [Turn.deposits, houtcome] at hdeposits
    cases hdeposits
  | @fired idx' rule' arg out w hpicked hrotated hfire houtcome hlands =>
    rw [hpicked] at hpick
    obtain ⟨-, -, -, hget', -, -⟩ := pick_eq_some hpick
    rcases fire_eq_ok hfire (hwell.find_rotate hget' arg) with ⟨rfl, -, -⟩ |
      ⟨found, value, d, hfound, -, hvalue, hemitted, rfl⟩
    · rw [Turn.deposits, houtcome] at hdeposits
      cases hdeposits
    · have heffect : rule'.id = id ∧ arg.keyAddr = x ∧ t.attempt.base.links.readlink d.address = none := by
        rw [Turn.deposits, houtcome] at hdeposits
        cases hread : (t.attempt.snap.links.readlink d.address).isSome <;>
          simpa [firedOrDeduped, hread, stepOutcome, and_assoc] using hdeposits
      obtain ⟨rfl, rfl, hfresh⟩ := heffect
      obtain rfl : rule' = rule := by
        have hfind := hwell.find hget
        rw [hid, hwell.find hget'] at hfind
        exact Option.some.inj hfind
      have hsnap : t.attempt.snap.links.readlink d.address = none := by
        cases hread : t.attempt.snap.links.readlink d.address with
        | none => rfl
        | some l =>
          rw [hgrows.world.links _ _ hread] at hfresh
          cases hfresh
      have hkey : found.keyAddr = arg.keyAddr := by
        obtain ⟨-, -, -, hsame, -⟩ := firstEnabled_spec (fun elem => elem.sameElement arg) hfound
        exact Arg.keyAddr_of_sameElement hsame
      refine ⟨⟨d.address, ?_⟩, value.tuple d.address, hfresh, ?_⟩
      · rw [houtcome, firedOrDeduped, hsnap]
        rfl
      · rw [hlands]
        cases hemitted with
        | fresh hmint hm3 hlinks =>
          obtain ⟨hreg, -, hns, -⟩ := M3State.mintLink_eq_ok hmint
          refine counted_fireValue (hkey ▸ hvalue) ((LinkState.readlink_deposit hlinks _).trans (if_pos rfl)) ?_
          exact M3State.documentOf_of_linkNs (M3State.level_of_isRegisteredDocument hreg) hns
        | incumbent hl =>
          rw [Deposited.address, hl] at hfresh
          cases hfresh

/-- The count at a later world has every deposit of the turns between. -/
theorem Drives.counted {co' : Coordinator} {w w' : CoordinationWorld} {ts : List Turn} {id : ℕ} {x : Address}
    {action : FireAction} {reg : TypeRegistry} {c : CoverageClass} (hc : coverageClass (attributed reg action x).1 = .ok c)
    (h : Drives co w ts co' w') (hreg : co.catalog.registry = reg) (hwell : co.WellRegistered cat defs handle)
    (hs : w.Sound) (hrule : ∃ rule, co.rules[idx]? = some rule ∧ rule.id = id ∧ rule.action = action) {l l' : List Tuple}
    (hl : l.Nodup ∧ ∀ t, t ∈ l ↔ Counted reg action x w.toLinkWorld t)
    (hl' : ∀ t, t ∈ l' ↔ Counted reg action x w'.toLinkWorld t) :
    l.length + ts.countP (Turn.deposits · id x) ≤ l'.length ∧
      ∀ t ∈ ts, t.deposits id x = true → ∃ effect, t.outcome = .fired id x effect := by
  induction h generalizing l with
  | nil co w =>
    refine ⟨?_, List.forall_mem_nil _⟩
    exact (List.subperm_of_subset hl.1 fun t ht => (hl' t).2 ((hl.2 t).1 ht)).length_le
  | @cons co co' co'' w w' t ts hpeek hsnap hbase hpick hstep hrest ih =>
    obtain ⟨rule, hget, hid, rfl⟩ := hrule
    subst hreg
    obtain ⟨hsnapped, hs₁⟩ := CoordinationWorld.Grows.of_run (hpeek.trans hsnap) hs
    obtain ⟨hbased, hs₂⟩ := CoordinationWorld.Grows.of_run hbase hs₁
    obtain ⟨hlanded, hs₃⟩ := CoordinationWorld.Grows.of_run (landing_step hwell hpick hstep) hs₂
    have hturn := turned hpick hstep
    obtain ⟨m, -, hnodup, hm⟩ := exists_counted hc (co.landing t).toLinkWorld
    have hnext : ∃ r, co'.rules[idx]? = some r ∧ r.id = id ∧ r.action = rule.action := by
      rcases step_eq_ok hstep with ⟨-, rfl, -⟩ | ⟨i, r, a, -, rfl, -⟩
      · exact ⟨rule, hget, hid, rfl⟩
      · refine ⟨_, by rw [rotate_rules, hget]; rfl, ?_⟩
        split <;> exact ⟨hid, rfl⟩
    have hreg' : co'.catalog.registry = co.catalog.registry := by
      rcases step_eq_ok hstep with ⟨-, rfl, -⟩ | ⟨i, r, a, -, rfl, -⟩ <;> rfl
    obtain ⟨hle, hfired⟩ := ih hreg' (turn_wellRegistered hwell hstep) hs₃ hnext ⟨hnodup, hm⟩ hl'
    have hsub : ∀ u ∈ l, u ∈ m := fun u hu =>
      (hm u).2 (counted_grows ((hsnapped.trans hbased).trans hlanded).world ((hl.2 u).1 hu))
    cases hdeposits : t.deposits id x with
    | false =>
      rw [List.countP_cons_of_neg (by simp [hdeposits])]
      refine ⟨le_trans ?_ hle, List.forall_mem_cons.2 ⟨fun htrue => ?_, hfired⟩⟩
      · exact Nat.add_le_add_right (List.subperm_of_subset hl.1 hsub).length_le _
      · rw [hdeposits] at htrue
        cases htrue
    | true =>
      obtain ⟨hreport, u, hfresh, hu⟩ := hturn.counted hwell hpick hbased hget hid hdeposits
      have hnot : u ∉ l := by
        intro hmem
        obtain ⟨link, hlink, -⟩ := (hl.2 u).1 hmem
        rw [(hsnapped.trans hbased).world.links _ _ hlink] at hfresh
        cases hfresh
      have hlen := (List.subperm_of_subset (List.nodup_cons.2 ⟨hnot, hl.1⟩)
        (List.forall_mem_cons.2 ⟨(hm u).2 hu, hsub⟩)).length_le
      rw [List.countP_cons_of_pos (p := fun u : Turn => u.deposits id x) hdeposits]
      refine ⟨?_, List.forall_mem_cons.2 ⟨fun _ => hreport, hfired⟩⟩
      rw [List.length_cons] at hlen
      omega

/-- Turns keep the catalog, the identifiers, and what each rule fires. -/
theorem Drives.rules {co' : Coordinator} {w w' : CoordinationWorld} {ts : List Turn} (h : Drives co w ts co' w') :
    co'.catalog = co.catalog ∧ co'.rules.map CheckedRule.id = co.rules.map CheckedRule.id ∧
      ∀ (idx : ℕ) (rule : CheckedRule), co.rules[idx]? = some rule → ∃ r, co'.rules[idx]? = some r ∧ r.id = rule.id ∧ r.action = rule.action := by
  induction h with
  | nil co w => exact ⟨rfl, rfl, fun idx rule hget => ⟨rule, hget, rfl, rfl⟩⟩
  | cons _ _ _ _ hstep _ ih =>
    obtain ⟨hcat, hids, hkeeps⟩ := ih
    rcases step_eq_ok hstep with ⟨-, rfl, -⟩ | ⟨i, r, a, -, rfl, -⟩
    · exact ⟨hcat, hids, hkeeps⟩
    · refine ⟨hcat, hids.trans (rotate_ids i a), fun idx rule hget => ?_⟩
      obtain ⟨r', hget', hid, haction⟩ := hkeeps idx _ (by rw [rotate_rules, hget]; rfl)
      refine ⟨r', hget', hid.trans ?_, haction.trans ?_⟩ <;> split <;> rfl

/-- What a turn deposits is of a rule of the working set. -/
theorem Drives.deposits_known {co' : Coordinator} {w w' : CoordinationWorld} {ts : List Turn}
    (h : Drives co w ts co' w') {id : ℕ} {x : Address} :
    ∀ t ∈ ts, t.deposits id x = true → id ∈ co.rules.map CheckedRule.id := by
  induction h with
  | nil => exact List.forall_mem_nil _
  | @cons co co' co'' w w' t ts _ _ _ hpick hstep _ ih =>
    refine List.forall_mem_cons.2 ⟨fun hdeposits => ?_, fun u hu hdeposits => ?_⟩
    · cases turned hpick hstep with
      | quiescent _ _ houtcome | failed _ _ houtcome =>
        rw [Turn.deposits, houtcome] at hdeposits
        cases hdeposits
      | @fired idx rule arg out w hpicked _ _ houtcome =>
        rw [hpicked] at hpick
        obtain ⟨-, -, -, hget, -, -⟩ := pick_eq_some hpick
        have hid : rule.id = id := by
          rw [Turn.deposits, houtcome] at hdeposits
          cases out <;> simp_all [stepOutcome]
        exact hid ▸ List.mem_map_of_mem (List.mem_of_getElem? hget)
    · have hid := ih u hu hdeposits
      rcases step_eq_ok hstep with ⟨-, rfl, -⟩ | ⟨i, r, a, -, rfl, -⟩
      · exact hid
      · rwa [rotate_ids] at hid

/-- The type of what a registered rule fires has a class. -/
theorem WellRegistered.attributed_class (hans : handle.Answers cat defs) (hwell : co.WellRegistered cat defs handle)
    {rule : CheckedRule} (hrule : rule ∈ co.rules) (x : Address) :
    ∃ c, coverageClass (attributed co.catalog.registry rule.action x).1 = .ok c := by
  obtain ⟨raw, flat, hbuilt, hvalidated, -, haction⟩ := hwell.registered rule hrule
  obtain rfl := hwell.sameCatalog
  obtain rfl := hwell.sameDefs
  obtain ⟨-, -, -, -, -, hmarker⟩ := validateRule_spec hans hbuilt hvalidated
  cases hrule : rule.action with
  | marker home ty =>
    obtain ⟨e, he, -⟩ := hmarker home ty (haction.symm.trans hrule)
    exact ⟨_, TypeCatalog.coverageClass_of_get he⟩
  | nullify home => exact ⟨_, co.catalog.registry.coverageClass_reservedType .retraction⟩

theorem fireCount_of_find {id : ℕ} {rule : CheckedRule} (h : co.rules.find? (fun r => r.id == id) = some rule)
    (w : LinkWorld) (x : Address) : co.fireCount w id x = (do
      let tuples ← w.links.observe co.catalog.registry (attributed co.catalog.registry rule.action x).1
        (attributed co.catalog.registry rule.action x).2 .audit
      return (tuples.filter (attributes rule.action x)).length) := by
  rw [fireCount, h]

/-- **The divergence backstop misses no fire.** Over any turns of a working set, whoever else writes
between: what is counted for a rule at an address grows by at least the deposits that the rule's own
fires made there, and each of these was reported as fired. -/
theorem fireCount_covers (hans : handle.Answers cat defs) (hset : WorkingSet handle cat defs co) {co' : Coordinator}
    {w w' : CoordinationWorld} {ts : List Turn} (hs : w.Sound) (hdrives : co.Drives w ts co' w') (id : ℕ) (x : Address) :
    (∃ n n', co.fireCount w.toLinkWorld id x = .ok n ∧ co'.fireCount w'.toLinkWorld id x = .ok n' ∧
      n + ts.countP (Turn.deposits · id x) ≤ n') ∧
    ∀ t ∈ ts, t.deposits id x = true → ∃ effect, t.outcome = .fired id x effect := by
  have hwell := hset.registered
  obtain ⟨hcat, hids, hkeeps⟩ := hdrives.rules
  by_cases hknown : id ∈ co.rules.map CheckedRule.id
  · obtain ⟨rule, hrule, rfl⟩ := List.mem_map.1 hknown
    obtain ⟨idx, hget⟩ := List.getElem?_of_mem hrule
    obtain ⟨rule', hget', hid, haction⟩ := hkeeps idx rule hget
    obtain ⟨c, hc⟩ := hwell.attributed_class hans hrule x
    obtain ⟨l, hcount, hl⟩ := exists_counted hc w.toLinkWorld
    obtain ⟨l', hcount', -, hl'⟩ := exists_counted hc w'.toLinkWorld
    obtain ⟨hle, hfired⟩ := hdrives.counted hc rfl hwell hs ⟨rule, hget, rfl, rfl⟩ hl hl'
    refine ⟨⟨l.length, l'.length, ?_, ?_, hle⟩, hfired⟩
    · exact (fireCount_of_find (hwell.find hget) _ x).trans hcount
    · rw [← hid, fireCount_of_find ((hdrives.grows hwell hs).2.2.find hget'), hcat, haction]
      exact hcount'
  · have hnone : ∀ co₁ : Coordinator, co₁.rules.map CheckedRule.id = co.rules.map CheckedRule.id →
        ∀ w : LinkWorld, co₁.fireCount w id x = .ok 0 := by
      intro co₁ hsame w
      have hfind : co₁.rules.find? (fun r => r.id == id) = none :=
        List.find?_eq_none.2 fun r hr hid => hknown (hsame ▸ beq_iff_eq.1 hid ▸ List.mem_map_of_mem hr)
      rw [fireCount, hfind]
      rfl
    have hnot : ∀ t ∈ ts, ¬ t.deposits id x = true := fun t ht hdeposits => hknown (hdrives.deposits_known t ht hdeposits)
    refine ⟨⟨0, 0, hnone co rfl _, hnone co' hids _, ?_⟩, fun t ht hdeposits => absurd hdeposits (hnot t ht)⟩
    rw [List.countP_eq_zero.2 hnot]

end Coordinator

private def openTo (w : LinkWorld) : CoordinationWorld := ⟨w, fun _ => true⟩

private def turnAt (w : LinkWorld) (picked : Option (ℕ × CheckedRule × Arg)) (outcome : StepOutcome) : Turn :=
  ⟨openTo w, ⟨openTo w, openTo w, 1, none⟩, picked, outcome⟩

/-- One turn over a world with a certificate, and its deposit is counted. -/
theorem fireCount_covers_retirer : ∃ d w picked co' outcome n',
    mintAndDeposit TypeRegistry.build LinkWorld.genesis 1 headDocument
      ⟨enc [headDocument], enc [], TypeRegistry.build.reservedType .predStable⟩ = .ok (d, w) ∧
    retirer.step (openTo w) ⟨openTo w, openTo w, 1, none⟩ = .ok (co', outcome) ∧
    co'.fireCount (retirer.landing (turnAt w picked outcome)).toLinkWorld 1 headDocument = .ok n' ∧ 1 ≤ n' := by
  have hok : ((mintAndDeposit TypeRegistry.build LinkWorld.genesis 1 headDocument
      ⟨enc [headDocument], enc [], TypeRegistry.build.reservedType .predStable⟩) >>= fun p =>
        (retirer.pick (openTo p.2)).expect >>= fun picked =>
          (retirer.step (openTo p.2) ⟨openTo p.2, openTo p.2, 1, none⟩).expect >>= fun r =>
            (Outcome.require ((turnAt p.2 picked r.2).deposits 1 headDocument = true) :
              Outcome EmitCoreError Unit)).isOk = true := by decide +kernel
  obtain ⟨u, hok⟩ := Outcome.isOk_iff.1 hok
  obtain ⟨⟨d, w⟩, hfirst, hok⟩ := Outcome.bind_eq_ok_iff.1 hok
  obtain ⟨picked, hpick, hok⟩ := Outcome.bind_eq_ok_iff.1 hok
  obtain ⟨⟨co', outcome⟩, hstep, hok⟩ := Outcome.bind_eq_ok_iff.1 hok
  rw [Outcome.expect_eq_ok_iff] at hpick hstep
  have hdeposits := Outcome.require_eq_ok_iff.1 hok
  have hsound : w.Sound := by
    have hemitted : Emitted TypeRegistry.build LinkWorld.genesis (fun _ => true) _ _ d w := mintAndDeposit_spec hfirst
    rcases hemitted.step with rfl | hlink
    · exact LinkWorld.sound_genesis
    · exact hlink.sound LinkWorld.sound_genesis
  have hdrives : retirer.Drives (openTo w) [turnAt w picked outcome] co' (retirer.landing (turnAt w picked outcome)) :=
    .cons .refl .refl .refl hpick hstep (.nil _ _)
  obtain ⟨⟨n, n', -, hn', hle⟩, -⟩ := Coordinator.fireCount_covers (noDefs_answers _ _) retirer_workingSet hsound hdrives
    1 headDocument
  refine ⟨d, w, picked, co', outcome, n', hfirst, hstep, hn', ?_⟩
  rw [List.countP_cons_of_pos (p := fun t : Turn => t.deposits 1 headDocument) hdeposits] at hle
  omega

end Coordination
