import Skep.Coordination.Growing
import Skep.Coordination.Noninterference
import Skep.Coordination.Soundness
import Skep.Coordination.ViewIndependence

/-!
# Stability certificates are sound

The analysis reports of a term whether its truth, its falsehood or its elements can go as the
world grows. What it reports is so at every later world.
-/

namespace Coordination

/-- A world and a later one, at both of which the links denote addresses. -/
structure Later (w w' : CoordinationWorld) : Prop where
  grows : w.Grows w'
  sound : w.Sound
  sound' : w'.Sound
  denotes : w.links.DenotesAddresses
  denotes' : w'.links.DenotesAddresses

/-- A set that was answered is answered with every element it had. -/
def SetGrown (x x' : Outcome Empty Value) : Prop :=
  ∀ s, x = .ok (.addrSet s) → ∃ s', x' = .ok (.addrSet s') ∧ s ⊆ s'

/-- What the flags of an analysis promise of a value at two worlds. -/
structure Stable (a : Analysis) (x x' : Outcome Empty Value) : Prop where
  st : a.st = true → Outcome.Keeps (.bool true) x x'
  sf : a.sf = true → Outcome.Keeps (.bool false) x x'
  growOnly : a.growOnly = true → SetGrown x x'

theorem SetGrown.of_eq {x x' : Outcome Empty Value} (h : x = x') : SetGrown x x' :=
  fun s hs => ⟨s, h ▸ hs, OrdSet.subset_refl s⟩

theorem SetGrown.bind {α : Type} {x : Outcome Empty α} {f f' : α → Outcome Empty Value}
    (h : ∀ a, x = .ok a → SetGrown (f a) (f' a)) : SetGrown (x >>= f) (x >>= f') := by
  intro s hs
  obtain ⟨a, ha, hf⟩ := Outcome.bind_eq_ok_iff.1 hs
  rw [ha, Outcome.ok_bind]
  exact h a ha s hf

theorem Stable.of_eq {a : Analysis} {x x' : Outcome Empty Value} (h : x = x') : Stable a x x' :=
  ⟨fun _ => .of_eq h, fun _ => .of_eq h, fun _ => .of_eq h⟩

theorem stable_stateRead (fp : Footprint) (x x' : Outcome Empty Value) : Stable (stateRead fp) x x' := by
  refine ⟨fun h => ?_, fun h => ?_, fun h => ?_⟩ <;> cases h

theorem stable_stepConstant {fp : Footprint} {x x' : Outcome Empty Value} (h : fp.isStepConstant = true → x = x') :
    Stable (stepConstant fp) x x' :=
  ⟨fun hc => .of_eq (h hc), fun hc => .of_eq (h hc), fun hc => .of_eq (h hc)⟩

/-- A truth value is kept by what is read of it as one. -/
theorem keeps_asBool {b : Bool} {x x' : Outcome Empty Value} (h : Outcome.Keeps (.bool b) x x') :
    Outcome.Keeps b (x >>= asBool) (x' >>= asBool) := by
  intro hx
  obtain ⟨v, hv, hb⟩ := Outcome.bind_eq_ok_iff.1 hx
  cases v <;> cases hb
  rw [h hv]
  rfl

theorem keeps_bool {b : Bool} {x x' : Outcome Empty Bool} (h : Outcome.Keeps b x x') :
    Outcome.Keeps (.bool b) (x >>= fun c => .ok (Value.bool c)) (x' >>= fun c => .ok (Value.bool c)) := by
  intro hx
  obtain ⟨c, hc, hb⟩ := Outcome.bind_eq_ok_iff.1 hx
  cases hb
  rw [h hc]
  rfl

-- Reads at the audit view

section

variable {w w' : CoordinationWorld} {cat : TypeCatalog} {k : TypeKey} {c : CoverageClass}

theorem isKAt_audit_keeps (h : Later w w') (hc : coverageClass k = .ok c) (x : Address) :
    Outcome.Keeps true ((w.ctx cat .audit none).isKAt k x) ((w'.ctx cat .audit none).isKAt k x) := by
  intro hx
  have hread : w.look.isK cat.registry k x.tumbler .audit = .ok true := hx
  show w'.look.isK cat.registry k x.tumbler .audit = .ok true
  rw [GuestLinks.isK_eq hc, Outcome.ok.injEq, List.any_eq_true] at hread ⊢
  obtain ⟨t, ht, hcovers⟩ := hread
  exact ⟨t, slice_grows h.grows h.sound ht, hcovers⟩

theorem membersAt_audit_grown (h : Later w w') (hk : ∃ e, cat.get k = some e) {s : OrdSet Address}
    (hs : (w.ctx cat .audit none).membersAt k = .ok s) :
    ∃ s', (w'.ctx cat .audit none).membersAt k = .ok s' ∧ s ⊆ s' := by
  obtain ⟨s', hs', -⟩ : ((w'.ctx cat .audit none).membersAt k).Returns fun _ => True := membersAt_returns h.denotes' hk
  refine ⟨s', hs', fun a ha => ?_⟩
  obtain ⟨e, he⟩ := hk
  have hc := TypeCatalog.coverageClass_of_get he
  rw [membersAt_audit] at hs hs'
  obtain ⟨t, ht, hmem⟩ := (mem_members hc hs a).1 ha
  exact (mem_members hc hs' a).2 ⟨t, slice_grows h.grows h.sound ht, hmem⟩

theorem targetsOfAt_audit_grown (h : Later w w') (hk : ∃ e, cat.get k = some e) {x : Address} {s : OrdSet Address}
    (hs : (w.ctx cat .audit none).targetsOfAt k x = .ok s) :
    ∃ s', (w'.ctx cat .audit none).targetsOfAt k x = .ok s' ∧ s ⊆ s' := by
  have hread : ∀ w : CoordinationWorld, (w.ctx cat .audit none).targetsOfAt k x =
      w.look.targetsOfDenoting cat.registry k x := by
    intro w
    simp only [EvalCtx.targetsOfAt, CoordinationWorld.ctx_view, uvRewrite_audit]
    exact bind_pure _
  obtain ⟨s', hs', -⟩ : ((w'.ctx cat .audit none).targetsOfAt k x).Returns fun _ => True :=
    targetsOfAt_returns h.denotes' hk x
  refine ⟨s', hs', fun a ha => ?_⟩
  obtain ⟨e, he⟩ := hk
  have hc := TypeCatalog.coverageClass_of_get he
  rw [hread] at hs hs'
  obtain ⟨t, ht, hmem⟩ := (mem_targetsOfDenoting hc hs a).1 ha
  exact (mem_targetsOfDenoting hc hs' a).2 ⟨t, slice_grows h.grows h.sound ht, hmem⟩

theorem linkDom_grown (h : Later w w') (view : View) : ∃ s s', (w.ctx cat view none).linkDom = .ok s ∧
    (w'.ctx cat view none).linkDom = .ok s' ∧ s ⊆ s' := by
  refine ⟨_, _, linkDom_eq view, linkDom_eq view, fun a ha => ?_⟩
  rw [OrdSet.mem_ofList, List.mem_map] at ha ⊢
  obtain ⟨t, ht, rfl⟩ := ha
  obtain ⟨ty, hty, ht⟩ := List.mem_flatMap.1 ht
  exact ⟨t, List.mem_flatMap.2 ⟨ty, hty, slice_grows h.grows h.sound ht⟩, rfl⟩

end

-- Operations

section

variable {w w' : CoordinationWorld} {cat : TypeCatalog} {view : View} {widen : Bool} {x x' y y' : Outcome Empty Value}

/-- An atom at a key that its position admits, its operand the same at both worlds. -/
theorem keyed_stable (h : Later w w') {r : KeyedRead} {k : TypeKey} (hk : ∃ e, cat.get k = some e) {ae a : Analysis}
    (ha : Analyzer.keyed ⟨cat, view, widen⟩ r k ae = .ok a) (hx : ae.fp.isStepConstant = true → x = x') :
    Stable a (x >>= r.eval (w.ctx cat view none) k) (x' >>= r.eval (w'.ctx cat view none) k) := by
  obtain ⟨e, he⟩ := hk
  cases r with
  | isK =>
    simp only [Analyzer.keyed, Outcome.bind_eq_ok_iff, Outcome.pure_eq, Outcome.ok.injEq] at ha
    obtain ⟨_, -, rfl⟩ := ha
    refine ⟨fun hst => ?_, fun hsf => ?_, fun hgrow => ?_⟩
    · rw [Bool.and_eq_true, beq_iff_eq] at hst
      obtain ⟨rfl, hconst⟩ := hst
      rw [hx hconst]
      refine .bind fun v _ => .bind fun b _ => keeps_bool ?_
      exact isKAt_audit_keeps h (TypeCatalog.coverageClass_of_get he) b
    · cases hsf
    · cases hgrow
  | targetsOf =>
    simp only [Analyzer.keyed, Outcome.bind_eq_ok_iff, Outcome.pure_eq, Outcome.ok.injEq] at ha
    obtain ⟨_, -, rfl⟩ := ha
    refine ⟨fun hst => ?_, fun hsf => ?_, fun hgrow => ?_⟩
    · cases hst
    · cases hsf
    · rw [Bool.and_eq_true, beq_iff_eq] at hgrow
      obtain ⟨rfl, hconst⟩ := hgrow
      rw [hx hconst]
      refine .bind fun v _ => .bind fun b _ => fun s hs => ?_
      obtain ⟨out, hout, heq⟩ := Outcome.bind_eq_ok_iff.1 hs
      cases heq
      obtain ⟨out', hout', hsub⟩ := targetsOfAt_audit_grown h ⟨e, he⟩ hout
      exact ⟨out', by rw [hout', Outcome.ok_bind]; rfl, hsub⟩
  | isFiltered | succs | chain | tip | sourcesTo | targetOf | age | stale =>
    simp only [Analyzer.keyed, Outcome.bind_eq_ok_iff, Outcome.pure_eq, Outcome.ok.injEq] at ha
    obtain ⟨_, -, rfl⟩ := ha
    exact stable_stateRead _ _ _

theorem unary_stable (h : Later w w') {op : UnaryOp} (hop : op.guarded cat = .ok op) {ae a : Analysis}
    (ha : Analyzer.unary ⟨cat, view, widen⟩ op ae = .ok a) (hx : ae.fp.isStepConstant = true → x = x')
    (hstable : Stable ae x x') (hconst : a.fp.isStepConstant = true →
      x >>= op.eval (w.ctx cat view none) = x' >>= op.eval (w'.ctx cat view none)) :
    Stable a (x >>= op.eval (w.ctx cat view none)) (x' >>= op.eval (w'.ctx cat view none)) := by
  cases op with
  | keyed r tr =>
    rw [UnaryOp.guarded] at hop
    obtain ⟨k, hk, -⟩ := Outcome.bind_eq_ok_iff.1 hop
    obtain rfl := eq_of_guarded hk
    obtain ⟨e, he, -⟩ := get_of_guarded hk
    simp only [Analyzer.unary, TypeRef.key, Outcome.pure_eq, Outcome.ok_bind, Outcome.bind_eq_ok_iff,
      Outcome.ok.injEq] at ha
    obtain ⟨analysis, hanalysis, rfl⟩ := ha
    have hread := keyed_stable h ⟨e, he⟩ hanalysis hx
    exact ⟨hread.st, hread.sf, hread.growOnly⟩
  | targetsKeyed =>
    cases ha
    exact stable_stateRead _ _ _
  | isDoc =>
    cases ha
    refine ⟨fun hst => ?_, fun hsf => ?_, fun hgrow => ?_⟩
    · rw [hx hst]
      refine .bind fun v _ => .bind fun b _ => fun hdoc => ?_
      have hreg : w.m3.isRegisteredDocument b = true := Value.bool.inj (Outcome.ok.inj hdoc)
      exact congrArg (fun b => Outcome.ok (Value.bool b)) (h.grows.world.documents b hreg)
    · cases hsf
    · cases hgrow
  | isEmpty =>
    cases ha
    refine ⟨fun hst => .of_eq (hconst hst), fun hsf => ?_, fun hgrow => .of_eq (hconst hgrow)⟩
    rcases Bool.or_eq_true _ _ ▸ hsf with hsf | hgrow
    · exact .of_eq (hconst hsf)
    · intro hfalse
      obtain ⟨v, hv, hempty⟩ := Outcome.bind_eq_ok_iff.1 hfalse
      obtain ⟨s, hs, hempty⟩ := Outcome.bind_eq_ok_iff.1 hempty
      cases v <;> cases hs
      obtain ⟨s', hs', hsub⟩ := hstable.growOnly hgrow s hv
      have hne : s.isEmpty = false := Value.bool.inj (Outcome.ok.inj hempty)
      have hne' : s'.isEmpty = false := by
        by_contra hempty'
        rw [Bool.not_eq_false, OrdSet.isEmpty_iff] at hempty'
        exact absurd (OrdSet.isEmpty_iff.2 fun a ha => hempty' a (hsub a ha)) (by simp [hne])
      rw [hs', Outcome.ok_bind]
      exact congrArg (fun b => Outcome.ok (Value.bool b)) hne'
  | elems | defined | mapGet =>
    cases ha
    exact stable_stepConstant hconst
  | not =>
    cases ha
    have hflip : ∀ b : Bool, Outcome.Keeps (.bool b) x x' → Outcome.Keeps (.bool !b)
        (x >>= UnaryOp.not.eval (w.ctx cat view none)) (x' >>= UnaryOp.not.eval (w'.ctx cat view none)) := by
      intro b hkeeps hnot
      obtain ⟨v, hv, hnot⟩ := Outcome.bind_eq_ok_iff.1 hnot
      obtain ⟨c, hc, hnot⟩ := Outcome.bind_eq_ok_iff.1 hnot
      cases v <;> cases hc
      obtain rfl : c = b := Bool.not_inj (Value.bool.inj (Outcome.ok.inj hnot))
      rw [hkeeps hv]
      rfl
    exact ⟨fun hst => hflip false (hstable.sf hst), fun hsf => hflip true (hstable.st hsf),
      fun hgrow => .of_eq (hconst hgrow)⟩

/-- An operation on two operands that is not a comparison of naturals. -/
theorem binary_stable {op : BinaryOp} {ax ay a : Analysis} (ha : Analyzer.binary ⟨cat, view, widen⟩ op ax ay = .ok a)
    (hx : ax.fp.isStepConstant = true → x = x') (hy : Stable ay y y') (hconst : a.fp.isStepConstant = true →
      (do op.eval (w.ctx cat view none) (← x) (← y)) = (do op.eval (w'.ctx cat view none) (← x') (← y'))) :
    Stable a (do op.eval (w.ctx cat view none) (← x) (← y)) (do op.eval (w'.ctx cat view none) (← x') (← y')) := by
  cases op with
  | isInChain tr =>
    simp only [Analyzer.binary, Outcome.bind_eq_ok_iff, Outcome.pure_eq, Outcome.ok.injEq] at ha
    obtain ⟨k, -, _, -, rfl⟩ := ha
    exact stable_stateRead _ _ _
  | setMem =>
    cases ha
    refine ⟨fun hst => ?_, fun hsf => .of_eq (hconst hsf), fun hgrow => .of_eq (hconst hgrow)⟩
    rcases Bool.or_eq_true _ _ ▸ hst with hst | hst
    · exact .of_eq (hconst hst)
    · obtain ⟨hxconst, hgrow⟩ := Bool.and_eq_true _ _ ▸ hst
      rw [hx hxconst]
      refine .bind fun u hu => fun htrue => ?_
      obtain ⟨v, hv, htrue⟩ := Outcome.bind_eq_ok_iff.1 htrue
      obtain ⟨b, hb, htrue⟩ := Outcome.bind_eq_ok_iff.1 htrue
      obtain ⟨s, hs, htrue⟩ := Outcome.bind_eq_ok_iff.1 htrue
      cases v <;> cases hs
      obtain ⟨s', hs', hsub⟩ := hy.growOnly hgrow s hv
      have hmem : b ∈ s := of_decide_eq_true (Value.bool.inj (Outcome.ok.inj htrue))
      simp only [hs', Outcome.ok_bind, BinaryOp.eval, hb, asSet, Outcome.pure_eq]
      exact congrArg (fun b => Outcome.ok (Value.bool b)) (decide_eq_true (hsub b hmem))
  | addrEq | prefixOf | t1Lt | setEq | natEq | natAdd | natLe =>
    cases ha
    exact stable_stepConstant hconst

/-- A connective keeps the truths and the falsehoods its analysis reports. -/
theorem Connective.keeps (op : Connective) {ax ay : Analysis} {b c b' : Outcome Empty Bool} {c' : Outcome Empty Bool}
    {v : Bool} (hv : b' = .ok v) (hbt : ax.st = true → Outcome.Keeps true b b')
    (hbf : ax.sf = true → Outcome.Keeps false b b') (hct : ay.st = true → Outcome.Keeps true c c')
    (hcf : ay.sf = true → Outcome.Keeps false c c') :
    ((op.analyze ax ay).st = true → Outcome.Keeps true (b >>= fun u => op.eval u c) (b' >>= fun u => op.eval u c')) ∧
      ((op.analyze ax ay).sf = true →
        Outcome.Keeps false (b >>= fun u => op.eval u c) (b' >>= fun u => op.eval u c')) := by
  cases op with
  | and =>
    refine ⟨fun hst h => ?_, fun hsf h => ?_⟩
    · obtain ⟨hx, hy⟩ := Bool.and_eq_true _ _ ▸ hst
      obtain ⟨u, hu, h⟩ := Outcome.bind_eq_ok_iff.1 h
      cases u with
      | true =>
        rw [hbt hx hu]
        exact hct hy h
      | false => cases h
    · obtain ⟨hx, hy⟩ := Bool.and_eq_true _ _ ▸ hsf
      obtain ⟨u, hu, h⟩ := Outcome.bind_eq_ok_iff.1 h
      cases u with
      | false =>
        rw [hbf hx hu]
        rfl
      | true =>
        rw [hv]
        cases v with
        | true => exact hcf hy h
        | false => rfl
  | or =>
    refine ⟨fun hst h => ?_, fun hsf h => ?_⟩
    · obtain ⟨hx, hy⟩ := Bool.and_eq_true _ _ ▸ hst
      obtain ⟨u, hu, h⟩ := Outcome.bind_eq_ok_iff.1 h
      cases u with
      | true =>
        rw [hbt hx hu]
        rfl
      | false =>
        rw [hv]
        cases v with
        | true => rfl
        | false => exact hct hy h
    · obtain ⟨hx, hy⟩ := Bool.and_eq_true _ _ ▸ hsf
      obtain ⟨u, hu, h⟩ := Outcome.bind_eq_ok_iff.1 h
      cases u with
      | false =>
        rw [hbf hx hu]
        exact hcf hy h
      | true => cases h
  | implies =>
    refine ⟨fun hst h => ?_, fun hsf h => ?_⟩
    · obtain ⟨hx, hy⟩ := Bool.and_eq_true _ _ ▸ hst
      obtain ⟨u, hu, h⟩ := Outcome.bind_eq_ok_iff.1 h
      cases u with
      | false =>
        rw [hbf hx hu]
        rfl
      | true =>
        rw [hv]
        cases v with
        | true => exact hct hy h
        | false => rfl
    · obtain ⟨hx, hy⟩ := Bool.and_eq_true _ _ ▸ hsf
      obtain ⟨u, hu, h⟩ := Outcome.bind_eq_ok_iff.1 h
      cases u with
      | true =>
        rw [hbt hx hu]
        exact hcf hy h
      | false => cases h
  | iff =>
    -- both sides are fixed both ways
    have hboth : (ax.st && ax.sf && ay.st && ay.sf) = true → ∀ r,
        Outcome.Keeps r (b >>= fun u => Connective.iff.eval u c) (b' >>= fun u => Connective.iff.eval u c') := by
      intro hflags r h
      simp only [Bool.and_eq_true] at hflags
      obtain ⟨⟨⟨hst, hsf⟩, hst'⟩, hsf'⟩ := hflags
      obtain ⟨u, hu, h⟩ := Outcome.bind_eq_ok_iff.1 h
      obtain ⟨z, hz, h⟩ := Outcome.bind_eq_ok_iff.1 h
      have hu' : b' = .ok u := by
        cases u with
        | true => exact hbt hst hu
        | false => exact hbf hsf hu
      have hz' : c' = .ok z := by
        cases z with
        | true => exact hct hst' hz
        | false => exact hcf hsf' hz
      rw [hu', hz']
      exact h
    exact ⟨fun h => hboth h true, fun h => hboth h false⟩

theorem connective_stable (op : Connective) {ax ay : Analysis} (hx : Stable ax x x') (hy : Stable ay y y')
    (hx' : x'.Returns fun v => v.HasSort .bool)
    (hconst : (ax.fp.union ay.fp).isStepConstant = true →
      (x >>= fun v => asBool v >>= fun b => op.eval b (y >>= asBool) >>= fun r => Outcome.ok (Value.bool r)) =
        x' >>= fun v => asBool v >>= fun b => op.eval b (y' >>= asBool) >>= fun r => Outcome.ok (Value.bool r)) :
    Stable (op.analyze ax ay)
      (x >>= fun v => asBool v >>= fun b => op.eval b (y >>= asBool) >>= fun r => Outcome.ok (Value.bool r))
      (x' >>= fun v => asBool v >>= fun b => op.eval b (y' >>= asBool) >>= fun r => Outcome.ok (Value.bool r)) := by
  obtain ⟨v, hv, -⟩ := hx'.bind fun v hv => asBool_returns hv
  obtain ⟨htrue, hfalse⟩ := @Connective.keeps op _ _ _ (y >>= asBool) _ (y' >>= asBool) _ hv
    (fun hst => keeps_asBool (hx.st hst)) (fun hsf => keeps_asBool (hx.sf hsf))
    (fun hst => keeps_asBool (hy.st hst)) fun hsf => keeps_asBool (hy.sf hsf)
  refine ⟨fun hst => ?_, fun hsf => ?_, fun hgrow => .of_eq (hconst ?_)⟩
  · simpa only [bind_assoc] using keeps_bool (htrue hst)
  · simpa only [bind_assoc] using keeps_bool (hfalse hsf)
  · cases op <;> exact hgrow

end

-- Bodies over the elements of a domain

/-- What a body is over the values of a sort, at two worlds. -/
structure BodyStable (s r : ValueSort) (a : Analysis) (body body' : Value → Outcome Empty Value) : Prop where
  stable : ∀ v : Value, v.HasSort s → Stable a (body v) (body' v)
  returns : ∀ v : Value, v.HasSort s → (body' v).Returns fun u => u.HasSort r
  const : a.fp.isStepConstant = true → body = body'

/-- A domain at two worlds. -/
structure DomGrown (s : ValueSort) (a : DomAnalysis) (d d' : Outcome Empty (List Arg)) : Prop where
  grown : a.growOnly = true → Outcome.Grown d d'
  returns : d'.Returns fun elems => ∀ e ∈ elems, e.toValue.HasSort s
  const : a.fp.isStepConstant = true → d = d'

section

variable {s : ValueSort} {d d' : Outcome Empty (List Arg)} {body body' : Value → Outcome Empty Value} {ad : DomAnalysis}
  {ab : Analysis}

theorem DomGrown.quantified (hd : DomGrown s ad d d') (hb : BodyStable s .bool ab body body') (q : Quantifier)
    (hconst : (ad.fp.union ab.fp).isStepConstant = true →
      (d >>= fun elems => q.eval elems (fun e => body e.toValue >>= asBool) >>= fun r => Outcome.ok (Value.bool r)) =
        d' >>= fun elems => q.eval elems (fun e => body' e.toValue >>= asBool) >>= fun r => Outcome.ok (Value.bool r)) :
    Stable (q.analyze ad ab)
      (d >>= fun elems => q.eval elems (fun e => body e.toValue >>= asBool) >>= fun r => Outcome.ok (Value.bool r))
      (d' >>= fun elems => q.eval elems (fun e => body' e.toValue >>= asBool) >>= fun r => Outcome.ok (Value.bool r)) := by
  obtain ⟨elems', hd', hsorts⟩ := hd.returns
  have hreturns : ∀ e ∈ elems', (body' e.toValue >>= asBool).Returns fun _ => True := fun e he =>
    (hb.returns _ (hsorts e he)).bind fun v hv => asBool_returns hv
  have htrue : ∀ {elems : List Arg}, elems ⊆ elems' → ab.st = true → ∀ e ∈ elems,
      Outcome.Keeps true (body e.toValue >>= asBool) (body' e.toValue >>= asBool) := fun hsub hst e he =>
    keeps_asBool ((hb.stable _ (hsorts e (hsub he))).st hst)
  have hfalse : ∀ {elems : List Arg}, elems ⊆ elems' → ab.sf = true → ∀ e ∈ elems,
      Outcome.Keeps false (body e.toValue >>= asBool) (body' e.toValue >>= asBool) := fun hsub hsf e he =>
    keeps_asBool ((hb.stable _ (hsorts e (hsub he))).sf hsf)
  have hrefl := List.Subset.refl elems'
  unfold Quantifier.analyze
  split
  · next hdconst =>
    refine ⟨fun hst => ?_, fun hsf => ?_, fun hgrow => .of_eq (hconst hgrow)⟩
    · rw [hd.const hdconst, hd', Outcome.ok_bind, Outcome.ok_bind]
      refine keeps_bool ?_
      cases q with
      | all => exact .allM_true (htrue hrefl hst)
      | any => exact .anyM_true hrefl (htrue hrefl hst) hreturns
    · rw [hd.const hdconst, hd', Outcome.ok_bind, Outcome.ok_bind]
      refine keeps_bool ?_
      cases q with
      | all => exact .allM_false hrefl (hfalse hrefl hsf) hreturns
      | any => exact .anyM_false (hfalse hrefl hsf)
  · split
    · next hgrowing =>
      have hlonger : ∀ elems, d = .ok elems → elems ⊆ elems' := by
        intro elems helems
        obtain ⟨l, hl, hsub⟩ := hd.grown hgrowing elems helems
        obtain rfl := Outcome.ok.inj (hd'.symm.trans hl)
        exact hsub
      cases q with
      | all =>
        refine ⟨fun hst => ?_, fun hsf h => ?_, fun hgrow => .of_eq (hconst hgrow)⟩
        · cases hst
        · obtain ⟨elems, helems, h⟩ := Outcome.bind_eq_ok_iff.1 h
          have hsub := hlonger elems helems
          rw [hd', Outcome.ok_bind]
          exact keeps_bool (.allM_false hsub (hfalse hsub hsf) hreturns) h
      | any =>
        refine ⟨fun hst h => ?_, fun hsf => ?_, fun hgrow => .of_eq (hconst hgrow)⟩
        · obtain ⟨elems, helems, h⟩ := Outcome.bind_eq_ok_iff.1 h
          have hsub := hlonger elems helems
          rw [hd', Outcome.ok_bind]
          exact keeps_bool (.anyM_true hsub (htrue hsub hst) hreturns) h
        · cases hsf
    · refine ⟨fun hst => ?_, fun hsf => ?_, fun hgrow => .of_eq (hconst hgrow)⟩
      · cases hst
      · cases hsf

theorem DomGrown.filter {a : DomAnalysis} (hd : DomGrown s ad d d') (hb : BodyStable s .bool ab body body')
    (hst : a.growOnly = true → ad.growOnly = true ∧ ab.st = true ∨ a.fp.isStepConstant = true)
    (hconst : a.fp.isStepConstant = true → (d >>= Outcome.keepM fun e => body e.toValue >>= asBool) =
      d' >>= Outcome.keepM fun e => body' e.toValue >>= asBool) :
    DomGrown s a (d >>= Outcome.keepM fun e => body e.toValue >>= asBool)
      (d' >>= Outcome.keepM fun e => body' e.toValue >>= asBool) := by
  have hreturns : ∀ {e : Arg}, e.toValue.HasSort s → (body' e.toValue >>= asBool).Returns fun _ => True := fun he =>
    (hb.returns _ he).bind fun v hv => asBool_returns hv
  refine ⟨fun hgrow => ?_, hd.returns.bind fun elems helems => ?_, hconst⟩
  · rcases hst hgrow with ⟨hgrow, hst⟩ | hc
    · intro kept hkept
      obtain ⟨elems, helems, hkept⟩ := Outcome.bind_eq_ok_iff.1 hkept
      obtain ⟨elems', helems', hsub⟩ := hd.grown hgrow elems helems
      have hsorts := hd.returns.of_ok helems'
      rw [helems', Outcome.ok_bind]
      exact Outcome.Grown.keepM hsub (fun e he => keeps_asBool ((hb.stable _ (hsorts e (hsub he))).st hst))
        (fun e he => hreturns (hsorts e he)) kept hkept
    · exact .of_eq (hconst hc)
  · exact (Outcome.Returns.keepM fun e he => hreturns (helems e he)).mono fun kept hkept e he => helems e (hkept e he)

theorem DomGrown.setTerm {x x' : Outcome Empty Value} {a : Analysis} (hx : Stable a x x')
    (hx' : x'.Returns fun v => v.HasSort .addrSet) (hconst : a.fp.isStepConstant = true → x = x') :
    DomGrown .addr ⟨a.fp, a.growOnly || a.fp.isStepConstant⟩
      (x >>= fun v => asSet v >>= fun s => .ok (s.elems.map .addr))
      (x' >>= fun v => asSet v >>= fun s => .ok (s.elems.map .addr)) := by
  refine ⟨fun hgrow => ?_, hx'.bind fun v hv => (asSet_returns hv).bind fun s _ => .pure hasSort_addrs, fun hc => ?_⟩
  · rcases Bool.or_eq_true _ _ ▸ hgrow with hgrow | hc
    · intro l hl
      obtain ⟨v, hv, hl⟩ := Outcome.bind_eq_ok_iff.1 hl
      obtain ⟨s, hs, hl⟩ := Outcome.bind_eq_ok_iff.1 hl
      cases v <;> cases hs
      cases hl
      obtain ⟨s', hs', hsub⟩ := hx.growOnly hgrow s hv
      exact ⟨_, by rw [hs']; rfl, List.map_subset _ hsub⟩
    · rw [hconst hc]
      exact .of_eq rfl
  · rw [hconst hc]

theorem DomGrown.bigUnion {a : Analysis} (hd : DomGrown s ad d d') (hb : BodyStable s .addrSet ab body body')
    (hflags : (a.st = true → a.fp.isStepConstant = true) ∧ (a.sf = true → a.fp.isStepConstant = true) ∧
      (a.growOnly = true → a.fp.isStepConstant = true ∨ ad.growOnly = true ∧ ab.fp.isStepConstant = true))
    (hconst : a.fp.isStepConstant = true →
      (d >>= fun elems => elems.mapM (fun e => body e.toValue >>= asSet) >>= fun sets => Outcome.ok (Value.addrSet (OrdSet.unions sets))) =
        d' >>= fun elems => elems.mapM (fun e => body' e.toValue >>= asSet) >>= fun sets => Outcome.ok (Value.addrSet (OrdSet.unions sets))) :
    Stable a
      (d >>= fun elems => elems.mapM (fun e => body e.toValue >>= asSet) >>= fun sets => Outcome.ok (Value.addrSet (OrdSet.unions sets)))
      (d' >>= fun elems => elems.mapM (fun e => body' e.toValue >>= asSet) >>= fun sets => Outcome.ok (Value.addrSet (OrdSet.unions sets))) := by
  obtain ⟨hst, hsf, hgrow⟩ := hflags
  refine ⟨fun h => .of_eq (hconst (hst h)), fun h => .of_eq (hconst (hsf h)), fun h => ?_⟩
  rcases hgrow h with hc | ⟨hgrowing, hbconst⟩
  · exact .of_eq (hconst hc)
  · intro out hout
    obtain ⟨elems, helems, hout⟩ := Outcome.bind_eq_ok_iff.1 hout
    obtain ⟨sets, hsets, hout⟩ := Outcome.bind_eq_ok_iff.1 hout
    cases hout
    obtain ⟨elems', helems', hsub⟩ := hd.grown hgrowing elems helems
    have hsorts := hd.returns.of_ok helems'
    rw [hb.const hbconst] at hsets
    obtain ⟨sets', hsets', hmem⟩ := Outcome.Grown.mapM hsub (fun e he =>
      (hb.returns _ (hsorts e he)).bind fun v hv => asSet_returns hv) sets hsets
    refine ⟨_, by rw [helems', Outcome.ok_bind, hsets', Outcome.ok_bind], fun a ha => ?_⟩
    obtain ⟨set, hset, ha⟩ := OrdSet.mem_unions.1 ha
    exact OrdSet.mem_unions.2 ⟨set, hmem hset, ha⟩

end

theorem Aggregate.stable (op : Aggregate) {s : ValueSort} (hwants : op.wants s = .ok ()) {ad : DomAnalysis}
    {d d' : Outcome Empty (List Arg)} (hd : DomGrown s ad d d') : Stable (op.analyze ad) (d >>= op.eval) (d' >>= op.eval) := by
  have hconst : ad.fp.isStepConstant = true → d >>= op.eval = d' >>= op.eval := fun hc => by rw [hd.const hc]
  cases op with
  | count | maxT1 | minT1 => exact stable_stepConstant hconst
  | reflect =>
    refine ⟨fun hst => .of_eq (hconst hst), fun hsf => .of_eq (hconst hsf), fun hgrow => ?_⟩
    rcases Bool.or_eq_true _ _ ▸ hgrow with hc | hgrow
    · exact .of_eq (hconst hc)
    · intro out hout
      obtain ⟨elems, helems, hout⟩ := Outcome.bind_eq_ok_iff.1 hout
      obtain ⟨addrs, haddrs, hout⟩ := Outcome.bind_eq_ok_iff.1 hout
      cases hout
      obtain rfl := not_ne_iff.1 (Outcome.refuseIf_eq_ok_iff.1 hwants)
      obtain ⟨elems', helems', hsub⟩ := hd.grown hgrow elems helems
      obtain ⟨addrs', haddrs', hmem⟩ := Outcome.Grown.mapM hsub (fun e he =>
        addrElem_returns (hd.returns.of_ok helems' e he)) addrs haddrs
      refine ⟨.ofList addrs', ?_, fun a ha => OrdSet.mem_ofList.2 (hmem (OrdSet.mem_ofList.1 ha))⟩
      rw [helems', Outcome.ok_bind, Aggregate.eval, haddrs']
      rfl

/-- A comparison of a threshold with a count that grows, on either side. -/
theorem natLe_keeps {cx cx' : EvalCtx} {d d' : Outcome Empty (List Arg)} {x : Outcome Empty Value} (hd : Outcome.Grown d d')
    (hnodup : ∀ l, d = .ok l → l.Nodup) :
    Outcome.Keeps (.bool true) (x >>= fun u => d >>= Aggregate.count.eval >>= fun v => BinaryOp.natLe.eval cx u v)
      (x >>= fun u => d' >>= Aggregate.count.eval >>= fun v => BinaryOp.natLe.eval cx' u v) ∧
    Outcome.Keeps (.bool false) (d >>= Aggregate.count.eval >>= fun u => x >>= fun v => BinaryOp.natLe.eval cx u v)
      (d' >>= Aggregate.count.eval >>= fun u => x >>= fun v => BinaryOp.natLe.eval cx' u v) := by
  have hlonger : ∀ l, d = .ok l → ∃ l', d' = .ok l' ∧ l.length ≤ l'.length := by
    intro l hl
    obtain ⟨l', hl', hsub⟩ := hd l hl
    exact ⟨l', hl', ((hnodup l hl).subperm hsub).length_le⟩
  constructor
  · intro h
    obtain ⟨u, hu, h⟩ := Outcome.bind_eq_ok_iff.1 h
    obtain ⟨v, hv, h⟩ := Outcome.bind_eq_ok_iff.1 h
    obtain ⟨l, hl, hv⟩ := Outcome.bind_eq_ok_iff.1 hv
    cases hv
    obtain ⟨l', hl', hle⟩ := hlonger l hl
    obtain ⟨n, hn, h⟩ := Outcome.bind_eq_ok_iff.1 h
    have hbound : n ≤ l.length := of_decide_eq_true (Value.bool.inj (Outcome.ok.inj h))
    rw [hu, hl']
    show asNat u >>= _ = _
    rw [hn]
    exact congrArg (fun b => Outcome.ok (Value.bool b)) (decide_eq_true (hbound.trans hle))
  · intro h
    obtain ⟨u, hu, h⟩ := Outcome.bind_eq_ok_iff.1 h
    obtain ⟨l, hl, hu⟩ := Outcome.bind_eq_ok_iff.1 hu
    cases hu
    obtain ⟨v, hv, h⟩ := Outcome.bind_eq_ok_iff.1 h
    obtain ⟨l', hl', hle⟩ := hlonger l hl
    obtain ⟨m, hm, h⟩ := Outcome.bind_eq_ok_iff.1 h
    cases hm
    obtain ⟨n, hn, h⟩ := Outcome.bind_eq_ok_iff.1 h
    have hbound : ¬ l.length ≤ n := of_decide_eq_false (Value.bool.inj (Outcome.ok.inj h))
    rw [hl', hv]
    show asNat v >>= _ = _
    rw [hn]
    exact congrArg (fun b => Outcome.ok (Value.bool b)) (decide_eq_false fun hle' => hbound (hle.trans hle'))

section

variable {w w' : CoordinationWorld} {cat : TypeCatalog} {view : View} {widen : Bool}
  {call : TypedTerm → Env → Outcome Empty Value}

theorem nodup_addrs (s : OrdSet Address) : (s.elems.map Arg.addr).Nodup := s.nodup.map fun _ _ h => Arg.addr.inj h

/-- Every domain enumerates each of its elements once. -/
theorem DomSorted.nodup {ctx : Ctx} {env : Env} {d : Dom} {s : ValueSort} {elems : List Arg} :
    DomSorted cat none ctx d s → enumDom (w.ctx cat view none) call env d = .ok elems → elems.Nodup
  | .read (r := r) hk, henum => by
    obtain ⟨e, he, -⟩ := get_of_guarded hk
    have hc := TypeCatalog.coverageClass_of_get he
    rw [enumDom, TypeRef.key, Outcome.pure_eq, Outcome.ok_bind] at henum
    cases r with
    | members =>
      obtain ⟨s, -, henum⟩ := Outcome.bind_eq_ok_iff.1 henum
      cases henum
      exact nodup_addrs s
    | active | audit =>
      obtain ⟨ts, hts, henum⟩ := Outcome.bind_eq_ok_iff.1 henum
      cases henum
      rw [CoordinationWorld.ctx_links, CoordinationWorld.ctx_catalog, GuestLinks.observe_eq hc, Outcome.ok.injEq] at hts
      subst hts
      exact (slice_nodup.filter _).map fun _ _ h => Arg.tuple.inj h
  | .linkDom, henum => by
    obtain ⟨s, -, henum⟩ := Outcome.bind_eq_ok_iff.1 henum
    cases henum
    exact nodup_addrs s
  | .filter hd _, henum => by
    obtain ⟨all, hall, henum⟩ := Outcome.bind_eq_ok_iff.1 henum
    exact (hd.nodup hall).sublist (Outcome.keepM_sublist henum)
  | .setTerm _, henum => by
    obtain ⟨v, -, henum⟩ := Outcome.bind_eq_ok_iff.1 henum
    obtain ⟨s, -, henum⟩ := Outcome.bind_eq_ok_iff.1 henum
    cases henum
    exact nodup_addrs s

variable (call) in
theorem threshold_eval {az : Analyzer} {t : Term} (h : az.admissibleThreshold t = true) (cx cx' : EvalCtx) (env : Env) :
    evalTerm cx call env t = evalTerm cx' call env t := by
  cases t with
  | var | lit => rfl
  | members | tuple | inCoverage | unary | binary | connective | quantified | letIn | ifSome | aggregate | bigUnion
    | ref => cases h

variable (call) in
theorem evalTerm_const (hl : Later w w') {t : Term} {a : Analysis} (ha : analyzeTerm ⟨cat, view, widen⟩ t = .ok a)
    (hc : a.fp.isStepConstant = true) (env : Env) :
    evalTerm (w.ctx cat view none) call env t = evalTerm (w'.ctx cat view none) call env t :=
  evalTerm_congr hl.sound hl.sound' t env ha (Footprint.agrees_of_isStepConstant hc)

variable (call) in
theorem enumDom_const (hl : Later w w') {d : Dom} {a : DomAnalysis} (ha : analyzeDom ⟨cat, view, widen⟩ d = .ok a)
    (hc : a.fp.isStepConstant = true) (env : Env) :
    enumDom (w.ctx cat view none) call env d = enumDom (w'.ctx cat view none) call env d :=
  enumDom_congr hl.sound hl.sound' d env ha (Footprint.agrees_of_isStepConstant hc)

theorem Footprint.isStepConstant_union (fp fp' : Footprint) :
    (fp.union fp').isStepConstant = true ↔ fp.isStepConstant = true ∧ fp'.isStepConstant = true := by
  simp only [isStepConstant, union, Bool.and_eq_true, List.isEmpty_iff, List.append_eq_nil_iff, Bool.not_eq_true',
    Bool.or_eq_false_iff]
  tauto

theorem Connective.analyze_fp (op : Connective) (ax ay : Analysis) : (op.analyze ax ay).fp = ax.fp.union ay.fp := by
  cases op <;> rfl

theorem callReturns_none {refs : List Address} : CallReturns none call refs := by
  intro a _ ds r hds
  cases hds

/-- An option read the same at both worlds, with its two continuations. -/
theorem ifSome_keeps {r : Bool} {x x' e e' : Outcome Empty Value} {s n : ValueSort} {t t' : Value → Outcome Empty Value}
    (hx : x = x') (hsort : x'.Returns fun v => v.HasSort s) (hn : narrowed s = .ok n)
    (ht : ∀ v : Value, v.HasSort n → Outcome.Keeps (.bool r) (t v) (t' v)) (he : Outcome.Keeps (.bool r) e e') :
    Outcome.Keeps (.bool r)
      (x >>= fun v => match v with
        | .optAddr (some a) => t (.addr a)
        | .optNat (some n) => t (.nat n)
        | .optAddr none | .optNat none => e
        | _ => .fault)
      (x' >>= fun v => match v with
        | .optAddr (some a) => t' (.addr a)
        | .optNat (some n) => t' (.nat n)
        | .optAddr none | .optNat none => e'
        | _ => .fault) := by
  subst hx
  refine .bind fun v hv => ?_
  obtain ⟨hsort, -⟩ := hsort.of_ok hv
  subst hsort
  cases v with
  | optAddr o =>
    cases hn
    cases o with
    | none => exact he
    | some a => exact ht _ (.addr a)
  | optNat o =>
    cases hn
    cases o with
    | none => exact he
    | some n => exact ht _ (.nat n)
  | bool | addr | addrSet | addrSeq | map | nat | tuple => cases hn

mutual

/-- **What the analysis reports of a term is so at every later world.** -/
theorem TermSorted.stable (hl : Later w w') {ctx : Ctx} {t : Term} {s : ValueSort} :
    TermSorted cat none ctx t s → ∀ {env : Env}, env.Fits ctx → ∀ {a : Analysis},
      analyzeTerm ⟨cat, view, widen⟩ t = .ok a →
        Stable a (evalTerm (w.ctx cat view none) call env t) (evalTerm (w'.ctx cat view none) call env t)
  | .var _, _, _, _, ha => by
    cases ha
    exact stable_stepConstant fun _ => rfl
  | .lit, _, _, _, ha => by
    cases ha
    exact stable_stepConstant fun _ => rfl
  | .members hk, _, _, _, ha => by
    obtain ⟨e, he, -⟩ := get_of_guarded hk
    rw [analyzeTerm, TypeRef.key, Outcome.pure_eq, Outcome.ok_bind] at ha
    obtain ⟨slice, -, ha⟩ := Outcome.bind_eq_ok_iff.1 ha
    cases ha
    refine ⟨fun hst => ?_, fun hsf => ?_, fun hgrow => ?_⟩
    · cases hst
    · cases hsf
    · obtain rfl := beq_iff_eq.1 hgrow
      intro out hout
      rw [evalTerm, TypeRef.key, Outcome.pure_eq, Outcome.ok_bind] at hout ⊢
      obtain ⟨s, hs, hout⟩ := Outcome.bind_eq_ok_iff.1 hout
      cases hout
      obtain ⟨s', hs', hsub⟩ := membersAt_audit_grown hl ⟨e, he⟩ hs
      exact ⟨s', by rw [hs']; rfl, hsub⟩
  | .tuple _, _, _, _, ha => by
    cases ha
    exact stable_stepConstant fun _ => rfl
  | .inCoverage he hv, env, _, _, ha => by
    have hconst := fun hc => evalTerm_const call hl ha hc env
    rw [analyzeTerm] at ha
    obtain ⟨ae, -, ha⟩ := Outcome.bind_eq_ok_iff.1 ha
    cases ha
    exact stable_stepConstant hconst
  | .unary hop he _, env, henv, _, ha => by
    have hconst := fun hc => evalTerm_const call hl ha hc env
    rw [analyzeTerm] at ha
    obtain ⟨ae, hae, ha⟩ := Outcome.bind_eq_ok_iff.1 ha
    exact unary_stable hl hop ha (fun hc => evalTerm_const call hl hae hc env) (he.stable hl henv hae) hconst
  | @TermSorted.binary _ _ _ op x y hop hx hy, env, henv, a, ha => by
    have hconst := fun hc => evalTerm_const call hl ha hc env
    by_cases hle : op = .natLe
    · subst hle
      obtain ⟨ax, ay, hax, hay, -, hst, hsf, hgrow⟩ := analyzeTerm_natLe ha
      refine ⟨fun h => ?_, fun h => ?_, fun h => .of_eq (hconst (hgrow h))⟩
      · rcases hst h with hc | ⟨d, ad, rfl, had, hgrowing, hthreshold⟩
        · exact .of_eq (hconst hc)
        · have hx' := threshold_eval call hthreshold (w.ctx cat view none) (w'.ctx cat view none) env
          cases hy with
          | aggregate hd _ =>
            rw [evalTerm, evalTerm, hx']
            exact (natLe_keeps ((hd.grown hl henv had).grown hgrowing) fun _ hl => hd.nodup hl).1
      · rcases hsf h with hc | ⟨d, ad, rfl, had, hgrowing, hthreshold⟩
        · exact .of_eq (hconst hc)
        · have hy' := threshold_eval call hthreshold (w.ctx cat view none) (w'.ctx cat view none) env
          cases hx with
          | aggregate hd _ =>
            rw [evalTerm, evalTerm, hy']
            exact (natLe_keeps ((hd.grown hl henv had).grown hgrowing) fun _ hl => hd.nodup hl).2
    · rw [analyzeTerm_binary hle] at ha
      obtain ⟨ax, hax, ha⟩ := Outcome.bind_eq_ok_iff.1 ha
      obtain ⟨ay, hay, ha⟩ := Outcome.bind_eq_ok_iff.1 ha
      exact binary_stable ha (fun hc => evalTerm_const call hl hax hc env) (hy.stable hl henv hay) hconst
  | .connective hx hy, env, henv, _, ha => by
    have hconst := fun hc => evalTerm_const call hl ha hc env
    rw [analyzeTerm] at ha
    obtain ⟨ax, hax, ha⟩ := Outcome.bind_eq_ok_iff.1 ha
    obtain ⟨ay, hay, ha⟩ := Outcome.bind_eq_ok_iff.1 ha
    cases ha
    exact connective_stable _ (hx.stable hl henv hax) (hy.stable hl henv hay)
      (hx.returns hl.sound' hl.denotes' callReturns_none henv) fun hc => hconst ((Connective.analyze_fp _ ax ay).symm ▸ hc)
  | .quantified hd hb, env, henv, _, ha => by
    have hconst := fun hc => evalTerm_const call hl ha hc env
    rw [analyzeTerm] at ha
    obtain ⟨ad, had, ha⟩ := Outcome.bind_eq_ok_iff.1 ha
    obtain ⟨ab, hab, ha⟩ := Outcome.bind_eq_ok_iff.1 ha
    cases ha
    refine (hd.grown hl henv had).quantified ⟨fun v hv => hb.stable hl (henv.bind hv) hab, fun v hv => ?_, fun hc => ?_⟩ _
      fun hc => hconst ?_
    · exact hb.returns hl.sound' hl.denotes' callReturns_none (henv.bind hv)
    · exact funext fun v => evalTerm_const call hl hab hc _
    · rwa [Quantifier.analyze_fp]
  | .letIn hbound hb, env, henv, _, ha => by
    have hconst := fun hc => evalTerm_const call hl ha hc env
    rw [analyzeTerm] at ha
    obtain ⟨abound, habound, ha⟩ := Outcome.bind_eq_ok_iff.1 ha
    obtain ⟨ab, hab, ha⟩ := Outcome.bind_eq_ok_iff.1 ha
    cases ha
    have hreturns : (evalTerm (w'.ctx cat view none) call env _).Returns fun v => v.HasSort _ :=
      hbound.returns hl.sound' hl.denotes' callReturns_none henv
    have hbody := fun v hv => hb.stable hl (henv.bind (x := v) (hreturns.of_ok hv)) hab
    rw [evalTerm, evalTerm]
    refine ⟨fun h => ?_, fun h => ?_, fun h => ?_⟩
    · obtain ⟨hc, h⟩ := Bool.and_eq_true _ _ ▸ h
      rw [evalTerm_const call hl habound hc env]
      exact .bind fun v hv => (hbody v hv).st h
    · obtain ⟨hc, h⟩ := Bool.and_eq_true _ _ ▸ h
      rw [evalTerm_const call hl habound hc env]
      exact .bind fun v hv => (hbody v hv).sf h
    · obtain ⟨hc, h⟩ := Bool.and_eq_true _ _ ▸ h
      rw [evalTerm_const call hl habound hc env]
      exact .bind fun v hv => (hbody v hv).growOnly h
  | .ifSome hopt hn hthen helse, env, henv, _, ha => by
    have hconst := fun hc => evalTerm_const call hl ha hc env
    rw [analyzeTerm] at ha
    obtain ⟨aopt, haopt, ha⟩ := Outcome.bind_eq_ok_iff.1 ha
    obtain ⟨athen, hathen, ha⟩ := Outcome.bind_eq_ok_iff.1 ha
    obtain ⟨aelse, haelse, ha⟩ := Outcome.bind_eq_ok_iff.1 ha
    cases ha
    have hreturns : (evalTerm (w'.ctx cat view none) call env _).Returns fun v => v.HasSort _ :=
      hopt.returns hl.sound' hl.denotes' callReturns_none henv
    have hthen' := fun v hv => hthen.stable hl (henv.bind (x := v) hv) hathen
    have helse' := helse.stable hl henv haelse
    refine ⟨fun h => ?_, fun h => ?_, fun h => .of_eq (hconst h)⟩
    · simp only [Bool.and_eq_true] at h
      obtain ⟨⟨hc, ht⟩, he⟩ := h
      exact ifSome_keeps (evalTerm_const call hl haopt hc env) hreturns hn (fun v hv => (hthen' v hv).st ht) (helse'.st he)
    · simp only [Bool.and_eq_true] at h
      obtain ⟨⟨hc, ht⟩, he⟩ := h
      exact ifSome_keeps (evalTerm_const call hl haopt hc env) hreturns hn (fun v hv => (hthen' v hv).sf ht) (helse'.sf he)
  | .aggregate hd hwants, env, henv, _, ha => by
    rw [analyzeTerm] at ha
    obtain ⟨ad, had, ha⟩ := Outcome.bind_eq_ok_iff.1 ha
    cases ha
    exact Aggregate.stable _ hwants (hd.grown hl henv had)
  | .bigUnion hd hb, env, henv, _, ha => by
    have hconst := fun hc => evalTerm_const call hl ha hc env
    rw [analyzeTerm] at ha
    obtain ⟨ad, had, ha⟩ := Outcome.bind_eq_ok_iff.1 ha
    obtain ⟨ab, hab, ha⟩ := Outcome.bind_eq_ok_iff.1 ha
    cases ha
    refine (hd.grown hl henv had).bigUnion ⟨fun v hv => hb.stable hl (henv.bind hv) hab, fun v hv => ?_, fun hc => ?_⟩
      ⟨id, id, fun h => (Bool.or_eq_true _ _ ▸ h).imp_right fun h => Bool.and_eq_true _ _ ▸ h⟩ hconst
    · exact hb.returns hl.sound' hl.denotes' callReturns_none (henv.bind hv)
    · exact funext fun v => evalTerm_const call hl hab hc _

/-- **What the analysis reports of a domain is so at every later world.** -/
theorem DomSorted.grown (hlater : Later w w') {ctx : Ctx} {d : Dom} {s : ValueSort} :
    DomSorted cat none ctx d s → ∀ {env : Env}, env.Fits ctx → ∀ {a : DomAnalysis},
      analyzeDom ⟨cat, view, widen⟩ d = .ok a →
        DomGrown s a (enumDom (w.ctx cat view none) call env d) (enumDom (w'.ctx cat view none) call env d)
  | .read (r := r) hk, env, henv, a, ha => by
    have hconst := fun hc => enumDom_const call hlater ha hc env
    refine ⟨fun hgrow => ?_, (DomSorted.read hk).returns hlater.sound' hlater.denotes' callReturns_none henv, hconst⟩
    obtain ⟨e, he, -⟩ := get_of_guarded hk
    rw [analyzeDom, TypeRef.key, Outcome.pure_eq, Outcome.ok_bind] at ha
    intro l hl
    rw [enumDom, TypeRef.key, Outcome.pure_eq, Outcome.ok_bind] at hl ⊢
    cases r with
    | members =>
      obtain ⟨slice, -, ha⟩ := Outcome.bind_eq_ok_iff.1 ha
      cases ha
      obtain rfl := beq_iff_eq.1 hgrow
      obtain ⟨s, hs, hl⟩ := Outcome.bind_eq_ok_iff.1 hl
      cases hl
      obtain ⟨s', hs', hsub⟩ := membersAt_audit_grown hlater ⟨e, he⟩ hs
      exact ⟨_, by rw [DomRead.enum, hs']; rfl, List.map_subset _ hsub⟩
    | active =>
      obtain ⟨slice, -, ha⟩ := Outcome.bind_eq_ok_iff.1 ha
      cases ha
      cases hgrow
    | audit =>
      obtain ⟨ts, hts, hl⟩ := Outcome.bind_eq_ok_iff.1 hl
      cases hl
      have hc := TypeCatalog.coverageClass_of_get he
      rw [CoordinationWorld.ctx_links, CoordinationWorld.ctx_catalog, GuestLinks.observe_eq hc, Outcome.ok.injEq] at hts
      subst hts
      refine ⟨_, ?_, List.map_subset _ (List.filter_subset _ (slice_grows hlater.grows hlater.sound))⟩
      rw [DomRead.enum, CoordinationWorld.ctx_links, CoordinationWorld.ctx_catalog, GuestLinks.observe_eq hc]
      rfl
  | .linkDom, env, henv, _, ha => by
    have hconst := fun hc => enumDom_const call hlater ha hc env
    refine ⟨fun _ => ?_, DomSorted.linkDom.returns hlater.sound' hlater.denotes' callReturns_none henv, hconst⟩
    obtain ⟨s, s', hs, hs', hsub⟩ := @linkDom_grown w w' cat hlater view
    rw [enumDom, enumDom, hs, hs']
    rintro _ ⟨⟩
    exact ⟨_, rfl, List.map_subset _ hsub⟩
  | .filter hd hp, env, henv, _, ha => by
    have hconst := fun hc => enumDom_const call hlater ha hc env
    rw [analyzeDom] at ha
    obtain ⟨ad, had, ha⟩ := Outcome.bind_eq_ok_iff.1 ha
    obtain ⟨ap, hap, ha⟩ := Outcome.bind_eq_ok_iff.1 ha
    cases ha
    refine (hd.grown hlater henv had).filter ⟨fun v hv => hp.stable hlater (henv.bind hv) hap, fun v hv => ?_, fun hc => ?_⟩
      (fun h => ?_) hconst
    · exact hp.returns hlater.sound' hlater.denotes' callReturns_none (henv.bind hv)
    · exact funext fun v => evalTerm_const call hlater hap hc _
    · rw [Footprint.isStepConstant_union]
      simpa only [Bool.or_eq_true, Bool.and_eq_true] using h
  | .setTerm ht, env, henv, _, ha => by
    rw [analyzeDom] at ha
    obtain ⟨aset, haset, ha⟩ := Outcome.bind_eq_ok_iff.1 ha
    cases ha
    exact .setTerm (ht.stable hlater henv haset) (ht.returns hlater.sound' hlater.denotes' callReturns_none henv)
      fun hc => evalTerm_const call hlater haset hc env

end

end

-- What is classified or certified

/-- A run of steps between worlds whose links denote addresses. -/
theorem Later.of_run {reg : TypeRegistry} {w w' : CoordinationWorld}
    (hrun : Relation.ReflTransGen (CoordinationWorld.Step reg) w w') (hs : w.Sound) (hd : w.links.DenotesAddresses)
    (hd' : w'.links.DenotesAddresses) : Later w w' := by
  obtain ⟨hgrows, hs'⟩ := CoordinationWorld.Grows.of_run hrun hs
  exact ⟨hgrows, hs, hs', hd, hd'⟩

section

variable {cat : TypeCatalog} {ds : DefSource}

/-- An accepted domain without references has a sort over no definitions. -/
theorem CheckedClosed.sorted {cd : CheckedDom} (h : CheckedClosed cat ds cd) (hfree : cd.refFree = true) :
    DomSorted cat none Ctx.empty cd.dom cd.elem := by
  obtain ⟨rfl, hans, h⟩ := h
  obtain ⟨⟨checked, s'⟩, hcheck, hout⟩ := Outcome.bind_eq_ok_iff.1 h
  cases hout
  have hacc := (check_sound (maxDepth + 1)).2 _ _ _ _ _ _ hans hcheck
  exact hacc.judged.sorted.refFree (hacc.refFree.1 hfree)

theorem fits_empty : Env.empty.Fits Ctx.empty := by
  intro v s h
  cases h

/-- The flags that a reported point of the lattice stands for. -/
theorem stabilityOf_st {st sf : Bool} (h : stabilityOf st sf = .stSf ∨ stabilityOf st sf = .stOnly) : st = true := by
  cases st <;> cases sf <;> simp_all [stabilityOf]

theorem stabilityOf_sf {st sf : Bool} (h : stabilityOf st sf = .stSf ∨ stabilityOf st sf = .sfOnly) : sf = true := by
  cases st <;> cases sf <;> simp_all [stabilityOf]

end

namespace Coordinator

variable {co : Coordinator} {w w' : CoordinationWorld} {tt : TypedTerm} {args : List Value} {view : View}

/-- A term without references is read in one environment at every world. -/
theorem eval_spec {x : Value} (hargs : ∀ x ∈ args, x.DenotesAddresses) (h : co.eval w tt args view = .ok x) :
    tt.refFree = true ∧ ∃ env, env.Fits (Ctx.ofList tt.params) ∧ ∀ w, co.eval w tt args view =
      evalTerm (w.ctx co.catalog view none) (fun _ _ => .fault) env tt.evaluable := by
  obtain ⟨_, hfree, h⟩ := Outcome.bind_eq_ok_iff.1 h
  obtain ⟨env, hbind, -⟩ := Outcome.bind_eq_ok_iff.1 h
  rw [Outcome.require_eq_ok_iff] at hfree
  rw [Outcome.expectSome_eq_ok_iff] at hbind
  refine ⟨hfree, env, bindArgs_fits hbind hargs, fun w => ?_⟩
  rw [eval, hbind, Outcome.require, if_pos hfree]
  rfl

/-- What is analyzed of a term without references is so of its values. -/
theorem eval_stable (hl : Later w w') (h : Checked co.catalog co.defs tt) (hargs : ∀ x ∈ args, x.DenotesAddresses)
    {widen : Bool} {a : Analysis} (ha : analyzeTerm ⟨co.catalog, view, widen⟩ tt.evaluable = .ok a) :
    Stable a (co.eval w tt args view) (co.eval w' tt args view) := by
  have hstable : ∀ {x : Value}, co.eval w tt args view = .ok x →
      Stable a (co.eval w tt args view) (co.eval w' tt args view) := by
    intro x hx
    obtain ⟨hfree, env, henv, hread⟩ := eval_spec hargs hx
    rw [hread, hread]
    exact (h.def.judged.sorted.refFree (h.def.refFree.1 hfree)).stable hl henv ha
  exact ⟨fun hst hx => (hstable hx).st hst hx, fun hsf hx => (hstable hx).sf hsf hx,
    fun hgrow s hx => (hstable hx).growOnly hgrow s hx⟩

theorem decide_keeps {b : Bool} (h : Outcome.Keeps (.bool b) (co.eval w tt args view) (co.eval w' tt args view)) :
    Outcome.Keeps b (co.decide w tt args view) (co.decide w' tt args view) :=
  .bind fun _ _ => keeps_asBool h

/-- A certified definition that was true is true at every view of a later world. -/
theorem certified_keeps (hl : Later w w') (h : Checked co.catalog co.defs tt) {flat : Term}
    (hflat : expand co.defs tt.evaluable = .ok flat) (hview : viewIndependent flat = .ok true)
    (hst : stPlus co.catalog flat = .ok true) {env : Env} (henv : env.Fits (Ctx.ofList tt.params)) {depth : ℕ}
    (hdepth : tt.reach ≤ depth) (view view' : View) :
    Outcome.Keeps (.bool true) (evalAt (co.evalCtx w view (some co.defs)) depth env tt.evaluable)
      (evalAt (co.evalCtx w' view' (some co.defs)) depth env tt.evaluable) := by
  have hread : ∀ (w : CoordinationWorld) (view : View), evalAt (co.evalCtx w view (some co.defs)) depth env tt.evaluable =
      evalTerm (w.ctx co.catalog .audit none) (fun _ _ => .fault) env flat := by
    intro w view
    have hsame : evalTerm (w.ctx co.catalog view none) (fun _ _ => .fault) env flat =
        evalTerm (w.ctx co.catalog .audit none) (fun _ _ => .fault) env flat :=
      evalTerm_view (w.ctx co.catalog view none) view .audit (fun _ _ => .fault) (fun _ _ => .fault) flat hview env
    exact ((h.expand_exact hflat (co.evalCtx w view none)).2.2 none (fun _ _ => .fault) depth env hdepth).symm.trans hsame
  obtain ⟨a, ha, hst⟩ := Outcome.bind_eq_ok_iff.1 hst
  rw [hread, hread]
  exact ((h.expand_sorted hflat).stable hl henv ha).st (Outcome.ok.inj hst)

/-- A rule's domain that is judged grow-only keeps its arguments. -/
theorem enumRuleDom_grown (hl : Later w w') {rule : CheckedRule} (h : rule.Accepted co.catalog co.defs)
    {a : DomAnalysis} (ha : analyzeDom ⟨co.catalog, rule.view, false⟩ rule.domain.dom = .ok a)
    (hgrow : a.growOnly = true) : Outcome.Grown (co.enumRuleDom w rule) (co.enumRuleDom w' rule) :=
  ((h.domain.sorted h.domainRefFree).grown hl fits_empty ha).grown hgrow

/-- **Stability certificates are sound.** Over every run of committed steps: a verdict classified
true-stable stays true, one classified false-stable stays false, a set judged grow-only keeps its
elements; a certified definition that was true at a view is true at every view; and a rule's domain
judged grow-only keeps its arguments. -/
theorem classified_stable (co : Coordinator) {w w' : CoordinationWorld}
    (hrun : Relation.ReflTransGen (CoordinationWorld.Step co.catalog.registry) w w') (hs : w.Sound)
    (hd : w.links.DenotesAddresses) (hd' : w'.links.DenotesAddresses) :
    (∀ tt args view, Checked co.catalog co.defs tt → (∀ x ∈ args, x.DenotesAddresses) →
      (∀ dynamics, classifyTerm co.catalog view tt.evaluable = .ok dynamics →
        (dynamics.stability = .stSf ∨ dynamics.stability = .stOnly →
          co.decide w tt args view = .ok true → co.decide w' tt args view = .ok true) ∧
        (dynamics.stability = .stSf ∨ dynamics.stability = .sfOnly →
          co.decide w tt args view = .ok false → co.decide w' tt args view = .ok false)) ∧
      ∀ a s, analyzeTerm ⟨co.catalog, view, false⟩ tt.evaluable = .ok a → a.growOnly = true →
        co.eval w tt args view = .ok (.addrSet s) → ∃ s', co.eval w' tt args view = .ok (.addrSet s') ∧ s ⊆ s') ∧
    (∀ tt flat args env depth view view', Checked co.catalog co.defs tt → expand co.defs tt.evaluable = .ok flat →
      viewIndependent flat = .ok true → stPlus co.catalog flat = .ok true → bindArgs tt.params args = some env →
        (∀ x ∈ args, x.DenotesAddresses) → tt.reach ≤ depth →
          evalAt (co.evalCtx w view (some co.defs)) depth env tt.evaluable = .ok (.bool true) →
            evalAt (co.evalCtx w' view' (some co.defs)) depth env tt.evaluable = .ok (.bool true)) ∧
    ∀ rule a, rule.Accepted co.catalog co.defs → analyzeDom ⟨co.catalog, rule.view, false⟩ rule.domain.dom = .ok a →
      a.growOnly = true → ∀ elems, co.enumRuleDom w rule = .ok elems →
        ∃ elems', co.enumRuleDom w' rule = .ok elems' ∧ elems ⊆ elems' := by
  have hl := Later.of_run hrun hs hd hd'
  refine ⟨fun tt args view h hargs => ⟨fun dynamics hdynamics => ?_, fun a s ha hgrow => ?_⟩,
    fun tt flat args env depth view view' h hflat hview hst hbind hargs hdepth => ?_,
    fun rule a hrule ha hgrow => enumRuleDom_grown hl hrule ha hgrow⟩
  · obtain ⟨a, ha, hdynamics⟩ := Outcome.bind_eq_ok_iff.1 hdynamics
    obtain ⟨independent, -, hdynamics⟩ := Outcome.bind_eq_ok_iff.1 hdynamics
    cases hdynamics
    exact ⟨fun hpoint => decide_keeps ((eval_stable hl h hargs ha).st (stabilityOf_st hpoint)),
      fun hpoint => decide_keeps ((eval_stable hl h hargs ha).sf (stabilityOf_sf hpoint))⟩
  · exact (eval_stable hl h hargs ha).growOnly hgrow s
  · exact certified_keeps hl h hflat hview hst (bindArgs_fits hbind hargs) hdepth view view'

end Coordinator

private def certificateClass : TypeKey := TypeRegistry.build.reservedType .predStable

private theorem isCertified_params : ∀ p ∈ [((⟨0⟩ : VarId), ValueSort.addr)], p.1.IsSubmitted := by
  simp [VarId.IsSubmitted, expansionNameBase]

/-- Whether an address holds a stability certificate. -/
private def isCertified : TypedTerm :=
  ⟨⟨[(⟨0⟩, .addr)], .unary (.keyed .isK (.concrete certificateClass)) (.var ⟨0⟩), isCertified_params,
      isCertified_params _ List.mem_cons_self⟩,
    .bool, .unary (.keyed .isK (.concrete certificateClass)) (.var ⟨0⟩), true, 1⟩

private def certifier : Coordinator := ⟨⟨TypeRegistry.build⟩, fun _ => none, [], 0, 0⟩

private def certificateFrom (a : Address) : Link := ⟨enc [a], enc [], certificateClass⟩

/-- A certificate's deposit is a step to a world whose links denote addresses. -/
private theorem step_certificate {w w' : LinkWorld} {guest : Address → Bool} {a home : Address} {d : Deposited}
    (hd : w.links.DenotesAddresses)
    (h : mintAndDeposit TypeRegistry.build w 1 home (certificateFrom a) = .ok (d, w')) :
    CoordinationWorld.Step TypeRegistry.build ⟨w, guest⟩ ⟨w', guest⟩ ∧ w'.links.DenotesAddresses := by
  simp only [mintAndDeposit, Outcome.bind_eq_ok_iff, Outcome.mapErr_eq_ok_iff, Outcome.expect_eq_ok_iff, Outcome.pure_eq,
    Outcome.ok.injEq, Prod.mk.injEq, Prod.exists] at h
  obtain ⟨addr, r, hmint, m3, hm3, links, hlinks, -, rfl⟩ := h
  refine ⟨⟨.deposit hmint hm3 hlinks, fun _ _ => rfl⟩, fun b l hb t ht => ?_⟩
  rw [LinkState.readlink_deposit hlinks] at hb
  split at hb
  · cases hb
    simp only [certificateFrom, addrs_enc, List.map_cons, List.map_nil, List.append_nil, List.mem_singleton] at ht
    exact ⟨a, ht.symm⟩
  · exact hd b l hb t ht

/-- A certified address is certified after the next deposit. -/
theorem classified_stable_certificate : ∃ d w d' w',
    mintAndDeposit TypeRegistry.build LinkWorld.genesis 1 headDocument (certificateFrom headDocument) = .ok (d, w) ∧
    mintAndDeposit TypeRegistry.build w 1 ghostHomeDocument (certificateFrom ghostHomeDocument) = .ok (d', w') ∧
    certifier.decide ⟨w, fun _ => true⟩ isCertified [.addr headDocument] .audit = .ok true ∧
    certifier.decide ⟨w', fun _ => true⟩ isCertified [.addr headDocument] .audit = .ok true := by
  have hok : ((mintAndDeposit TypeRegistry.build LinkWorld.genesis 1 headDocument (certificateFrom headDocument)) >>=
      fun p => (mintAndDeposit TypeRegistry.build p.2 1 ghostHomeDocument (certificateFrom ghostHomeDocument)) >>= fun _ =>
        (certifier.decide ⟨p.2, fun _ => true⟩ isCertified [.addr headDocument] .audit).expect >>= fun b =>
          (Outcome.require (b = true) : Outcome EmitCoreError Unit)).isOk = true := by decide +kernel
  obtain ⟨u, hok⟩ := Outcome.isOk_iff.1 hok
  obtain ⟨⟨d, w⟩, hfirst, hok⟩ := Outcome.bind_eq_ok_iff.1 hok
  obtain ⟨⟨d', w'⟩, hnext, hok⟩ := Outcome.bind_eq_ok_iff.1 hok
  obtain ⟨b, hread, hb⟩ := Outcome.bind_eq_ok_iff.1 hok
  obtain rfl := Outcome.require_eq_ok_iff.1 hb
  rw [Outcome.expect_eq_ok_iff] at hread
  have hempty : LinkWorld.genesis.links.DenotesAddresses := fun a l ha => by cases ha
  obtain ⟨hstep, hd⟩ := @step_certificate _ _ (fun _ => true) _ _ _ hempty hfirst
  obtain ⟨hstep', hd'⟩ := @step_certificate _ _ (fun _ => true) _ _ _ hd hnext
  have hchecked : Checked certifier.catalog certifier.defs isCertified := by
    refine @Checked.intro _ _ ⟨certifier.catalog, fun _ _ => .error .undefined⟩ isCertified.signed 0 _ rfl
      (fun _ ha => ?_) (fun _ ha => ?_) rfl
    · cases ha
    · cases ha
  have hargs : ∀ x ∈ [Value.addr headDocument], x.DenotesAddresses := List.forall_mem_singleton.2 trivial
  obtain ⟨hverdicts, -⟩ := certifier.classified_stable (.single hstep') (hstep.link.sound LinkWorld.sound_genesis) hd hd'
  obtain ⟨hstable, -⟩ := (hverdicts isCertified [.addr headDocument] .audit hchecked hargs).1 _ rfl
  exact ⟨d, w, d', w', hfirst, hnext, hread, hstable (.inr rfl) hread⟩

end Coordination
