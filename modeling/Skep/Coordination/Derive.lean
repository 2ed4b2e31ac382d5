import Skep.Coordination.Expand

/-!
# Derivations on a cold memo and on a warm one

A reference asks for its referent at the level a derivation of it starts at. The memo
answers a referent it holds at any level; a miss checks the referent's own content there,
and so on down. Whatever the memo holds, the referring term gets one answer: a derivation
that does not fit where it starts is of a referent whose reach the reference is charged
for.

## Main results

- `checkSigned_shift` — a check at a deeper level answers the same, or is too deep
- `checkSigned_memo` — a check answers the same on every memo
- `depth_bounds` — no walk over an admitted definition goes past its reach
-/

namespace Coordination

inductive ParseFail where
  | notResident
  | malformed
  deriving DecidableEq, Repr

/-- What the world holds of definitions: which starts were ever registered, and the tree that
the run at a start spells. -/
structure DefContent where
  everPred : Address → Bool
  stored : Address → Except ParseFail SignedTerm

/-- The definition at a start. The decoder takes no former nested past `maxDepth`. -/
def DefContent.parseDef (content : DefContent) (start : Address) : Except ParseFail SignedTerm :=
  match content.stored start with
  | .error e => .error e
  | .ok signed => if maxDepth < signed.body.nesting then .error .malformed else .ok signed

inductive DefStatus where
  | defined (tt : TypedTerm)
  | undisciplined
  | neverRegistered

/-- A derivation did not complete at its level. -/
inductive DerivedTooDeep where
  | mk

/-- What the memo holds: a definition, or a breach. -/
abbrev Memo := Address → Option (Option TypedTerm)

section

variable (cat : TypeCatalog) (content : DefContent)

/-- The status of a start the memo does not hold, its body's root at the level. -/
def deriveDef (resolve : Resolver) (start : Address) (depth : ℕ) : Except DerivedTooDeep DefStatus :=
  if content.everPred start = false then .ok .neverRegistered
  else match content.parseDef start with
    | .error _ => .ok .undisciplined
    | .ok signed =>
        match checkSigned ⟨cat, resolve⟩ signed depth with
        | .ok tt => .ok (.defined tt)
        | .err .tooDeep => if 0 < depth then .error .mk else .ok .undisciplined
        | .err _ | .fault => .ok .undisciplined

/-- A referent, from the memo or derived over the resolver. -/
def resolveOver (memo : Memo) (resolve : Resolver) : Resolver := fun start depth =>
  let status : Except DerivedTooDeep DefStatus := match memo start with
    | some (some tt) => .ok (.defined tt)
    | some none => .ok .undisciplined
    | none => deriveDef cat content resolve start depth
  match status with
  | .ok (.defined tt) => .ok tt
  | .ok .undisciplined | .ok .neverRegistered => .error .undefined
  | .error _ => .error .tooDeep

/-- The referent at a start, derivations followed `levels` deep past the first. -/
def resolveDefAt (memo : Memo) : ℕ → Resolver
  | 0 => resolveOver cat content memo fun _ _ => .error .tooDeep
  | levels + 1 => resolveOver cat content memo (resolveDefAt memo levels)

/-- Every definition is what its content was admitted as, at level 0 and over definitions that
were admitted before it; and nothing else was ever registered. -/
structure Disciplined (defs : DefSource) : Prop where
  registered : ∀ a, content.everPred a = true ↔ (defs a).isSome = true
  parsed : ∀ a tt, defs a = some tt → content.parseDef a = .ok tt.signed
  admitted : ∀ a tt, defs a = some tt → ∃ resolve : Resolver,
    (∀ b level r, resolve b level = .ok r → defs b = some r ∧ Checked cat defs r) ∧
      checkSigned ⟨cat, resolve⟩ tt.signed 0 = .ok tt

/-- What a resolver may answer at an address and a level, the memo holding any of the
definitions at each consultation. A check consults deeper than where it is rooted, and not at
all past the bound. -/
inductive Answers (defs : DefSource) : Address → ℕ → Except Unresolved TypedTerm → Prop
  | intro {a : Address} {level : ℕ} {memo : Memo} {resolve : Resolver}
      (hmemo : ∀ b entry, memo b = some entry → ∃ tt, entry = some tt ∧ defs b = some tt)
      (hresolve : level ≤ maxDepth → ∀ b l, level < l → Answers defs b l (resolve b l)) :
      Answers defs a level (resolveOver cat content memo resolve a level)

end

/-- The second state is the first one's with its levels `k` deeper. -/
def Deeper (k : ℕ) (s₁ s₂ : CheckState) : Prop := s₂.nodes = s₁.nodes ∧ max s₂.deepest k = s₁.deepest + k

/-- Where the first computation succeeds, the second does `k` levels deeper, or is too deep. -/
def Shifts {α : Type} (k : ℕ) (m₁ m₂ : CheckM α) : Prop :=
  ∀ s₁ a s₁', m₁.run s₁ = .ok (a, s₁') → s₁.deepest ≤ s₁'.deepest ∧ ∀ s₂, Deeper k s₁ s₂ →
    (∃ s₂', m₂.run s₂ = .ok (a, s₂') ∧ Deeper k s₁' s₂') ∨
      (m₂.run s₂ = .err .tooDeep ∧ maxDepth < s₁'.deepest + k)

namespace Shifts

variable {α β : Type} {k : ℕ}

theorem pure (a : α) : Shifts k (Pure.pure a) (Pure.pure a) := by
  intro s₁ b s₁' h
  cases h
  exact ⟨le_rfl, fun s₂ hs => .inl ⟨s₂, rfl, hs⟩⟩

theorem bind {m₁ m₂ : CheckM α} {f₁ f₂ : α → CheckM β} (hm : Shifts k m₁ m₂)
    (hf : ∀ a, Shifts k (f₁ a) (f₂ a)) : Shifts k (m₁ >>= f₁) (m₂ >>= f₂) := by
  intro s₁ b s₁' h
  rw [StateT.run_bind, Outcome.bind_eq_ok_iff] at h
  obtain ⟨⟨a, t₁⟩, hfirst, h⟩ := h
  obtain ⟨hle, hshift⟩ := hm s₁ a t₁ hfirst
  obtain ⟨hle', hshift'⟩ := hf a t₁ b s₁' h
  refine ⟨hle.trans hle', fun s₂ hs => ?_⟩
  rw [StateT.run_bind]
  rcases hshift s₂ hs with ⟨t₂, hrun, ht⟩ | ⟨hrun, hdeep⟩
  · rw [hrun]
    exact hshift' t₂ ht
  · rw [hrun]
    exact .inr ⟨rfl, by omega⟩

theorem judge (x : Outcome TypeError α) : Shifts k (Coordination.judge x) (Coordination.judge x) := by
  intro s₁ a s₁' h
  obtain ⟨hx, rfl⟩ := run_judge.1 h
  exact ⟨le_rfl, fun s₂ hs => .inl ⟨s₂, run_judge.2 ⟨hx, rfl⟩, hs⟩⟩

theorem reachTo (level : ℕ) : Shifts k (Coordination.reachTo level) (Coordination.reachTo (level + k)) := by
  intro s₁ a s₁' h
  obtain ⟨-, rfl⟩ := run_reachTo.1 h
  refine ⟨le_max_left _ _, fun s₂ hs => ?_⟩
  by_cases hle : level + k ≤ maxDepth
  · refine .inl ⟨_, run_reachTo.2 ⟨hle, rfl⟩, hs.1, ?_⟩
    have hdeep := hs.2
    dsimp only
    omega
  · refine .inr ⟨if_pos (not_le.1 hle), ?_⟩
    have hlevel : level ≤ max s₁.deepest level := le_max_right _ _
    dsimp only
    omega

theorem enter (units depth : ℕ) :
    Shifts k (Coordination.enter units depth) (Coordination.enter units (depth + k)) := by
  refine bind (reachTo depth) fun _ => ?_
  intro s₁ a s₁' h
  obtain ⟨hle, rfl⟩ := run_chargeNodes.1 h
  refine ⟨le_rfl, fun s₂ hs => .inl ⟨{ s₂ with nodes := s₂.nodes + units }, ?_, ?_, hs.2⟩⟩
  · exact run_chargeNodes.2 ⟨hs.1 ▸ hle, rfl⟩
  · exact congrArg (· + units) hs.1

theorem instantiate (cvar : VarId) (key : TypeKey) (body : Term) :
    Shifts k (Coordination.instantiate cvar key body) (Coordination.instantiate cvar key body) := by
  intro s₁ t s₁' h
  have hrun : ((substClassVar cvar key body).run { nodes := s₁.nodes }).mapErr
      (fun _ => TypeError.tooLarge) >>= (fun p => Outcome.ok (p.1, { s₁ with nodes := p.2.nodes })) =
        .ok (t, s₁') := h
  obtain ⟨p, hwalk, hout⟩ := Outcome.bind_eq_ok_iff.1 hrun
  cases hout
  refine ⟨le_rfl, fun s₂ hs => .inl ⟨{ s₂ with nodes := p.2.nodes }, ?_, rfl, hs.2⟩⟩
  show ((substClassVar cvar key body).run { nodes := s₂.nodes }).mapErr
      (fun _ => TypeError.tooLarge) >>= (fun p => Outcome.ok (p.1, { s₂ with nodes := p.2.nodes })) = _
  rw [hs.1, hwalk]
  rfl

theorem sub {check₁ check₂ : Term → CheckM CheckedTerm} (h : ∀ t, Shifts k (check₁ t) (check₂ t)) (t : Term)
    (expected : ValueSort) :
    Shifts k (Coordination.sub check₁ t expected) (Coordination.sub check₂ t expected) :=
  bind (h t) fun _ => bind (judge _) fun _ => pure _

theorem referenceArgs {addr : Address} {arity found depth : ℕ}
    {check₁ check₂ : ℕ → Term → CheckM CheckedTerm}
    (h : ∀ level t, Shifts k (check₁ level t) (check₂ (level + k) t)) :
    ∀ (i : ℕ) (sorts : List ValueSort) (args : List Term),
      Shifts k (Coordination.referenceArgs addr arity found depth check₁ i sorts args)
        (Coordination.referenceArgs addr arity found (depth + k) check₂ i sorts args)
  | _, [], [] => pure _
  | i, _ :: sorts, arg :: args => by
    have harg : argumentDepth (depth + k) i = argumentDepth depth i + k := by
      rw [argumentDepth, argumentDepth]
      omega
    rw [Coordination.referenceArgs, Coordination.referenceArgs, harg]
    exact bind (h _ arg) fun _ => bind (judge _) fun _ =>
      bind (referenceArgs h (i + 1) sorts args) fun _ => pure _
  | i, [], arg :: _ => by
    have harg : argumentDepth (depth + k) i = argumentDepth depth i + k := by
      rw [argumentDepth, argumentDepth]
      omega
    rw [Coordination.referenceArgs, Coordination.referenceArgs, harg]
    exact bind (h _ arg) fun _ => judge _
  | _, _ :: _, [] => judge _

theorem instances {check₁ check₂ : Term → CheckM CheckedTerm} (h : ∀ t, Shifts k (check₁ t) (check₂ t))
    (cvar : VarId) (body : Term) : ∀ keys, Shifts k (Coordination.instances check₁ cvar body keys)
      (Coordination.instances check₂ cvar body keys)
  | [] => pure _
  | key :: keys => by
    refine bind (instantiate _ _ _) fun inst => bind ?_ fun _ => bind (instances h cvar body keys) fun _ => pure _
    intro s₁ c s₁' hrun
    obtain ⟨hle, hshift⟩ := sub h inst .bool s₁ c s₁' (Outcome.mapErr_eq_ok_iff.1 hrun)
    refine ⟨hle, fun s₂ hs => ?_⟩
    rcases hshift s₂ hs with ⟨s₂', hrun₂, hs'⟩ | ⟨hrun₂, hdeep⟩
    · exact .inl ⟨s₂', Outcome.mapErr_eq_ok_iff.2 hrun₂, hs'⟩
    · refine .inr ⟨?_, hdeep⟩
      show ((Coordination.sub check₂ inst .bool).run s₂).mapErr TypeError.ofInstance = _
      rw [hrun₂]
      rfl

/-- A reference, met `k` levels deeper, is answered the same or is too deep, and where its
referent is not derived there its charge is past the bound. -/
theorem reference {ch₁ ch₂ : Checker} {addr : Address} {depth arity : ℕ} {f₁ f₂ : TypedTerm → CheckM β}
    (hresolve : ∀ a level r, 0 < level → ch₁.resolve a level = .ok r → ch₂.resolve a (level + k) = .ok r ∨
      (ch₂.resolve a (level + k) = .error .tooDeep ∧ maxDepth < level + k + r.reach))
    (hf : ∀ r, Shifts k (f₁ r) (f₂ r)) :
    Shifts k (do
      let referent ← Coordination.judge (resolveRef ch₁ addr (referentDepth depth))
      Coordination.reachTo (referenceReach depth arity referent.reach)
      f₁ referent) (do
      let referent ← Coordination.judge (resolveRef ch₂ addr (referentDepth (depth + k)))
      Coordination.reachTo (referenceReach (depth + k) arity referent.reach)
      f₂ referent) := by
  intro s₁ b s₁' h
  obtain ⟨⟨referent, t₁⟩, hjudge, hrest⟩ := Outcome.bind_eq_ok_iff.1 h
  obtain ⟨href, rfl⟩ := run_judge.1 hjudge
  have hreach : referenceReach (depth + k) arity referent.reach =
      referenceReach depth arity referent.reach + k := by
    simp only [referenceReach, referentDepth]
    omega
  have hlevel : referentDepth (depth + k) = referentDepth depth + k := Nat.add_right_comm _ _ _
  have hcharge : Shifts k (do
      Coordination.reachTo (referenceReach depth arity referent.reach)
      f₁ referent) (do
      Coordination.reachTo (referenceReach (depth + k) arity referent.reach)
      f₂ referent) := by
    rw [hreach]
    exact bind (reachTo _) fun _ => hf referent
  obtain ⟨hle, hshift⟩ := hcharge s₁ b s₁' hrest
  refine ⟨hle, fun s₂ hs => ?_⟩
  rw [StateT.run_bind]
  rcases hresolve addr (referentDepth depth) referent (Nat.succ_pos _) (resolveRef_eq_ok.1 href) with
    hok | ⟨hdeep, hpast⟩
  · rw [run_judge.2 ⟨resolveRef_eq_ok.2 (hlevel ▸ hok), rfl⟩]
    exact hshift s₂ hs
  · obtain ⟨⟨_, t₂⟩, hrecord, hrest⟩ := Outcome.bind_eq_ok_iff.1 hrest
    obtain ⟨-, rfl⟩ := run_reachTo.1 hrecord
    have hrecorded := (hf referent _ b s₁' hrest).1
    have hcharged : referenceReach depth arity referent.reach ≤ s₁'.deepest :=
      (le_max_right _ _).trans hrecorded
    refine .inr ⟨?_, ?_⟩
    · have hrefused : (Coordination.judge (resolveRef ch₂ addr (referentDepth (depth + k)))).run s₂ =
          .err .tooDeep := by
        show resolveRef ch₂ addr (referentDepth (depth + k)) >>= _ = _
        rw [resolveRef, hlevel, hdeep]
        rfl
      rw [hrefused]
      rfl
    · simp only [referenceReach] at hcharged
      omega

end Shifts

section

variable {cat : TypeCatalog} {r₁ r₂ : Resolver} {k : ℕ}

/-- A check whose resolver answers the same deeper, or is too deep, does so too. -/
theorem check_shifts (hresolve : ∀ a level r, 0 < level → r₁ a level = .ok r →
      r₂ a (level + k) = .ok r ∨ (r₂ a (level + k) = .error .tooDeep ∧ maxDepth < level + k + r.reach))
    (levels : ℕ) :
    (∀ ctx t depth, Shifts k (checkTerm ⟨cat, r₁⟩ levels ctx t depth)
      (checkTerm ⟨cat, r₂⟩ levels ctx t (depth + k))) ∧
    ∀ ctx d depth, Shifts k (checkDom ⟨cat, r₁⟩ levels ctx d depth)
      (checkDom ⟨cat, r₂⟩ levels ctx d (depth + k)) := by
  induction levels with
  | zero => exact ⟨fun _ _ _ => .judge _, fun _ _ _ => .judge _⟩
  | succ levels ih =>
    obtain ⟨ihTerm, ihDom⟩ := ih
    have ihTerm' : ∀ ctx t depth, Shifts k (checkTerm ⟨cat, r₁⟩ levels ctx t (depth + 1))
        (checkTerm ⟨cat, r₂⟩ levels ctx t (depth + k + 1)) := by
      intro ctx t depth
      rw [Nat.add_right_comm]
      exact ihTerm ctx t (depth + 1)
    have ihDom' : ∀ ctx d depth, Shifts k (checkDom ⟨cat, r₁⟩ levels ctx d (depth + 1))
        (checkDom ⟨cat, r₂⟩ levels ctx d (depth + k + 1)) := by
      intro ctx d depth
      rw [Nat.add_right_comm]
      exact ihDom ctx d (depth + 1)
    refine ⟨fun ctx t depth => .bind (.enter _ _) fun _ => ?_,
      fun ctx d depth => .bind (.enter _ _) fun _ => ?_⟩
    · cases t with
      | var v => exact .bind (.judge _) fun _ => .pure _
      | lit l => exact .pure _
      | members tr => exact .bind (.judge _) fun _ => .pure _
      | tuple r v => exact .bind (.judge _) fun _ => .bind (.judge _) fun _ => .pure _
      | inCoverage slot e v =>
        exact .bind (.sub (fun t => ihTerm' _ t _) e _) fun _ => .bind (.judge _) fun _ =>
          .bind (.judge _) fun _ => .pure _
      | unary op e =>
        exact .bind (.judge _) fun _ => .bind (ihTerm' _ e _) fun _ => .bind (.judge _) fun _ => .pure _
      | binary op x y =>
        exact .bind (.judge _) fun _ => .bind (.sub (fun t => ihTerm' _ t _) x _) fun _ =>
          .bind (.sub (fun t => ihTerm' _ t _) y _) fun _ => .pure _
      | connective op x y =>
        exact .bind (.sub (fun t => ihTerm' _ t _) x _) fun _ =>
          .bind (.sub (fun t => ihTerm' _ t _) y _) fun _ => .pure _
      | quantified q var d body =>
        have hover : ∀ d, Shifts k (do
            let cd ← checkDom ⟨cat, r₁⟩ levels ctx d (depth + 1)
            let cb ← sub (fun t => checkTerm ⟨cat, r₁⟩ levels (ctx.update var cd.elem) t (depth + 1)) body .bool
            return (⟨.quantified q var cd.dom cb.term, .bool, cd.refFree && cb.refFree⟩ : CheckedTerm)) (do
            let cd ← checkDom ⟨cat, r₂⟩ levels ctx d (depth + k + 1)
            let cb ← sub (fun t => checkTerm ⟨cat, r₂⟩ levels (ctx.update var cd.elem) t (depth + k + 1)) body .bool
            return (⟨.quantified q var cd.dom cb.term, .bool, cd.refFree && cb.refFree⟩ : CheckedTerm)) := fun d =>
          .bind (ihDom' _ d _) fun _ => .bind (.sub (fun t => ihTerm' _ t _) body _) fun _ => .pure _
        cases d with
        | reg =>
          refine .bind (.instances (fun t => ?_) _ _ _) fun _ => .judge _
          have hat : depth + k + (cat.classes.length - 1) = depth + (cat.classes.length - 1) + k :=
            Nat.add_right_comm _ _ _
          show Shifts k (checkTerm ⟨cat, r₁⟩ levels ctx t (depth + (cat.classes.length - 1)))
            (checkTerm ⟨cat, r₂⟩ levels ctx t (depth + k + (cat.classes.length - 1)))
          rw [hat]
          exact ihTerm _ t _
        | read | linkDom | filter | setTerm => exact hover _
      | letIn var x body =>
        exact .bind (ihTerm' _ x _) fun _ => .bind (ihTerm' _ body _) fun _ => .pure _
      | ifSome opt var thenTerm elseTerm =>
        exact .bind (ihTerm' _ opt _) fun _ => .bind (.judge _) fun _ =>
          .bind (ihTerm' _ thenTerm _) fun _ => .bind (ihTerm' _ elseTerm _) fun _ =>
            .bind (.judge _) fun _ => .pure _
      | aggregate op d =>
        have hover : ∀ d, Shifts k (do
            let cd ← checkDom ⟨cat, r₁⟩ levels ctx d (depth + 1)
            judge (op.wants cd.elem)
            return (⟨.aggregate op cd.dom, op.result, cd.refFree⟩ : CheckedTerm)) (do
            let cd ← checkDom ⟨cat, r₂⟩ levels ctx d (depth + k + 1)
            judge (op.wants cd.elem)
            return (⟨.aggregate op cd.dom, op.result, cd.refFree⟩ : CheckedTerm)) := fun d =>
          .bind (ihDom' _ d _) fun _ => .bind (.judge _) fun _ => .pure _
        cases d with
        | reg =>
          cases op with
          | count => exact .pure _
          | maxT1 | minT1 | reflect => exact hover _
        | read | linkDom | filter | setTerm => cases op <;> exact hover _
      | bigUnion d var body =>
        exact .bind (ihDom' _ d _) fun _ => .bind (.sub (fun t => ihTerm' _ t _) body _) fun _ => .pure _
      | ref addr args =>
        exact .reference hresolve fun referent =>
          .bind (.referenceArgs (fun level t => ihTerm _ t level) _ _ _) fun _ => .pure _
    · cases d with
      | read r tr => exact .bind (.judge _) fun _ => .pure _
      | linkDom => exact .pure _
      | reg => exact .judge _
      | filter d var pred =>
        exact .bind (ihDom' _ d _) fun _ => .bind (.sub (fun t => ihTerm' _ t _) pred _) fun _ => .pure _
      | setTerm t => exact .bind (.sub (fun t => ihTerm' _ t _) t _) fun _ => .pure _

/-- The judgment of a definition whose parameters pass. -/
private theorem checkSigned_eq {ch : Checker} {signed : SignedTerm} {s : CheckState}
    (hcharge : (chargeNodes signed.params.length).run {} = .ok ((), s))
    (hdup : Outcome.refuseSome (duplicated [] signed.params) TypeError.duplicateParameter = .ok ())
    (depth : ℕ) : checkSigned ch signed depth =
      ((checkTerm ch (maxDepth + 1) (Ctx.ofList signed.params) signed.body depth).run s).bind fun p =>
        .ok ⟨signed, p.1.sort, p.1.term, p.1.refFree, p.2.deepest - depth⟩ := by
  simp only [checkSigned, hcharge, hdup, Outcome.ok_bind]
  rfl

/-- **A check at a deeper level answers the same, or is too deep.** It is too deep only where the
definition, rooted there, reaches past the bound. -/
theorem checkSigned_shift (hresolve : ∀ a level r, 0 < level → r₁ a level = .ok r →
      r₂ a (level + k) = .ok r ∨ (r₂ a (level + k) = .error .tooDeep ∧ maxDepth < level + k + r.reach))
    {signed : SignedTerm} {tt : TypedTerm} (h : checkSigned ⟨cat, r₁⟩ signed 0 = .ok tt) :
    checkSigned ⟨cat, r₂⟩ signed k = .ok tt ∨
      (checkSigned ⟨cat, r₂⟩ signed k = .err .tooDeep ∧ maxDepth < k + tt.reach) := by
  obtain ⟨⟨⟨⟩, s⟩, hcharge, h⟩ := Outcome.bind_eq_ok_iff.1 h
  obtain ⟨⟨⟩, hdup, h⟩ := Outcome.bind_eq_ok_iff.1 h
  obtain ⟨⟨c, s₁'⟩, hcheck, hout⟩ := Outcome.bind_eq_ok_iff.1 h
  cases hout
  obtain ⟨-, hs⟩ := run_chargeNodes.1 hcharge
  have hdeeper : Deeper k s s := by
    subst hs
    exact ⟨rfl, by show max 0 k = 0 + k; omega⟩
  obtain ⟨-, hshift⟩ := (@check_shifts cat _ _ _ hresolve (maxDepth + 1)).1 _ _ 0 s c s₁' hcheck
  rw [Nat.zero_add] at hshift
  rcases hshift s hdeeper with ⟨s₂', hrun, -, hdeepest⟩ | ⟨hrun, hdeep⟩
  · left
    rw [checkSigned_eq hcharge hdup, hrun]
    have hreach : s₂'.deepest - k = s₁'.deepest - 0 := by omega
    show Outcome.ok _ = _
    rw [hreach]
  · right
    refine ⟨?_, by dsimp only; omega⟩
    rw [checkSigned_eq hcharge hdup, hrun]
    rfl

/-- A definition that fits at level 0 is too deep past the bound, whatever is answered. -/
theorem checkSigned_past {signed : SignedTerm} {tt : TypedTerm}
    (h : checkSigned ⟨cat, r₁⟩ signed 0 = .ok tt) (hpast : maxDepth < k) :
    checkSigned ⟨cat, r₂⟩ signed k = .err .tooDeep := by
  obtain ⟨⟨⟨⟩, s⟩, hcharge, h⟩ := Outcome.bind_eq_ok_iff.1 h
  obtain ⟨⟨⟩, hdup, -⟩ := Outcome.bind_eq_ok_iff.1 h
  have hrefused : (checkTerm ⟨cat, r₂⟩ (maxDepth + 1) (Ctx.ofList signed.params) signed.body k).run s =
      .err .tooDeep := by
    unfold checkTerm
    rw [enter, StateT.run_bind, StateT.run_bind, show (reachTo k).run s = .err .tooDeep from if_pos hpast]
    rfl
  rw [checkSigned_eq hcharge hdup, hrefused]
  rfl

theorem reach_le_maxDepth {signed : SignedTerm} {tt : TypedTerm} {depth : ℕ}
    (h : checkSigned ⟨cat, r₁⟩ signed depth = .ok tt) : tt.reach ≤ maxDepth := by
  obtain ⟨⟨⟨⟩, s⟩, hcharge, h⟩ := Outcome.bind_eq_ok_iff.1 h
  obtain ⟨⟨⟩, -, h⟩ := Outcome.bind_eq_ok_iff.1 h
  obtain ⟨⟨c, s'⟩, hcheck, hout⟩ := Outcome.bind_eq_ok_iff.1 h
  cases hout
  obtain ⟨-, rfl⟩ := run_chargeNodes.1 hcharge
  have hbound := (check_bounded ⟨cat, r₁⟩ (maxDepth + 1)).1 _ _ _ _ _ _ (Nat.zero_le _) hcheck
  exact (Nat.sub_le _ _).trans hbound

end

section

variable {cat : TypeCatalog} {content : DefContent} {defs : DefSource}

/-- What an answer is: the definition, or too deep where the definition reaches past the bound. -/
structure Settled (defs : DefSource) (a : Address) (level : ℕ) (answer : Except Unresolved TypedTerm) :
    Prop where
  defined : ∀ tt, defs a = some tt →
    answer = .ok tt ∨ (answer = .error .tooDeep ∧ maxDepth < level + tt.reach)
  undefined : defs a = none → answer = .error .undefined

theorem Answers.settled (hd : Disciplined cat content defs) {a : Address} {level : ℕ}
    {answer : Except Unresolved TypedTerm} (h : Answers cat content defs a level answer) :
    Settled defs a level answer := by
  induction h with
  | @intro a level memo resolve hmemo hresolve ih =>
    cases hm : memo a with
    | some entry =>
      obtain ⟨tt, rfl, hdef⟩ := hmemo a entry hm
      have hanswer : resolveOver cat content memo resolve a level = .ok tt := by
        rw [resolveOver, hm]
      refine ⟨fun tt' hdef' => .inl ?_, fun hnone => ?_⟩
      · obtain rfl : tt = tt' := Option.some.inj (hdef.symm.trans hdef')
        exact hanswer
      · rw [hdef] at hnone
        cases hnone
    | none =>
      constructor
      · intro tt hdef
        obtain ⟨resolve₀, hanswers, hadmitted⟩ := hd.admitted a tt hdef
        have hregistered : content.everPred a = true := (hd.registered a).2 (by rw [hdef]; rfl)
        have hchecked : checkSigned ⟨cat, resolve⟩ tt.signed level = .ok tt ∨
            (checkSigned ⟨cat, resolve⟩ tt.signed level = .err .tooDeep ∧ maxDepth < level + tt.reach) := by
          by_cases hlevel : level ≤ maxDepth
          · refine checkSigned_shift (fun b l r hl hr => ?_) hadmitted
            exact (ih hlevel b (l + level) (by omega)).defined r (hanswers b l r hr).1
          · have hpast : maxDepth < level := not_le.1 hlevel
            exact .inr ⟨checkSigned_past hadmitted hpast, by omega⟩
        rcases hchecked with hok | ⟨hdeep, hpast⟩
        · left
          simp only [resolveOver, hm, deriveDef, hregistered, hd.parsed a tt hdef, hok, Bool.true_eq_false,
            if_false]
        · right
          have hpos : 0 < level := by
            have hreach := reach_le_maxDepth hadmitted
            omega
          refine ⟨?_, hpast⟩
          simp only [resolveOver, hm, deriveDef, hregistered, hd.parsed a tt hdef, hdeep,
            Bool.true_eq_false, if_false, if_pos hpos]
      · intro hnone
        have hregistered : content.everPred a = false := by
          cases hpred : content.everPred a with
          | false => rfl
          | true =>
            have hsome := (hd.registered a).1 hpred
            rw [hnone] at hsome
            cases hsome
        simp only [resolveOver, hm, deriveDef, hregistered, if_true]

/-- The resolver that holds every definition. -/
def resolveKnown (defs : DefSource) : Resolver := fun a _ =>
  match defs a with
  | some tt => .ok tt
  | none => .error .undefined

/-- A reference meets the same refusal whether its referent is not derived where it starts, or
is and reaches too deep. -/
theorem reference_settled {resolve : Resolver} (h : ∀ a level, Settled defs a level (resolve a level))
    {addr : Address} {depth arity : ℕ} {β : Type} (f : TypedTerm → CheckM β) :
    (do
      let referent ← judge (resolveRef ⟨cat, resolve⟩ addr (referentDepth depth))
      reachTo (referenceReach depth arity referent.reach)
      f referent) = (do
      let referent ← judge (resolveRef ⟨cat, resolveKnown defs⟩ addr (referentDepth depth))
      reachTo (referenceReach depth arity referent.reach)
      f referent) := by
  have hsettled := h addr (referentDepth depth)
  cases hdef : defs addr with
  | none =>
    have hsame : resolve addr (referentDepth depth) = resolveKnown defs addr (referentDepth depth) := by
      rw [hsettled.undefined hdef, resolveKnown, hdef]
    simp only [resolveRef, hsame]
  | some tt =>
    have hknown : resolveKnown defs addr (referentDepth depth) = .ok tt := by
      rw [resolveKnown, hdef]
    rcases hsettled.defined tt hdef with hok | ⟨hdeep, hpast⟩
    · simp only [resolveRef, hok, hknown]
    · have hcold : resolveRef ⟨cat, resolve⟩ addr (referentDepth depth) = .err .tooDeep := by
        simp only [resolveRef, hdeep]
      have hwarm : resolveRef ⟨cat, resolveKnown defs⟩ addr (referentDepth depth) = .ok tt := by
        simp only [resolveRef, hknown]
      have hrefused : ∀ s, (reachTo (referenceReach depth arity tt.reach)).run s = .err .tooDeep := by
        refine fun s => if_pos ?_
        rw [referenceReach]
        omega
      rw [hcold, hwarm]
      funext s
      show Outcome.err TypeError.tooDeep =
        ((reachTo (referenceReach depth arity tt.reach) >>= fun _ => f tt).run s)
      rw [StateT.run_bind, hrefused]
      rfl

/-- A check over settled answers is the check over the definitions. -/
theorem check_settled {resolve : Resolver} (h : ∀ a level, Settled defs a level (resolve a level))
    (levels : ℕ) :
    (∀ ctx t depth, checkTerm ⟨cat, resolve⟩ levels ctx t depth =
      checkTerm ⟨cat, resolveKnown defs⟩ levels ctx t depth) ∧
    ∀ ctx d depth, checkDom ⟨cat, resolve⟩ levels ctx d depth =
      checkDom ⟨cat, resolveKnown defs⟩ levels ctx d depth := by
  induction levels with
  | zero => exact ⟨fun _ _ _ => rfl, fun _ _ _ => rfl⟩
  | succ levels ih =>
    obtain ⟨ihTerm, ihDom⟩ := ih
    constructor
    · intro ctx t depth
      cases t with
      | ref addr args =>
        simp only [checkTerm, ihTerm]
        congr 1
        funext _
        exact reference_settled h _
      | quantified q var d body =>
        cases d <;> simp only [checkTerm, ihTerm, ihDom]
      | aggregate op d =>
        cases op <;> cases d <;> simp only [checkTerm, ihDom]
      | _ => simp only [checkTerm, ihTerm, ihDom]
    · intro ctx d depth
      cases d <;> simp only [checkDom, ihTerm, ihDom]

/-- **A check answers the same on every memo**, so too deep on a cold one only where it is too
deep on a warm one. -/
theorem checkSigned_memo (hd : Disciplined cat content defs) {resolve resolve' : Resolver}
    (h : ∀ a level, Answers cat content defs a level (resolve a level))
    (h' : ∀ a level, Answers cat content defs a level (resolve' a level)) (signed : SignedTerm) (depth : ℕ) :
    checkSigned ⟨cat, resolve⟩ signed depth = checkSigned ⟨cat, resolve'⟩ signed depth := by
  have hsame := (@check_settled cat _ _ (fun a level => (h a level).settled hd) (maxDepth + 1)).1
  have hsame' := (@check_settled cat _ _ (fun a level => (h' a level).settled hd) (maxDepth + 1)).1
  simp only [checkSigned, hsame, hsame']

/-- What is answered on one memo, its derivations followed past the bound. -/
theorem answers_resolveDefAt {memo : Memo}
    (hmemo : ∀ b entry, memo b = some entry → ∃ tt, entry = some tt ∧ defs b = some tt) (levels : ℕ) :
    ∀ a level, maxDepth < level + levels →
      Answers cat content defs a level (resolveDefAt cat content memo levels a level) := by
  induction levels with
  | zero => exact fun a level hlevel => .intro hmemo fun hle => absurd hlevel (not_lt.2 hle)
  | succ levels ih => exact fun a level hlevel => .intro hmemo fun _ b l hl => ih b l (by omega)

theorem Disciplined.checked (hd : Disciplined cat content defs) {a : Address} {tt : TypedTerm}
    (h : defs a = some tt) : Checked cat defs tt := by
  obtain ⟨resolve, hanswers, hadmitted⟩ := hd.admitted a tt h
  refine @Checked.intro _ _ ⟨cat, resolve⟩ _ _ _ rfl (fun b _ level r hr => (hanswers b level r hr).1)
    (fun b _ level r hr => (hanswers b level r hr).2) hadmitted

/-- The decoder took no former of a definition nested past the bound. -/
theorem Disciplined.nesting_le (hd : Disciplined cat content defs) {a : Address} {tt : TypedTerm}
    (h : defs a = some tt) : tt.signed.body.nesting ≤ maxDepth := by
  have hparsed := hd.parsed a tt h
  rw [DefContent.parseDef] at hparsed
  split at hparsed
  · cases hparsed
  · split at hparsed
    · cases hparsed
    · next hle =>
      cases hparsed
      exact not_lt.1 hle

end

/-- **Checked depth bounds every later walk.** A checked definition reaches within the bound, and
no node of its evaluated term, no walk that follows its references and no node of its flat
expansion lies past its reach; the expansion never runs out of levels. What was admitted is
encoded within the bound. A check over a memo that is empty answers what it does over one that
holds any of the definitions, and fills as it goes. -/
theorem depth_bounds (cat : TypeCatalog) (defs : DefSource) :
    (∀ tt, Checked cat defs tt → tt.reach ≤ maxDepth ∧ tt.evaluable.nesting ≤ tt.reach ∧
      (∀ level, Visits defs (.term tt.evaluable) level → level ≤ tt.reach) ∧
      expand defs tt.evaluable ≠ .fault ∧
      ∀ flat, expand defs tt.evaluable = .ok flat → flat.refs = [] ∧ flat.nesting ≤ tt.reach) ∧
    ∀ content, Disciplined cat content defs →
      (∀ a tt, defs a = some tt → Checked cat defs tt ∧ tt.signed.body.nesting ≤ maxDepth) ∧
      ∀ resolve : Resolver, (∀ a level, Answers cat content defs a level (resolve a level)) →
        ∀ signed depth,
          checkSigned ⟨cat, resolveDefAt cat content (fun _ => none) (maxDepth + 1)⟩ signed depth =
            checkSigned ⟨cat, resolve⟩ signed depth := by
  refine ⟨fun tt h => ?_, fun content hd => ⟨fun a tt hdef => ⟨hd.checked hdef, hd.nesting_le hdef⟩, ?_⟩⟩
  · obtain ⟨hwithin, hreach⟩ := h.within
    have hnesting := hwithin.nesting_le
    rw [Nat.zero_add] at hnesting
    exact ⟨hreach, hnesting, fun level hv => h.visits_le hv, h.expand_yields⟩
  · intro resolve hanswers signed depth
    refine checkSigned_memo hd (fun a level => ?_) hanswers signed depth
    exact answers_resolveDefAt (fun b entry h => by cases h) (maxDepth + 1) a level (by omega)

private def shippedCatalog : TypeCatalog := ⟨TypeRegistry.build⟩

/-- Whether the parameter is a registered document. -/
private def registeredDoc : TypedTerm where
  signed := ⟨[(⟨0⟩, .addr)], .unary .isDoc (.var ⟨0⟩), by simp [VarId.IsSubmitted, expansionNameBase], by
    simp [Term.Names, VarId.IsSubmitted, expansionNameBase]⟩
  result := .bool
  evaluable := .unary .isDoc (.var ⟨0⟩)
  refFree := true
  reach := 1

/-- The same of the head document, by a reference. -/
private def registeredHead : TypedTerm where
  signed := ⟨[], .ref ghostHomeDocument [.lit (.addr headDocument)], List.forall_mem_nil _, by
    simp [Term.Names, argNames]⟩
  result := .bool
  evaluable := .ref ghostHomeDocument [.lit (.addr headDocument)]
  refFree := false
  reach := 4

private def twoDefs (a : Address) : Option TypedTerm :=
  if a = ghostHomeDocument then some registeredDoc
  else if a = headDocument then some registeredHead
  else none

private theorem twoDefs_eq_some {a : Address} {tt : TypedTerm} (h : twoDefs a = some tt) :
    a = ghostHomeDocument ∧ tt = registeredDoc ∨ a = headDocument ∧ tt = registeredHead := by
  rw [twoDefs] at h
  split_ifs at h with hinner houter
  · exact .inl ⟨hinner, (Option.some.inj h).symm⟩
  · exact .inr ⟨houter, (Option.some.inj h).symm⟩

private def twoContents : DefContent where
  everPred a := (twoDefs a).isSome
  stored a := if a = ghostHomeDocument then .ok registeredDoc.signed else .ok registeredHead.signed

private def unresolving : Resolver := fun _ _ => .error .undefined

private def resolvingDoc : Resolver := fun a _ =>
  if a = ghostHomeDocument then .ok registeredDoc else .error .undefined

private theorem resolvingDoc_eq_ok {a : Address} {level : ℕ} {r : TypedTerm} (h : resolvingDoc a level = .ok r) :
    a = ghostHomeDocument ∧ r = registeredDoc := by
  rw [resolvingDoc] at h
  split_ifs at h with ha
  · exact ⟨ha, (Except.ok.inj h).symm⟩

private theorem checked_registeredDoc : Checked shippedCatalog twoDefs registeredDoc :=
  @Checked.intro _ _ ⟨shippedCatalog, unresolving⟩ registeredDoc.signed 0 _ rfl (fun _ _ _ _ h => by cases h)
    (fun _ _ _ _ h => by cases h) rfl

private theorem twoDefs_disciplined : Disciplined shippedCatalog twoContents twoDefs where
  registered _ := Iff.rfl
  parsed a tt h := by
    obtain ⟨rfl, rfl⟩ | ⟨rfl, rfl⟩ := twoDefs_eq_some h
    · rfl
    · rfl
  admitted a tt h := by
    obtain ⟨-, rfl⟩ | ⟨-, rfl⟩ := twoDefs_eq_some h
    · exact ⟨unresolving, fun _ _ _ h => (by cases h), rfl⟩
    · refine ⟨resolvingDoc, fun b level r hr => ?_, rfl⟩
      obtain ⟨rfl, rfl⟩ := resolvingDoc_eq_ok hr
      exact ⟨if_pos rfl, checked_registeredDoc⟩

private def naming : SignedTerm := ⟨[], .ref headDocument [], nofun, trivial⟩

/-- A definition that is named through another is derived as deep as both reach, on a cold memo as
on the memo that holds them, and is expanded with the argument bound. -/
theorem depth_bounds_naming :
    let cold := resolveDefAt shippedCatalog twoContents (fun _ => none) (maxDepth + 1)
    checkSigned ⟨shippedCatalog, cold⟩ naming 122 = .ok ⟨naming, .bool, naming.body, false, 6⟩ ∧
      checkSigned ⟨shippedCatalog, cold⟩ naming 123 = .err .tooDeep ∧
      registeredHead.reach ≤ maxDepth ∧
      ∃ flat, expand twoDefs registeredHead.evaluable = .ok flat ∧ flat.refs = [] ∧
        flat = .letIn ⟨expansionNameBase⟩ (.lit (.addr headDocument)) (.unary .isDoc (.var ⟨expansionNameBase⟩)) := by
  intro cold
  obtain ⟨hchecked, hcontent⟩ := depth_bounds shippedCatalog twoDefs
  obtain ⟨hdefs, hmemo⟩ := hcontent twoContents twoDefs_disciplined
  have hwarm : ∀ a level, Answers shippedCatalog twoContents twoDefs a level
      (resolveDefAt shippedCatalog twoContents (fun a => (twoDefs a).map some) (maxDepth + 1) a level) := by
    refine fun a level => answers_resolveDefAt (fun b entry h => ?_) (maxDepth + 1) a level (by omega)
    obtain ⟨tt, hdef, rfl⟩ := Option.map_eq_some_iff.1 h
    exact ⟨tt, rfl, hdef⟩
  obtain ⟨hreach, -, -, -, hflat⟩ := hchecked registeredHead (hdefs headDocument registeredHead rfl).1
  have hexpand : expand twoDefs registeredHead.evaluable = .ok (.letIn ⟨expansionNameBase⟩
    (.lit (.addr headDocument)) (.unary .isDoc (.var ⟨expansionNameBase⟩))) := rfl
  exact ⟨(hmemo _ hwarm naming 122).trans rfl, (hmemo _ hwarm naming 123).trans rfl, hreach, _, hexpand,
    (hflat _ hexpand).1, rfl⟩

end Coordination
