import Skep.Coordination.Judgment

/-!
# How deep a checked term reaches

The checker charges every node for the level it stands at, and a reference for
the levels a walk through it takes: to the referent's root, past the bindings of
its arguments, and as deep as the referent reaches. No walk over what it accepts
goes deeper than the deepest level it recorded.
-/

namespace Coordination

mutual

/-- The level of the deepest node, the root at 0. -/
def Term.nesting : Term → ℕ
  | .var _ | .lit _ | .members _ | .tuple _ _ => 0
  | .inCoverage _ e _ | .unary _ e => e.nesting + 1
  | .binary _ x y | .connective _ x y => max x.nesting y.nesting + 1
  | .quantified _ _ d body | .bigUnion d _ body => max d.nesting body.nesting + 1
  | .letIn _ bound body => max bound.nesting body.nesting + 1
  | .ifSome opt _ thenTerm elseTerm =>
      max opt.nesting (max thenTerm.nesting elseTerm.nesting) + 1
  | .aggregate _ d => d.nesting + 1
  | .ref _ args => argsNesting args

def argsNesting : List Term → ℕ
  | [] => 0
  | t :: ts => max (t.nesting + 1) (argsNesting ts)

def Dom.nesting : Dom → ℕ
  | .read _ _ | .linkDom | .reg => 0
  | .filter d _ pred => max d.nesting pred.nesting + 1
  | .setTerm t => t.nesting + 1

end

/-- How deep the definition at an address reaches. -/
def reachOf (defs : DefSource) (a : Address) : ℕ := ((defs a).map TypedTerm.reach).getD 0

section

variable (reach : Address → ℕ)

mutual

/-- The charges of a tree whose root stands at a level stay within a bound: that of a leaf
for its level, that of a reference for a walk through it. -/
def Term.Within : Term → ℕ → ℕ → Prop
  | .var _, depth, bound | .lit _, depth, bound | .members _, depth, bound | .tuple _ _, depth, bound =>
      depth ≤ bound
  | .inCoverage _ e _, depth, bound | .unary _ e, depth, bound => e.Within (depth + 1) bound
  | .binary _ x y, depth, bound | .connective _ x y, depth, bound =>
      x.Within (depth + 1) bound ∧ y.Within (depth + 1) bound
  | .quantified _ _ d body, depth, bound | .bigUnion d _ body, depth, bound =>
      d.Within (depth + 1) bound ∧ body.Within (depth + 1) bound
  | .letIn _ x body, depth, bound => x.Within (depth + 1) bound ∧ body.Within (depth + 1) bound
  | .ifSome opt _ thenTerm elseTerm, depth, bound =>
      opt.Within (depth + 1) bound ∧ thenTerm.Within (depth + 1) bound ∧
        elseTerm.Within (depth + 1) bound
  | .aggregate _ d, depth, bound => d.Within (depth + 1) bound
  | .ref addr args, depth, bound =>
      referenceReach depth args.length (reach addr) ≤ bound ∧ argsWithin args (depth + 1) bound

/-- The arguments of a reference, each a level below the one before it. -/
def argsWithin : List Term → ℕ → ℕ → Prop
  | [], _, _ => True
  | t :: ts, depth, bound => t.Within depth bound ∧ argsWithin ts (depth + 1) bound

def Dom.Within : Dom → ℕ → ℕ → Prop
  | .read _ _, depth, bound | .linkDom, depth, bound | .reg, depth, bound => depth ≤ bound
  | .filter d _ pred, depth, bound => d.Within (depth + 1) bound ∧ pred.Within (depth + 1) bound
  | .setTerm t, depth, bound => t.Within (depth + 1) bound

end

end

section

variable {reach : Address → ℕ} {bound bound' : ℕ}

mutual

theorem Term.Within.weaken {depth depth' : ℕ} {t : Term} (h : t.Within reach depth bound) (hdepth : depth' ≤ depth)
    (hbound : bound ≤ bound') : t.Within reach depth' bound' := by
  have hsucc : depth' + 1 ≤ depth + 1 := Nat.succ_le_succ hdepth
  cases t with
  | var | lit | members | tuple => exact hdepth.trans (le_trans h hbound)
  | inCoverage slot e v => exact Term.Within.weaken (t := e) h hsucc hbound
  | unary op e => exact Term.Within.weaken (t := e) h hsucc hbound
  | binary op x y => exact ⟨h.1.weaken hsucc hbound, h.2.weaken hsucc hbound⟩
  | connective op x y => exact ⟨h.1.weaken hsucc hbound, h.2.weaken hsucc hbound⟩
  | quantified q var d body => exact ⟨h.1.weaken hsucc hbound, h.2.weaken hsucc hbound⟩
  | letIn var x body => exact ⟨h.1.weaken hsucc hbound, h.2.weaken hsucc hbound⟩
  | ifSome opt var thenTerm elseTerm =>
    exact ⟨h.1.weaken hsucc hbound, h.2.1.weaken hsucc hbound, h.2.2.weaken hsucc hbound⟩
  | aggregate op d => exact Dom.Within.weaken (d := d) h hsucc hbound
  | bigUnion d var body => exact ⟨h.1.weaken hsucc hbound, h.2.weaken hsucc hbound⟩
  | ref addr args =>
    refine ⟨?_, argsWithin_weaken h.2 hsucc hbound⟩
    have hreach := h.1
    simp only [referenceReach, referentDepth] at hreach ⊢
    omega

theorem argsWithin_weaken {depth depth' : ℕ} {ts : List Term} (h : argsWithin reach ts depth bound)
    (hdepth : depth' ≤ depth) (hbound : bound ≤ bound') : argsWithin reach ts depth' bound' := by
  cases ts with
  | nil => trivial
  | cons t ts => exact ⟨h.1.weaken hdepth hbound, argsWithin_weaken h.2 (Nat.succ_le_succ hdepth) hbound⟩

theorem Dom.Within.weaken {depth depth' : ℕ} {d : Dom} (h : d.Within reach depth bound)
    (hdepth : depth' ≤ depth) (hbound : bound ≤ bound') : d.Within reach depth' bound' := by
  have hsucc : depth' + 1 ≤ depth + 1 := Nat.succ_le_succ hdepth
  cases d with
  | read | linkDom | reg => exact hdepth.trans (le_trans h hbound)
  | filter d var pred => exact ⟨h.1.weaken hsucc hbound, h.2.weaken hsucc hbound⟩
  | setTerm t => exact Term.Within.weaken (t := t) h hsucc hbound

end

mutual

theorem Term.Within.nesting_le {depth : ℕ} {t : Term} (h : t.Within reach depth bound) :
    depth + t.nesting ≤ bound := by
  cases t with
  | var | lit | members | tuple => exact h
  | inCoverage slot e v =>
    have he := Term.Within.nesting_le (t := e) h
    rw [Term.nesting]
    omega
  | unary op e =>
    have he := Term.Within.nesting_le (t := e) h
    rw [Term.nesting]
    omega
  | binary op x y | connective op x y =>
    have hx := h.1.nesting_le
    have hy := h.2.nesting_le
    rw [Term.nesting]
    omega
  | quantified q var d body =>
    have hd := h.1.nesting_le
    have hb := h.2.nesting_le
    rw [Term.nesting]
    omega
  | letIn var x body =>
    have hx := h.1.nesting_le
    have hb := h.2.nesting_le
    rw [Term.nesting]
    omega
  | ifSome opt var thenTerm elseTerm =>
    have ho := h.1.nesting_le
    have ht := h.2.1.nesting_le
    have he := h.2.2.nesting_le
    rw [Term.nesting]
    omega
  | aggregate op d =>
    have hd := Dom.Within.nesting_le (d := d) h
    rw [Term.nesting]
    omega
  | bigUnion d var body =>
    have hd := h.1.nesting_le
    have hb := h.2.nesting_le
    rw [Term.nesting]
    omega
  | ref addr args =>
    have hreach := h.1
    have hargs := argsWithin_nesting_le h.2 (by rw [referenceReach, referentDepth] at hreach; omega)
      (Nat.lt_succ_self depth)
    rw [Term.nesting]
    exact hargs

theorem argsWithin_nesting_le {depth depth' : ℕ} {ts : List Term} (h : argsWithin reach ts depth' bound)
    (hbound : depth ≤ bound) (hdepth : depth < depth') : depth + argsNesting ts ≤ bound := by
  cases ts with
  | nil => exact hbound
  | cons t ts =>
    have ht := h.1.nesting_le
    have hts := argsWithin_nesting_le h.2 hbound (Nat.lt_succ_of_lt hdepth)
    rw [argsNesting]
    omega

theorem Dom.Within.nesting_le {depth : ℕ} {d : Dom} (h : d.Within reach depth bound) :
    depth + d.nesting ≤ bound := by
  cases d with
  | read | linkDom | reg => exact h
  | filter d var pred =>
    have hd := h.1.nesting_le
    have hp := h.2.nesting_le
    rw [Dom.nesting]
    omega
  | setTerm t =>
    have ht := Term.Within.nesting_le (t := t) h
    rw [Dom.nesting]
    omega

end

end

section

variable {reach : Address → ℕ} {bound : ℕ}

mutual

/-- Charges are relative to the level the root stands at. -/
theorem Term.within_shift (t : Term) (depth k : ℕ) :
    t.Within reach (depth + k) (bound + k) ↔ t.Within reach depth bound := by
  cases t with
  | var | lit | members | tuple => exact Nat.add_le_add_iff_right
  | inCoverage slot e v => rw [Term.Within, Term.Within, Nat.add_right_comm, Term.within_shift e]
  | unary op e => rw [Term.Within, Term.Within, Nat.add_right_comm, Term.within_shift e]
  | binary op x y | connective op x y | letIn var x y =>
    rw [Term.Within, Term.Within, Nat.add_right_comm, Term.within_shift x, Term.within_shift y]
  | quantified q var d body | bigUnion d var body =>
    rw [Term.Within, Term.Within, Nat.add_right_comm, Dom.within_shift d, Term.within_shift body]
  | ifSome opt var thenTerm elseTerm =>
    rw [Term.Within, Term.Within, Nat.add_right_comm, Term.within_shift opt, Term.within_shift thenTerm,
      Term.within_shift elseTerm]
  | aggregate op d => rw [Term.Within, Term.Within, Nat.add_right_comm, Dom.within_shift d]
  | ref addr args =>
    rw [Term.Within, Term.Within, Nat.add_right_comm depth k 1, argsWithin_shift args]
    simp only [referenceReach, referentDepth]
    refine and_congr_left fun _ => ?_
    omega

theorem argsWithin_shift (ts : List Term) (depth k : ℕ) :
    argsWithin reach ts (depth + k) (bound + k) ↔ argsWithin reach ts depth bound := by
  cases ts with
  | nil => exact Iff.rfl
  | cons t ts =>
    rw [argsWithin, argsWithin, Term.within_shift t, Nat.add_right_comm, argsWithin_shift ts]

theorem Dom.within_shift (d : Dom) (depth k : ℕ) :
    d.Within reach (depth + k) (bound + k) ↔ d.Within reach depth bound := by
  cases d with
  | read | linkDom | reg => exact Nat.add_le_add_iff_right
  | filter d var pred =>
    rw [Dom.Within, Dom.Within, Nat.add_right_comm, Dom.within_shift d, Term.within_shift pred]
  | setTerm t => rw [Dom.Within, Dom.Within, Nat.add_right_comm, Term.within_shift t]

end

end

-- What the checker charges

/-- The two doors record the level, within the nesting bound. -/
theorem enter_recorded {units depth : ℕ} {u : Unit} {s s' : CheckState}
    (h : (enter units depth).run s = .ok (u, s')) : depth ≤ s'.deepest ∧ depth ≤ maxDepth := by
  simp only [enter, StateT.run_bind, Outcome.bind_eq_ok_iff, Prod.exists, run_reachTo,
    run_chargeNodes] at h
  obtain ⟨-, s₁, ⟨hle, rfl⟩, -, rfl⟩ := h
  exact ⟨le_max_right _ _, hle⟩

section

variable {reach : Address → ℕ} {bound : ℕ}

theorem Term.Within.depth_le {depth : ℕ} {t : Term} (h : t.Within reach depth bound) : depth ≤ bound :=
  le_of_add_le_left h.nesting_le

/-- The join of instances, each charged as deep as the deepest of them. -/
theorem within_joined (q : Quantifier) {depth : ℕ} {ts : List Term} (t : Term)
    (ht : t.Within reach (depth + ts.length) bound)
    (hts : ∀ u ∈ ts, u.Within reach (depth + ts.length) bound) :
    (joined q (t :: ts)).Within reach depth bound := by
  have hfold : ∀ (us : List Term) (acc : Term), acc.Within reach (depth + us.length) bound →
      us.length ≤ ts.length → (∀ u ∈ us, u.Within reach (depth + ts.length) bound) →
      (us.foldl (.connective q.join) acc).Within reach depth bound := by
    intro us
    induction us with
    | nil => exact fun acc hacc _ _ => hacc
    | cons u us ih =>
      intro acc hacc hlen hus
      rw [List.length_cons] at hacc hlen
      refine ih _ ⟨hacc.weaken (by omega) le_rfl, ?_⟩ (by omega)
        fun v hv => hus v (List.mem_cons_of_mem _ hv)
      exact (hus u List.mem_cons_self).weaken (by omega) le_rfl
  exact hfold ts t ht le_rfl hts

end

theorem resolveRef_eq_ok {ch : Checker} {addr : Address} {level : ℕ} {referent : TypedTerm} :
    resolveRef ch addr level = .ok referent ↔ ch.resolve addr level = .ok referent := by
  unfold resolveRef
  split <;> simp_all

/-- The join of instances is the join of their terms. -/
theorem joinInstances_term {q : Quantifier} {cs : List CheckedTerm} {c : CheckedTerm}
    (h : joinInstances q cs = .ok c) : c.term = joined q (cs.map CheckedTerm.term) := by
  cases cs with
  | nil => cases h
  | cons c₀ cs =>
    cases h
    rw [List.map_cons, joined]
    induction cs generalizing c₀ with
    | nil => rfl
    | cons c₁ cs ih => exact ih _

section

variable {ch : Checker} {defs : DefSource} {Q : TypedTerm → Prop}

/-- The charges of what a pass has accepted stay within what it has recorded. -/
structure TermCharged (ch : Checker) (defs : DefSource) (Q : TypedTerm → Prop) (levels : ℕ) : Prop where
  term : ∀ {ctx t depth s c s'}, AnswersFrom ch defs Q t.refs →
    (checkTerm ch levels ctx t depth).run s = .ok (c, s') →
      c.term.Within (reachOf defs) depth s'.deepest
  dom : ∀ {ctx d depth s c s'}, AnswersFrom ch defs Q d.refs →
    (checkDom ch levels ctx d depth).run s = .ok (c, s') →
      c.dom.Within (reachOf defs) depth s'.deepest
  deepestTerm : ∀ {ctx t depth s c s'}, AnswersFrom ch defs Q t.refs →
    (checkTerm ch levels ctx t depth).run s = .ok (c, s') → s.deepest ≤ s'.deepest
  deepestDom : ∀ {ctx d depth s c s'}, AnswersFrom ch defs Q d.refs →
    (checkDom ch levels ctx d depth).run s = .ok (c, s') → s.deepest ≤ s'.deepest

theorem TermCharged.args {levels : ℕ} (ih : TermCharged ch defs Q levels) {ctx : Ctx} {addr : Address}
    {arity found depth : ℕ} :
    ∀ (sorts : List ValueSort) (args : List Term) (i : ℕ) (s : CheckState) (args' : List Term)
      (s' : CheckState), AnswersFrom ch defs Q (argRefs args) →
      (referenceArgs addr arity found depth (fun level t => checkTerm ch levels ctx t level) i sorts
        args).run s = .ok (args', s') →
      argsWithin (reachOf defs) args' (argumentDepth depth i) s'.deepest ∧ args'.length = args.length ∧
        s.deepest ≤ s'.deepest
  | [], [], i, s, args', s', _, h => by
    cases h
    exact ⟨trivial, rfl, le_rfl⟩
  | srt :: sorts, arg :: args, i, s, args', s', hans, h => by
    simp only [referenceArgs, StateT.run_bind, Outcome.bind_eq_ok_iff, Prod.exists, run_judge] at h
    obtain ⟨c, s₁, hc, -, s₂, ⟨-, rfl⟩, rest, s₃, hrest, h⟩ := h
    cases h
    have hhead := hans.subset (List.subset_append_left _ _)
    obtain ⟨hargs, hlen, hdeep⟩ := TermCharged.args ih sorts args (i + 1) s₁ rest s'
      (hans.subset (List.subset_append_right _ _)) hrest
    refine ⟨⟨(ih.term hhead hc).weaken le_rfl hdeep, ?_⟩, by simp [hlen], ?_⟩
    · exact hargs
    · exact (ih.deepestTerm hhead hc).trans hdeep
  | [], arg :: args, i, s, args', s', _, h => by
    simp [referenceArgs, Outcome.bind_eq_ok_iff] at h
  | srt :: sorts, [], i, s, args', s', _, h => by
    simp [referenceArgs] at h

/-- The charges of the instances of a quantifier over the types. -/
theorem TermCharged.instances {levels : ℕ} (ih : TermCharged ch defs Q levels) {ctx : Ctx} {depth : ℕ}
    {cvar : VarId} {body : Term} (hans : AnswersFrom ch defs Q body.refs) :
    ∀ (keys : List TypeKey) (s : CheckState) (cs : List CheckedTerm) (s' : CheckState),
      (Coordination.instances (fun t => checkTerm ch levels ctx t depth) cvar body keys).run s =
        .ok (cs, s') →
      cs.length = keys.length ∧ s.deepest ≤ s'.deepest ∧
        ∀ c ∈ cs, c.term.Within (reachOf defs) depth s'.deepest
  | [], s, cs, s', h => by
    cases h
    exact ⟨rfl, le_rfl, nofun⟩
  | key :: keys, s, cs, s', h => by
    simp only [Coordination.instances, StateT.run_bind, Outcome.bind_eq_ok_iff, Prod.exists] at h
    obtain ⟨inst, s₁, hinst, c, s₂, hc, rest, s₃, hrest, h⟩ := h
    cases h
    obtain ⟨rfl, hdeep₁⟩ := run_instantiate hinst
    obtain ⟨hc, -⟩ := run_sub (Outcome.mapErr_eq_ok_iff.1 hc)
    have hinstAns : AnswersFrom ch defs Q (body.substClass cvar key).refs := by
      rw [refs_substClass]
      exact hans
    have hdeep₂ := ih.deepestTerm hinstAns hc
    obtain ⟨hlen, hdeep₃, hrest⟩ := TermCharged.instances ih hans keys s₂ rest s' hrest
    refine ⟨by simp [hlen], by omega, List.forall_mem_cons.2 ⟨?_, hrest⟩⟩
    exact (ih.term hinstAns hc).weaken le_rfl hdeep₃

/-- The charges of a term the checker accepts, by its node. -/
theorem TermCharged.term_node {levels : ℕ} (ih : TermCharged ch defs Q levels) {ctx : Ctx} {t : Term}
    {depth : ℕ} {s : CheckState} {c : CheckedTerm} {s' : CheckState} (hans : AnswersFrom ch defs Q t.refs)
    (h : (checkTerm ch (levels + 1) ctx t depth).run s = .ok (c, s')) :
    c.term.Within (reachOf defs) depth s'.deepest := by
  unfold checkTerm at h
  rw [StateT.run_bind, Outcome.bind_eq_ok_iff] at h
  obtain ⟨⟨⟨⟩, s₀⟩, henter, h⟩ := h
  have h₀ := (enter_recorded henter).1
  cases t with
  | var v =>
    simp only [StateT.run_bind, Outcome.bind_eq_ok_iff, Prod.exists, run_judge] at h
    obtain ⟨srt, s₁, ⟨-, rfl⟩, h⟩ := h
    cases h
    exact h₀
  | lit l =>
    cases h
    exact h₀
  | members tr =>
    simp only [StateT.run_bind, Outcome.bind_eq_ok_iff, Prod.exists, run_judge] at h
    obtain ⟨k, s₁, ⟨-, rfl⟩, h⟩ := h
    cases h
    exact h₀
  | tuple r v =>
    simp only [StateT.run_bind, Outcome.bind_eq_ok_iff, Prod.exists, run_judge] at h
    obtain ⟨srt, s₁, ⟨-, rfl⟩, -, s₂, ⟨-, rfl⟩, h⟩ := h
    cases h
    exact h₀
  | inCoverage slot e v =>
    simp only [StateT.run_bind, Outcome.bind_eq_ok_iff, Prod.exists, run_judge] at h
    obtain ⟨ce, s₁, hce, srt, s₂, ⟨-, rfl⟩, -, s₃, ⟨-, rfl⟩, h⟩ := h
    cases h
    have he := ih.term (t := e) hans (run_sub hce).1
    exact he
  | unary op e =>
    simp only [StateT.run_bind, Outcome.bind_eq_ok_iff, Prod.exists, run_judge] at h
    obtain ⟨op', s₁, ⟨-, rfl⟩, ce, s₂, hce, -, s₃, ⟨-, rfl⟩, h⟩ := h
    cases h
    have he := ih.term (t := e) hans hce
    exact he
  | binary op x y =>
    simp only [StateT.run_bind, Outcome.bind_eq_ok_iff, Prod.exists, run_judge] at h
    obtain ⟨op', s₁, ⟨-, rfl⟩, cx, s₂, hcx, cy, s₃, hcy, h⟩ := h
    cases h
    have hx := hans.subset (List.subset_append_left x.refs y.refs)
    have hy := hans.subset (List.subset_append_right x.refs y.refs)
    exact ⟨(ih.term hx (run_sub hcx).1).weaken le_rfl (ih.deepestTerm hy (run_sub hcy).1),
      ih.term hy (run_sub hcy).1⟩
  | connective op x y =>
    simp only [StateT.run_bind, Outcome.bind_eq_ok_iff, Prod.exists] at h
    obtain ⟨cx, s₂, hcx, cy, s₃, hcy, h⟩ := h
    cases h
    have hx := hans.subset (List.subset_append_left x.refs y.refs)
    have hy := hans.subset (List.subset_append_right x.refs y.refs)
    exact ⟨(ih.term hx (run_sub hcx).1).weaken le_rfl (ih.deepestTerm hy (run_sub hcy).1),
      ih.term hy (run_sub hcy).1⟩
  | quantified q var d body =>
    by_cases hreg : d = .reg
    · subst hreg
      simp only [StateT.run_bind, Outcome.bind_eq_ok_iff, Prod.exists, run_judge] at h
      obtain ⟨cs, s₁, hcs, hjoin, rfl⟩ := h
      obtain ⟨hlen, -, hall⟩ := ih.instances (hans.subset (List.subset_append_right _ _)) _ _ _ _ hcs
      have hterm := joinInstances_term hjoin
      cases cs with
      | nil => cases hjoin
      | cons c₀ cs =>
        rw [List.length_cons] at hlen
        rw [← hlen, Nat.add_sub_cancel] at hall
        rw [hterm]
        refine within_joined q _ ?_ ?_
        · rw [List.length_map]
          exact hall c₀ List.mem_cons_self
        · intro u hu
          obtain ⟨c₁, hc₁, rfl⟩ := List.mem_map.1 hu
          rw [List.length_map]
          exact hall c₁ (List.mem_cons_of_mem _ hc₁)
    · have h : (do
          let cd ← checkDom ch levels ctx d (depth + 1)
          let cb ← sub (fun t => checkTerm ch levels (ctx.update var cd.elem) t (depth + 1)) body .bool
          return ⟨.quantified q var cd.dom cb.term, .bool, cd.refFree && cb.refFree⟩ :
            CheckM CheckedTerm).run s₀ = .ok (c, s') := by
        cases d with
        | reg => exact absurd rfl hreg
        | read | linkDom | filter | setTerm => exact h
      simp only [StateT.run_bind, Outcome.bind_eq_ok_iff, Prod.exists] at h
      obtain ⟨cd, s₁, hcd, cb, s₂, hcb, h⟩ := h
      cases h
      have hd := hans.subset (List.subset_append_left d.refs body.refs)
      have hb := hans.subset (List.subset_append_right d.refs body.refs)
      exact ⟨(ih.dom hd hcd).weaken le_rfl (ih.deepestTerm hb (run_sub hcb).1),
        ih.term hb (run_sub hcb).1⟩
  | letIn var x body =>
    simp only [StateT.run_bind, Outcome.bind_eq_ok_iff, Prod.exists] at h
    obtain ⟨cx, s₁, hcx, cb, s₂, hcb, h⟩ := h
    cases h
    have hx := hans.subset (List.subset_append_left x.refs body.refs)
    have hb := hans.subset (List.subset_append_right x.refs body.refs)
    exact ⟨(ih.term hx hcx).weaken le_rfl (ih.deepestTerm hb hcb), ih.term hb hcb⟩
  | ifSome opt var thenTerm elseTerm =>
    simp only [StateT.run_bind, Outcome.bind_eq_ok_iff, Prod.exists, run_judge] at h
    obtain ⟨co, s₁, hco, srt, s₂, ⟨-, rfl⟩, ct, s₃, hct, ce, s₄, hce, -, s₅, ⟨-, rfl⟩, h⟩ := h
    cases h
    have ho := hans.subset (List.subset_append_left opt.refs (thenTerm.refs ++ elseTerm.refs))
    have hrest := hans.subset (List.subset_append_right opt.refs (thenTerm.refs ++ elseTerm.refs))
    have ht := hrest.subset (List.subset_append_left _ _)
    have he := hrest.subset (List.subset_append_right _ _)
    have hthen := ih.deepestTerm ht hct
    have helse := ih.deepestTerm he hce
    exact ⟨(ih.term ho hco).weaken le_rfl (hthen.trans helse), (ih.term ht hct).weaken le_rfl helse,
      ih.term he hce⟩
  | aggregate op d =>
    by_cases hreg : op = .count ∧ d = .reg
    · obtain ⟨rfl, rfl⟩ := hreg
      cases h
      exact h₀
    · have h : (do
          let cd ← checkDom ch levels ctx d (depth + 1)
          judge (op.wants cd.elem)
          return ⟨.aggregate op cd.dom, op.result, cd.refFree⟩ : CheckM CheckedTerm).run s₀ =
            .ok (c, s') := by
        cases d with
        | reg =>
          cases op with
          | count => exact absurd ⟨rfl, rfl⟩ hreg
          | maxT1 | minT1 | reflect => exact h
        | read | linkDom | filter | setTerm => cases op <;> exact h
      simp only [StateT.run_bind, Outcome.bind_eq_ok_iff, Prod.exists, run_judge] at h
      obtain ⟨cd, s₁, hcd, -, s₂, ⟨-, rfl⟩, h⟩ := h
      cases h
      exact ih.dom (d := d) hans hcd
  | bigUnion d var body =>
    simp only [StateT.run_bind, Outcome.bind_eq_ok_iff, Prod.exists] at h
    obtain ⟨cd, s₁, hcd, cb, s₂, hcb, h⟩ := h
    cases h
    have hd := hans.subset (List.subset_append_left d.refs body.refs)
    have hb := hans.subset (List.subset_append_right d.refs body.refs)
    exact ⟨(ih.dom hd hcd).weaken le_rfl (ih.deepestTerm hb (run_sub hcb).1),
      ih.term hb (run_sub hcb).1⟩
  | ref addr args =>
    simp only [StateT.run_bind, Outcome.bind_eq_ok_iff, Prod.exists, run_judge, run_reachTo] at h
    obtain ⟨referent, s₁, ⟨href, rfl⟩, -, s₂, ⟨-, rfl⟩, args', s₃, hargs, h⟩ := h
    cases h
    obtain ⟨hdef, -⟩ := hans addr List.mem_cons_self _ _ (resolveRef_eq_ok.1 href)
    obtain ⟨hwithin, hlen, hdeep⟩ := ih.args _ _ _ _ _ _ (hans.subset (List.subset_cons_self _ _)) hargs
    refine ⟨?_, hwithin⟩
    rw [hlen, reachOf, hdef]
    exact (le_max_right _ _).trans hdeep

/-- The charges of a domain the checker accepts, by its node. -/
theorem TermCharged.dom_node {levels : ℕ} (ih : TermCharged ch defs Q levels) {ctx : Ctx} {d : Dom}
    {depth : ℕ} {s : CheckState} {c : CheckedDom} {s' : CheckState} (hans : AnswersFrom ch defs Q d.refs)
    (h : (checkDom ch (levels + 1) ctx d depth).run s = .ok (c, s')) :
    c.dom.Within (reachOf defs) depth s'.deepest := by
  unfold checkDom at h
  rw [StateT.run_bind, Outcome.bind_eq_ok_iff] at h
  obtain ⟨⟨⟨⟩, s₀⟩, henter, h⟩ := h
  have h₀ := (enter_recorded henter).1
  cases d with
  | read r tr =>
    simp only [StateT.run_bind, Outcome.bind_eq_ok_iff, Prod.exists, run_judge] at h
    obtain ⟨k, s₁, ⟨-, rfl⟩, h⟩ := h
    cases h
    exact h₀
  | linkDom =>
    cases h
    exact h₀
  | reg => simp at h
  | filter d var pred =>
    simp only [StateT.run_bind, Outcome.bind_eq_ok_iff, Prod.exists] at h
    obtain ⟨cd, s₁, hcd, cp, s₂, hcp, h⟩ := h
    cases h
    have hd := hans.subset (List.subset_append_left d.refs pred.refs)
    have hp := hans.subset (List.subset_append_right d.refs pred.refs)
    exact ⟨(ih.dom hd hcd).weaken le_rfl (ih.deepestTerm hp (run_sub hcp).1),
      ih.term hp (run_sub hcp).1⟩
  | setTerm t =>
    simp only [StateT.run_bind, Outcome.bind_eq_ok_iff, Prod.exists] at h
    obtain ⟨ct, s₁, hct, h⟩ := h
    cases h
    exact ih.term (t := t) hans (run_sub hct).1

/-- What the checker accepts is charged within what it has recorded. -/
theorem termCharged (ch : Checker) (defs : DefSource) (Q : TypedTerm → Prop) (levels : ℕ) :
    TermCharged ch defs Q levels := by
  have hdeepest := @check_sound defs Q ch
  induction levels with
  | zero =>
    refine ⟨fun _ h => ?_, fun _ h => ?_, fun _ h => ?_, fun _ h => ?_⟩
    all_goals
      first
        | rw [checkTerm, run_judge] at h
        | rw [checkDom, run_judge] at h
      cases h.1
  | succ levels ih =>
    exact ⟨ih.term_node, ih.dom_node,
      fun hans h => ((hdeepest (levels + 1)).1 _ _ _ _ _ _ hans h).deepest,
      fun hans h => ((hdeepest (levels + 1)).2 _ _ _ _ _ _ hans h).deepest⟩

end

-- What the checker records

/-- The computation records no level past the nesting bound. -/
def Bounded {α : Type} (m : CheckM α) : Prop :=
  ∀ s a s', s.deepest ≤ maxDepth → m.run s = .ok (a, s') → s'.deepest ≤ maxDepth

namespace Bounded

variable {α β : Type}

theorem bind {m : CheckM α} {f : α → CheckM β} (hm : Bounded m) (hf : ∀ a, Bounded (f a)) :
    Bounded (m >>= f) := by
  intro s b s' hs h
  rw [StateT.run_bind, Outcome.bind_eq_ok_iff] at h
  obtain ⟨⟨a, s₁⟩, hrun, h⟩ := h
  exact hf a s₁ b s' (hm s a s₁ hs hrun) h

theorem pure (a : α) : Bounded (Pure.pure a : CheckM α) := by
  intro s b s' hs h
  cases h
  exact hs

theorem judge (x : Outcome TypeError α) : Bounded (Coordination.judge x) := by
  intro s a s' hs h
  obtain ⟨-, rfl⟩ := run_judge.1 h
  exact hs

theorem reachTo (level : ℕ) : Bounded (Coordination.reachTo level) := by
  intro s a s' hs h
  obtain ⟨hle, rfl⟩ := run_reachTo.1 h
  exact max_le hs hle

theorem enter (units depth : ℕ) : Bounded (Coordination.enter units depth) := by
  refine bind (reachTo depth) fun _ => ?_
  intro s a s' hs h
  obtain ⟨-, rfl⟩ := run_chargeNodes.1 h
  exact hs

theorem sub {check : Term → CheckM CheckedTerm} (h : ∀ t, Bounded (check t)) (t : Term)
    (expected : ValueSort) : Bounded (Coordination.sub check t expected) :=
  bind (h t) fun _ => bind (judge _) fun _ => pure _

theorem referenceArgs {addr : Address} {arity found depth : ℕ} {check : ℕ → Term → CheckM CheckedTerm}
    (h : ∀ level t, Bounded (check level t)) :
    ∀ (i : ℕ) (sorts : List ValueSort) (args : List Term),
      Bounded (Coordination.referenceArgs addr arity found depth check i sorts args)
  | _, [], [] => pure _
  | i, _ :: sorts, arg :: args =>
      bind (h _ arg) fun _ => bind (judge _) fun _ => bind (referenceArgs h (i + 1) sorts args) fun _ => pure _
  | _, [], arg :: _ => bind (h _ arg) fun _ => judge _
  | _, _ :: _, [] => judge _

theorem instances {check : Term → CheckM CheckedTerm} (h : ∀ t, Bounded (check t)) (cvar : VarId)
    (body : Term) : ∀ keys, Bounded (Coordination.instances check cvar body keys)
  | [] => pure _
  | key :: keys => by
    refine bind ?_ fun inst => bind ?_ fun _ => bind (instances h cvar body keys) fun _ => pure _
    · intro s a s' hs hrun
      exact (run_instantiate hrun).2 ▸ hs
    · intro s a s' hs hrun
      exact sub h inst .bool s a s' hs (Outcome.mapErr_eq_ok_iff.1 hrun)

end Bounded

theorem check_bounded (ch : Checker) (levels : ℕ) :
    (∀ ctx t depth, Bounded (checkTerm ch levels ctx t depth)) ∧
      ∀ ctx d depth, Bounded (checkDom ch levels ctx d depth) := by
  induction levels with
  | zero => exact ⟨fun _ _ _ => .judge _, fun _ _ _ => .judge _⟩
  | succ levels ih =>
    obtain ⟨ihTerm, ihDom⟩ := ih
    refine ⟨fun ctx t depth => .bind (.enter _ _) fun _ => ?_,
      fun ctx d depth => .bind (.enter _ _) fun _ => ?_⟩
    · cases t with
      | var v => exact .bind (.judge _) fun _ => .pure _
      | lit l => exact .pure _
      | members tr => exact .bind (.judge _) fun _ => .pure _
      | tuple r v => exact .bind (.judge _) fun _ => .bind (.judge _) fun _ => .pure _
      | inCoverage slot e v =>
        exact .bind (.sub (fun t => ihTerm _ t _) e _) fun _ => .bind (.judge _) fun _ =>
          .bind (.judge _) fun _ => .pure _
      | unary op e =>
        exact .bind (.judge _) fun _ => .bind (ihTerm _ e _) fun _ => .bind (.judge _) fun _ => .pure _
      | binary op x y =>
        exact .bind (.judge _) fun _ => .bind (.sub (fun t => ihTerm _ t _) x _) fun _ =>
          .bind (.sub (fun t => ihTerm _ t _) y _) fun _ => .pure _
      | connective op x y =>
        exact .bind (.sub (fun t => ihTerm _ t _) x _) fun _ =>
          .bind (.sub (fun t => ihTerm _ t _) y _) fun _ => .pure _
      | quantified q var d body =>
        have hover : ∀ d, Bounded (do
            let cd ← checkDom ch levels ctx d (depth + 1)
            let cb ← sub (fun t => checkTerm ch levels (ctx.update var cd.elem) t (depth + 1)) body .bool
            return (⟨.quantified q var cd.dom cb.term, .bool, cd.refFree && cb.refFree⟩ : CheckedTerm)) := fun d =>
          .bind (ihDom _ d _) fun _ => .bind (.sub (fun t => ihTerm _ t _) body _) fun _ => .pure _
        cases d with
        | reg => exact .bind (.instances (fun t => ihTerm _ t _) _ _ _) fun _ => .judge _
        | read | linkDom | filter | setTerm => exact hover _
      | letIn var x body =>
        exact .bind (ihTerm _ x _) fun _ => .bind (ihTerm _ body _) fun _ => .pure _
      | ifSome opt var thenTerm elseTerm =>
        exact .bind (ihTerm _ opt _) fun _ => .bind (.judge _) fun _ => .bind (ihTerm _ thenTerm _) fun _ =>
          .bind (ihTerm _ elseTerm _) fun _ => .bind (.judge _) fun _ => .pure _
      | aggregate op d =>
        have hover : ∀ d, Bounded (do
            let cd ← checkDom ch levels ctx d (depth + 1)
            judge (op.wants cd.elem)
            return (⟨.aggregate op cd.dom, op.result, cd.refFree⟩ : CheckedTerm)) := fun d =>
          .bind (ihDom _ d _) fun _ => .bind (.judge _) fun _ => .pure _
        cases d with
        | reg =>
          cases op with
          | count => exact .pure _
          | maxT1 | minT1 | reflect => exact hover _
        | read | linkDom | filter | setTerm => cases op <;> exact hover _
      | bigUnion d var body =>
        exact .bind (ihDom _ d _) fun _ => .bind (.sub (fun t => ihTerm _ t _) body _) fun _ => .pure _
      | ref addr args =>
        exact .bind (.judge _) fun _ => .bind (.reachTo _) fun _ =>
          .bind (.referenceArgs (fun level t => ihTerm _ t level) _ _ _) fun _ => .pure _
    · cases d with
      | read r tr => exact .bind (.judge _) fun _ => .pure _
      | linkDom => exact .pure _
      | reg => exact .judge _
      | filter d var pred =>
        exact .bind (ihDom _ d _) fun _ => .bind (.sub (fun t => ihTerm _ t _) pred _) fun _ => .pure _
      | setTerm t => exact .bind (.sub (fun t => ihTerm _ t _) t _) fun _ => .pure _

-- Walks that follow references

/-- A node of a tree, by the tree below it. -/
inductive Node where
  | term (t : Term)
  | dom (d : Dom)

namespace Node

def children : Node → List Node
  | .term (.var _) | .term (.lit _) | .term (.members _) | .term (.tuple _ _) => []
  | .term (.inCoverage _ e _) | .term (.unary _ e) => [.term e]
  | .term (.binary _ x y) | .term (.connective _ x y) | .term (.letIn _ x y) => [.term x, .term y]
  | .term (.quantified _ _ d body) | .term (.bigUnion d _ body) => [.dom d, .term body]
  | .term (.ifSome opt _ thenTerm elseTerm) => [.term opt, .term thenTerm, .term elseTerm]
  | .term (.aggregate _ d) => [.dom d]
  | .term (.ref _ args) => args.map .term
  | .dom (.read _ _) | .dom .linkDom | .dom .reg => []
  | .dom (.filter d _ pred) => [.dom d, .term pred]
  | .dom (.setTerm t) => [.term t]

def refs : Node → List Address
  | .term t => t.refs
  | .dom d => d.refs

def Within (reach : Address → ℕ) : Node → ℕ → ℕ → Prop
  | .term t => t.Within reach
  | .dom d => d.Within reach

end Node

/-- The levels a walk comes to that follows every reference into its referent, the node at
level 0. Evaluation is such a walk, and so is the expansion of references. -/
inductive Visits (defs : DefSource) : Node → ℕ → Prop
  | root {n : Node} : Visits defs n 0
  | child {n c : Node} {level : ℕ} (hc : c ∈ n.children) (h : Visits defs c level) :
      Visits defs n (level + 1)
  | referent {addr : Address} {args : List Term} {r : TypedTerm} {level : ℕ} (hr : defs addr = some r)
      (h : Visits defs (.term r.evaluable) level) :
      Visits defs (.term (.ref addr args)) (referentDepth level)

section

variable {reach : Address → ℕ} {depth bound : ℕ}

theorem Node.Within.depth_le {n : Node} (h : n.Within reach depth bound) : depth ≤ bound := by
  cases n with
  | term t => exact Term.Within.depth_le (t := t) h
  | dom d => exact le_of_add_le_left (Dom.Within.nesting_le (d := d) h)

private theorem argsWithin_mem {ts : List Term} (h : argsWithin reach ts depth bound) {t : Term}
    (ht : t ∈ ts) : t.Within reach depth bound := by
  induction ts generalizing depth with
  | nil => cases ht
  | cons u ts ih =>
    rcases List.mem_cons.1 ht with rfl | ht
    · exact h.1
    · exact (ih h.2 ht).weaken (Nat.le_succ _) le_rfl

theorem Node.Within.child {n c : Node} (h : n.Within reach depth bound) (hc : c ∈ n.children) :
    c.Within reach (depth + 1) bound := by
  cases n with
  | term t =>
    cases t with
    | var | lit | members | tuple => cases hc
    | inCoverage | unary | aggregate =>
      obtain rfl := List.mem_singleton.1 hc
      exact h
    | binary | connective | quantified | letIn | bigUnion =>
      simp only [children, List.mem_cons, List.not_mem_nil, or_false] at hc
      obtain rfl | rfl := hc
      · exact h.1
      · exact h.2
    | ifSome =>
      simp only [children, List.mem_cons, List.not_mem_nil, or_false] at hc
      obtain rfl | rfl | rfl := hc
      · exact h.1
      · exact h.2.1
      · exact h.2.2
    | ref addr args =>
      obtain ⟨t, ht, rfl⟩ := List.mem_map.1 hc
      exact argsWithin_mem h.2 ht
  | dom d =>
    cases d with
    | read | linkDom | reg => cases hc
    | filter =>
      simp only [children, List.mem_cons, List.not_mem_nil, or_false] at hc
      obtain rfl | rfl := hc
      · exact h.1
      · exact h.2
    | setTerm =>
      obtain rfl := List.mem_singleton.1 hc
      exact h

private theorem mem_argRefs {ts : List Term} {t : Term} (ht : t ∈ ts) : t.refs ⊆ argRefs ts := by
  induction ts with
  | nil => cases ht
  | cons u ts ih =>
    rcases List.mem_cons.1 ht with rfl | ht
    · exact List.subset_append_left _ _
    · exact List.Subset.trans (ih ht) (List.subset_append_right _ _)

theorem Node.refs_child {n c : Node} (hc : c ∈ n.children) : c.refs ⊆ n.refs := by
  cases n with
  | term t =>
    cases t with
    | var | lit | members | tuple => cases hc
    | inCoverage | unary | aggregate =>
      obtain rfl := List.mem_singleton.1 hc
      exact List.Subset.refl _
    | binary | connective | quantified | letIn | bigUnion =>
      simp only [children, List.mem_cons, List.not_mem_nil, or_false] at hc
      obtain rfl | rfl := hc
      · exact List.subset_append_left _ _
      · exact List.subset_append_right _ _
    | ifSome =>
      simp only [children, List.mem_cons, List.not_mem_nil, or_false] at hc
      obtain rfl | rfl | rfl := hc
      · exact List.subset_append_left _ _
      · exact List.Subset.trans (List.subset_append_left _ _) (List.subset_append_right _ _)
      · exact List.Subset.trans (List.subset_append_right _ _) (List.subset_append_right _ _)
    | ref addr args =>
      obtain ⟨t, ht, rfl⟩ := List.mem_map.1 hc
      exact List.Subset.trans (mem_argRefs ht) (List.subset_cons_self _ _)
  | dom d =>
    cases d with
    | read | linkDom | reg => cases hc
    | filter =>
      simp only [children, List.mem_cons, List.not_mem_nil, or_false] at hc
      obtain rfl | rfl := hc
      · exact List.subset_append_left _ _
      · exact List.subset_append_right _ _
    | setTerm =>
      obtain rfl := List.mem_singleton.1 hc
      exact List.Subset.refl _

end

-- Checked definitions

section

variable {cat : TypeCatalog} {defs : DefSource} {tt : TypedTerm}

/-- A checked definition's charges stay within its reach, and its reach within the nesting
bound. -/
theorem Checked.within (h : Checked cat defs tt) :
    tt.evaluable.Within (reachOf defs) 0 tt.reach ∧ tt.reach ≤ maxDepth := by
  obtain ⟨rfl, hdefs, hreferent, h⟩ := h
  next ch signed depth =>
  simp only [checkSigned, Outcome.bind_eq_ok_iff, Prod.exists, run_chargeNodes,
    Outcome.refuseSome_eq_ok_iff, Outcome.pure_eq, Outcome.ok.injEq] at h
  obtain ⟨-, s, ⟨-, rfl⟩, -, -, c, s', hcheck, rfl⟩ := h
  have hwithin := (termCharged ch defs (Checked ch.catalog defs) (maxDepth + 1)).term
    (fun a ha level r hr => ⟨hdefs a ha level r hr, hreferent a ha level r hr⟩) hcheck
  have hdepth := hwithin.depth_le
  have hbound := (check_bounded ch (maxDepth + 1)).1 _ _ _ _ _ _ (Nat.zero_le _) hcheck
  refine ⟨?_, (Nat.sub_le _ _).trans hbound⟩
  refine (Term.within_shift _ 0 depth).1 ?_
  show c.term.Within _ (0 + depth) (s'.deepest - depth + depth)
  rwa [Nat.zero_add, Nat.sub_add_cancel hdepth]

/-- A walk that follows references comes to no level past the charges. -/
theorem visits_le {n : Node} {level depth bound : ℕ} (hv : Visits defs n level)
    (h : n.Within (reachOf defs) depth bound) (hrefs : ∀ a ∈ n.refs, ∃ r, defs a = some r ∧ Checked cat defs r) :
    depth + level ≤ bound := by
  induction hv generalizing depth bound with
  | root => exact h.depth_le
  | @child n c level hc _ ih =>
    have hchild := ih (h.child hc) fun a ha => hrefs a (Node.refs_child hc ha)
    omega
  | @referent addr args r level hr _ ih =>
    obtain ⟨r', hr', hchecked⟩ := hrefs addr List.mem_cons_self
    obtain rfl : r = r' := Option.some.inj (hr.symm.trans hr')
    have hbody := ih hchecked.within.1 fun a ha => by
      obtain ⟨r', hr', hc, -⟩ := hchecked.def.referent a ha
      exact ⟨r', hr', hc⟩
    have hcharge : referenceReach depth args.length (reachOf defs addr) ≤ bound := h.1
    rw [reachOf, hr] at hcharge
    simp only [referenceReach, referentDepth, Option.map_some, Option.getD_some] at hcharge ⊢
    omega

/-- **No walk over a checked definition goes past its reach.** -/
theorem Checked.visits_le (h : Checked cat defs tt) {level : ℕ}
    (hv : Visits defs (.term tt.evaluable) level) : level ≤ tt.reach := by
  have hle := Coordination.visits_le hv h.within.1 fun a ha => by
    obtain ⟨r, hr, hc, -⟩ := h.def.referent a ha
    exact ⟨r, hr, hc⟩
  rwa [Nat.zero_add] at hle

end

end Coordination
