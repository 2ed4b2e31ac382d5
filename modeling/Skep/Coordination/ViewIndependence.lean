import Skep.Coordination.Dynamics

/-!
# View independence

The evaluator picks slices by the view and leaves filtered addresses out of some answers at
the default view. A term that the scan accepts reaches neither, so its value is one at every
view.

## Main results

- `Coordination.UnaryOp.eval_view`, `Coordination.DomRead.enum_view` — what does not move with
  the view
- `Coordination.viewIndependent_doms` — the scan accepts every domain inside what it accepts
- `Coordination.viewIndependent_sound` — one value at every view
-/

namespace Coordination

variable (cx : EvalCtx) (view view' : View)

theorem KeyedRead.eval_view {r : KeyedRead} (h : r.movesWithView = false) (k : TypeKey) (operand : Value) :
    r.eval { cx with view := view } k operand = r.eval { cx with view := view' } k operand := by
  cases r with
  | isK | targetsOf | succs | chain | sourcesTo | stale => cases h
  | isFiltered | tip | targetOf | age => rfl

theorem UnaryOp.eval_view {op : UnaryOp} (h : op.movesWithView = false) (operand : Value) :
    op.eval { cx with view := view } operand = op.eval { cx with view := view' } operand := by
  cases op with
  | keyed r tr =>
    rw [UnaryOp.eval, UnaryOp.eval]
    exact congrArg _ (funext fun k => KeyedRead.eval_view cx view view' h k operand)
  | targetsKeyed | isDoc | isEmpty | elems | mapGet | defined | not => rfl

theorem BinaryOp.eval_view (op : BinaryOp) (x y : Value) :
    op.eval { cx with view := view } x y = op.eval { cx with view := view' } x y := by
  cases op <;> rfl

theorem DomRead.enum_view {r : DomRead} (h : r.movesWithView = false) (k : TypeKey) :
    r.enum { cx with view := view } k = r.enum { cx with view := view' } k := by
  cases r with
  | members => cases h
  | active | audit => rfl

variable (call call' : TypedTerm → Env → Outcome Empty Value)

theorem both_independent {x y : Outcome Empty Bool} (h : (do if ← x then y else return false) = .ok true) :
    x = .ok true ∧ y = .ok true := by
  obtain ⟨b, hx, hb⟩ := Outcome.bind_eq_ok_iff.1 h
  cases b with
  | true => exact ⟨hx, hb⟩
  | false => cases hb

mutual

/-- A term that the scan accepts has one value at every view. -/
theorem evalTerm_view (t : Term) (h : viewIndependent t = .ok true) (env : Env) :
    evalTerm { cx with view := view } call env t = evalTerm { cx with view := view' } call' env t := by
  cases t with
  | var | lit | tuple => rfl
  | members tr => cases h
  | inCoverage slot e v =>
    rw [viewIndependent] at h
    rw [evalTerm, evalTerm, evalTerm_view e h]
  | unary op e =>
    rw [viewIndependent] at h
    by_cases hop : op.movesWithView = true
    · rw [if_pos hop] at h
      cases h
    · rw [if_neg hop] at h
      rw [evalTerm, evalTerm, evalTerm_view e h]
      exact congrArg _ (funext fun x => UnaryOp.eval_view cx view view' (Bool.eq_false_iff.2 hop) x)
  | binary op x y =>
    obtain ⟨hx, hy⟩ := both_independent h
    rw [evalTerm, evalTerm, evalTerm_view x hx, evalTerm_view y hy]
    exact congrArg _ (funext fun x => congrArg _ (funext fun y => BinaryOp.eval_view cx view view' op x y))
  | connective op x y =>
    obtain ⟨hx, hy⟩ := both_independent h
    rw [evalTerm, evalTerm, evalTerm_view x hx, evalTerm_view y hy]
  | quantified q var dom body =>
    obtain ⟨hd, hb⟩ := both_independent h
    have hbody := fun inner => evalTerm_view body hb inner
    simp only [evalTerm, enumDom_view dom hd env, hbody]
  | letIn var bound body =>
    obtain ⟨hbound, hb⟩ := both_independent h
    have hbody := fun inner => evalTerm_view body hb inner
    simp only [evalTerm, evalTerm_view bound hbound env, hbody]
  | ifSome opt var thenTerm elseTerm =>
    obtain ⟨hopt, hrest⟩ := both_independent (y := do
      if ← viewIndependent thenTerm then viewIndependent elseTerm else return false) h
    obtain ⟨hthen, helse⟩ := both_independent hrest
    have hinner := fun inner => evalTerm_view thenTerm hthen inner
    simp only [evalTerm, evalTerm_view opt hopt env, hinner, evalTerm_view elseTerm helse env]
  | aggregate op dom =>
    rw [viewIndependent] at h
    rw [evalTerm, evalTerm, enumDom_view dom h]
  | bigUnion dom var body =>
    obtain ⟨hd, hb⟩ := both_independent h
    have hbody := fun inner => evalTerm_view body hb inner
    simp only [evalTerm, enumDom_view dom hd env, hbody]
  | ref => cases h

/-- A domain that the scan accepts has the same elements at every view. -/
theorem enumDom_view (d : Dom) (h : viewIndependentDom d = .ok true) (env : Env) :
    enumDom { cx with view := view } call env d = enumDom { cx with view := view' } call' env d := by
  cases d with
  | read r tr =>
    have hr : r.movesWithView = false := by simpa [viewIndependentDom] using h
    rw [enumDom, enumDom]
    exact congrArg _ (funext fun k => DomRead.enum_view cx view view' hr k)
  | linkDom | reg => rfl
  | filter dom var pred =>
    obtain ⟨hd, hp⟩ := both_independent h
    have hpred := fun inner => evalTerm_view pred hp inner
    simp only [enumDom, enumDom_view dom hd env, hpred]
  | setTerm t =>
    rw [viewIndependentDom] at h
    rw [enumDom, enumDom, evalTerm_view t h]

end

mutual

/-- The domains inside a term. -/
def Term.doms : Term → List Dom
  | .var _ | .lit _ | .members _ | .tuple _ _ => []
  | .inCoverage _ e _ | .unary _ e => e.doms
  | .binary _ x y | .connective _ x y | .letIn _ x y => x.doms ++ y.doms
  | .quantified _ _ dom body | .bigUnion dom _ body => dom.doms ++ body.doms
  | .ifSome opt _ thenTerm elseTerm => opt.doms ++ thenTerm.doms ++ elseTerm.doms
  | .aggregate _ dom => dom.doms
  | .ref _ args => argDoms args

def argDoms : List Term → List Dom
  | [] => []
  | t :: ts => t.doms ++ argDoms ts

/-- A domain, and the domains inside it. -/
def Dom.doms : Dom → List Dom
  | .read r tr => [.read r tr]
  | .linkDom => [.linkDom]
  | .reg => [.reg]
  | .filter dom var pred => .filter dom var pred :: (dom.doms ++ pred.doms)
  | .setTerm t => .setTerm t :: t.doms

end

mutual

/-- The scan accepts every domain inside a term that it accepts. -/
theorem viewIndependent_doms (t : Term) (h : viewIndependent t = .ok true) :
    ∀ d ∈ t.doms, viewIndependentDom d = .ok true := by
  cases t with
  | var | lit | tuple | members => exact nofun
  | inCoverage slot e v =>
    rw [viewIndependent] at h
    exact viewIndependent_doms e h
  | unary op e =>
    rw [viewIndependent] at h
    by_cases hop : op.movesWithView = true
    · rw [if_pos hop] at h
      cases h
    · rw [if_neg hop] at h
      exact viewIndependent_doms e h
  | binary op x y | connective op x y | letIn var x y =>
    obtain ⟨hx, hy⟩ := both_independent h
    exact List.forall_mem_append.2 ⟨viewIndependent_doms x hx, viewIndependent_doms y hy⟩
  | quantified q var dom body | bigUnion dom var body =>
    obtain ⟨hd, hb⟩ := both_independent h
    exact List.forall_mem_append.2 ⟨viewIndependentDom_doms dom hd, viewIndependent_doms body hb⟩
  | ifSome opt var thenTerm elseTerm =>
    obtain ⟨hopt, hrest⟩ := both_independent (y := do
      if ← viewIndependent thenTerm then viewIndependent elseTerm else return false) h
    obtain ⟨hthen, helse⟩ := both_independent hrest
    exact List.forall_mem_append.2 ⟨List.forall_mem_append.2 ⟨viewIndependent_doms opt hopt,
      viewIndependent_doms thenTerm hthen⟩, viewIndependent_doms elseTerm helse⟩
  | aggregate op dom =>
    rw [viewIndependent] at h
    exact viewIndependentDom_doms dom h
  | ref => cases h

theorem viewIndependentDom_doms (d : Dom) (h : viewIndependentDom d = .ok true) :
    ∀ d' ∈ d.doms, viewIndependentDom d' = .ok true := by
  cases d with
  | read | linkDom | reg =>
    intro d' hd'
    obtain rfl := List.mem_singleton.1 hd'
    exact h
  | filter dom var pred =>
    obtain ⟨hd, hp⟩ := both_independent h
    exact List.forall_mem_cons.2 ⟨h, List.forall_mem_append.2 ⟨viewIndependentDom_doms dom hd,
      viewIndependent_doms pred hp⟩⟩
  | setTerm t =>
    refine List.forall_mem_cons.2 ⟨h, ?_⟩
    rw [viewIndependentDom] at h
    exact viewIndependent_doms t h

end

theorem evalAt_eq (depth : ℕ) (cx : EvalCtx) : ∃ call, (∀ env t, evalAt cx depth env t = evalTerm cx call env t) ∧
    ∀ env d, enumAt cx depth env d = enumDom cx call env d := by
  cases depth with
  | zero => exact ⟨_, fun _ _ => rfl, fun _ _ => rfl⟩
  | succ depth => exact ⟨_, fun _ _ => rfl, fun _ _ => rfl⟩

/-- A term that the scan accepts has one value at every view, and so has every domain inside
it, whatever the catalog filters by and whatever those classes hold. -/
theorem viewIndependent_sound (cx : EvalCtx) (t : Term) (h : viewIndependent t = .ok true) (depth : ℕ) (env : Env) :
    (∀ view view', evalAt { cx with view := view } depth env t = evalAt { cx with view := view' } depth env t) ∧
      ∀ d ∈ t.doms, ∀ inner view view',
        enumAt { cx with view := view } depth inner d = enumAt { cx with view := view' } depth inner d := by
  constructor
  · intro view view'
    obtain ⟨call, hcall, -⟩ := evalAt_eq depth { cx with view := view }
    obtain ⟨call', hcall', -⟩ := evalAt_eq depth { cx with view := view' }
    rw [hcall, hcall']
    exact evalTerm_view cx view view' call call' t h env
  · intro d hd inner view view'
    obtain ⟨call, -, hcall⟩ := evalAt_eq depth { cx with view := view }
    obtain ⟨call', -, hcall'⟩ := evalAt_eq depth { cx with view := view' }
    rw [hcall, hcall']
    exact enumDom_view cx view view' call call' d (viewIndependent_doms t h d hd) inner

/-- Whether some active retraction is filtered. -/
private def someFiltered (cat : TypeCatalog) : Term :=
  .quantified .any ⟨0⟩ (.read .active (.concrete (cat.registry.reservedType .retraction)))
    (.unary (.keyed .isFiltered (.concrete (cat.registry.reservedType .retired))) (.tuple .addr ⟨0⟩))

/-- The members of a class, which the scan refuses. -/
private def certifiedOnes (cat : TypeCatalog) : Term := .members (.concrete (cat.registry.reservedType .predStable))

private def certifying : Address := ⟨⟨[1, 1, 0, 1, 0, 2, 0, 2, 2], by simp⟩, .element, by decide⟩

private def withdrawal : Address := ⟨⟨[1, 1, 0, 1, 0, 2, 0, 2, 3], by simp⟩, .element, by decide⟩

private def retirement : Address := ⟨⟨[1, 1, 0, 1, 0, 2, 0, 2, 4], by simp⟩, .element, by decide⟩

/-- A certificate that a retraction takes back, and a mark that retires the retraction. -/
private def withdrawn (reg : TypeRegistry) : LinkState :=
  ⟨((OrdMap.empty.insert certifying ⟨enc [headDocument], enc [], reg.reservedType .predStable⟩).insert withdrawal
    ⟨enc [headDocument], enc [certifying], reg.reservedType .retraction⟩).insert retirement
      ⟨enc [withdrawal], enc [], reg.reservedType .retired⟩⟩

theorem viewIndependent_sound_someFiltered :
    let cx : EvalCtx := ⟨⟨TypeRegistry.build⟩, ⟨withdrawn .build, fun _ => true⟩, .genesis, .active, none⟩
    (∀ view view', evalAt { cx with view := view } 0 Env.empty (someFiltered cx.catalog) =
      evalAt { cx with view := view' } 0 Env.empty (someFiltered cx.catalog)) ∧
    evalAt cx 0 Env.empty (someFiltered cx.catalog) = .ok (.bool true) ∧
    evalAt { cx with view := .audit } 0 Env.empty (certifiedOnes cx.catalog) ≠
      evalAt { cx with view := .default } 0 Env.empty (certifiedOnes cx.catalog) := by
  intro cx
  refine ⟨(viewIndependent_sound cx (someFiltered cx.catalog) rfl 0 Env.empty).1, ?_, ?_⟩
  · decide +kernel
  · decide +kernel

end Coordination
