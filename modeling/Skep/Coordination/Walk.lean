import Skep.Coordination.Ast

/-!
# Rewriting walks

A rewrite rebuilds a tree with every child rewritten. The substitution of a
class variable, the expansion of references and the renaming of a referent's
body are rewrites that differ in what they do at a type position, at a variable
use, under a binder and at a reference. All charge one budget for every node
they build and the payload it carries. The program builds stubs once the budget
is spent and its callers refuse the result; here the walk refuses at once.
-/

namespace Coordination

/-- The bound on the size of a tree, in nodes and payload units. -/
def maxTermNodes : ℕ := 2 ^ 16

/-- The limbs of a literal. -/
def limbs (n : ℕ) : ℕ := (n.size + 63) / 64

/-- A node's charge: one unit, and one for each unit of payload it carries. -/
def weight : Term → ℕ
  | .lit (.addr a) => 1 + a.tumbler.len
  | .lit (.nat n) => 1 + limbs n
  | .ref addr _ => 1 + addr.tumbler.len
  | _ => 1

/-- The budget is spent. -/
inductive BudgetSpent where
  | mk
  deriving DecidableEq, Repr

/-- A walk's spend, and how many fresh names it has taken. -/
structure WalkState where
  nodes : ℕ := 0
  nextName : ℕ := 0

abbrev WalkM := StateT WalkState (Outcome BudgetSpent)

def charge (units : ℕ) : WalkM Unit := fun s =>
  if maxTermNodes < s.nodes + units then .err .mk else .ok ((), { s with nodes := s.nodes + units })

/-- The next reserved name. -/
def fresh : WalkM VarId := fun s =>
  .ok (VarId.expansion s.nextName, { s with nextName := s.nextName + 1 })

def UnaryOp.retype (f : TypeRef → TypeRef) : UnaryOp → UnaryOp
  | .keyed r tr => .keyed r (f tr)
  | .mapGet tr => .mapGet (f tr)
  | op => op

def BinaryOp.retype (f : TypeRef → TypeRef) : BinaryOp → BinaryOp
  | .isInChain tr => .isInChain (f tr)
  | op => op

/-- What a rewrite does at the positions it acts on, in a scope. -/
structure Rewriter (σ : Type) where
  /-- Whether a domain node is charged too. -/
  chargesDoms : Bool
  /-- Whether a node is left as it stands. -/
  keeps : Term → Bool
  typeref : TypeRef → TypeRef
  /-- A variable's use, never a binder. -/
  varUse : σ → VarId → VarId
  /-- A binder, and the scope of its body. -/
  under : σ → VarId → WalkM (VarId × σ)
  /-- Whether a reference may stand in the tree. -/
  meetsRefs : Bool
  /-- A reference, its arguments rewritten. -/
  reference : Address → List Term → WalkM Term

namespace Rewriter

variable {σ : Type} (r : Rewriter σ)

/-- Charge a node and rewrite it unless it is kept. -/
def node (t : Term) (rewrite : WalkM Term) : WalkM Term := do
  charge (weight t)
  if r.keeps t then return t else rewrite

def domNode (rewrite : WalkM Dom) : WalkM Dom := do
  if r.chargesDoms then charge 1
  rewrite

mutual

/-- Rewrite a term. A binder's name is settled after what stands outside its scope,
save the branch of an `ifSome` that binds nothing, which comes last. -/
def term (scope : σ) : Term → WalkM Term
  | .var v => r.node (.var v) do return .var (r.varUse scope v)
  | .lit l => r.node (.lit l) do return .lit l
  | .members tr => r.node (.members tr) do return .members (r.typeref tr)
  | .tuple read v => r.node (.tuple read v) do return .tuple read (r.varUse scope v)
  | .inCoverage slot e v => r.node (.inCoverage slot e v) do
      return .inCoverage slot (← term scope e) (r.varUse scope v)
  | .unary op e => r.node (.unary op e) do return .unary (op.retype r.typeref) (← term scope e)
  | .binary op x y => r.node (.binary op x y) do
      return .binary (op.retype r.typeref) (← term scope x) (← term scope y)
  | .connective op x y => r.node (.connective op x y) do
      return .connective op (← term scope x) (← term scope y)
  | .quantified q var d body => r.node (.quantified q var d body) do
      let d' ← dom scope d
      let (var', inner) ← r.under scope var
      return .quantified q var' d' (← term inner body)
  | .letIn var bound body => r.node (.letIn var bound body) do
      let bound' ← term scope bound
      let (var', inner) ← r.under scope var
      return .letIn var' bound' (← term inner body)
  | .ifSome opt var thenTerm elseTerm => r.node (.ifSome opt var thenTerm elseTerm) do
      let opt' ← term scope opt
      let (var', inner) ← r.under scope var
      let thenTerm' ← term inner thenTerm
      return .ifSome opt' var' thenTerm' (← term scope elseTerm)
  | .aggregate op d => r.node (.aggregate op d) do return .aggregate op (← dom scope d)
  | .bigUnion d var body => r.node (.bigUnion d var body) do
      let d' ← dom scope d
      let (var', inner) ← r.under scope var
      return .bigUnion d' var' (← term inner body)
  | .ref addr args => r.node (.ref addr args) do
      if r.meetsRefs then r.reference addr (← terms scope args) else fun _ => .fault

/-- Rewrite the arguments of a reference. -/
def terms (scope : σ) : List Term → WalkM (List Term)
  | [] => return []
  | t :: ts => do
      let t' ← term scope t
      return t' :: (← terms scope ts)

/-- Rewrite a domain. -/
def dom (scope : σ) : Dom → WalkM Dom
  | .read read tr => r.domNode do return .read read (r.typeref tr)
  | .linkDom => r.domNode do return .linkDom
  | .reg => r.domNode do return .reg
  | .filter d var pred => r.domNode do
      let d' ← dom scope d
      let (var', inner) ← r.under scope var
      return .filter d' var' (← term inner pred)
  | .setTerm t => r.domNode do return .setTerm (← term scope t)

end

end Rewriter

def TypeRef.subst (cvar : VarId) (key : TypeKey) : TypeRef → TypeRef
  | .classVar v => if v = cvar then .concrete key else .classVar v
  | .concrete k => .concrete k

/-- Whether a quantifier over the registered types binds the class variable again. -/
def rebinds (cvar : VarId) : Term → Bool
  | .quantified _ var .reg _ => var == cvar
  | _ => false

/-- The substitution of a key for a class variable, up to where it is bound again. -/
def SubstClassVar (cvar : VarId) (key : TypeKey) : Rewriter Unit where
  chargesDoms := false
  keeps := rebinds cvar
  typeref := TypeRef.subst cvar key
  varUse _ v := v
  under _ v := return (v, ())
  meetsRefs := true
  reference addr args := return .ref addr args

def substClassVar (cvar : VarId) (key : TypeKey) (body : Term) : WalkM Term :=
  (SubstClassVar cvar key).term () body

mutual

/-- The addresses a term refers to. -/
def Term.refs : Term → List Address
  | .var _ | .lit _ | .members _ | .tuple _ _ => []
  | .inCoverage _ e _ | .unary _ e => e.refs
  | .binary _ x y | .connective _ x y => x.refs ++ y.refs
  | .quantified _ _ d body | .bigUnion d _ body => d.refs ++ body.refs
  | .letIn _ bound body => bound.refs ++ body.refs
  | .ifSome opt _ thenTerm elseTerm => opt.refs ++ (thenTerm.refs ++ elseTerm.refs)
  | .aggregate _ d => d.refs
  | .ref addr args => addr :: argRefs args

def argRefs : List Term → List Address
  | [] => []
  | t :: ts => t.refs ++ argRefs ts

def Dom.refs : Dom → List Address
  | .read _ _ | .linkDom | .reg => []
  | .filter d _ pred => d.refs ++ pred.refs
  | .setTerm t => t.refs

end

section

variable {s s' : WalkState} {units : ℕ}

@[simp] theorem run_charge {u : Unit} : (charge units).run s = .ok (u, s') ↔
    s.nodes + units ≤ maxTermNodes ∧ { s with nodes := s.nodes + units } = s' := by
  show (if _ then _ else _) = _ ↔ _
  split
  · simp
    omega
  · simp
    omega

@[simp] theorem run_fresh {v : VarId} :
    fresh.run s = .ok (v, s') ↔ VarId.expansion s.nextName = v ∧ { s with nextName := s.nextName + 1 } = s' := by
  show Outcome.ok _ = _ ↔ _
  simp

end

namespace Rewriter

variable {σ : Type} {r : Rewriter σ} {s s' : WalkState}

theorem of_node {t t' : Term} {rewrite : WalkM Term} (h : (r.node t rewrite).run s = .ok (t', s')) :
    (r.keeps t = true ∧ t' = t ∧ s'.nextName = s.nextName) ∨
      (r.keeps t = false ∧ ∃ s₁, s₁.nextName = s.nextName ∧ rewrite.run s₁ = .ok (t', s')) := by
  simp only [node, StateT.run_bind, Outcome.bind_eq_ok_iff, Prod.exists, run_charge] at h
  obtain ⟨-, s₁, ⟨-, rfl⟩, h⟩ := h
  cases hk : r.keeps t with
  | true =>
    rw [hk, if_pos rfl] at h
    cases h
    exact .inl ⟨rfl, rfl, rfl⟩
  | false =>
    rw [hk, if_neg (by simp)] at h
    refine .inr ⟨rfl, _, ?_, h⟩
    rfl

theorem rewritten {t t' : Term} {rewrite : WalkM Term} (hk : r.keeps t = false)
    (h : (r.node t rewrite).run s = .ok (t', s')) :
    ∃ s₁, s₁.nextName = s.nextName ∧ rewrite.run s₁ = .ok (t', s') := by
  obtain ⟨hk', -⟩ | ⟨-, h⟩ := of_node h
  · rw [hk] at hk'
    cases hk'
  · exact h

theorem of_domNode {d' : Dom} {rewrite : WalkM Dom} (h : (r.domNode rewrite).run s = .ok (d', s')) :
    ∃ s₁, s₁.nextName = s.nextName ∧ rewrite.run s₁ = .ok (d', s') := by
  unfold domNode at h
  split at h
  · simp only [StateT.run_bind, Outcome.bind_eq_ok_iff, Prod.exists, run_charge] at h
    obtain ⟨-, s₁, ⟨-, rfl⟩, h⟩ := h
    refine ⟨_, ?_, h⟩
    rfl
  · exact ⟨s, rfl, h⟩

end Rewriter

mutual

/-- The term with a key for a class variable. -/
def Term.substClass (cvar : VarId) (key : TypeKey) : Term → Term
  | .var v => .var v
  | .lit l => .lit l
  | .members tr => .members (tr.subst cvar key)
  | .tuple r v => .tuple r v
  | .inCoverage slot e v => .inCoverage slot (e.substClass cvar key) v
  | .unary op e => .unary (op.retype (TypeRef.subst cvar key)) (e.substClass cvar key)
  | .binary op x y =>
      .binary (op.retype (TypeRef.subst cvar key)) (x.substClass cvar key) (y.substClass cvar key)
  | .connective op x y => .connective op (x.substClass cvar key) (y.substClass cvar key)
  | .quantified q var d body =>
      if rebinds cvar (.quantified q var d body) then .quantified q var d body
      else .quantified q var (d.substClass cvar key) (body.substClass cvar key)
  | .letIn var bound body => .letIn var (bound.substClass cvar key) (body.substClass cvar key)
  | .ifSome opt var thenTerm elseTerm =>
      .ifSome (opt.substClass cvar key) var (thenTerm.substClass cvar key) (elseTerm.substClass cvar key)
  | .aggregate op d => .aggregate op (d.substClass cvar key)
  | .bigUnion d var body => .bigUnion (d.substClass cvar key) var (body.substClass cvar key)
  | .ref addr args => .ref addr (argsSubstClass cvar key args)

def argsSubstClass (cvar : VarId) (key : TypeKey) : List Term → List Term
  | [] => []
  | t :: ts => t.substClass cvar key :: argsSubstClass cvar key ts

def Dom.substClass (cvar : VarId) (key : TypeKey) : Dom → Dom
  | .read r tr => .read r (tr.subst cvar key)
  | .linkDom => .linkDom
  | .reg => .reg
  | .filter d var pred => .filter (d.substClass cvar key) var (pred.substClass cvar key)
  | .setTerm t => .setTerm (t.substClass cvar key)

end

section

variable {cvar : VarId} {key : TypeKey}

mutual

/-- The walk that substitutes a class variable builds the substituted term. -/
theorem term_substClassVar (t : Term) {s s' : WalkState} {t' : Term}
    (h : ((SubstClassVar cvar key).term () t).run s = .ok (t', s')) : t' = t.substClass cvar key := by
  cases t with
  | var v =>
    unfold Rewriter.term at h
    obtain ⟨s₁, -, h⟩ := Rewriter.rewritten rfl h
    cases h
    rfl
  | lit l =>
    unfold Rewriter.term at h
    obtain ⟨s₁, -, h⟩ := Rewriter.rewritten rfl h
    cases h
    rfl
  | members tr =>
    unfold Rewriter.term at h
    obtain ⟨s₁, -, h⟩ := Rewriter.rewritten rfl h
    cases h
    rfl
  | tuple r v =>
    unfold Rewriter.term at h
    obtain ⟨s₁, -, h⟩ := Rewriter.rewritten rfl h
    cases h
    rfl
  | inCoverage slot e v =>
    unfold Rewriter.term at h
    obtain ⟨s₁, -, h⟩ := Rewriter.rewritten rfl h
    simp only [StateT.run_bind, Outcome.bind_eq_ok_iff, Prod.exists] at h
    obtain ⟨e', s₂, he, h⟩ := h
    cases h
    rw [Term.substClass, term_substClassVar e he]
    rfl
  | unary op e =>
    unfold Rewriter.term at h
    obtain ⟨s₁, -, h⟩ := Rewriter.rewritten rfl h
    simp only [StateT.run_bind, Outcome.bind_eq_ok_iff, Prod.exists] at h
    obtain ⟨e', s₂, he, h⟩ := h
    cases h
    rw [Term.substClass, term_substClassVar e he]
    rfl
  | binary op x y =>
    unfold Rewriter.term at h
    obtain ⟨s₁, -, h⟩ := Rewriter.rewritten rfl h
    simp only [StateT.run_bind, Outcome.bind_eq_ok_iff, Prod.exists] at h
    obtain ⟨x', s₂, hx, y', s₃, hy, h⟩ := h
    cases h
    rw [Term.substClass, term_substClassVar x hx, term_substClassVar y hy]
    rfl
  | connective op x y =>
    unfold Rewriter.term at h
    obtain ⟨s₁, -, h⟩ := Rewriter.rewritten rfl h
    simp only [StateT.run_bind, Outcome.bind_eq_ok_iff, Prod.exists] at h
    obtain ⟨x', s₂, hx, y', s₃, hy, h⟩ := h
    cases h
    rw [Term.substClass, term_substClassVar x hx, term_substClassVar y hy]
  | quantified q var d body =>
    unfold Rewriter.term at h
    obtain ⟨hk, rfl, -⟩ | ⟨hk, s₁, -, h⟩ := Rewriter.of_node h
    · exact (if_pos hk).symm
    · simp only [StateT.run_bind, Outcome.bind_eq_ok_iff, Prod.exists] at h
      obtain ⟨d', s₂, hd, var', scope, s₃, hu, body', s₄, hbody, h⟩ := h
      cases hu
      cases h
      rw [dom_substClassVar d hd, term_substClassVar body hbody]
      exact (if_neg (Bool.eq_false_iff.1 hk)).symm
  | letIn var bound body =>
    unfold Rewriter.term at h
    obtain ⟨s₁, -, h⟩ := Rewriter.rewritten rfl h
    simp only [StateT.run_bind, Outcome.bind_eq_ok_iff, Prod.exists] at h
    obtain ⟨bound', s₂, hbound, var', scope, s₃, hu, body', s₄, hbody, h⟩ := h
    cases hu
    cases h
    rw [Term.substClass, term_substClassVar bound hbound, term_substClassVar body hbody]
  | ifSome opt var thenTerm elseTerm =>
    unfold Rewriter.term at h
    obtain ⟨s₁, -, h⟩ := Rewriter.rewritten rfl h
    simp only [StateT.run_bind, Outcome.bind_eq_ok_iff, Prod.exists] at h
    obtain ⟨opt', s₂, hopt, var', scope, s₃, hu, then', s₄, hthen, else', s₅, helse, h⟩ := h
    cases hu
    cases h
    rw [Term.substClass, term_substClassVar opt hopt, term_substClassVar thenTerm hthen,
      term_substClassVar elseTerm helse]
  | aggregate op d =>
    unfold Rewriter.term at h
    obtain ⟨s₁, -, h⟩ := Rewriter.rewritten rfl h
    simp only [StateT.run_bind, Outcome.bind_eq_ok_iff, Prod.exists] at h
    obtain ⟨d', s₂, hd, h⟩ := h
    cases h
    rw [Term.substClass, dom_substClassVar d hd]
  | bigUnion d var body =>
    unfold Rewriter.term at h
    obtain ⟨s₁, -, h⟩ := Rewriter.rewritten rfl h
    simp only [StateT.run_bind, Outcome.bind_eq_ok_iff, Prod.exists] at h
    obtain ⟨d', s₂, hd, var', scope, s₃, hu, body', s₄, hbody, h⟩ := h
    cases hu
    cases h
    rw [Term.substClass, dom_substClassVar d hd, term_substClassVar body hbody]
  | ref addr args =>
    unfold Rewriter.term at h
    obtain ⟨s₁, -, h⟩ := Rewriter.rewritten rfl h
    simp only [SubstClassVar, if_true, StateT.run_bind, Outcome.bind_eq_ok_iff, Prod.exists] at h
    obtain ⟨args', s₂, hargs, h⟩ := h
    cases h
    rw [Term.substClass, terms_substClassVar args hargs]

theorem terms_substClassVar (ts : List Term) {s s' : WalkState} {ts' : List Term}
    (h : ((SubstClassVar cvar key).terms () ts).run s = .ok (ts', s')) :
    ts' = argsSubstClass cvar key ts := by
  cases ts with
  | nil =>
    cases h
    rfl
  | cons t ts =>
    unfold Rewriter.terms at h
    simp only [StateT.run_bind, Outcome.bind_eq_ok_iff, Prod.exists] at h
    obtain ⟨t', s₁, ht, ts', s₂, hts, h⟩ := h
    cases h
    rw [argsSubstClass, term_substClassVar t ht, terms_substClassVar ts hts]

theorem dom_substClassVar (d : Dom) {s s' : WalkState} {d' : Dom}
    (h : ((SubstClassVar cvar key).dom () d).run s = .ok (d', s')) : d' = d.substClass cvar key := by
  cases d with
  | read r tr =>
    cases h
    rfl
  | linkDom =>
    cases h
    rfl
  | reg =>
    cases h
    rfl
  | filter d var pred =>
    unfold Rewriter.dom at h
    obtain ⟨s₁, -, h⟩ := Rewriter.of_domNode h
    simp only [StateT.run_bind, Outcome.bind_eq_ok_iff, Prod.exists] at h
    obtain ⟨d', s₂, hd, var', scope, s₃, hu, pred', s₄, hpred, h⟩ := h
    cases hu
    cases h
    rw [Dom.substClass, dom_substClassVar d hd, term_substClassVar pred hpred]
  | setTerm t =>
    unfold Rewriter.dom at h
    obtain ⟨s₁, -, h⟩ := Rewriter.of_domNode h
    simp only [StateT.run_bind, Outcome.bind_eq_ok_iff, Prod.exists] at h
    obtain ⟨t', s₂, ht, h⟩ := h
    cases h
    rw [Dom.substClass, term_substClassVar t ht]

end

mutual

theorem refs_substClass (t : Term) : (t.substClass cvar key).refs = t.refs := by
  cases t with
  | var | lit | members | tuple => rfl
  | inCoverage slot e v => exact refs_substClass e
  | unary op e => exact refs_substClass e
  | binary op x y | connective op x y =>
    rw [Term.substClass, Term.refs, Term.refs, refs_substClass x, refs_substClass y]
  | quantified q var d body =>
    rw [Term.substClass]
    split
    · rfl
    · rw [Term.refs, Term.refs, refs_domSubstClass d, refs_substClass body]
  | letIn var bound body =>
    rw [Term.substClass, Term.refs, Term.refs, refs_substClass bound, refs_substClass body]
  | ifSome opt var thenTerm elseTerm =>
    rw [Term.substClass, Term.refs, Term.refs, refs_substClass opt, refs_substClass thenTerm,
      refs_substClass elseTerm]
  | aggregate op d => exact refs_domSubstClass d
  | bigUnion d var body =>
    rw [Term.substClass, Term.refs, Term.refs, refs_domSubstClass d, refs_substClass body]
  | ref addr args => rw [Term.substClass, Term.refs, Term.refs, refs_argsSubstClass args]

theorem refs_argsSubstClass (ts : List Term) : argRefs (argsSubstClass cvar key ts) = argRefs ts := by
  cases ts with
  | nil => rfl
  | cons t ts => rw [argsSubstClass, argRefs, argRefs, refs_substClass t, refs_argsSubstClass ts]

theorem refs_domSubstClass (d : Dom) : (d.substClass cvar key).refs = d.refs := by
  cases d with
  | read | linkDom | reg => rfl
  | filter d var pred => rw [Dom.substClass, Dom.refs, Dom.refs, refs_domSubstClass d, refs_substClass pred]
  | setTerm t => exact refs_substClass t

end

mutual

theorem names_substClass {p : VarId → Prop} (t : Term) (h : t.Names p) : (t.substClass cvar key).Names p := by
  cases t with
  | var | lit | members | tuple => exact h
  | inCoverage slot e v => exact ⟨names_substClass e h.1, h.2⟩
  | unary op e => exact names_substClass e h
  | binary op x y | connective op x y => exact ⟨names_substClass x h.1, names_substClass y h.2⟩
  | quantified q var d body =>
    rw [Term.substClass]
    split
    · exact h
    · exact ⟨h.1, names_domSubstClass d h.2.1, names_substClass body h.2.2⟩
  | letIn var bound body => exact ⟨h.1, names_substClass bound h.2.1, names_substClass body h.2.2⟩
  | ifSome opt var thenTerm elseTerm =>
    exact ⟨h.1, names_substClass opt h.2.1, names_substClass thenTerm h.2.2.1,
      names_substClass elseTerm h.2.2.2⟩
  | aggregate op d => exact names_domSubstClass d h
  | bigUnion d var body => exact ⟨h.1, names_domSubstClass d h.2.1, names_substClass body h.2.2⟩
  | ref addr args => exact names_argsSubstClass args h

theorem names_argsSubstClass {p : VarId → Prop} (ts : List Term) (h : argNames p ts) :
    argNames p (argsSubstClass cvar key ts) := by
  cases ts with
  | nil => exact h
  | cons t ts => exact ⟨names_substClass t h.1, names_argsSubstClass ts h.2⟩

theorem names_domSubstClass {p : VarId → Prop} (d : Dom) (h : d.Names p) :
    (d.substClass cvar key).Names p := by
  cases d with
  | read | linkDom | reg => exact h
  | filter d var pred => exact ⟨h.1, names_domSubstClass d h.2.1, names_substClass pred h.2.2⟩
  | setTerm t => exact names_substClass t h

end

end

end Coordination
