import Skep.Coordination.Inlining
import Skep.Coordination.Sorting

/-!
# The sorts of the flat expansion

A rewrite that captures no variable keeps the sort of what it rewrites, in a context that holds
the renamed variables. The flat expansion of a checked definition has so the definition's sort,
in the context of its parameters.
-/

namespace Coordination

section

variable (cat : TypeCatalog) (ds ds' : Option DefSource)

/-- A rewritten term has the sorts of the term it stands for, where its variables do. -/
def KeepsSort (use : VarId → VarId) (t t' : Term) : Prop :=
  ∀ (ctx ctx' : Ctx) (s : ValueSort), (∀ u ∈ t.free, ctx' (use u) = ctx u) →
    TermSorted cat ds ctx t s → TermSorted cat ds' ctx' t' s

/-- A rewritten domain has the sorts of the domain it stands for. -/
def DomKeepsSort (use : VarId → VarId) (d d' : Dom) : Prop :=
  ∀ (ctx ctx' : Ctx) (s : ValueSort), (∀ u ∈ d.free, ctx' (use u) = ctx u) →
    DomSorted cat ds ctx d s → DomSorted cat ds' ctx' d' s

/-- What stands in a reference's place has the reference's sort. -/
def ReferenceKeepsSort {σ : Type} (r : Rewriter σ) (q : Address → ℕ → Prop) : Prop :=
  ∀ {scope addr args args' t' s s'}, r.meetsRefs = true → q addr args.length →
    List.Forall₂ (KeepsSort cat ds ds' (r.varUse scope)) args args' →
    (∀ u ∈ argFree args, (r.varUse scope u).Before s.nextName) →
    (r.reference addr args').run s = .ok (t', s') → KeepsSort cat ds ds' (r.varUse scope) (.ref addr args) t'

end

namespace Renames

variable {cx : EvalCtx} {es es' : Option DefSource} {call call' : TypedTerm → Env → Outcome Empty Value}
  {σ : Type} {r : Rewriter σ} {p : VarId → Prop} {q : Address → ℕ → Prop} {cat : TypeCatalog}
  {ds ds' : Option DefSource}

/-- Under a binder's new name a body finds its variables. -/
theorem update_body (hr : Renames cx es es' call call' r p q) {scope inner : σ} {v v' : VarId} {s s₁ : WalkState}
    {F : Set VarId} (hv : p v) (hunder : (r.under scope v).run s = .ok ((v', inner), s₁))
    (hfits : ∀ u ∈ F \ {v}, (r.varUse scope u).Before s.nextName) :
    (∀ u ∈ F, (r.varUse inner u).Before s₁.nextName) ∧
      ∀ {ctx ctx' : Ctx} {n : ValueSort}, (∀ u ∈ F \ {v}, ctx' (r.varUse scope u) = ctx u) →
        ∀ u ∈ F, (ctx'.update v' n) (r.varUse inner u) = (ctx.update v n) u := by
  obtain ⟨hle, hv', hself, hother⟩ := hr.under hv hunder
  constructor
  · intro u hu
    by_cases huv : u = v
    · rw [huv, hself]
      exact hv'
    · rw [(hother u huv).1]
      exact (hfits u ⟨hu, huv⟩).mono hle
  · intro ctx ctx' n hagree u hu
    by_cases huv : u = v
    · simp only [Ctx.update, huv, hself, if_true]
    · obtain ⟨hsame, hne⟩ := hother u huv
      simp only [Ctx.update, hsame, if_neg (hne (hfits u ⟨hu, huv⟩)), if_neg huv]
      exact hagree u ⟨hu, huv⟩

mutual

/-- **A rewrite that captures no variable keeps the sort of a term.** -/
theorem sorts (hr : Renames cx es es' call call' r p q) (hk : ReferenceKeepsSort cat ds ds' r q) (t : Term)
    {scope : σ} {s s' : WalkState} {t' : Term} (ht : t.Takes p q)
    (hfits : ∀ u ∈ t.free, (r.varUse scope u).Before s.nextName) (h : (r.term scope t).run s = .ok (t', s')) :
    KeepsSort cat ds ds' (r.varUse scope) t t' := by
  intro ctx ctx' n hagree hsorted
  cases t with
  | var v =>
    unfold Rewriter.term at h
    obtain ⟨s₁, hs₁, h⟩ := Rewriter.rewritten (hr.keeps _) h
    cases h
    cases hsorted with
    | var hv => exact .var ((hagree v rfl).trans hv)
  | lit l =>
    unfold Rewriter.term at h
    obtain ⟨s₁, hs₁, h⟩ := Rewriter.rewritten (hr.keeps _) h
    cases h
    cases hsorted with
    | lit => exact .lit
  | members tr =>
    unfold Rewriter.term at h
    obtain ⟨s₁, hs₁, h⟩ := Rewriter.rewritten (hr.keeps _) h
    cases h
    rw [hr.typeref]
    cases hsorted with
    | members hguard => exact .members hguard
  | tuple read v =>
    unfold Rewriter.term at h
    obtain ⟨s₁, hs₁, h⟩ := Rewriter.rewritten (hr.keeps _) h
    cases h
    cases hsorted with
    | tuple hv => exact .tuple ((hagree v rfl).trans hv)
  | inCoverage slot e v =>
    unfold Rewriter.term at h
    obtain ⟨s₁, hs₁, h⟩ := Rewriter.rewritten (hr.keeps _) h
    simp only [StateT.run_bind, Outcome.bind_eq_ok_iff, Prod.exists] at h
    obtain ⟨e', s₂, he, h⟩ := h
    cases h
    have hke := hr.sorts hk e ht (fun u hu => hs₁ ▸ hfits u (Or.inl hu)) he
    cases hsorted with
    | inCoverage hse hv =>
      exact .inCoverage (hke ctx ctx' _ (fun u hu => hagree u (Or.inl hu)) hse) ((hagree v (Or.inr rfl)).trans hv)
  | unary op e =>
    unfold Rewriter.term at h
    obtain ⟨s₁, hs₁, h⟩ := Rewriter.rewritten (hr.keeps _) h
    simp only [StateT.run_bind, Outcome.bind_eq_ok_iff, Prod.exists] at h
    obtain ⟨e', s₂, he, h⟩ := h
    cases h
    have hke := hr.sorts hk e ht (fun u hu => hs₁ ▸ hfits u hu) he
    rw [hr.typeref, UnaryOp.retype_id]
    cases hsorted with
    | unary hop hse hwants => exact .unary hop (hke ctx ctx' _ hagree hse) hwants
  | binary op x y =>
    unfold Rewriter.term at h
    obtain ⟨s₁, hs₁, h⟩ := Rewriter.rewritten (hr.keeps _) h
    simp only [StateT.run_bind, Outcome.bind_eq_ok_iff, Prod.exists] at h
    obtain ⟨x', s₂, hx, y', s₃, hy, h⟩ := h
    cases h
    have hfx := fun u (hu : u ∈ x.free) => hs₁ ▸ hfits u (Or.inl hu)
    have hle := hs₁ ▸ (hr.term x ht.1 hfx hx).1
    have hkx := hr.sorts hk x ht.1 hfx hx
    have hky := hr.sorts hk y ht.2 (fun u hu => (hfits u (Or.inr hu)).mono hle) hy
    rw [hr.typeref, BinaryOp.retype_id]
    cases hsorted with
    | binary hop hsx hsy =>
      exact .binary hop (hkx ctx ctx' _ (fun u hu => hagree u (Or.inl hu)) hsx)
        (hky ctx ctx' _ (fun u hu => hagree u (Or.inr hu)) hsy)
  | connective op x y =>
    unfold Rewriter.term at h
    obtain ⟨s₁, hs₁, h⟩ := Rewriter.rewritten (hr.keeps _) h
    simp only [StateT.run_bind, Outcome.bind_eq_ok_iff, Prod.exists] at h
    obtain ⟨x', s₂, hx, y', s₃, hy, h⟩ := h
    cases h
    have hfx := fun u (hu : u ∈ x.free) => hs₁ ▸ hfits u (Or.inl hu)
    have hle := hs₁ ▸ (hr.term x ht.1 hfx hx).1
    have hkx := hr.sorts hk x ht.1 hfx hx
    have hky := hr.sorts hk y ht.2 (fun u hu => (hfits u (Or.inr hu)).mono hle) hy
    cases hsorted with
    | connective hsx hsy =>
      exact .connective (hkx ctx ctx' _ (fun u hu => hagree u (Or.inl hu)) hsx)
        (hky ctx ctx' _ (fun u hu => hagree u (Or.inr hu)) hsy)
  | quantified k v d body =>
    unfold Rewriter.term at h
    obtain ⟨s₁, hs₁, h⟩ := Rewriter.rewritten (hr.keeps _) h
    simp only [StateT.run_bind, Outcome.bind_eq_ok_iff, Prod.exists] at h
    obtain ⟨d', s₂, hd, v', inner, s₃, hunder, body', s₄, hbody, h⟩ := h
    cases h
    have hfd := fun u (hu : u ∈ d.free) => hs₁ ▸ hfits u (Or.inl hu)
    have hle := hs₁ ▸ (hr.dom d ht.2.1 hfd hd).1
    have hkd := hr.domSorts hk d ht.2.1 hfd hd
    obtain ⟨hin, hupdate⟩ := hr.update_body ht.1 hunder fun u hu => (hfits u (Or.inr hu)).mono hle
    have hkb := hr.sorts hk body ht.2.2 hin hbody
    cases hsorted with
    | quantified hsd hsb =>
      exact .quantified (hkd ctx ctx' _ (fun u hu => hagree u (Or.inl hu)) hsd)
        (hkb _ _ _ (hupdate fun u hu => hagree u (Or.inr hu)) hsb)
  | letIn v bound body =>
    unfold Rewriter.term at h
    obtain ⟨s₁, hs₁, h⟩ := Rewriter.rewritten (hr.keeps _) h
    simp only [StateT.run_bind, Outcome.bind_eq_ok_iff, Prod.exists] at h
    obtain ⟨bound', s₂, hbound, v', inner, s₃, hunder, body', s₄, hbody, h⟩ := h
    cases h
    have hfx := fun u (hu : u ∈ bound.free) => hs₁ ▸ hfits u (Or.inl hu)
    have hle := hs₁ ▸ (hr.term bound ht.2.1 hfx hbound).1
    have hkx := hr.sorts hk bound ht.2.1 hfx hbound
    obtain ⟨hin, hupdate⟩ := hr.update_body ht.1 hunder fun u hu => (hfits u (Or.inr hu)).mono hle
    have hkb := hr.sorts hk body ht.2.2 hin hbody
    cases hsorted with
    | letIn hsx hsb =>
      exact .letIn (hkx ctx ctx' _ (fun u hu => hagree u (Or.inl hu)) hsx)
        (hkb _ _ _ (hupdate fun u hu => hagree u (Or.inr hu)) hsb)
  | ifSome opt v thenTerm elseTerm =>
    unfold Rewriter.term at h
    obtain ⟨s₁, hs₁, h⟩ := Rewriter.rewritten (hr.keeps _) h
    simp only [StateT.run_bind, Outcome.bind_eq_ok_iff, Prod.exists] at h
    obtain ⟨opt', s₂, hopt, v', inner, s₃, hunder, then', s₄, hthen, else', s₅, helse, h⟩ := h
    cases h
    have hfo := fun u (hu : u ∈ opt.free) => hs₁ ▸ hfits u (Or.inl hu)
    have hle := hs₁ ▸ (hr.term opt ht.2.1 hfo hopt).1
    have hko := hr.sorts hk opt ht.2.1 hfo hopt
    obtain ⟨hin, hupdate⟩ := hr.update_body ht.1 hunder fun u hu => (hfits u (Or.inr (Or.inl hu))).mono hle
    have hkt := hr.sorts hk thenTerm ht.2.2.1 hin hthen
    have hle' := (hr.under ht.1 hunder).1.trans (hr.term thenTerm ht.2.2.1 hin hthen).1
    have hke := hr.sorts hk elseTerm ht.2.2.2
      (fun u hu => (hfits u (Or.inr (Or.inr hu))).mono (hle.trans hle')) helse
    cases hsorted with
    | ifSome hso hn hst hse =>
      exact .ifSome (hko ctx ctx' _ (fun u hu => hagree u (Or.inl hu)) hso) hn
        (hkt _ _ _ (hupdate fun u hu => hagree u (Or.inr (Or.inl hu))) hst)
        (hke ctx ctx' _ (fun u hu => hagree u (Or.inr (Or.inr hu))) hse)
  | aggregate op d =>
    unfold Rewriter.term at h
    obtain ⟨s₁, hs₁, h⟩ := Rewriter.rewritten (hr.keeps _) h
    simp only [StateT.run_bind, Outcome.bind_eq_ok_iff, Prod.exists] at h
    obtain ⟨d', s₂, hd, h⟩ := h
    cases h
    have hkd := hr.domSorts hk d ht (fun u hu => hs₁ ▸ hfits u hu) hd
    cases hsorted with
    | aggregate hsd hwants => exact .aggregate (hkd ctx ctx' _ hagree hsd) hwants
  | bigUnion d v body =>
    unfold Rewriter.term at h
    obtain ⟨s₁, hs₁, h⟩ := Rewriter.rewritten (hr.keeps _) h
    simp only [StateT.run_bind, Outcome.bind_eq_ok_iff, Prod.exists] at h
    obtain ⟨d', s₂, hd, v', inner, s₃, hunder, body', s₄, hbody, h⟩ := h
    cases h
    have hfd := fun u (hu : u ∈ d.free) => hs₁ ▸ hfits u (Or.inl hu)
    have hle := hs₁ ▸ (hr.dom d ht.2.1 hfd hd).1
    have hkd := hr.domSorts hk d ht.2.1 hfd hd
    obtain ⟨hin, hupdate⟩ := hr.update_body ht.1 hunder fun u hu => (hfits u (Or.inr hu)).mono hle
    have hkb := hr.sorts hk body ht.2.2 hin hbody
    cases hsorted with
    | bigUnion hsd hsb =>
      exact .bigUnion (hkd ctx ctx' _ (fun u hu => hagree u (Or.inl hu)) hsd)
        (hkb _ _ _ (hupdate fun u hu => hagree u (Or.inr hu)) hsb)
  | ref addr args =>
    unfold Rewriter.term at h
    obtain ⟨s₁, hs₁, h⟩ := Rewriter.rewritten (hr.keeps _) h
    cases hmeets : r.meetsRefs with
    | false =>
      rw [hmeets, if_neg Bool.false_ne_true] at h
      cases h
    | true =>
      rw [hmeets, if_pos rfl] at h
      simp only [StateT.run_bind, Outcome.bind_eq_ok_iff, Prod.exists] at h
      obtain ⟨args', s₂, hargs, h⟩ := h
      have hfa := fun u (hu : u ∈ argFree args) => hs₁ ▸ hfits u hu
      have hle := hs₁ ▸ (hr.terms args ht.2 hfa hargs).1
      exact hk hmeets ht.1 (hr.argSorts hk args ht.2 hfa hargs) (fun u hu => (hfits u hu).mono hle) h ctx ctx' n
        hagree hsorted

theorem argSorts (hr : Renames cx es es' call call' r p q) (hk : ReferenceKeepsSort cat ds ds' r q) (ts : List Term)
    {scope : σ} {s s' : WalkState} {ts' : List Term} (ht : argsTake p q ts)
    (hfits : ∀ u ∈ argFree ts, (r.varUse scope u).Before s.nextName) (h : (r.terms scope ts).run s = .ok (ts', s')) :
    List.Forall₂ (KeepsSort cat ds ds' (r.varUse scope)) ts ts' := by
  cases ts with
  | nil =>
    unfold Rewriter.terms at h
    cases h
    exact .nil
  | cons t ts =>
    unfold Rewriter.terms at h
    simp only [StateT.run_bind, Outcome.bind_eq_ok_iff, Prod.exists] at h
    obtain ⟨t', s₁, htt, ts', s₂, hts, h⟩ := h
    cases h
    have hft := fun u (hu : u ∈ t.free) => hfits u (Or.inl hu)
    have hle := (hr.term t ht.1 hft htt).1
    exact .cons (hr.sorts hk t ht.1 hft htt)
      (hr.argSorts hk ts ht.2 (fun u hu => (hfits u (Or.inr hu)).mono hle) hts)

theorem domSorts (hr : Renames cx es es' call call' r p q) (hk : ReferenceKeepsSort cat ds ds' r q) (d : Dom)
    {scope : σ} {s s' : WalkState} {d' : Dom} (hd : d.Takes p q)
    (hfits : ∀ u ∈ d.free, (r.varUse scope u).Before s.nextName) (h : (r.dom scope d).run s = .ok (d', s')) :
    DomKeepsSort cat ds ds' (r.varUse scope) d d' := by
  intro ctx ctx' n hagree hsorted
  cases d with
  | read read tr =>
    unfold Rewriter.dom at h
    obtain ⟨s₁, hs₁, h⟩ := Rewriter.of_domNode h
    cases h
    rw [hr.typeref]
    cases hsorted with
    | read hguard => exact .read hguard
  | linkDom =>
    unfold Rewriter.dom at h
    obtain ⟨s₁, hs₁, h⟩ := Rewriter.of_domNode h
    cases h
    cases hsorted with
    | linkDom => exact .linkDom
  | reg => cases hsorted
  | filter d v pred =>
    unfold Rewriter.dom at h
    obtain ⟨s₁, hs₁, h⟩ := Rewriter.of_domNode h
    simp only [StateT.run_bind, Outcome.bind_eq_ok_iff, Prod.exists] at h
    obtain ⟨d', s₂, hdd, v', inner, s₃, hunder, pred', s₄, hpred, h⟩ := h
    cases h
    have hfd := fun u (hu : u ∈ d.free) => hs₁ ▸ hfits u (Or.inl hu)
    have hle := hs₁ ▸ (hr.dom d hd.2.1 hfd hdd).1
    have hkd := hr.domSorts hk d hd.2.1 hfd hdd
    obtain ⟨hin, hupdate⟩ := hr.update_body hd.1 hunder fun u hu => (hfits u (Or.inr hu)).mono hle
    have hkp := hr.sorts hk pred hd.2.2 hin hpred
    cases hsorted with
    | filter hsd hsp =>
      exact .filter (hkd ctx ctx' _ (fun u hu => hagree u (Or.inl hu)) hsd)
        (hkp _ _ _ (hupdate fun u hu => hagree u (Or.inr hu)) hsp)
  | setTerm t =>
    unfold Rewriter.dom at h
    obtain ⟨s₁, hs₁, h⟩ := Rewriter.of_domNode h
    simp only [StateT.run_bind, Outcome.bind_eq_ok_iff, Prod.exists] at h
    obtain ⟨t', s₂, ht, h⟩ := h
    cases h
    have hkt := hr.sorts hk t hd (fun u hu => hs₁ ▸ hfits u hu) ht
    cases hsorted with
    | setTerm hst => exact .setTerm (hkt ctx ctx' _ hagree hst)

end

end Renames

/-- The sorts of what the variables stand for. -/
def Env.sorts (env : Env) : Ctx := fun u => (env u).map Value.sort

/-- The context with more variables, in order. -/
def Ctx.extend (ctx : Ctx) (l : List (VarId × ValueSort)) : Ctx := l.foldl (fun ctx p => ctx.update p.1 p.2) ctx

theorem Env.sorts_bind (env : Env) (v : VarId) (x : Value) : (env.bind v x).sorts = env.sorts.update v x.sort := by
  funext u
  simp only [Env.sorts, Env.bind, Ctx.update]
  split <;> rfl

theorem Env.sorts_bindAll (env : Env) (l : List (VarId × Value)) :
    (env.bindAll l).sorts = env.sorts.extend (l.map fun b => (b.1, b.2.sort)) := by
  induction l generalizing env with
  | nil => rfl
  | cons b l ih =>
    rw [List.map_cons, Ctx.extend, List.foldl_cons, ← Env.sorts_bind]
    exact ih _

/-- Some value of a sort. -/
def ValueSort.value : ValueSort → Value
  | .bool => .bool true
  | .addr => .addr headDocument
  | .addrSet => .addrSet ∅
  | .optAddr => .optAddr none
  | .addrSeq => .addrSeq []
  | .map => .map []
  | .nat => .nat 0
  | .optNat => .optNat none
  | .tup => .tuple ⟨headDocument, enc [], enc []⟩

@[simp] theorem ValueSort.sort_value (s : ValueSort) : s.value.sort = s := by cases s <;> rfl

theorem exists_sorts (ctx : Ctx) : ∃ env : Env, env.sorts = ctx := by
  refine ⟨fun u => (ctx u).map ValueSort.value, funext fun u => ?_⟩
  rw [Env.sorts, Option.map_map, show Value.sort ∘ ValueSort.value = id from funext ValueSort.sort_value,
    Option.map_id, id]

theorem sorts_zip (vs : List VarId) (sorts : List ValueSort) :
    (vs.zip (sorts.map ValueSort.value)).map (fun b => (b.1, b.2.sort)) = vs.zip sorts := by
  rw [List.zip_map_right, List.map_map]
  refine List.map_id'' (fun p => ?_) _
  exact Prod.ext rfl (ValueSort.sort_value p.2)

/-- Under distinct names the parameters have the sorts they have under their own. -/
theorem extend_paramNames {params names : List VarId} {sorts : List ValueSort} (hnames : names.Nodup)
    (hlen : names.length = params.length) (hsorts : sorts.length = params.length) (ctx : Ctx) {u : VarId}
    (hu : u ∈ params) : ∃ n, paramNames params names u = some n ∧
      ctx.extend (names.zip sorts) n = Ctx.ofList (params.zip sorts) u := by
  obtain ⟨env, rfl⟩ := exists_sorts ctx
  have hvals : (sorts.map ValueSort.value).length = params.length := (List.length_map _).trans hsorts
  obtain ⟨n, hn, heq⟩ :=
    @bindAll_paramNames params names _ hnames hlen hvals (fun _ => none) Env.empty env u (Or.inr hu)
  refine ⟨n, hn, ?_⟩
  have hempty : Env.empty.sorts = Ctx.empty := rfl
  rw [← sorts_zip names sorts, ← sorts_zip params sorts, ← Env.sorts_bindAll]
  show _ = Ctx.extend Ctx.empty _ u
  rw [← hempty, ← Env.sorts_bindAll]
  exact congrArg (Option.map Value.sort) heq

section

variable {cat : TypeCatalog} {ds ds' : Option DefSource}

/-- A flat body under the names of its parameters has the sort it has under its parameters. -/
theorem renamed_sorted {params names : List VarId} {sorts : List ValueSort} (hlen : names.length = params.length)
    (hsorts : sorts.length = params.length) (hnodup : names.Nodup) {flat out : Term}
    (hflat : ∀ u ∈ flat.free, u ∈ params) {s s' : WalkState} (hnames : ∀ n ∈ names, n.Before s.nextName)
    (h : (Rename.term (paramNames params names) flat).run s = .ok (out, s')) {n : ValueSort} (ctx : Ctx)
    (hsorted : TermSorted cat ds (Ctx.ofList (params.zip sorts)) flat n) :
    TermSorted cat ds (ctx.extend (names.zip sorts)) out n := by
  have huse : ∀ u ∈ flat.free, Rename.varUse (paramNames params names) u ∈ names ∧
      ctx.extend (names.zip sorts) (Rename.varUse (paramNames params names) u) = Ctx.ofList (params.zip sorts) u := by
    intro u hu
    obtain ⟨n, hn, heq⟩ := extend_paramNames hnodup hlen hsorts ctx (hflat u hu)
    rw [show Rename.varUse (paramNames params names) u = n from congrArg (Option.getD · u) hn]
    exact ⟨mem_of_paramNames hn, heq⟩
  have hr : Renames ⟨cat, ⟨LinkState.genesis, fun _ => true⟩, M3State.genesis, .active, none⟩ none none
      (fun _ _ => .fault) (fun _ _ => .fault) Rename (fun _ => True) fun _ _ => True := rename_renames
  have hk : ReferenceKeepsSort cat ds ds Rename fun _ _ => True := by
    intro _ _ _ _ _ _ _ hmeets
    cases hmeets
  exact hr.sorts hk flat flat.takes_true (fun u hu => hnames _ (huse u hu).1) h _ _ n (fun u hu => (huse u hu).2) hsorted

/-- The bindings of a reference's arguments have the body's sort. -/
theorem letChain_sorted {use : VarId → VarId} {names : List VarId} {sorts : List ValueSort} {args args' : List Term}
    {out : Term} {n : ValueSort} (hlen : names.length = sorts.length)
    (hargs : List.Forall₂ (KeepsSort cat ds ds' use) args args') {ctx ctx' : Ctx}
    (hsorted : ArgsSorted cat ds ctx sorts args) (hagree : ∀ u ∈ argFree args, ctx' (use u) = ctx u)
    (hfresh : ∀ u ∈ argFree args, use u ∉ names)
    (hout : TermSorted cat ds' (ctx'.extend (names.zip sorts)) out n) :
    TermSorted cat ds' ctx' (letChain names args' out) n := by
  induction names generalizing sorts args args' ctx' with
  | nil => exact hout
  | cons name names ih =>
    cases hsorted with
    | nil => cases hlen
    | cons ht hts =>
      cases hargs with
      | cons harg hargs =>
        refine .letIn (harg ctx ctx' _ (fun u hu => hagree u (Or.inl hu)) ht) ?_
        refine ih (Nat.succ.inj hlen) hargs hts (fun u hu => ?_)
          (fun u hu hmem => hfresh u (Or.inr hu) (List.mem_cons_of_mem _ hmem)) hout
        have hne : use u ≠ name := fun heq => hfresh u (Or.inr hu) (heq ▸ List.mem_cons_self)
        simp only [Ctx.update, if_neg hne]
        exact hagree u (Or.inr hu)

end

section

variable {cat : TypeCatalog} {defs : DefSource} {tt : TypedTerm}

theorem Checked.expand_keepsSort (h : Checked cat defs tt) {levels : ℕ}
    (hk : ReferenceKeepsSort cat (some defs) none (Expander defs levels)
      fun a n => KnownBelow cat defs (min levels levels) a ∧ Fills defs a n)
    (hlevels : tt.reach ≤ levels) {s s' : WalkState} {flat : Term}
    (hrun : ((Expander defs levels).term () tt.evaluable).run s = .ok (flat, s')) :
    s.nextName ≤ s'.nextName ∧ TermSorted cat none (Ctx.ofList tt.params) flat tt.result ∧
      ∀ u ∈ flat.free, u ∈ tt.params.map Prod.fst := by
  have hr := @expander_renames cat defs
    ⟨cat, ⟨LinkState.genesis, fun _ => true⟩, M3State.genesis, .active, none⟩ none (fun _ _ => .fault) levels levels
  have huse : (Expander defs levels).varUse () = id := by
    cases levels <;> rfl
  have htakes := h.takes.1.known (h.knownBelow (le_min hlevels hlevels))
  have hfits : ∀ u ∈ tt.evaluable.free, ((Expander defs levels).varUse () u).Before s.nextName := by
    intro u hu
    obtain ⟨⟨v, sort⟩, hp, rfl⟩ := List.mem_map.1 (h.takes.2 hu)
    rw [huse]
    exact lt_of_lt_of_le (tt.signed.submitted.1 _ hp) (Nat.le_add_right _ _)
  have hkeeps := hr.sorts hk tt.evaluable htakes hfits hrun
  obtain ⟨hle, hmeans⟩ := hr.term tt.evaluable htakes hfits hrun
  have hfree := hmeans.free
  rw [huse] at hkeeps hfree
  refine ⟨hle, hkeeps _ _ _ (fun _ _ => rfl) h.def.judged.sorted, fun u hu => ?_⟩
  obtain ⟨v, hv, rfl⟩ := hfree hu
  exact h.takes.2 hv

/-- What the expander puts in a reference's place has the reference's sort. -/
theorem expander_keepsSort (levels : ℕ) : ReferenceKeepsSort cat (some defs) none (Expander defs levels)
    fun a n => KnownBelow cat defs (min levels levels) a ∧ Fills defs a n := by
  induction levels with
  | zero =>
    intro _ _ _ _ _ _ _ _ hq
    obtain ⟨⟨_, -, -, hreach⟩, -⟩ := hq
    cases hreach
  | succ levels ih =>
    intro scope addr args args' t' s s' _ hq hargs hfits hrun ctx ctx' n hagree hsorted
    obtain ⟨⟨referent, hdef, hchecked, hreach⟩, hfills⟩ := hq
    rw [min_self] at hreach
    cases hsorted with
    | ref hds hr hsargs =>
      cases hds
      obtain rfl := Option.some.inj (hdef.symm.trans hr)
      change (inlined defs ((Expander defs levels).term ()) addr args').run s = .ok (t', s') at hrun
      simp only [inlined, StateT.run_bind, Outcome.bind_eq_ok_iff, Prod.exists] at hrun
      obtain ⟨r, s₀, hresolve, names, s₁, hnames, flat, s₂, hflat, out, s₃, hout, hrun⟩ := hrun
      rw [hdef] at hresolve
      cases hresolve
      cases hrun
      obtain ⟨hnlen, hnodup, -, hfresh⟩ := run_mapM_fresh hnames
      obtain ⟨hle, hsflat, hparam⟩ := hchecked.expand_keepsSort ih (Nat.lt_succ_iff.1 hreach) hflat
      have hplen : names.length = (referent.params.map Prod.fst).length := hnlen.trans (List.length_map _).symm
      have hslen : (referent.params.map Prod.snd).length = (referent.params.map Prod.fst).length := by
        rw [List.length_map, List.length_map]
      rw [show referent.params = (referent.params.map Prod.fst).zip (referent.params.map Prod.snd) from
        List.zip_of_prod rfl rfl] at hsflat
      have hbefore := fun n hn => (hfresh n hn).2.mono hle
      have hsout := renamed_sorted hplen hslen hnodup hparam hbefore hout ctx' hsflat
      refine letChain_sorted (hplen.trans hslen.symm) hargs hsargs hagree (fun u hu hmem => ?_) hsout
      exact (hfresh _ hmem).1 (hfits u hu)

/-- **The flat expansion of a checked definition has the definition's sort.** -/
theorem Checked.expand_sorted (h : Checked cat defs tt) {flat : Term} (hexp : expand defs tt.evaluable = .ok flat) :
    TermSorted cat none (Ctx.ofList tt.params) flat tt.result := by
  obtain ⟨⟨out, s'⟩, hrun, hout⟩ := Outcome.bind_eq_ok_iff.1 hexp
  cases hout
  exact (h.expand_keepsSort (expander_keepsSort maxDepth) h.within.2 hrun).2.1

end

end Coordination
