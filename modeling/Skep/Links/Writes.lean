import Skep.Links.Steps
import Skep.Ops.Placement

/-!
# Depositing links

One gated path deposits every link: the home's gates, then the class's, then
the incumbent an equal link of an idempotent class falls onto, then the mint.
-/

/-- Which gates a deposit passes. -/
inductive Gate where
  | opened
  | managed
  | retraction
  deriving DecidableEq, Repr

inductive Deposited where
  | fresh (a : Address)
  | incumbent (a : Address)
  deriving DecidableEq

def Deposited.address : Deposited → Address
  | .fresh a | .incumbent a => a

inductive HomeFault where
  | notRegistered
  | notOwner (a : Address)
  deriving DecidableEq

inductive EmitCoreError where
  | home (e : HomeFault)
  | notRegistered
  | shapeViolation
  | retractionClass
  | emptyType
  | mint (e : MintError)
  deriving DecidableEq

inductive EmitError where
  | homeNotRegistered
  | notOwner (a : Address)
  | notRegistered
  | retractionClass
  | shapeViolation
  | supersessionClass
  | replacesClass
  | correspondenceClass
  | nonAddressDenotingType
  | slotTooLarge
  | mint (e : MintError)
  deriving DecidableEq

inductive NullifyError where
  | homeNotRegistered
  | notOwner (a : Address)
  | badTarget
  | mint (e : MintError)
  deriving DecidableEq

def maxSlotSpans : ℕ := 4096

/-- The commons type of a declared replacement. -/
def replacesType : Address := ⟨⟨[1, 1, 0, 1, 0, 1, 0, 3, 12], by simp⟩, .element, by decide⟩

/-- The commons type of a correspondence record. -/
def correspondenceType : Address := ⟨⟨[1, 1, 0, 1, 0, 1, 0, 3, 102, 1], by simp⟩, .element, by decide⟩

def homeGate (m3 : M3State) (caller : Caller) (home : Address) : Outcome HomeFault Unit :=
  gateWrite m3 caller home .notRegistered .notOwner

section

variable (reg : TypeRegistry)

/-- Mint the next link address of the home and deposit the value there. -/
def mintAndDeposit (w : LinkWorld) (seq : ℕ) (home : Address) (value : Link) :
    Outcome EmitCoreError (Deposited × LinkWorld) := do
  let (addr, r) ← (w.m3.mintLink home).mapErr .mint
  let m3 ← (w.m3.applyM3 seq r : Outcome Empty M3State).expect
  let links ← (w.links.applyLink reg (.deposit addr value) : Outcome Empty LinkState).expect
  return (.fresh addr, ⟨links, m3⟩)

/-- The link an equal deposit falls onto, where the class is idempotent. -/
def incumbentOf (w : LinkWorld) (visibility : Address → Bool) (registration : Registration)
    (value : Link) : Outcome Empty (Option Address) :=
  if registration.idem then do
    let key ← DedupKey.of value
    w.links.activeIncumbent reg key visibility
  else return none

/-- The gated path of every deposit. -/
def emitCore (w : LinkWorld) (seq : ℕ) (visibility : Address → Bool) (caller : Caller)
    (home : Address) (value : Link) (gate : Gate) : Outcome EmitCoreError (Deposited × LinkWorld) := do
  (homeGate w.m3 caller home).mapErr .home
  match gate with
  | .opened =>
      Outcome.refuseIf (value.typeSlot.isEmpty = true) .emptyType
      mintAndDeposit reg w seq home value
  | .managed | .retraction => do
      let c ← (coverageClass value.typeSlot).expect
      let registration ← Outcome.okOr (reg.registration c) .notRegistered
      Outcome.refuseIf (gate = .managed ∧ c = reg.shippedClass .retraction) .retractionClass
      Outcome.refuseIf (shConf registration.shape value = false) .shapeViolation
      match ← (incumbentOf reg w visibility registration value).expect with
      | some incumbent => return (.incumbent incumbent, w)
      | none => mintAndDeposit reg w seq home value

/-- The value a marker stores. -/
def emitTuple (ty : Endset) (source : Address) (targets : List Address) : Option Link :=
  if maxSlotSpans < targets.length ∨ maxSlotSpans < ty.spans.length then none
  else some ⟨enc [source], enc targets, ty⟩

/-- Errors of the managed path in the vocabulary of `emit`. -/
def EmitCoreError.toEmit : EmitCoreError → Outcome EmitError EmitError
  | .home .notRegistered => return .homeNotRegistered
  | .home (.notOwner a) => return .notOwner a
  | .notRegistered => return .notRegistered
  | .shapeViolation => return .shapeViolation
  | .retractionClass => return .retractionClass
  | .mint e => return .mint e
  | .emptyType => .fault

/-- Errors of the retraction path in the vocabulary of `nullify`. -/
def EmitCoreError.toNullify : EmitCoreError → Outcome NullifyError NullifyError
  | .home .notRegistered => return .homeNotRegistered
  | .home (.notOwner a) => return .notOwner a
  | .mint e => return .mint e
  | .notRegistered | .shapeViolation | .retractionClass | .emptyType => .fault

/-- Rewrite the error of a call, some of them asserted never to occur. -/
def Outcome.liftErr {ε ε' α : Type} (f : ε → Outcome ε' ε') (x : Outcome ε α) : Outcome ε' α :=
  match x with
  | .ok a => .ok a
  | .err e => (f e).bind .err
  | .fault => .fault

/-- Deposit a managed link. -/
def emit (w : LinkWorld) (seq : ℕ) (visibility : Address → Bool) (caller : Caller) (home : Address)
    (ty : Endset) (source : Address) (targets : List Address) :
    Outcome EmitError (Address × LinkWorld) := do
  Outcome.refuseIf (ty.isAddressDenoting = false) .nonAddressDenotingType
  let c ← (coverageClass ty).expect
  Outcome.refuseIf (c = reg.shippedClass .supersedes) .supersessionClass
  Outcome.refuseIf (coverageClass (enc [replacesType]) = .ok c) .replacesClass
  Outcome.refuseIf (coverageClass (enc [correspondenceType]) = .ok c) .correspondenceClass
  let value ← Outcome.okOr (emitTuple ty source targets) .slotTooLarge
  let (deposited, w') ← (emitCore reg w seq visibility caller home value .managed).liftErr EmitCoreError.toEmit
  return (deposited.address, w')

/-- The value a retraction stores. -/
def retractionTuple (home target : Address) : Link :=
  ⟨enc [home], enc [target], reg.reservedType .retraction⟩

/-- Retract a link, or the one the home's next deposit will store. -/
def nullify (w : LinkWorld) (seq : ℕ) (visibility : Address → Bool) (caller : Caller)
    (home target : Address) : Outcome NullifyError (Address × LinkWorld) := do
  (homeGate w.m3 caller home).mapErr fun
    | .notRegistered => .homeNotRegistered
    | .notOwner a => .notOwner a
  Outcome.refuseIf (caller.isOwner w.m3 target = false) (.notOwner target)
  let next ← (w.links.nextLinkAddress home).expect
  Outcome.refuseIf (w.links.resident target = false ∧ target ≠ next) .badTarget
  let (deposited, w') ←
    (emitCore reg w seq visibility caller home (retractionTuple reg home target) .retraction).liftErr
      EmitCoreError.toNullify
  return (deposited.address, w')

end

/-- What a deposit that returns has done. -/
inductive Emitted (reg : TypeRegistry) (w : LinkWorld) (visibility : Address → Bool) (home : Address)
    (value : Link) : Deposited → LinkWorld → Prop
  | fresh {addr : Address} {r : M3Rec} {seq : ℕ} {m3 : M3State} {links : LinkState}
      (hmint : w.m3.mintLink home = .ok (addr, r))
      (hm3 : (w.m3.applyM3 seq r : Outcome Empty M3State) = .ok m3)
      (hlinks : (w.links.applyLink reg (.deposit addr value) : Outcome Empty LinkState) = .ok links) :
      Emitted reg w visibility home value (.fresh addr) ⟨links, m3⟩
  | incumbent {a : Address} {l : Link} {key : DedupKey} (hl : w.links.readlink a = some l)
      (hkey : DedupKey.of value = .ok key) (hsame : DedupKey.of l = .ok key)
      (hactive : w.links.nullified reg a.tumbler = false)
      (hreadable : ∃ d, documentOf a = some d ∧ visibility d = true) :
      Emitted reg w visibility home value (.incumbent a) w

variable {reg : TypeRegistry} {w w' : LinkWorld} {seq : ℕ} {visibility : Address → Bool}
  {caller : Caller} {home : Address} {value : Link} {gate : Gate} {d : Deposited}

theorem mintAndDeposit_spec (h : mintAndDeposit reg w seq home value = .ok (d, w')) :
    Emitted reg w visibility home value d w' := by
  simp only [mintAndDeposit, Outcome.bind_eq_ok_iff, Outcome.mapErr_eq_ok_iff,
    Outcome.expect_eq_ok_iff, Outcome.pure_eq, Outcome.ok.injEq, Prod.mk.injEq, Prod.exists] at h
  obtain ⟨addr, r, hmint, m3, hm3, links, hlinks, rfl, rfl⟩ := h
  exact .fresh hmint hm3 hlinks

/-- An incumbent is an active link of the key with a readable home. -/
theorem activeIncumbent_spec {s : LinkState} {key : DedupKey} {readable : Address → Bool} {a : Address}
    (h : s.activeIncumbent reg key readable = .ok (some a)) :
    ∃ l, s.readlink a = some l ∧ DedupKey.of l = .ok key ∧ s.nullified reg a.tumbler = false ∧
      ∃ d, documentOf a = some d ∧ readable d = true := by
  have hfind : ∀ l : List Address, l.findM? (fun a => do
        let home ← Outcome.expectSome (documentOf a)
        return readable home : Address → Outcome Empty Bool) = .ok (some a) →
      a ∈ l ∧ ∃ d, documentOf a = some d ∧ readable d = true := by
    intro l
    induction l with
    | nil => intro h; cases h
    | cons x l ih =>
      intro h
      simp only [List.findM?, Outcome.bind_eq_ok_iff, Outcome.expectSome_eq_ok_iff, Outcome.pure_eq,
        Outcome.ok.injEq] at h
      obtain ⟨b, ⟨dx, hdx, rfl⟩, h⟩ := h
      cases hr : readable dx with
      | true =>
        simp only [hr, Outcome.ok.injEq, Option.some.injEq] at h
        subst h
        exact ⟨List.mem_cons_self, dx, hdx, hr⟩
      | false =>
        simp only [hr] at h
        obtain ⟨hmem, hd⟩ := ih h
        exact ⟨List.mem_cons_of_mem _ hmem, hd⟩
  obtain ⟨hmem, hd⟩ := hfind _ h
  obtain ⟨⟨a', l⟩, he, rfl⟩ := List.mem_map.1 hmem
  obtain ⟨hentry, hcond⟩ := List.mem_filter.1 he
  simp only [Bool.and_eq_true, decide_eq_true_eq, Bool.not_eq_true'] at hcond
  exact ⟨l, OrdMap.get_eq_some_iff.2 hentry, hcond.1.2, hcond.2, hd⟩

/-- The gated path answers an incumbent or takes one deposit step. -/
theorem emitCore_spec (h : emitCore reg w seq visibility caller home value gate = .ok (d, w')) :
    Emitted reg w visibility home value d w' := by
  simp only [emitCore, Outcome.bind_eq_ok_iff] at h
  obtain ⟨-, -, h⟩ := h
  have hmanaged : ∀ {c : CoverageClass} {registration : Registration},
      (do
        Outcome.refuseIf (shConf registration.shape value = false) EmitCoreError.shapeViolation
        match ← (incumbentOf reg w visibility registration value).expect with
        | some incumbent => return (Deposited.incumbent incumbent, w)
        | none => mintAndDeposit reg w seq home value) = .ok (d, w') →
      Emitted reg w visibility home value d w' := by
    intro c registration h
    simp only [Outcome.bind_eq_ok_iff, Outcome.expect_eq_ok_iff] at h
    obtain ⟨-, -, found, hfound, h⟩ := h
    cases found with
    | none => exact mintAndDeposit_spec h
    | some a =>
      cases h
      rw [incumbentOf] at hfound
      split at hfound
      · simp only [Outcome.bind_eq_ok_iff] at hfound
        obtain ⟨key, hkey, hfound⟩ := hfound
        obtain ⟨l, hl, hsame, hactive, hread⟩ := activeIncumbent_spec hfound
        exact .incumbent hl hkey hsame hactive hread
      · cases hfound
  cases gate with
  | opened =>
    simp only [Outcome.bind_eq_ok_iff] at h
    obtain ⟨-, -, h⟩ := h
    exact mintAndDeposit_spec h
  | managed =>
    simp only [Outcome.bind_eq_ok_iff] at h
    obtain ⟨c, -, registration, -, -, -, h⟩ := h
    exact hmanaged (c := c) (by simpa only [Outcome.bind_eq_ok_iff] using h)
  | retraction =>
    simp only [Outcome.bind_eq_ok_iff] at h
    obtain ⟨c, -, registration, -, -, -, h⟩ := h
    exact hmanaged (c := c) (by simpa only [Outcome.bind_eq_ok_iff] using h)

theorem Emitted.step (h : Emitted reg w visibility home value d w') : w' = w ∨ LinkStep reg w w' := by
  cases h with
  | fresh hmint hm3 hlinks => exact .inr (.deposit hmint hm3 hlinks)
  | incumbent => exact .inl rfl
