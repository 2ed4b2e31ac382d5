import Skep.Coordination.Engine
import Skep.Library.Rotation
import Skep.Links.Members
import Skep.Links.Writes

/-!
# The rule scheduler

A step takes the first rule from the cursor on that has an enabled argument, takes that
rule's pick, moves the cursor past the rule and the rule past the argument, and fires. The
fire asks again at a snapshot of its own and writes through the gated path; whatever comes
of it, the rotation has moved.

## Main results

- `Coordinator.step_quiescent_iff` — a step answers quiescent where nothing is enabled
- `Coordinator.step_fair` — no rule and no argument of a rule waits for more turns than
  there are rules, or arguments
-/

namespace Coordination

/-- Why the kernel refuses a transaction that the store accepts. -/
inductive KernelRefusal where
  | durability
  | unencodable
  | overBudget
  | poisoned
  deriving DecidableEq, Repr

inductive TxnError (ε : Type) where
  | rejected (e : ε)
  | kernel (r : KernelRefusal)
  deriving DecidableEq

/-- A transaction that writes through the store, at a kernel that may refuse it. A halted
kernel refuses before the store is asked. -/
def transact {ε α : Type} (refusal : Option KernelRefusal) (f : Outcome ε α) :
    Outcome (TxnError ε) α := do
  Outcome.refuseIf (refusal = some .poisoned) (.kernel .poisoned)
  let a ← f.mapErr .rejected
  Outcome.refuseSome refusal .kernel
  return a

inductive FireError where
  | draftBoundary (doc : Address)
  | homeNotRegistered
  | emit (e : TxnError EmitError)
  | nullify (e : TxnError NullifyError)
  deriving DecidableEq

inductive FireOutcome where
  | noOp
  | fired (effect : Address)
  | deduped (effect : Address)
  deriving DecidableEq

inductive StepOutcome where
  | fired (rule : ℕ) (arg effect : Address)
  | deduped (rule : ℕ) (arg effect : Address)
  | failed (rule : ℕ) (arg : Address) (err : FireError)
  | noOp
  | quiescent
  deriving DecidableEq

/-- What a fire meets: the snapshot it pins, the world its transaction runs over with the
position it may commit at, and the kernel's refusal. -/
structure Attempt where
  snap : CoordinationWorld
  base : CoordinationWorld
  seq : ℕ
  refusal : Option KernelRefusal

def emitRefusal : TxnError EmitError → FireError
  | .rejected .homeNotRegistered => .homeNotRegistered
  | other => .emit other

def nullifyRefusal : TxnError NullifyError → FireError
  | .rejected .homeNotRegistered => .homeNotRegistered
  | other => .nullify other

/-- The document a fire may not cross, the home asked first. An argument without a document
is judged as itself. -/
def draftBoundary (w : CoordinationWorld) (home argAddr : Address) : Option Address :=
  let argDoc := (documentOf argAddr).getD argAddr
  [home, argDoc].find? fun doc => !w.guest doc

/-- A deposit by where its address stands at the fire's snapshot. -/
def firedOrDeduped (snap : CoordinationWorld) (effect : Address) : FireOutcome :=
  if (snap.links.readlink effect).isSome then .deduped effect else .fired effect

namespace Coordinator

variable (co : Coordinator)

/-- Ask at a snapshot of the fire's own whether the occurrence is still enabled, then run
its rule's action. -/
def fire (occurrence : Occurrence) (attempt : Attempt) : Outcome FireError (FireOutcome × LinkWorld) := do
  let reg := co.catalog.registry
  let base := attempt.base
  let rule ← Outcome.expectSome (co.rules.find? fun r => r.id == occurrence.rule)
  let isOccurrence (elem : Arg) : Outcome Empty Bool := return elem.sameElement occurrence.arg
  match ← (co.firstEnabled attempt.snap rule isOccurrence).expect with
  | none => return (.noOp, base.toLinkWorld)
  | some arg => do
      let argAddr := arg.keyAddr
      Outcome.refuseSome (draftBoundary attempt.snap rule.action.home argAddr) .draftBoundary
      let (effect, w) ← match rule.action with
        | .marker home ty => (transact attempt.refusal
            (emit reg base.toLinkWorld attempt.seq base.guest .system home ty argAddr [])).mapErr emitRefusal
        | .nullify home => (transact attempt.refusal
            (nullify reg base.toLinkWorld attempt.seq base.guest .system home argAddr)).mapErr nullifyRefusal
      return (firedOrDeduped attempt.snap effect, w)

/-- The rule whose turn it is, and its pick: the first from the cursor on that has one. -/
def pick (snap : CoordinationWorld) : Outcome Empty (Option (ℕ × CheckedRule × Arg)) :=
  let n := co.rules.length
  (List.range n).findSomeM? fun i => do
    let idx := (co.cursor + i) % n
    let rule ← Outcome.expectSome co.rules[idx]?
    let arg ← co.nextPick snap rule
    return arg.map fun arg => (idx, rule, arg)

/-- Past the rule, and on the rule's next turn past the argument. -/
def rotate (idx : ℕ) (arg : Arg) : Coordinator :=
  { co with
    cursor := (idx + 1) % co.rules.length
    rules := co.rules.modify idx fun rule => { rule with lastPick := some arg.keyAddr } }

/-- One turn: the pick at `snap`, the rotation, and the fire. -/
def step (snap : CoordinationWorld) (attempt : Attempt) : Outcome Empty (Coordinator × StepOutcome) := do
  match ← co.pick snap with
  | none => return (co, .quiescent)
  | some (idx, rule, arg) =>
      let co := co.rotate idx arg
      let argAddr := arg.keyAddr
      match co.fire ⟨rule.id, arg⟩ attempt with
      | .ok (.fired effect, _) => return (co, .fired rule.id argAddr effect)
      | .ok (.deduped effect, _) => return (co, .deduped rule.id argAddr effect)
      | .ok (.noOp, _) => return (co, .noOp)
      | .err err => return (co, .failed rule.id argAddr err)
      | .fault => .fault

/-- The argument lies in the domain of the rule at `idx`, and the rule's trigger holds there. -/
def Enabled (w : CoordinationWorld) (idx : ℕ) (arg : Arg) : Prop :=
  ∃ rule elems, co.rules[idx]? = some rule ∧ co.enumRuleDom w rule = .ok elems ∧ arg ∈ elems ∧
    co.triggerTrue w rule arg = .ok true

/-- The address names an element of the domain of the rule at `idx`. -/
def Ranges (w : CoordinationWorld) (idx : ℕ) (k : Address) : Prop :=
  ∃ rule elems, co.rules[idx]? = some rule ∧ co.enumRuleDom w rule = .ok elems ∧
    k ∈ elems.map Arg.keyAddr

/-- The rule's domain and its trigger all over it evaluate, and the trigger holds nowhere. -/
def Idle (w : CoordinationWorld) (rule : CheckedRule) : Prop :=
  ∃ elems, co.enumRuleDom w rule = .ok elems ∧ ∀ arg ∈ elems, co.triggerTrue w rule arg = .ok false

end Coordinator

/-- One turn that returned. -/
structure Turn where
  snap : CoordinationWorld
  attempt : Attempt
  picked : Option (ℕ × CheckedRule × Arg)
  outcome : StepOutcome

namespace Turn

/-- The turn is that of the rule at `idx`. -/
def isOf (t : Turn) (idx : ℕ) : Bool := t.picked.any fun p => p.1 == idx

/-- The turn is that of the rule at `idx`, at the element that `x` names. -/
def takes (t : Turn) (idx : ℕ) (x : Address) : Bool :=
  t.picked.any fun p => p.1 == idx && p.2.2.keyAddr == x

end Turn

/-- Turns one after another. Each has a snapshot and an attempt of its own, so whatever
others commit between them stands in the later ones. -/
inductive Coordinator.Run : Coordinator → List Turn → Coordinator → Prop
  | nil (co : Coordinator) : Run co [] co
  | cons {co co' co'' : Coordinator} {t : Turn} {ts : List Turn}
      (hpick : co.pick t.snap = .ok t.picked)
      (hstep : co.step t.snap t.attempt = .ok (co', t.outcome)) (hrest : Run co' ts co'') :
      Run co (t :: ts) co''

section

variable {cx : EvalCtx}

private theorem keepM_sublist {γ : Type} {p : γ → Outcome Empty Bool} {l kept : List γ}
    (h : Outcome.keepM p l = .ok kept) : kept.Sublist l := by
  induction l generalizing kept with
  | nil =>
    cases h
    exact List.Sublist.refl _
  | cons a l ih =>
    simp only [Outcome.keepM, Outcome.bind_eq_ok_iff, Outcome.pure_eq, Outcome.ok.injEq] at h
    obtain ⟨b, -, rest, hrest, rfl⟩ := h
    cases b with
    | true => exact (ih hrest).cons_cons a
    | false => exact (ih hrest).cons a

private theorem keys_map_addr (s : OrdSet Address) :
    ((s.elems.map Arg.addr).map Arg.keyAddr).Pairwise (· < ·) := by
  rw [List.map_map]
  exact (List.map_id s.elems).symm ▸ s.ascending

private theorem observe_ascending {g : GuestLinks} {reg : TypeRegistry} {ty : Endset} {pat : Pattern}
    {slice : Slice} {tuples : List Tuple} (h : g.observe reg ty pat slice = .ok tuples) :
    (tuples.map Tuple.addr).Pairwise (· < ·) := by
  cases hc : coverageClass ty with
  | ok c =>
    rw [GuestLinks.observe_eq hc] at h
    cases h
    have hslice : ((g.slice reg c slice).map Tuple.addr).Pairwise (· < ·) := by
      rw [GuestLinks.slice_addrs]
      exact (LinkState.typedLinks_ascending c slice.view).filter _
    exact hslice.sublist (List.filter_sublist.map _)
  | err e => exact e.elim
  | fault =>
    rw [GuestLinks.observe, GuestLinks.candidates, LinkState.observe, hc] at h
    cases h

/-- A domain comes in the order of the addresses that name its elements. -/
theorem enumDom_ascending {call : TypedTerm → Env → Outcome Empty Value} {env : Env} (d : Dom)
    {elems : List Arg} (h : enumDom cx call env d = .ok elems) :
    (elems.map Arg.keyAddr).Pairwise (· < ·) := by
  cases d with
  | read r tr =>
    simp only [enumDom, Outcome.bind_eq_ok_iff] at h
    obtain ⟨k, -, h⟩ := h
    cases r <;> simp only [DomRead.enum, Outcome.bind_eq_ok_iff, Outcome.pure_eq, Outcome.ok.injEq] at h
    case members =>
      obtain ⟨s, -, rfl⟩ := h
      exact keys_map_addr s
    all_goals
      obtain ⟨tuples, htuples, rfl⟩ := h
      rw [List.map_map]
      exact observe_ascending htuples
  | linkDom =>
    simp only [enumDom, Outcome.bind_eq_ok_iff, Outcome.pure_eq, Outcome.ok.injEq] at h
    obtain ⟨s, -, rfl⟩ := h
    exact keys_map_addr s
  | reg => cases h
  | filter d var pred =>
    simp only [enumDom, Outcome.bind_eq_ok_iff] at h
    obtain ⟨all, hall, h⟩ := h
    exact (enumDom_ascending d hall).sublist ((keepM_sublist h).map _)
  | setTerm t =>
    simp only [enumDom, Outcome.bind_eq_ok_iff, Outcome.pure_eq, Outcome.ok.injEq] at h
    obtain ⟨x, -, s, -, rfl⟩ := h
    exact keys_map_addr s

end

private theorem findM_eq_none_iff {p : Arg → Outcome Empty Bool} {l : List Arg} :
    l.findM? p = .ok none ↔ ∀ a ∈ l, p a = .ok false := by
  induction l with
  | nil => simp [List.findM?]
  | cons a l ih =>
    rw [List.findM?, List.forall_mem_cons, ← ih, Outcome.bind_eq_ok_iff]
    constructor
    · rintro ⟨b, hb, h⟩
      cases b with
      | true => cases h
      | false => exact ⟨hb, h⟩
    · rintro ⟨ha, h⟩
      exact ⟨false, ha, h⟩

private theorem findM_eq_some {p : Arg → Outcome Empty Bool} {l : List Arg} {arg : Arg}
    (h : l.findM? p = .ok (some arg)) :
    ∃ before after, l = before ++ arg :: after ∧ p arg = .ok true ∧ ∀ a ∈ before, p a = .ok false := by
  induction l with
  | nil => cases h
  | cons a l ih =>
    rw [List.findM?, Outcome.bind_eq_ok_iff] at h
    obtain ⟨b, hb, h⟩ := h
    cases b with
    | true =>
      cases h
      exact ⟨[], l, rfl, hb, List.forall_mem_nil _⟩
    | false =>
      obtain ⟨before, after, rfl, harg, hbefore⟩ := ih h
      exact ⟨a :: before, after, rfl, harg, List.forall_mem_cons.2 ⟨hb, hbefore⟩⟩

private theorem findSomeM_eq_none_iff {α β : Type} {f : α → Outcome Empty (Option β)} {l : List α} :
    l.findSomeM? f = .ok none ↔ ∀ a ∈ l, f a = .ok none := by
  induction l with
  | nil => simp [List.findSomeM?]
  | cons a l ih =>
    rw [List.findSomeM?, List.forall_mem_cons, ← ih, Outcome.bind_eq_ok_iff]
    constructor
    · rintro ⟨b, hb, h⟩
      cases b with
      | some b => cases h
      | none => exact ⟨hb, h⟩
    · rintro ⟨ha, h⟩
      exact ⟨none, ha, h⟩

private theorem findSomeM_eq_some {α β : Type} {f : α → Outcome Empty (Option β)} {l : List α} {b : β}
    (h : l.findSomeM? f = .ok (some b)) :
    ∃ before a after, l = before ++ a :: after ∧ f a = .ok (some b) ∧ ∀ a ∈ before, f a = .ok none := by
  induction l with
  | nil => cases h
  | cons a l ih =>
    rw [List.findSomeM?, Outcome.bind_eq_ok_iff] at h
    obtain ⟨o, ho, h⟩ := h
    cases o with
    | some b' =>
      cases h
      exact ⟨[], a, l, rfl, ho, List.forall_mem_nil _⟩
    | none =>
      obtain ⟨before, a', after, rfl, ha', hbefore⟩ := ih h
      exact ⟨a :: before, a', after, rfl, ha', List.forall_mem_cons.2 ⟨ho, hbefore⟩⟩

/-- Whether the element lies past the rule's last pick. -/
private def CheckedRule.isPast (rule : CheckedRule) (arg : Arg) : Bool :=
  rule.lastPick.all fun last => last < arg.keyAddr

namespace Coordinator

open Rotation

variable {co co' : Coordinator} {w : CoordinationWorld} {rule : CheckedRule} {arg : Arg} {idx : ℕ}

/-- The test that `firstEnabled` makes of an element. -/
private theorem test_eq_ok {keep b : Bool} {trigger : Outcome Empty Bool} :
    (do if ← (return keep : Outcome Empty Bool) then trigger else return false : Outcome Empty Bool) = .ok b ↔
      if keep = true then trigger = .ok b else b = false := by
  cases keep <;> simp [eq_comm]

theorem enumRuleDom_ascending {elems : List Arg} (h : co.enumRuleDom w rule = .ok elems) :
    (elems.map Arg.keyAddr).Pairwise (· < ·) :=
  enumDom_ascending rule.domain.dom h

/-- Whatever is not before an element of a domain is named by no smaller address. -/
private theorem keyAddr_le {before after : List Arg} {e : Arg}
    (h : ((before ++ arg :: after).map Arg.keyAddr).Pairwise (· < ·)) (he : e ∈ before ++ arg :: after)
    (hnot : e ∉ before) : arg.keyAddr ≤ e.keyAddr := by
  rw [List.map_append, List.map_cons] at h
  obtain ⟨-, h, -⟩ := List.pairwise_append.1 h
  rcases (List.mem_append.1 he).resolve_left hnot with _ | ⟨_, he⟩
  · exact le_rfl
  · exact (List.rel_of_pairwise_cons h (List.mem_map_of_mem he)).le

private theorem past_iff : rule.isPast arg = true ↔ Rotation.Past rule.lastPick arg.keyAddr := by
  cases h : rule.lastPick <;> simp [CheckedRule.isPast, Rotation.Past, h]

/-- What the first enabled element is of those a test keeps. -/
theorem firstEnabled_spec (keep : Arg → Bool) {found : Option Arg}
    (h : co.firstEnabled w rule (fun arg => return keep arg) = .ok found) :
    ∃ elems, co.enumRuleDom w rule = .ok elems ∧
      match found with
      | none => ∀ arg ∈ elems, keep arg = true → co.triggerTrue w rule arg = .ok false
      | some arg => arg ∈ elems ∧ keep arg = true ∧ co.triggerTrue w rule arg = .ok true ∧
          ∀ e ∈ elems, keep e = true → co.triggerTrue w rule e = .ok true → arg.keyAddr ≤ e.keyAddr := by
  obtain ⟨elems, helems, h⟩ := Outcome.bind_eq_ok_iff.1 h
  refine ⟨elems, helems, ?_⟩
  cases found with
  | none =>
    intro arg harg hkeep
    have htest := test_eq_ok.1 (findM_eq_none_iff.1 h arg harg)
    rwa [if_pos hkeep] at htest
  | some arg =>
    obtain ⟨before, after, rfl, harg, hbefore⟩ := findM_eq_some h
    rw [test_eq_ok] at harg
    by_cases hkeep : keep arg = true
    · rw [if_pos hkeep] at harg
      refine ⟨List.mem_append_right _ List.mem_cons_self, hkeep, harg, ?_⟩
      intro e he hkeep htrigger
      refine keyAddr_le (enumRuleDom_ascending helems) he fun hb => ?_
      have hfalse := test_eq_ok.1 (hbefore e hb)
      rw [if_pos hkeep, htrigger] at hfalse
      cases hfalse
    · rw [if_neg hkeep] at harg
      cases harg

/-- What a rule's pick is: none where its trigger holds nowhere, else the one whose turn it
is of the addresses at which it holds. -/
theorem nextPick_spec {picked : Option Arg} (h : co.nextPick w rule = .ok picked) :
    ∃ elems, co.enumRuleDom w rule = .ok elems ∧
      match picked with
      | none => ∀ arg ∈ elems, co.triggerTrue w rule arg = .ok false
      | some arg => arg ∈ elems ∧ co.triggerTrue w rule arg = .ok true ∧
          Takes rule.lastPick (fun k => ∃ e ∈ elems, e.keyAddr = k ∧ co.triggerTrue w rule e = .ok true)
            arg.keyAddr := by
  obtain ⟨first, hfirst, h⟩ := Outcome.bind_eq_ok_iff.1 h
  obtain ⟨elems, helems, hfirst⟩ := firstEnabled_spec rule.isPast hfirst
  refine ⟨elems, helems, ?_⟩
  cases first with
  | some arg =>
    cases h
    obtain ⟨harg, hpast, htrigger, hleast⟩ := hfirst
    refine ⟨harg, htrigger, ⟨arg, harg, rfl, htrigger⟩, .inl ⟨past_iff.1 hpast, ?_⟩⟩
    rintro - ⟨e, he, rfl, htrue⟩ hpe
    exact hleast e he (past_iff.2 hpe) htrue
  | none =>
    obtain ⟨elems', helems', h⟩ := firstEnabled_spec (fun arg => !rule.isPast arg) h
    obtain rfl : elems = elems' := Outcome.ok.inj (helems.symm.trans helems')
    cases picked with
    | none =>
      intro arg harg
      by_cases hpast : rule.isPast arg = true
      · exact hfirst arg harg hpast
      · exact h arg harg (by simpa using hpast)
    | some arg =>
      obtain ⟨harg, -, htrigger, hleast⟩ := h
      have hpasts : ∀ e ∈ elems, co.triggerTrue w rule e = .ok true → ¬ rule.isPast e = true := by
        intro e he htrue hpast
        have hfalse := hfirst e he hpast
        rw [htrue] at hfalse
        cases hfalse
      refine ⟨harg, htrigger, ⟨arg, harg, rfl, htrigger⟩, .inr ⟨?_, ?_⟩⟩
      · rintro - ⟨e, he, rfl, htrue⟩
        exact mt past_iff.2 (hpasts e he htrue)
      · rintro - ⟨e, he, rfl, htrue⟩
        exact hleast e he (by simpa using hpasts e he htrue) htrue

/-- A rule has no pick where it is idle, and only there. -/
theorem nextPick_eq_none_iff : co.nextPick w rule = .ok none ↔ co.Idle w rule := by
  constructor
  · exact fun h => nextPick_spec h
  · rintro ⟨elems, helems, hidle⟩
    have hscan : ∀ keep : Arg → Bool, co.firstEnabled w rule (fun arg => return keep arg) = .ok none := by
      intro keep
      rw [firstEnabled, helems, Outcome.ok_bind]
      refine findM_eq_none_iff.2 fun arg harg => test_eq_ok.2 ?_
      split
      · exact hidle arg harg
      · rfl
    rw [nextPick]
    simp only [hscan, Outcome.ok_bind]

/-- No rule has a pick where every rule is idle, and only there. -/
theorem pick_eq_none_iff : co.pick w = .ok none ↔ ∀ rule ∈ co.rules, co.Idle w rule := by
  rw [pick, findSomeM_eq_none_iff]
  constructor
  · intro h rule hrule
    obtain ⟨slot, hslot, rfl⟩ := List.getElem_of_mem hrule
    obtain ⟨d, hd, rfl⟩ := exists_offset co.cursor hslot
    have hturn := h d (List.mem_range.2 hd)
    simp only [Outcome.bind_eq_ok_iff, Outcome.expectSome_eq_ok_iff, Outcome.pure_eq, Outcome.ok.injEq,
      Option.map_eq_none_iff] at hturn
    obtain ⟨rule, hget, picked, hpicked, rfl⟩ := hturn
    rw [List.getElem?_eq_getElem hslot, Option.some.injEq] at hget
    exact hget ▸ nextPick_eq_none_iff.1 hpicked
  · intro h i hi
    have hslot : (co.cursor + i) % co.rules.length < co.rules.length :=
      Nat.mod_lt _ (Nat.zero_lt_of_lt (List.mem_range.1 hi))
    simp only [List.getElem?_eq_getElem hslot, Outcome.expectSome, Outcome.ok_bind,
      nextPick_eq_none_iff.2 (h _ (List.getElem_mem hslot))]
    rfl

/-- A pick is that of the first rule from the cursor on that has one. -/
theorem pick_eq_some (h : co.pick w = .ok (some (idx, rule, arg))) :
    ∃ d < co.rules.length, idx = (co.cursor + d) % co.rules.length ∧ co.rules[idx]? = some rule ∧
      co.nextPick w rule = .ok (some arg) ∧
      ∀ j < d, ∀ passed, co.rules[(co.cursor + j) % co.rules.length]? = some passed →
        co.Idle w passed := by
  obtain ⟨before, d, after, hrange, hturn, hbefore⟩ := findSomeM_eq_some h
  simp only [Outcome.bind_eq_ok_iff, Outcome.expectSome_eq_ok_iff, Outcome.pure_eq, Outcome.ok.injEq,
    Option.map_eq_some_iff, Prod.mk.injEq] at hturn
  obtain ⟨rule', hget, picked, hpicked, arg', rfl, rfl, rfl, rfl⟩ := hturn
  have hget_range : ∀ j, j < before.length + 1 → (List.range co.rules.length)[j]? = some j := by
    intro j hj
    refine List.getElem?_range ?_
    have hlen := congrArg List.length hrange
    simp only [List.length_range, List.length_append, List.length_cons] at hlen
    omega
  have hd : d = before.length := by
    have hat := hget_range before.length (Nat.lt_succ_self _)
    rw [hrange, List.getElem?_append_right le_rfl, Nat.sub_self] at hat
    exact Option.some.inj hat
  refine ⟨d, ?_, rfl, hget, hpicked, ?_⟩
  · exact List.mem_range.1 (hrange ▸ List.mem_append_right _ List.mem_cons_self)
  · intro j hj passed hpassed
    have hat := hget_range j (by omega)
    rw [hrange, List.getElem?_append_left (hd ▸ hj)] at hat
    have hnone := hbefore j (List.mem_of_getElem? hat)
    simp only [hpassed, Outcome.expectSome, Outcome.ok_bind, Outcome.bind_eq_ok_iff, Outcome.pure_eq,
      Outcome.ok.injEq, Option.map_eq_none_iff] at hnone
    obtain ⟨picked, hpick, rfl⟩ := hnone
    exact nextPick_eq_none_iff.1 hpick

/-- A turn that returns leaves all as it was where it has no pick, and rotates past its pick
whatever comes of the fire. -/
theorem step_eq_ok {snap : CoordinationWorld} {attempt : Attempt} {outcome : StepOutcome}
    (h : co.step snap attempt = .ok (co', outcome)) :
    (co.pick snap = .ok none ∧ co' = co ∧ outcome = .quiescent) ∨
      ∃ idx rule arg, co.pick snap = .ok (some (idx, rule, arg)) ∧ co' = co.rotate idx arg ∧
        outcome ≠ .quiescent := by
  obtain ⟨picked, hpick, h⟩ := Outcome.bind_eq_ok_iff.1 h
  cases picked with
  | none =>
    cases h
    exact .inl ⟨hpick, rfl, rfl⟩
  | some p =>
    obtain ⟨idx, rule, arg⟩ := p
    refine .inr ⟨idx, rule, arg, hpick, ?_⟩
    dsimp only at h
    split at h
    all_goals first
      | cases h
        exact ⟨rfl, nofun⟩
      | cases h

/-- **A step answers quiescent where every rule is idle at its snapshot, and only there.** -/
theorem step_quiescent_iff {snap : CoordinationWorld} {attempt : Attempt} :
    (∃ co', co.step snap attempt = .ok (co', .quiescent)) ↔ ∀ rule ∈ co.rules, co.Idle snap rule := by
  rw [← pick_eq_none_iff]
  constructor
  · rintro ⟨co', h⟩
    rcases step_eq_ok h with ⟨hpick, -, -⟩ | ⟨idx, rule, arg, -, -, hne⟩
    · exact hpick
    · exact (hne rfl).elim
  · intro hpick
    exact ⟨co, by rw [step, hpick]; rfl⟩

theorem Idle.not_enabled (h : co.Idle w rule) (hget : co.rules[idx]? = some rule) (arg : Arg) :
    ¬ co.Enabled w idx arg := by
  rintro ⟨rule', elems, hget', helems, harg, htrigger⟩
  obtain rfl : rule = rule' := Option.some.inj (hget.symm.trans hget')
  obtain ⟨elems', helems', hidle⟩ := h
  obtain rfl : elems = elems' := Outcome.ok.inj (helems.symm.trans helems')
  rw [hidle arg harg] at htrigger
  cases htrigger

theorem enabled_of_pick (h : co.pick w = .ok (some (idx, rule, arg))) : co.Enabled w idx arg := by
  obtain ⟨d, -, -, hget, hpick, -⟩ := pick_eq_some h
  obtain ⟨elems, helems, harg, htrigger, -⟩ := nextPick_spec hpick
  exact ⟨rule, elems, hget, helems, harg, htrigger⟩

@[simp] theorem rotate_length (i : ℕ) (a : Arg) : (co.rotate i a).rules.length = co.rules.length :=
  List.length_modify _ _ _

theorem rotate_rules (i : ℕ) (a : Arg) (j : ℕ) : (co.rotate i a).rules[j]? =
    co.rules[j]?.map fun rule => if i = j then { rule with lastPick := some a.keyAddr } else rule := by
  rw [rotate, List.getElem?_modify]
  split <;> simp

theorem rotate_enabled (i : ℕ) (a : Arg) : (co.rotate i a).Enabled w idx arg ↔ co.Enabled w idx arg := by
  constructor
  · rintro ⟨rule, elems, hget, helems, harg, htrigger⟩
    rw [rotate_rules, Option.map_eq_some_iff] at hget
    obtain ⟨rule', hget, rfl⟩ := hget
    refine ⟨rule', elems, hget, ?_, harg, ?_⟩
    · split at helems <;> exact helems
    · split at htrigger <;> exact htrigger
  · rintro ⟨rule, elems, hget, helems, harg, htrigger⟩
    refine ⟨_, elems, by rw [rotate_rules, hget]; rfl, ?_, harg, ?_⟩
    · split <;> exact helems
    · split <;> exact htrigger

theorem rotate_ranges (i : ℕ) (a : Arg) (k : Address) :
    (co.rotate i a).Ranges w idx k ↔ co.Ranges w idx k := by
  constructor
  · rintro ⟨rule, elems, hget, helems, hk⟩
    rw [rotate_rules, Option.map_eq_some_iff] at hget
    obtain ⟨rule', hget, rfl⟩ := hget
    refine ⟨rule', elems, hget, ?_, hk⟩
    split at helems <;> exact helems
  · rintro ⟨rule, elems, hget, helems, hk⟩
    refine ⟨_, elems, by rw [rotate_rules, hget]; rfl, ?_, hk⟩
    split <;> exact helems

variable {ts : List Turn}

/-- A rule that is enabled at every turn has its turn as soon as the cursor comes to it. -/
theorem Run.exists_isOf (hrun : co.Run ts co') {d : ℕ} (hd : (co.cursor + d) % co.rules.length = idx)
    (hlt : d < ts.length) (henabled : ∀ t ∈ ts, ∃ arg, co.Enabled t.snap idx arg) :
    ∃ t ∈ ts, t.isOf idx = true := by
  induction hrun generalizing d with
  | nil => cases hlt
  | @cons co co' co'' t ts hpick hstep hrest ih =>
    obtain ⟨arg, henabledHere⟩ := henabled t List.mem_cons_self
    have hnotIdle : ∀ rule, co.rules[idx]? = some rule → ¬ co.Idle t.snap rule := by
      intro rule hget hidle
      exact hidle.not_enabled hget arg henabledHere
    rcases step_eq_ok hstep with ⟨hnone, -, -⟩ | ⟨i, rule, a, hsome, rfl, -⟩
    · obtain ⟨rule, -, hget, -⟩ := henabledHere
      exact (hnotIdle rule hget (pick_eq_none_iff.1 hnone rule (List.mem_of_getElem? hget))).elim
    · obtain ⟨e, -, hi, -, -, hpassed⟩ := pick_eq_some hsome
      have hpicked : t.picked = some (i, rule, a) := Outcome.ok.inj (hpick.symm.trans hsome)
      rcases lt_trichotomy e d with hlt' | rfl | hgt
      · -- the turn is of a rule before this one: the cursor comes nearer
        have hnext : ((co.rotate i a).cursor + (d - e - 1)) % (co.rotate i a).rules.length = idx := by
          rw [rotate_length, ← offset_drops hd hlt', ← hi]
          rfl
        obtain ⟨u, hu, hof⟩ := ih hnext (by simp only [List.length_cons] at hlt; omega) fun u hu => by
          obtain ⟨b, hb⟩ := henabled u (List.mem_cons_of_mem _ hu)
          exact ⟨b, (rotate_enabled i a).2 hb⟩
        exact ⟨u, List.mem_cons_of_mem _ hu, hof⟩
      · refine ⟨t, List.mem_cons_self, ?_⟩
        simp [Turn.isOf, hpicked, hi, hd]
      · obtain ⟨passed, -, hget, -⟩ := henabledHere
        exact (hnotIdle passed hget (hpassed d hgt passed (hd ▸ hget))).elim

/-- A rule that has not taken an argument enabled at each of its turns has had no more turns
than there are addresses ahead of the argument. -/
theorem Run.countP_isOf_le (hrun : co.Run ts co') {x : Address} {keys : Finset Address}
    (hget : co.rules[idx]? = some rule)
    (hturns : ∀ t ∈ ts, t.isOf idx = true →
      (∃ arg, co.Enabled t.snap idx arg ∧ arg.keyAddr = x) ∧ ∀ k, co.Ranges t.snap idx k → k ∈ keys)
    (hnot : ∀ t ∈ ts, t.takes idx x = false) :
    ts.countP (Turn.isOf · idx) ≤ (ahead keys x rule.lastPick).card := by
  induction hrun generalizing rule with
  | nil => exact Nat.zero_le _
  | @cons co co' co'' t ts hpick hstep hrest ih =>
    have htail : ∀ i a, co' = co.rotate i a → ∀ u ∈ ts, u.isOf idx = true →
        (∃ arg, co'.Enabled u.snap idx arg ∧ arg.keyAddr = x) ∧ ∀ k, co'.Ranges u.snap idx k → k ∈ keys := by
      rintro i a rfl u hu hof
      obtain ⟨⟨arg, harg, hx⟩, hkeys⟩ := hturns u (List.mem_cons_of_mem _ hu) hof
      exact ⟨⟨arg, (rotate_enabled i a).2 harg, hx⟩, fun k hk => hkeys k ((rotate_ranges i a k).1 hk)⟩
    have hnotTail : ∀ u ∈ ts, u.takes idx x = false := fun u hu => hnot u (List.mem_cons_of_mem _ hu)
    rcases step_eq_ok hstep with ⟨hnone, rfl, -⟩ | ⟨i, r, a, hsome, hco', -⟩
    · have hpicked : t.picked = none := Outcome.ok.inj (hpick.symm.trans hnone)
      rw [List.countP_cons_of_neg (by simp [Turn.isOf, hpicked])]
      exact ih hget (fun u hu => hturns u (List.mem_cons_of_mem _ hu)) hnotTail
    · have hpicked : t.picked = some (i, r, a) := Outcome.ok.inj (hpick.symm.trans hsome)
      have hrules := @rotate_rules co i a idx
      rw [hget, Option.map_some, ← hco'] at hrules
      by_cases hi : i = idx
      · have hof : t.isOf idx = true := by simp [Turn.isOf, hpicked, hi]
        obtain ⟨⟨arg, henabled, rfl⟩, hkeys⟩ := hturns t List.mem_cons_self hof
        have hne : a.keyAddr ≠ arg.keyAddr := by
          intro heq
          have hfalse := hnot t List.mem_cons_self
          simp [Turn.takes, hpicked, hi, heq] at hfalse
        rw [List.countP_cons, if_pos hof]
        have hrec := ih hrules (htail i a hco') hnotTail
        rw [if_pos hi] at hrec
        subst hi
        obtain ⟨d, -, -, hget', hnext, -⟩ := pick_eq_some hsome
        obtain rfl : rule = r := Option.some.inj (hget.symm.trans hget')
        obtain ⟨elems, helems, ha, -, htakes⟩ := nextPick_spec hnext
        obtain ⟨rule', elems', hget'', helems', harg, htrigger⟩ := henabled
        obtain rfl : rule = rule' := Option.some.inj (hget.symm.trans hget'')
        obtain rfl : elems = elems' := Outcome.ok.inj (helems.symm.trans helems')
        have hdrop := card_ahead_lt htakes ⟨arg, harg, rfl, htrigger⟩ hne
          (hkeys _ ⟨rule, elems, hget, helems, List.mem_map_of_mem ha⟩)
        exact Nat.succ_le_of_lt (lt_of_le_of_lt hrec hdrop)
      · have hof : t.isOf idx = false := by simp [Turn.isOf, hpicked, hi]
        rw [List.countP_cons_of_neg (by simp [hof])]
        have hrec := ih hrules (htail i a hco') hnotTail
        rwa [if_neg hi] at hrec

/-- **The scheduler is fair and reports quiescence exactly.** A step answers quiescent where
every rule is idle at its snapshot, and a step that returns does where no rule has an
argument enabled there. A rule enabled at as many turns in a row as there are rules has one
of them. An argument enabled at every turn of its rule, whose domain keeps to `keys`, is
taken within as many of the rule's turns as `keys` has addresses. -/
theorem step_fair (co : Coordinator) :
    (∀ snap attempt, (∃ co', co.step snap attempt = .ok (co', .quiescent)) ↔
      ∀ rule ∈ co.rules, co.Idle snap rule) ∧
    (∀ snap attempt co' outcome, co.step snap attempt = .ok (co', outcome) →
      (outcome = .quiescent ↔ ∀ idx arg, ¬ co.Enabled snap idx arg)) ∧
    (∀ ts co' idx, co.Run ts co' → idx < co.rules.length → ts.length = co.rules.length →
      (∀ t ∈ ts, ∃ arg, co.Enabled t.snap idx arg) → ∃ t ∈ ts, t.isOf idx = true) ∧
    ∀ ts co' idx x (keys : Finset Address), co.Run ts co' → x ∈ keys →
      (∀ t ∈ ts, t.isOf idx = true →
        (∃ arg, co.Enabled t.snap idx arg ∧ arg.keyAddr = x) ∧ ∀ k, co.Ranges t.snap idx k → k ∈ keys) →
      keys.card ≤ ts.countP (Turn.isOf · idx) → ∃ t ∈ ts, t.takes idx x = true := by
  refine ⟨fun snap attempt => step_quiescent_iff, ?_, ?_, ?_⟩
  · intro snap attempt co' outcome h
    rcases step_eq_ok h with ⟨hpick, -, hquiet⟩ | ⟨idx, rule, arg, hpick, -, hne⟩
    · refine iff_of_true hquiet ?_
      rintro idx arg ⟨rule, elems, hget, helems, harg, htrigger⟩
      exact (pick_eq_none_iff.1 hpick rule (List.mem_of_getElem? hget)).not_enabled hget arg
        ⟨rule, elems, hget, helems, harg, htrigger⟩
    · exact iff_of_false hne fun hnone => hnone idx arg (enabled_of_pick hpick)
  · intro ts co' idx hrun hidx hlen henabled
    obtain ⟨d, hd, hslot⟩ := exists_offset co.cursor hidx
    exact hrun.exists_isOf hslot (hlen ▸ hd) henabled
  · intro ts co' idx x keys hrun hx hturns hcard
    by_contra hnone
    have hnot : ∀ t ∈ ts, t.takes idx x = false := by
      intro t ht
      cases htakes : t.takes idx x with
      | false => rfl
      | true => exact (hnone ⟨t, ht, htakes⟩).elim
    have hpos : 0 < ts.countP (Turn.isOf · idx) := lt_of_lt_of_le (Finset.card_pos.2 ⟨x, hx⟩) hcard
    obtain ⟨t, ht, hof⟩ := List.countP_pos_iff.1 hpos
    obtain ⟨⟨arg, ⟨rule, -, hget, -⟩, -⟩, -⟩ := hturns t ht hof
    have hle := hrun.countP_isOf_le hget hturns hnot
    exact absurd (hcard.trans hle) (card_ahead_lt_card hx).not_ge

end Coordinator

/-- The domain of a document and what it is succeeded by. -/
private def onward (a : Address) : Dom := .setTerm (.unary .elems (.unary
  (.keyed .chain (.concrete (TypeRegistry.build.reservedType .supersedes))) (.lit (.addr a))))

private def always : TriggerTerm where
  term := ⟨⟨[(⟨0⟩, .addr)], .lit (.bool true), by simp [VarId.IsSubmitted, expansionNameBase], trivial⟩,
    .bool, .lit (.bool true), true, 0⟩
  param := (⟨0⟩, .addr)
  single := rfl
  boolean := rfl

/-- A rule that is always enabled at two documents, which it marks from `home`. -/
private def ruleOn (id : ℕ) (home : Address) : CheckedRule where
  id := id
  domain := ⟨onward headDocument, .addr, true⟩
  trigger := always
  view := .active
  action := .marker home (TypeRegistry.build.reservedType .retired)
  lastPick := none

/-- The second rule's home is no registered document. -/
private def twoRules : Coordinator :=
  ⟨⟨TypeRegistry.build⟩, fun _ => none, [ruleOn 0 headDocument, ruleOn 1 firstCreated], 2, 0⟩

/-- The head document is succeeded. -/
private def succeeded : CoordinationWorld :=
  match mintAndDeposit TypeRegistry.build LinkWorld.genesis 1 ghostHomeDocument
      ⟨enc [headDocument], enc [ghostHomeDocument], TypeRegistry.build.reservedType .supersedes⟩ with
  | .ok (_, w) => ⟨w, fun _ => true⟩
  | .err _ | .fault => ⟨.genesis, fun _ => true⟩

private def firstMark : Address := ⟨⟨[1, 1, 0, 1, 0, 2, 0, 2, 1], by simp⟩, .element, by decide⟩

/-- Turns at one snapshot. -/
private def turns : ℕ → Coordinator → Outcome Empty (Coordinator × List Turn)
  | 0, co => return (co, [])
  | n + 1, co => do
    let picked ← co.pick succeeded
    let (co', outcome) ← co.step succeeded ⟨succeeded, succeeded, 2, none⟩
    let (last, ts) ← turns n co'
    return (last, ⟨succeeded, ⟨succeeded, succeeded, 2, none⟩, picked, outcome⟩ :: ts)

private theorem run_turns {n : ℕ} {co last : Coordinator} {ts : List Turn} (h : turns n co = .ok (last, ts)) :
    co.Run ts last ∧ ts.length = n ∧ ∀ t ∈ ts, t.snap = succeeded := by
  induction n generalizing co ts with
  | zero =>
    cases h
    exact ⟨.nil _, rfl, List.forall_mem_nil _⟩
  | succ n ih =>
    obtain ⟨picked, hpick, h⟩ := Outcome.bind_eq_ok_iff.1 h
    obtain ⟨⟨co', outcome⟩, hstep, h⟩ := Outcome.bind_eq_ok_iff.1 h
    obtain ⟨⟨last', rest⟩, hrest, h⟩ := Outcome.bind_eq_ok_iff.1 h
    cases h
    obtain ⟨hrun, hlen, hsnap⟩ := ih hrest
    exact ⟨.cons hpick hstep hrun, congrArg Nat.succ hlen, List.forall_mem_cons.2 ⟨rfl, hsnap⟩⟩

private theorem elems_twoRules : twoRules.enumRuleDom succeeded (ruleOn 1 firstCreated) =
    .ok [.addr ghostHomeDocument, .addr headDocument] := by decide +kernel

private theorem enabled_twoRules : twoRules.Enabled succeeded 1 (.addr headDocument) :=
  ⟨ruleOn 1 firstCreated, _, rfl, elems_twoRules, by decide +kernel, by decide +kernel⟩

private theorem ranges_twoRules {k : Address} (h : twoRules.Ranges succeeded 1 k) :
    k ∈ ({ghostHomeDocument, headDocument} : Finset Address) := by
  obtain ⟨rule, elems, hget, helems, hk⟩ := h
  cases hget
  obtain rfl := Outcome.ok.inj (elems_twoRules.symm.trans helems)
  simpa [Arg.keyAddr] using hk

/-- The second of two rules has a turn in two, and the later of two documents in its second turn,
though its fires fail. -/
theorem step_fair_twoRules :
    (∃ ts co', twoRules.Run ts co' ∧ ts.length = 2 ∧ ∃ t ∈ ts, t.isOf 1 = true) ∧
    ∃ ts co', twoRules.Run ts co' ∧
      ts.map Turn.outcome = [.fired 0 ghostHomeDocument firstMark,
        .failed 1 ghostHomeDocument .homeNotRegistered, .fired 0 headDocument firstMark,
        .failed 1 headDocument .homeNotRegistered] ∧
      ∃ t ∈ ts, t.takes 1 headDocument = true := by
  obtain ⟨-, -, hrule, hargument⟩ := Coordinator.step_fair twoRules
  constructor
  · have hok : (turns 2 twoRules).isOk = true := by decide +kernel
    obtain ⟨⟨co', ts⟩, hturns⟩ := Outcome.isOk_iff.1 hok
    obtain ⟨hrun, hlen, hsnap⟩ := run_turns hturns
    refine ⟨ts, co', hrun, hlen, hrule ts co' 1 hrun (by decide) hlen fun t ht => ⟨.addr headDocument, ?_⟩⟩
    rw [hsnap t ht]
    exact enabled_twoRules
  · have hok : (turns 4 twoRules >>= fun p => pure (p.2.map Turn.outcome, p.2.countP (Turn.isOf · 1))) =
        (.ok ([.fired 0 ghostHomeDocument firstMark, .failed 1 ghostHomeDocument .homeNotRegistered,
          .fired 0 headDocument firstMark, .failed 1 headDocument .homeNotRegistered], 2) :
            Outcome Empty (List StepOutcome × ℕ)) := by decide +kernel
    obtain ⟨⟨co', ts⟩, hturns, hok⟩ := Outcome.bind_eq_ok_iff.1 hok
    obtain ⟨hrun, -, hsnap⟩ := run_turns hturns
    obtain ⟨houtcomes, hcount⟩ := Prod.mk.inj (Outcome.ok.inj hok)
    refine ⟨ts, co', hrun, houtcomes, ?_⟩
    refine hargument ts co' 1 headDocument {ghostHomeDocument, headDocument} hrun (by simp) ?_ ?_
    · intro t ht _
      rw [hsnap t ht]
      exact ⟨⟨_, enabled_twoRules, rfl⟩, fun k => ranges_twoRules⟩
    · rw [hcount]
      exact Finset.card_le_two

end Coordination
