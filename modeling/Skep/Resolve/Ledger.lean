import Skep.Address.Address
import Skep.Identity.Key
import Skep.Library.OrdMap
import Skep.Library.Succession

/-!
# The registrar's ledger

The derived index of a registry: the bindings of each prefix in the order they were
folded, which of them the walk honors, and the endpoint deposits of each home. A
binding is honored when it names the binding current for its prefix and moves no
account; a deposit is honored when it names the latest that stood in its home. A
retraction takes a deposit off the active view and touches no binding.
-/

namespace Resolve

open Identity (Fingerprint)

/-- The five values of whose act a record was. -/
inductive Verdict where
  | beforeAttestation
  | signed (fp : Fingerprint)
  | unsigned
  | disavowed
  | undeterminableHere
  deriving DecidableEq

/-- A record beside its verdict, at its link's position, in the home of its deposit. -/
structure Judged (ρ : Type) where
  position : Nat
  link : Address
  home : Address
  record : ρ
  verdict : Verdict
  deriving DecidableEq

/-- A binding as the index holds it. -/
structure BindingRecord where
  pre : Address
  account : Option Address
  replaces : Option Address
  honored : Bool
  deriving DecidableEq

/-- An endpoint deposit as the index holds it. -/
structure EndpointRecord where
  origins : List String
  replaces : Option Address
  honored : Bool
  nullified : Bool
  deriving DecidableEq

/-- Whether the deposit stands on the active view. -/
def EndpointRecord.stands (r : EndpointRecord) : Bool := r.honored && !r.nullified

/-- A prefix's current binding and its whole history. -/
structure Standing where
  pre : Address
  current : Judged BindingRecord
  history : List (Judged BindingRecord)
  deriving DecidableEq

namespace Judged

/-- The binding with the walk's answer. -/
def walked (j : Judged BindingRecord) (honored : Bool) : Judged BindingRecord :=
  { j with record := { j.record with honored := honored } }

/-- The deposit with the currency rule's answer. -/
def weighed (j : Judged EndpointRecord) (honored : Bool) : Judged EndpointRecord :=
  { j with record := { j.record with honored := honored } }

/-- The deposit off the active view. -/
def retracted (j : Judged EndpointRecord) : Judged EndpointRecord :=
  { j with record := { j.record with nullified := true } }

/-- The binding a binding replaces. -/
def replacesBinding (j : Judged BindingRecord) : Option Address := j.record.replaces

/-- The deposit a deposit replaces. -/
def replacesDeposit (j : Judged EndpointRecord) : Option Address := j.record.replaces

section
variable (j : Judged BindingRecord) (d : Judged EndpointRecord) (b : Bool)

@[simp] theorem walked_link : (j.walked b).link = j.link := rfl
@[simp] theorem walked_honored : (j.walked b).record.honored = b := rfl
@[simp] theorem walked_account : (j.walked b).record.account = j.record.account := rfl
@[simp] theorem walked_replaces : (j.walked b).replacesBinding = j.record.replaces := rfl
@[simp] theorem weighed_link : (d.weighed b).link = d.link := rfl
@[simp] theorem weighed_honored : (d.weighed b).record.honored = b := rfl
@[simp] theorem weighed_nullified : (d.weighed b).record.nullified = d.record.nullified := rfl
@[simp] theorem weighed_replaces : (d.weighed b).replacesDeposit = d.record.replaces := rfl
@[simp] theorem retracted_link : d.retracted.link = d.link := rfl
@[simp] theorem retracted_honored : d.retracted.record.honored = d.record.honored := rfl
@[simp] theorem retracted_nullified : d.retracted.record.nullified = true := rfl
@[simp] theorem retracted_replaces : d.retracted.replacesDeposit = d.replacesDeposit := rfl

end

end Judged

/-- One prefix's bindings in journal order, and the indices of those the walk honors. -/
structure Bindings where
  entries : List (Judged BindingRecord)
  honored : List Nat
  within : ∀ i ∈ honored, i < entries.length

namespace Bindings

/-- No binding. -/
def empty : Bindings := ⟨[], [], by simp⟩

/-- The binding that stood last. -/
def stood (b : Bindings) : Option (Judged BindingRecord) :=
  b.honored.getLast?.bind (b.entries[·]?)

/-- The binding that allocated the prefix. -/
def allocated (b : Bindings) : Option (Judged BindingRecord) :=
  b.honored.head?.bind (b.entries[·]?)

/-- Whether the walk honors a binding after these. -/
def honors (b : Bindings) (r : BindingRecord) : Bool :=
  match b.stood, b.allocated with
  | some stood, some allocated =>
      r.replaces == some stood.link &&
        (r.account.isNone || r.account == allocated.record.account)
  -- The first record of a key names the empty state, by the member's absence.
  | _, _ => r.replaces.isNone

/-- The bindings with one more, marked by the walk's answer. -/
def push (b : Bindings) (j : Judged BindingRecord) : Bindings where
  entries := b.entries ++ [j.walked (b.honors j.record)]
  honored := if b.honors j.record then b.honored ++ [b.entries.length] else b.honored
  within := by
    intro i hi
    rw [List.length_append, List.length_singleton]
    split at hi
    · rcases List.mem_append.1 hi with hi | hi
      · exact Nat.lt_succ_of_lt (b.within i hi)
      · rw [List.mem_singleton.1 hi]
        exact Nat.lt_succ_self _
    · exact Nat.lt_succ_of_lt (b.within i hi)

/-- The honored bindings in journal order. -/
def chain (b : Bindings) : List (Judged BindingRecord) := b.entries.filter (·.record.honored)

/-- The indices are those of the honored bindings, and these succeed one another
under the first one's account. -/
structure Walked (b : Bindings) : Prop where
  marked : b.honored.filterMap (b.entries[·]?) = b.chain
  succeeding : Succession.Succeeding Judged.link Judged.replacesBinding b.chain
  accounts : ∀ first rest, b.chain = first :: rest →
    ∀ c ∈ rest, c.record.account = none ∨ c.record.account = first.record.account

theorem Walked.empty : Walked empty where
  marked := rfl
  succeeding := .nil
  accounts := by
    intro first rest h
    cases h

/-- Indices that are all in bounds lose none when they are read. -/
private theorem getElem_getLast {α : Type*} (xs : List α) {l : List Nat}
    (h : ∀ i ∈ l, i < xs.length) :
    l.getLast?.bind (xs[·]?) = (l.filterMap (xs[·]?)).getLast? := by
  rcases List.eq_nil_or_concat l with rfl | ⟨l, i, rfl⟩
  · rfl
  · have hi : i < xs.length := h i (by simp)
    simp [List.getElem?_eq_getElem hi]

private theorem getElem_head {α : Type*} (xs : List α) {l : List Nat}
    (h : ∀ i ∈ l, i < xs.length) :
    l.head?.bind (xs[·]?) = (l.filterMap (xs[·]?)).head? := by
  cases l with
  | nil => rfl
  | cons i l =>
    have hi : i < xs.length := h i List.mem_cons_self
    simp [List.getElem?_eq_getElem hi]

/-- More entries leave the indices already kept where they were. -/
private theorem filterMap_getElem_append {α : Type*} (xs ys : List α) {l : List Nat}
    (h : ∀ i ∈ l, i < xs.length) :
    l.filterMap ((xs ++ ys)[·]?) = l.filterMap (xs[·]?) := by
  apply List.filterMap_congr
  intro i hi
  exact List.getElem?_append_left (h i hi)

namespace Walked

variable {b : Bindings}

theorem stood_eq (h : b.Walked) : b.stood = b.chain.getLast? := by
  rw [stood, getElem_getLast _ b.within, h.marked]

theorem allocated_eq (h : b.Walked) : b.allocated = b.chain.head? := by
  rw [allocated, getElem_head _ b.within, h.marked]

/-- A binding is honored when it follows the current one and moves no account. -/
theorem honors_iff (h : b.Walked) {r : BindingRecord} :
    b.honors r = true ↔ r.replaces = Succession.current Judged.link b.chain ∧
      ∀ first ∈ b.chain.head?, r.account = none ∨ r.account = first.record.account := by
  rw [honors, h.stood_eq, h.allocated_eq, Succession.current]
  rcases List.eq_nil_or_concat b.chain with hnil | ⟨rest, last, hcat⟩
  · simp [hnil]
  · cases hhead : b.chain.head? with
    | none => simp [List.head?_eq_none_iff.1 hhead] at hcat
    | some first => simp [hcat]

/-- A copy of a binding once honored is not honored again. -/
theorem not_honors (h : b.Walked) (hlinks : (b.entries.map Judged.link).Nodup)
    {c : Judged BindingRecord} (hc : c ∈ b.chain) {r : BindingRecord}
    (hr : r.replaces = c.record.replaces) : b.honors r = false := by
  have hchain : (b.chain.map Judged.link).Nodup :=
    hlinks.sublist (List.filter_sublist.map Judged.link)
  rw [Bool.eq_false_iff]
  intro hhonors
  have hcurrent := (h.honors_iff.1 hhonors).1
  exact h.succeeding.ne_current hchain hc (hr.symm.trans hcurrent)

end Walked

theorem push_chain (b : Bindings) (j : Judged BindingRecord) :
    (b.push j).chain = b.chain ++ if b.honors j.record then [j.walked true] else [] := by
  cases hj : b.honors j.record <;> simp [chain, push, hj]

theorem Walked.push {b : Bindings} (h : b.Walked) (j : Judged BindingRecord) :
    (b.push j).Walked := by
  have hchain := push_chain b j
  cases hj : b.honors j.record with
  | false =>
    simp only [hj, Bool.false_eq_true, if_false, List.append_nil] at hchain
    constructor
    · rw [hchain, ← h.marked]
      simp only [Bindings.push, hj, Bool.false_eq_true, if_false]
      exact filterMap_getElem_append _ _ b.within
    · rw [hchain]
      exact h.succeeding
    · rw [hchain]
      exact h.accounts
  | true =>
    simp only [hj, if_true] at hchain
    obtain ⟨hreplaces, haccount⟩ := h.honors_iff.1 hj
    constructor
    · rw [hchain, ← h.marked]
      simp only [Bindings.push, hj, if_true, List.filterMap_append]
      rw [filterMap_getElem_append _ _ b.within]
      simp
    · rw [hchain]
      exact Succession.succeeding_concat.2 ⟨h.succeeding, hreplaces⟩
    · rw [hchain]
      intro first rest heq c hc
      cases hb : b.chain with
      | nil =>
        rw [hb, List.nil_append, List.cons.injEq] at heq
        rw [← heq.2] at hc
        cases hc
      | cons first' rest' =>
        rw [hb, List.cons_append, List.cons.injEq] at heq
        obtain ⟨rfl, rfl⟩ := heq
        rcases List.mem_append.1 hc with hc | hc
        · exact h.accounts first' rest' hb c hc
        · rw [List.mem_singleton.1 hc]
          exact haccount first' (by simp [hb])

end Bindings

/-- The deposit as it stood before any retraction. -/
def Judged.restored (j : Judged EndpointRecord) : Judged EndpointRecord :=
  { j with record := { j.record with nullified := false } }

/-- One home's endpoint deposits in journal order, and the index of the latest that
stood, nullified or not. -/
structure Deposits where
  entries : List (Judged EndpointRecord)
  lastStood : Option Nat
  within : ∀ i ∈ lastStood, i < entries.length

namespace Deposits

/-- No deposit. -/
def empty : Deposits := ⟨[], none, by simp⟩

/-- The deposit that stood last. -/
def stood (d : Deposits) : Option (Judged EndpointRecord) := d.lastStood.bind (d.entries[·]?)

/-- Whether the currency rule honors a deposit after these. -/
def honors (d : Deposits) (r : EndpointRecord) : Bool :=
  match d.stood with
  | none => r.replaces.isNone
  | some stood => r.replaces == some stood.link

/-- The deposits with one more, marked by the rule's answer. -/
def push (d : Deposits) (j : Judged EndpointRecord) : Deposits where
  entries := d.entries ++ [j.weighed (d.honors j.record)]
  lastStood := if d.honors j.record then some d.entries.length else d.lastStood
  within := by
    intro i hi
    rw [List.length_append, List.length_singleton]
    split at hi
    · rw [← Option.some.inj hi]
      exact Nat.lt_succ_self _
    · exact Nat.lt_succ_of_lt (d.within i hi)

/-- The deposits with the one at the index off the active view. -/
def retract (d : Deposits) (i : Nat) : Deposits where
  entries := d.entries.modify i Judged.retracted
  lastStood := d.lastStood
  within := by
    intro j hj
    rw [List.length_modify]
    exact d.within j hj

/-- The honored deposits in journal order, as they stood before any retraction. -/
def chain (d : Deposits) : List (Judged EndpointRecord) :=
  (d.entries.map Judged.restored).filter (·.record.honored)

/-- The index kept is that of the last honored deposit, and these succeed one another. -/
structure Walked (d : Deposits) : Prop where
  marked : d.stood.map Judged.restored = d.chain.getLast?
  succeeding : Succession.Succeeding Judged.link Judged.replacesDeposit d.chain

namespace Walked

variable {d : Deposits}

theorem empty : Deposits.empty.Walked := ⟨rfl, .nil⟩

/-- A deposit is honored when it follows the latest that stood. -/
theorem honors_iff (h : d.Walked) {r : EndpointRecord} :
    d.honors r = true ↔ r.replaces = Succession.current Judged.link d.chain := by
  rw [Succession.current, ← h.marked, honors]
  cases d.stood with
  | none => simp
  | some stood => simp [Judged.restored]

/-- A copy of a deposit once honored is not honored again. -/
theorem not_honors (h : d.Walked) (hlinks : (d.entries.map Judged.link).Nodup)
    {c : Judged EndpointRecord} (hc : c ∈ d.chain) {r : EndpointRecord}
    (hr : r.replaces = c.record.replaces) : d.honors r = false := by
  have hchain : (d.chain.map Judged.link).Nodup := by
    have hsub : (d.chain.map Judged.link).Sublist
        ((d.entries.map Judged.restored).map Judged.link) := List.filter_sublist.map Judged.link
    rw [List.map_map] at hsub
    exact hlinks.sublist hsub
  rw [Bool.eq_false_iff]
  intro hhonors
  exact h.succeeding.ne_current hchain hc (hr.symm.trans (h.honors_iff.1 hhonors))

end Walked

theorem push_chain (d : Deposits) (j : Judged EndpointRecord) :
    (d.push j).chain = d.chain ++ if d.honors j.record then [(j.weighed true).restored] else [] := by
  cases hj : d.honors j.record <;> simp [chain, push, hj, Judged.restored, Judged.weighed]

theorem Walked.push {d : Deposits} (h : d.Walked) (j : Judged EndpointRecord) :
    (d.push j).Walked := by
  have hchain := push_chain d j
  cases hj : d.honors j.record with
  | false =>
    simp only [hj, Bool.false_eq_true, if_false, List.append_nil] at hchain
    constructor
    · have hstood : (d.push j).stood = d.stood := by
        simp only [stood, Deposits.push, hj, Bool.false_eq_true, if_false]
        cases hlast : d.lastStood with
        | none => rfl
        | some i => exact List.getElem?_append_left (d.within i hlast)
      rw [hchain, hstood]
      exact h.marked
    · rw [hchain]
      exact h.succeeding
  | true =>
    simp only [hj, if_true] at hchain
    constructor
    · rw [hchain]
      simp [stood, Deposits.push, hj]
    · rw [hchain]
      exact Succession.succeeding_concat.2 ⟨h.succeeding, h.honors_iff.1 hj⟩

/-- A retraction leaves the deposits as they stood before it. -/
theorem retract_restored (d : Deposits) (i : Nat) :
    (d.retract i).entries.map Judged.restored = d.entries.map Judged.restored := by
  apply List.ext_getElem?
  intro j
  simp only [retract, List.getElem?_map, List.getElem?_modify]
  by_cases hij : i = j
  · cases d.entries[j]? <;> simp [hij, Judged.restored, Judged.retracted]
  · simp [hij]

theorem retract_chain (d : Deposits) (i : Nat) : (d.retract i).chain = d.chain := by
  rw [chain, retract_restored, chain]

theorem retract_stood (d : Deposits) (i : Nat) :
    (d.retract i).stood.map Judged.restored = d.stood.map Judged.restored := by
  simp only [stood]
  cases hlast : d.lastStood with
  | none => simp [retract, hlast]
  | some j =>
    have hentry := congrArg (·[j]?) (retract_restored d i)
    simpa [retract, hlast] using hentry

theorem Walked.retract {d : Deposits} (h : d.Walked) (i : Nat) : (d.retract i).Walked := by
  constructor
  · rw [retract_chain, retract_stood]
    exact h.marked
  · rw [retract_chain]
    exact h.succeeding

end Deposits

/-- Where a link's record stands: a binding's prefix, or a deposit's home and its index
among that home's deposits. -/
inductive Place where
  | binding (pre : Address)
  | endpoint (home : Address) (index : Nat)
  deriving DecidableEq

/-- The prefixes' bindings, the homes' deposits, and each link's place. -/
structure Ledger where
  prefixes : OrdMap Address Bindings
  endpoints : OrdMap Address Deposits
  places : OrdMap Address Place

/-- The element kept of two, the later where their keys are one. -/
def greaterByKey {α : Type*} (key : α → Nat) (best : Option α) (a : α) : Option α :=
  match best with
  | none => some a
  | some b => if key b ≤ key a then some a else some b

/-- The last of the elements with the greatest key. -/
def maxByKey {α : Type*} (key : α → Nat) (l : List α) : Option α :=
  l.foldl (greaterByKey key) none

namespace Ledger

/-- The ledger with no record. -/
def empty : Ledger := ⟨.empty, .empty, .empty⟩

/-- The bindings at the prefix, none where it has no entry. -/
def bindings (l : Ledger) (pre : Address) : Bindings := (l.prefixes.get pre).getD .empty

/-- The deposits in the home, none where it has no entry. -/
def deposits (l : Ledger) (home : Address) : Deposits := (l.endpoints.get home).getD .empty

/-- Fold one binding at its position; the answer is whether it was honored. -/
def foldBinding (l : Ledger) (j : Judged BindingRecord) : Ledger × Bool :=
  let bindings := l.bindings j.record.pre
  ({ l with
      prefixes := l.prefixes.insert j.record.pre (bindings.push j)
      places := l.places.insert j.link (.binding j.record.pre) },
    bindings.honors j.record)

/-- Fold one endpoint deposit at its position; the answer is whether it was honored. -/
def foldEndpoint (l : Ledger) (j : Judged EndpointRecord) : Ledger × Bool :=
  let deposits := l.deposits j.home
  ({ l with
      endpoints := l.endpoints.insert j.home (deposits.push j)
      -- A link handed twice is retracted where it first stood.
      places :=
        if l.places.contains j.link then l.places
        else l.places.insert j.link (.endpoint j.home deposits.entries.length) },
    deposits.honors j.record)

/-- A retraction of the link; the answer is whether a deposit left the active view. -/
def nullify (l : Ledger) (link : Address) : Ledger × Bool :=
  match l.places.get link with
  | some (.endpoint home index) =>
      match l.endpoints.get home with
      | some d =>
          if index < d.entries.length then
            ({ l with endpoints := l.endpoints.insert home (d.retract index) }, true)
          else (l, false)
      | none => (l, false)
  -- A binding is read on the audit view, so its retraction clears nothing.
  | some (.binding _) => (l, false)
  | none => (l, false)

/-- The prefix's current binding and its whole history. -/
def standing (l : Ledger) (pre : Address) : Option Standing := do
  let bindings ← l.prefixes.get pre
  let current ← bindings.stood
  return { pre, current, history := bindings.entries }

/-- The longest proper prefix with a standing. -/
def parentPrefix (l : Ledger) (pre : Address) : Option Address :=
  (maxByKey (fun e : Address × Bindings => e.1.tumbler.comps.length)
    (l.prefixes.entries.filter fun e =>
      !e.2.honored.isEmpty && e.1 != pre && isPrefix e.1.tumbler pre.tumbler)).map Prod.fst

/-- The endpoint deposits of the home in journal order. -/
def endpointsIn (l : Ledger) (home : Address) : List (Judged EndpointRecord) :=
  (l.endpoints.get home).elim [] Deposits.entries

/-- The latest honored deposit of the home still on the active view. -/
def currentEndpoint (l : Ledger) (home : Address) : Option (Judged EndpointRecord) :=
  (l.endpointsIn home).reverse.find? (·.record.stands)

end Ledger

end Resolve
