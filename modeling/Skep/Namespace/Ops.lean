import Skep.Namespace.Documents

/-!
# The operations of the namespace

The registration of nodes, the delegation of accounts and the creation of
documents. Each answers the address it issues and the records it stages. The
gates read the world the transaction started from, the mints the working one.
-/

inductive CreateDocumentError where
  | notOwner
  | mint (e : MintError)
  deriving DecidableEq, Repr

inductive DelegateError where
  | notValid
  | notAccountTier
  | tooDeep
  | delegatorUnknown
  | notAncestor
  | notAuthorized
  | notTopDown
  | notFresh
  | duplicateId
  | parentNotRegistered
  | notNextForm
  deriving DecidableEq, Repr

inductive RegisterNodeError where
  | notValid
  | notNode
  | tooDeep
  | notFresh
  | notDescendantOfBootstrap
  deriving DecidableEq, Repr

namespace M3State

/-- Create a document of an account. Without a choice an account's first
document is published. -/
def createNewDocument (base working : M3State) (caller : PrincipalId) (account : Address)
    (published : Option Bool) : Outcome CreateDocumentError (Address × List M3Rec) := do
  Outcome.refuseIf (base.isEffectiveOwner caller account = false) .notOwner
  let published := published.getD (!working.hasDocuments account)
  let (addr, m3rec) ← (working.mintDocument account published).mapErr .mint
  return (addr, [m3rec])

/-- Delegate an account to a new principal. -/
def delegate (base working : M3State) (delegator : PrincipalId) (newPrefix : Tumbler)
    (newId : PrincipalId) : Outcome DelegateError (Address × List M3Rec) := do
  let newPrefix ← (validate newPrefix).mapErr fun _ => .notValid
  Outcome.refuseIf (newPrefix.level ≠ .account) .notAccountTier
  Outcome.refuseIf (maxPrincipalComponents < newPrefix.tumbler.len) .tooDeep
  -- an account has a parent
  let anchor ← Outcome.expectSome (parent newPrefix)
  let delegatorPrefix ← Outcome.okOr (base.principalPrefix delegator) .delegatorUnknown
  Outcome.refuseIf
    (prefixContains delegatorPrefix newPrefix = false ∨ delegatorPrefix = newPrefix) .notAncestor
  Outcome.refuseIf (base.isEffectiveOwner delegator newPrefix = false) .notAuthorized
  Outcome.refuseIf (base.hasPrincipalStrictlyUnder newPrefix = true) .notTopDown
  Outcome.refuseIf (base.isAllocated newPrefix = true) .notFresh
  Outcome.refuseIf ((base.principalPrefix newId).isSome = true) .duplicateId
  let minted ← working.mintAccount anchor
  let (next, m3rec) ← Outcome.okOr minted .parentNotRegistered
  Outcome.refuseIf (next ≠ newPrefix) .notNextForm
  return (newPrefix, [m3rec, .registerPrincipal next newId])

/-- Register a node under the bootstrap node. -/
def registerNode (base : M3State) (addr : Tumbler) :
    Outcome RegisterNodeError (Address × List M3Rec) := do
  let addr ← (validate addr).mapErr fun _ => .notValid
  Outcome.refuseIf (addr.level ≠ .node) .notNode
  Outcome.refuseIf (maxNodeComponents < addr.tumbler.len) .tooDeep
  Outcome.refuseIf ((base.entityLevel addr).isSome = true) .notFresh
  Outcome.refuseIf (prefixContains bootstrapRoot addr = false) .notDescendantOfBootstrap
  return (addr, [.registerNode addr])

/-- Create a document of the caller's own account, as an earlier world has it. -/
def fork (snapshot base working : M3State) (caller : PrincipalId) (published : Option Bool) :
    Outcome CreateDocumentError (Address × List M3Rec) := do
  let pfx ← Outcome.okOr (snapshot.principalPrefix caller) .notOwner
  createNewDocument base working caller pfx published

theorem mintAccount_eq_ok {ε : Type} {s : M3State} {anchor a : Address} {r : M3Rec}
    (h : (s.mintAccount anchor : Outcome ε (Option (Address × M3Rec))) = .ok (some (a, r))) :
    (s.entityLevel anchor = some .node ∨ s.entityLevel anchor = some .account) ∧
      r = .allocate a false ∧ namespaceOf a = some (accountNs anchor) ∧
      ordinal a.tumbler = s.effectiveFrontier (accountNs anchor) + 1 := by
  rw [mintAccount] at h
  split at h
  · next hlv =>
    simp only [Outcome.bind_eq_ok_iff, Outcome.expect_eq_ok_iff, Outcome.pure_eq, Outcome.ok.injEq,
      Option.some.injEq, exists_eq_right] at h
    exact ⟨.inl hlv, mintOn_eq_ok h⟩
  · next hlv =>
    simp only [Outcome.bind_eq_ok_iff, Outcome.expect_eq_ok_iff, Outcome.pure_eq, Outcome.ok.injEq,
      Option.some.injEq, exists_eq_right] at h
    exact ⟨.inr hlv, mintOn_eq_ok h⟩
  · cases h

/-- What a delegation has checked of the seat and its principal. -/
structure Delegable (base working : M3State) (anchor new : Address) (newId : PrincipalId) :
    Prop where
  account : new.level = .account
  anchor_registered :
    working.entityLevel anchor = some .node ∨ working.entityLevel anchor = some .account
  next : namespaceOf new = some (accountNs anchor)
  next_ordinal : ordinal new.tumbler = working.effectiveFrontier (accountNs anchor) + 1
  fresh : base.isAllocated new = false
  topDown : base.hasPrincipalStrictlyUnder new = false
  ancestor : ∃ p, base.principals.contains p = true ∧ prefixContains p new = true
  newId_unused : base.principalPrefix newId = none

theorem contains_of_principalPrefix {s : M3State} {id : PrincipalId} {p : Address}
    (h : s.principalPrefix id = some p) : s.principals.contains p = true := by
  obtain ⟨e, he, rfl⟩ := Option.map_eq_some_iff.1 h
  exact OrdMap.contains_iff.2 ⟨e.2, OrdMap.get_eq_some_iff.2 (List.mem_of_find?_eq_some he)⟩

theorem delegate_eq_ok {base working : M3State} {delegator newId : PrincipalId} {pre : Tumbler}
    {new : Address} {recs : List M3Rec}
    (h : delegate base working delegator pre newId = .ok (new, recs)) :
    validate pre = .ok new ∧ ∃ anchor, parent new = some anchor ∧
      Delegable base working anchor new newId ∧
      recs = [.allocate new false, .registerPrincipal new newId] := by
  simp only [delegate, Outcome.bind_eq_ok_iff, Outcome.mapErr_eq_ok_iff, Outcome.refuseIf_eq_ok_iff,
    Outcome.expectSome_eq_ok_iff, Outcome.okOr_eq_ok_iff, Outcome.pure_eq, Outcome.ok.injEq,
    Prod.exists, Prod.mk.injEq, exists_const, not_not, Bool.not_eq_true, Option.isSome_eq_false_iff,
    Option.isNone_iff_eq_none] at h
  obtain ⟨a, hvalid, hlv, -, anchor, hanchor, delegatorPrefix, hprefix, habove, -, htop, hfresh, hid, minted,
    hminted, next, m3rec, rfl, rfl, rfl, rfl⟩ := h
  obtain ⟨hreg, rfl, hns, hord⟩ := mintAccount_eq_ok hminted
  have hancestor := Bool.eq_true_of_not_eq_false (not_or.1 habove).1
  exact ⟨hvalid, anchor, hanchor, ⟨hlv, hreg, hns, hord, hfresh, htop,
    ⟨delegatorPrefix, contains_of_principalPrefix hprefix, hancestor⟩, hid⟩, rfl⟩

theorem createNewDocument_eq_ok {base working : M3State} {caller : PrincipalId}
    {account new : Address} {published : Option Bool} {recs : List M3Rec}
    (h : createNewDocument base working caller account published = .ok (new, recs)) :
    working.isRegisteredAccount account = true ∧ namespaceOf new = some (documentNs account) ∧
      ordinal new.tumbler = working.effectiveFrontier (documentNs account) + 1 ∧
      ∃ pub, recs = [.allocate new pub] := by
  simp only [createNewDocument, Outcome.bind_eq_ok_iff, Outcome.mapErr_eq_ok_iff,
    Outcome.refuseIf_eq_ok_iff, Outcome.pure_eq, Outcome.ok.injEq, Prod.exists, Prod.mk.injEq,
    exists_const] at h
  obtain ⟨-, a, r, hmint, rfl, rfl⟩ := h
  obtain ⟨hreg, rfl, hns, hord⟩ := mintDocument_eq_ok hmint
  exact ⟨hreg, hns, hord, _, rfl⟩

theorem fork_eq_ok {snapshot base working : M3State} {caller : PrincipalId}
    {new : Address} {published : Option Bool} {recs : List M3Rec}
    (h : fork snapshot base working caller published = .ok (new, recs)) :
    ∃ account, createNewDocument base working caller account published = .ok (new, recs) := by
  simp only [fork, Outcome.bind_eq_ok_iff] at h
  obtain ⟨account, -, h⟩ := h
  exact ⟨account, h⟩

theorem registerNode_eq_ok {base : M3State} {t : Tumbler} {new : Address} {recs : List M3Rec}
    (h : registerNode base t = .ok (new, recs)) :
    new.level = .node ∧ base.isAllocated new = false ∧ recs = [.registerNode new] := by
  simp only [registerNode, Outcome.bind_eq_ok_iff, Outcome.mapErr_eq_ok_iff,
    Outcome.refuseIf_eq_ok_iff, Outcome.pure_eq, Outcome.ok.injEq, Prod.mk.injEq, exists_const,
    not_not, Bool.not_eq_true, Option.isSome_eq_false_iff, Option.isNone_iff_eq_none] at h
  obtain ⟨a, -, hlv, -, hfresh, -, rfl, rfl⟩ := h
  refine ⟨hlv, ?_, rfl⟩
  rw [entityLevel] at hfresh
  simpa [hlv] using hfresh

end M3State

/-- What an operation of the namespace stages over a slice. -/
inductive EntityRecs (s : M3State) : List M3Rec → Prop
  | node {a : Address} (h : a.level = .node) : EntityRecs s [.registerNode a]
  | document {account a : Address} (pub : Bool) (haccount : s.isRegisteredAccount account = true)
      (ha : namespaceOf a = some (documentNs account)) : EntityRecs s [.allocate a pub]
  | account {anchor a : Address} {id : PrincipalId} (h : M3State.Delegable s s anchor a id) :
      EntityRecs s [.allocate a false, .registerPrincipal a id]
