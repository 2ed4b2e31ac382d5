import Skep.Namespace.Ns
import Skep.Library.OrdMap

/-!
# The namespace slice

The frontier of every chain, the registered nodes, the seated principals and
the publication bit of every document. A frontier moves by the two allocation
records alone, each asserted to name the next address of its chain.
-/

/-- A principal's id. -/
structure PrincipalId where
  id : ℕ
  deriving DecidableEq, Repr

def bootstrapPrincipal : PrincipalId := ⟨0⟩

def systemPrincipal : PrincipalId := ⟨9000000000000000⟩

/-- The records of the namespace slice. -/
inductive M3Rec where
  | allocate (addr : Address) (published : Bool)
  | registerNode (addr : Address)
  | registerPrincipal (pre : Address) (id : PrincipalId)
  | allocateRange (first : Address) (count : ℕ)

/-- The namespace slice. -/
structure M3State where
  frontiers : OrdMap NsKey ℕ
  nodes : OrdMap Address Unit
  principals : OrdMap Address PrincipalId
  publication : OrdMap Address Bool
  mintedAt : OrdMap Address ℕ

/-- Why a mint was refused. -/
inductive MintError where
  | homeNotRegistered
  | sourceNotRegistered
  | notAnAccount
  | gate (e : GateViolation)
  deriving DecidableEq, Repr

def maxNodeComponents : ℕ := 32

def maxPrincipalComponents : ℕ := 64

def bootstrapRoot : Address := ⟨⟨[1], by simp⟩, .node, by decide⟩

def systemNode : Address := ⟨⟨[1, 1], by simp⟩, .node, by decide⟩

def systemAccount : Address := ⟨⟨[1, 1, 0, 1], by simp⟩, .account, by decide⟩

def headDocument : Address := ⟨⟨[1, 1, 0, 1, 0, 2], by simp⟩, .document, by decide⟩

/-- The first document the system account creates after genesis. -/
def firstCreated : Address := ⟨⟨[1, 1, 0, 1, 0, 3], by simp⟩, .document, by decide⟩

/-- Whether an element is a full position of the link subspace. -/
def isLinkSlot (e : Address) : Bool :=
  match e.elementField with
  | some [s, _] => s == linkSubspace
  | _ => false

/-- Whether `a` extends `pre`. -/
def prefixContains (pre a : Address) : Bool := isPrefix pre.tumbler a.tumbler

namespace M3State

/-- The highest ordinal a chain has issued or reserved. -/
def effectiveFrontier (s : M3State) (key : NsKey) : ℕ :=
  max ((s.frontiers.get key).getD 0) (ghostFloor key)

/-- Fold one record, `seq` being the position it commits at. -/
def applyM3 {ε : Type} (s : M3State) (seq : ℕ) : M3Rec → Outcome ε M3State
  | .allocate addr published => do
      let key ← Outcome.expectSome (namespaceOf addr)
      Outcome.require (ordinal addr.tumbler = s.effectiveFrontier key + 1)
      return { s with
        frontiers := s.frontiers.insert key (ordinal addr.tumbler)
        publication :=
          if addr.level = .document ∧ s.publication.contains addr = false then
            s.publication.insert addr published
          else s.publication
        mintedAt :=
          if (addr.level = .document ∨ isLinkSlot addr = true) ∧
              s.mintedAt.contains addr = false then
            s.mintedAt.insert addr seq
          else s.mintedAt }
  | .registerNode addr => return { s with nodes := s.nodes.insert addr () }
  | .registerPrincipal pre id =>
      return { s with
        principals :=
          if s.principals.contains pre then s.principals else s.principals.insert pre id }
  | .allocateRange first count => do
      let key ← Outcome.expectSome (namespaceOf first)
      Outcome.require (ordinal first.tumbler = s.effectiveFrontier key + 1)
      return { s with frontiers := s.frontiers.insert key (ordinal first.tumbler + count - 1) }

/-- The slice before any record: the bootstrap root and its principal. -/
def roots : M3State where
  frontiers := OrdMap.empty
  nodes := OrdMap.empty.insert bootstrapRoot ()
  principals := OrdMap.empty.insert bootstrapRoot bootstrapPrincipal
  publication := OrdMap.empty
  mintedAt := OrdMap.empty

/-- The records genesis folds. -/
def seed : List M3Rec :=
  [.registerNode systemNode, .allocate systemAccount false,
    .registerPrincipal systemAccount systemPrincipal, .allocate ghostHomeDocument true,
    .allocate headDocument true]

/-- Fold records in order, all at one position. -/
def applyAll {ε : Type} (s : M3State) (seq : ℕ) (recs : List M3Rec) : Outcome ε M3State :=
  recs.foldlM (fun s r => s.applyM3 seq r) s

/-- Whether the address has been issued on its chain. -/
def isChainMember (s : M3State) (a : Address) : Bool :=
  match namespaceOf a with
  | none => false
  | some key =>
      decide (ghostFloor key < ordinal a.tumbler) &&
        (s.frontiers.get key).any fun m => decide (ordinal a.tumbler ≤ m)

def isAllocated (s : M3State) (a : Address) : Bool :=
  match a.level with
  | .node => s.nodes.contains a
  | .account | .document | .element => s.isChainMember a

/-- The level of an allocated address above the elements. -/
def entityLevel (s : M3State) (a : Address) : Option Level :=
  if a.level ≠ .element ∧ s.isAllocated a = true then some a.level else none

def isRegisteredDocument (s : M3State) (a : Address) : Bool := s.entityLevel a == some .document

def isRegisteredAccount (s : M3State) (a : Address) : Bool := s.entityLevel a == some .account

def hasDocuments (s : M3State) (account : Address) : Bool :=
  account.level == .account && (s.frontiers.get (documentNs account)).any (· != 0)

/-- The newest version of a document. -/
def latestVersion (s : M3State) (source : Address) : Option Address :=
  if source.level ≠ .document then none
  else
    match s.frontiers.get (versionNs source) with
    | none => none
    | some m =>
        if m = 0 then none
        else
          -- a same-field step from a document passes the gate
          match nthIn (versionNs source) m with
          | .ok a => some a
          | _ => none

def published (s : M3State) (doc : Address) : Bool := (s.publication.get doc).getD false

/-- The deepest seat above an address. -/
def omega (s : M3State) (a : Address) : Option (Address × PrincipalId) :=
  (s.principals.entries.filter fun e =>
      (e.1.level == .node || e.1.level == .account) && prefixContains e.1 a).foldl
    (fun best e =>
      match best with
      | none => some e
      | some b => if b.1.tumbler.len ≤ e.1.tumbler.len then some e else some b) none

def effectiveOwner (s : M3State) (a : Address) : Option PrincipalId := (s.omega a).map Prod.snd

def isEffectiveOwner (s : M3State) (id : PrincipalId) (a : Address) : Bool :=
  s.effectiveOwner a == some id

def principalPrefix (s : M3State) (id : PrincipalId) : Option Address :=
  (s.principals.entries.find? fun e => e.2 == id).map Prod.fst

def hasPrincipalStrictlyUnder (s : M3State) (p : Address) : Bool :=
  match s.principals.entries.find? fun e => decide (p < e.1) with
  | none => false
  | some e => prefixContains p e.1

/-- The next address of a chain. An element off the content and link chains faults. -/
def nextIn (s : M3State) (key : NsKey) : Outcome GateViolation Address := do
  let next ← nthIn key (s.effectiveFrontier key + 1)
  Outcome.require (next.level ≠ .element ∨ isContentOrLinkSlot next = true)
  return next

def mintOn (s : M3State) (key : NsKey) (published : Bool) :
    Outcome GateViolation (Address × M3Rec) := do
  let addr ← s.nextIn key
  return (addr, .allocate addr published)

def mintContent (s : M3State) (home : Address) : Outcome MintError (Address × M3Rec) := do
  Outcome.refuseIf (s.isRegisteredDocument home = false) .homeNotRegistered
  (s.mintOn (contentNs home) false).mapErr .gate

def mintContentRange (s : M3State) (home : Address) (count : ℕ) :
    Outcome MintError (Address × M3Rec) := do
  Outcome.require (count ≠ 0)
  Outcome.refuseIf (s.isRegisteredDocument home = false) .homeNotRegistered
  let first ← (s.nextIn (contentNs home)).mapErr .gate
  return (first, .allocateRange first count)

def mintLink (s : M3State) (home : Address) : Outcome MintError (Address × M3Rec) := do
  Outcome.refuseIf (s.isRegisteredDocument home = false) .homeNotRegistered
  (s.mintOn (linkNs home) false).mapErr .gate

def mintVersion (s : M3State) (source : Address) (published : Bool) :
    Outcome MintError (Address × M3Rec) := do
  Outcome.refuseIf (s.isRegisteredDocument source = false) .sourceNotRegistered
  (s.mintOn (versionNs source) published).mapErr .gate

def mintDocument (s : M3State) (account : Address) (published : Bool) :
    Outcome MintError (Address × M3Rec) := do
  Outcome.refuseIf (s.isRegisteredAccount account = false) .notAnAccount
  (s.mintOn (documentNs account) published).mapErr .gate

/-- The next account under a registered node or account, none elsewhere. -/
def mintAccount {ε : Type} (s : M3State) (parent : Address) :
    Outcome ε (Option (Address × M3Rec)) :=
  match s.entityLevel parent with
  | some .node | some .account => do
      let minted ← (s.mintOn (accountNs parent) false).expect
      return some minted
  | _ => return none

/-- A member of a chain stands past the reserved ordinals, up to the frontier. -/
theorem isChainMember_iff {s : M3State} {a : Address} {key : NsKey} (h : namespaceOf a = some key) :
    s.isChainMember a = true ↔ ghostFloor key < ordinal a.tumbler ∧
      ordinal a.tumbler ≤ (s.frontiers.get key).getD 0 := by
  rw [isChainMember, h]
  simp only [Bool.and_eq_true, decide_eq_true_eq]
  refine and_congr_right fun hfloor => ?_
  cases s.frontiers.get key with
  | none =>
    simp only [Option.any_none, Option.getD_none]
    exact iff_of_false Bool.false_ne_true (by omega)
  | some m => simp

theorem isRegisteredDocument_iff {s : M3State} {a : Address} :
    s.isRegisteredDocument a = true ↔ a.level = .document ∧ s.isChainMember a = true := by
  rw [isRegisteredDocument, entityLevel, beq_iff_eq]
  constructor
  · intro h
    split at h
    · next hc =>
      rw [Option.some.injEq] at h
      refine ⟨h, ?_⟩
      simpa [isAllocated, h] using hc.2
    · cases h
  · rintro ⟨hlv, hm⟩
    rw [if_pos ⟨by simp [hlv], by simpa [isAllocated, hlv] using hm⟩, hlv]

theorem applyM3_allocate_iff {ε : Type} {s s' : M3State} {seq : ℕ} {addr : Address} {pub : Bool} :
    (s.applyM3 seq (.allocate addr pub) : Outcome ε M3State) = .ok s' ↔
      ∃ key, namespaceOf addr = some key ∧
        ordinal addr.tumbler = s.effectiveFrontier key + 1 ∧
        s' = { s with
          frontiers := s.frontiers.insert key (ordinal addr.tumbler)
          publication :=
            if addr.level = .document ∧ s.publication.contains addr = false then
              s.publication.insert addr pub
            else s.publication
          mintedAt :=
            if (addr.level = .document ∨ isLinkSlot addr = true) ∧
                s.mintedAt.contains addr = false then
              s.mintedAt.insert addr seq
            else s.mintedAt } := by
  simp only [applyM3, Outcome.bind_eq_ok_iff, Outcome.expectSome_eq_ok_iff,
    Outcome.require_eq_ok_iff, Outcome.pure_eq, Outcome.ok.injEq, exists_const, eq_comm (a := s')]

theorem applyM3_allocateRange_iff {ε : Type} {s s' : M3State} {seq : ℕ} {first : Address}
    {count : ℕ} :
    (s.applyM3 seq (.allocateRange first count) : Outcome ε M3State) = .ok s' ↔
      ∃ key, namespaceOf first = some key ∧
        ordinal first.tumbler = s.effectiveFrontier key + 1 ∧
        s' = { s with frontiers := s.frontiers.insert key (ordinal first.tumbler + count - 1) } := by
  simp only [applyM3, Outcome.bind_eq_ok_iff, Outcome.expectSome_eq_ok_iff,
    Outcome.require_eq_ok_iff, Outcome.pure_eq, Outcome.ok.injEq, exists_const, eq_comm (a := s')]

theorem level_eq_of_namespaceOf {a b : Address} {key : NsKey} (ha : namespaceOf a = some key)
    (hb : namespaceOf b = some key) : a.level = b.level := by
  obtain ⟨hca, p, hp⟩ := namespaceOf_eq_some ha
  obtain ⟨hcb, -⟩ := namespaceOf_eq_some hb
  obtain ⟨t, g⟩ := key
  cases hp
  exact Level.zeros_injective (hca.zeros_eq.trans hcb.zeros_eq.symm)

/-- An allocation's address was not yet a member of its chain. -/
theorem not_isChainMember_of_next {s : M3State} {a : Address} {key : NsKey}
    (h : namespaceOf a = some key) (hn : ordinal a.tumbler = s.effectiveFrontier key + 1) :
    s.isChainMember a = false := by
  rw [← Bool.not_eq_true, isChainMember_iff h, hn, effectiveFrontier]
  omega

/-- An allocation adds its own address to the members and no other. -/
theorem isChainMember_allocate {ε : Type} {s s' : M3State} {seq : ℕ} {addr : Address} {pub : Bool}
    (h : (s.applyM3 seq (.allocate addr pub) : Outcome ε M3State) = .ok s') (a : Address) :
    s'.isChainMember a = true ↔ s.isChainMember a = true ∨ a = addr := by
  obtain ⟨key, hkey, hn, rfl⟩ := applyM3_allocate_iff.1 h
  cases ha : namespaceOf a with
  | none =>
    have hne : a ≠ addr := fun heq => by simp [heq, hkey] at ha
    simp [isChainMember, ha, hne]
  | some k =>
    rw [isChainMember_iff ha, isChainMember_iff ha]
    simp only [OrdMap.get_insert]
    split
    · next hk =>
      subst hk
      have heq : a = addr ↔ ordinal a.tumbler = ordinal addr.tumbler :=
        ⟨fun h => h ▸ rfl, fun h => by
          have hca := (namespaceOf_eq_some ha).1
          rw [h] at hca
          exact hca.eq (namespaceOf_eq_some hkey).1⟩
      rw [heq, hn, effectiveFrontier, Option.getD_some]
      omega
    · next hk =>
      have hne : a ≠ addr := fun heq => hk (by
        rw [heq, hkey] at ha
        exact (Option.some.inj ha).symm)
      simp [hne]

/-- The two slices differ in the chains of elements and in mint positions at most. -/
structure DocumentsAgree (s s' : M3State) : Prop where
  nodes : s'.nodes = s.nodes
  principals : s'.principals = s.principals
  publication : s'.publication = s.publication
  frontiers : ∀ key, (∀ e, namespaceOf e = some key → e.level ≠ .element) →
    s'.frontiers.get key = s.frontiers.get key

theorem DocumentsAgree.refl (s : M3State) : s.DocumentsAgree s := ⟨rfl, rfl, rfl, fun _ _ => rfl⟩

theorem DocumentsAgree.trans {s s' s'' : M3State} (h : s.DocumentsAgree s')
    (h' : s'.DocumentsAgree s'') : s.DocumentsAgree s'' :=
  ⟨h'.nodes.trans h.nodes, h'.principals.trans h.principals, h'.publication.trans h.publication,
    fun key hkey => (h'.frontiers key hkey).trans (h.frontiers key hkey)⟩

end M3State

/-- A record that mints an element. -/
def M3Rec.MintsElement : M3Rec → Prop
  | .allocate addr _ => addr.level = .element
  | .allocateRange first _ => first.level = .element
  | _ => False
