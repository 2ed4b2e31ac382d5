import Skep.Address.Increment

/-!
# Namespaces

A namespace is a chain of sibling addresses: an anchor and the generator that
steps from it to the chain's first address. Every address past a single
component lies on exactly one chain, at its ordinal.
-/

/-- The step from an anchor to its first child: within its field or into the next. -/
inductive Generator where
  | sameField
  | nextField
  deriving DecidableEq, Repr

namespace Generator

/-- The generator as the allocation step's argument. -/
def incK : Generator → ℕ
  | .sameField => 1
  | .nextField => 2

/-- What stands between an anchor and its children's ordinal. -/
def sep : Generator → List ℕ
  | .sameField => []
  | .nextField => [0]

theorem incK_injective : Function.Injective incK := by
  intro g g' h
  cases g <;> cases g' <;> simp_all [incK]

end Generator

/-- A chain: its anchor and its generator. -/
@[ext] structure NsKey where
  parent : Tumbler
  g : Generator
  deriving DecidableEq

instance : LinearOrder NsKey :=
  LinearOrder.lift' (fun key : NsKey => toLex (key.parent, key.g.incK)) fun a b h => by
    have h' := Prod.mk.inj (toLex.injective h)
    exact NsKey.ext h'.1 (Generator.incK_injective h'.2)

/-- The generator between an anchor's level and its child's. -/
def generator (anchor child : Level) : Generator :=
  if anchor = child then .sameField else .nextField

/-- The chain of an address. -/
def namespaceOf (a : Address) : Option NsKey :=
  (parent a).map fun anchor => ⟨anchor.tumbler, generator anchor.level a.level⟩

/-- The anchor of a document's content chain. -/
def contentBase (home : Address) : Tumbler := inc home.tumbler 2

def contentNs (home : Address) : NsKey := ⟨contentBase home, .sameField⟩

def linkNs (home : Address) : NsKey := ⟨inc (contentBase home) 0, .sameField⟩

/-- Whether an element is a full position of the content or the link subspace. -/
def isContentOrLinkSlot (e : Address) : Bool :=
  match e.elementField with
  | some [s, _] => s == contentSubspace || s == linkSubspace
  | _ => false

def versionNs (source : Address) : NsKey := ⟨source.tumbler, .sameField⟩

def documentNs (account : Address) : NsKey := ⟨account.tumbler, .nextField⟩

def accountNs (parent : Address) : NsKey := ⟨parent.tumbler, generator parent.level .account⟩

/-- The first address of a chain. -/
def firstIn (key : NsKey) : Outcome GateViolation Address := do
  let anchor ← (validate key.parent).expect
  checkedInc anchor key.g.incK

/-- The address of a chain at ordinal `n`. -/
def nthIn (key : NsKey) (n : ℕ) : Outcome GateViolation Address :=
  if n = 0 then .fault
  else do
    let c1 ← firstIn key
    (validate (c1.tumbler.shift (n - 1))).expect

/-- The first version of a document. -/
def firstVersionAddress (source : Address) : Option Address :=
  if source.level = .document then
    match firstIn (versionNs source) with
    | .ok a => some a
    | _ => none
  else none

/-- `a` is the anchor, the generator's separator and the ordinal `n`. -/
def Address.ChildOf (a : Address) (key : NsKey) (n : ℕ) : Prop :=
  a.comps = key.parent.comps ++ key.g.sep ++ [n]

theorem Level.zeros_injective : Function.Injective Level.zeros := by
  intro a b h
  cases a <;> cases b <;> simp_all [Level.zeros]

namespace Address

theorem ChildOf.ordinal_eq {a : Address} {key : NsKey} {n : ℕ} (h : a.ChildOf key n) :
    ordinal a.tumbler = n := by
  have hsnoc : a.tumbler = Tumbler.snoc (key.parent.comps ++ key.g.sep) n := Tumbler.ext h
  rw [hsnoc, ordinal_snoc]

theorem ChildOf.eq {a b : Address} {key : NsKey} {n : ℕ} (ha : a.ChildOf key n)
    (hb : b.ChildOf key n) : a = b :=
  Address.ext (ha.trans hb.symm)

theorem ChildOf.pos {a : Address} {key : NsKey} {n : ℕ} (h : a.ChildOf key n) : 0 < n := by
  refine Nat.pos_of_ne_zero fun hn => a.getLast?_ne_zero ?_
  rw [h, hn]
  simp

/-- A child stands at its anchor's level, one further past a separator. -/
theorem ChildOf.zeros_eq {a p : Address} {g : Generator} {n : ℕ}
    (h : a.ChildOf ⟨p.tumbler, g⟩ n) : a.level.zeros = p.level.zeros + g.sep.length := by
  have hn : n ≠ 0 := h.pos.ne'
  rw [← a.count_zero, ← p.count_zero, h, List.count_append, List.count_append,
    List.count_singleton, beq_eq_false_iff_ne.2 hn]
  cases g <;> simp [Generator.sep, comps]

/-- A child of an address lies on the chain that address anchors. -/
theorem ChildOf.namespaceOf_eq {a p : Address} {g : Generator} {n : ℕ}
    (h : a.ChildOf ⟨p.tumbler, g⟩ n) : namespaceOf a = some ⟨p.tumbler, g⟩ := by
  have hparent : parent a = some p := by
    refine parent_eq_some_iff.2 ⟨n, ?_⟩
    rw [h]
    cases g <;> simp [Generator.sep, comps]
  have hgen : generator p.level a.level = g := by
    have hz := h.zeros_eq
    rw [generator]
    cases g with
    | sameField => rw [if_pos (Level.zeros_injective (by simpa [Generator.sep] using hz.symm))]
    | nextField =>
      rw [if_neg fun heq => ?_]
      simp [heq, Generator.sep] at hz
  rw [namespaceOf, hparent, Option.map_some, hgen]

end Address

theorem namespaceOf_eq_some {a : Address} {key : NsKey} (h : namespaceOf a = some key) :
    a.ChildOf key (ordinal a.tumbler) ∧ ∃ p : Address, p.tumbler = key.parent := by
  obtain ⟨p, hp, rfl⟩ := Option.map_eq_some_iff.1 h
  obtain ⟨n, hn⟩ := parent_eq_some_iff.1 hp
  have hchild : ∃ g, a.ChildOf ⟨p.tumbler, g⟩ n := by
    rcases hn with hn | hn
    · exact ⟨.sameField, by simpa [Address.ChildOf, Generator.sep, Address.comps] using hn⟩
    · exact ⟨.nextField, by simpa [Address.ChildOf, Generator.sep, Address.comps] using hn⟩
  obtain ⟨g, hg⟩ := hchild
  have hkey := hg.namespaceOf_eq
  rw [h, Option.some.injEq] at hkey
  refine ⟨?_, p, rfl⟩
  rw [hg.ordinal_eq, hkey]
  exact hg

/-- What the address of a chain at an ordinal is made of. -/
theorem nthIn_parts {key : NsKey} {n : ℕ} {a : Address} (h : nthIn key n = .ok a) :
    a.ChildOf key n ∧ ∃ p : Address, p.tumbler = key.parent := by
  rw [nthIn] at h
  split at h
  · cases h
  · next hn =>
    simp only [firstIn, Outcome.bind_eq_ok_iff, Outcome.expect_eq_ok_iff] at h
    obtain ⟨c1, ⟨p, hp, hc1⟩, ha⟩ := h
    rw [validate_eq_ok_iff] at hp ha
    have hfirst := checkedInc_eq_ok hc1
    refine ⟨?_, p, hp⟩
    have hsnoc : c1.tumbler = Tumbler.snoc (key.parent.comps ++ key.g.sep) 1 := by
      rw [hfirst, hp]
      cases key.g <;> exact Tumbler.ext (by simp [inc, Generator.incK, Generator.sep])
    rw [Address.ChildOf, Address.comps, ha, hsnoc, Tumbler.shift_snoc, Tumbler.comps_snoc,
      Nat.add_sub_cancel' (Nat.one_le_iff_ne_zero.2 hn)]

theorem namespaceOf_nthIn {key : NsKey} {n : ℕ} {a : Address} (h : nthIn key n = .ok a) :
    namespaceOf a = some key ∧ ordinal a.tumbler = n := by
  obtain ⟨hchild, p, hp⟩ := nthIn_parts h
  obtain ⟨parent, g⟩ := key
  cases hp
  exact ⟨hchild.namespaceOf_eq, hchild.ordinal_eq⟩

/-- The positions of the ghost region. -/
def ghostPositions : ℕ := 5

/-- The ghost home document 1.1.0.1.0.1. -/
def ghostHomeDocument : Address := ⟨⟨[1, 1, 0, 1, 0, 1], by simp⟩, .document, by decide⟩

/-- The ordinals of a chain that are reserved before its first mint. -/
def ghostFloor (key : NsKey) : ℕ :=
  if key = contentNs ghostHomeDocument then ghostPositions else 0

theorem ghostFloor_of_ne {key : NsKey} (h : key.parent ≠ contentBase ghostHomeDocument) :
    ghostFloor key = 0 := by
  rw [ghostFloor, if_neg]
  rintro rfl
  exact h rfl
