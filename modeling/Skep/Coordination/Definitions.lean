import Skep.Content.Store
import Skep.Coordination.Certified
import Skep.Coordination.DefStored

/-!
# Definitions as content

A definition is a run of bytes at a content address, its start, and a tuple of the shipped class
that names the start. The gates of a registration read one snapshot; the tuple is deposited in a
later world. A start is named by the class of a tuple's slot, never by what the slot covers.
-/

namespace Coordination

/-- The slices that the definition layer reads and writes. -/
structure DefWorld extends LinkWorld where
  content : ContentStore

/-- The definition at a start, read off its own bytes. -/
def parseDef (content : ContentStore) (start : Address) : Except ParseFail SignedTerm :=
  match content.valueAt start.tumbler with
  | none => .error .notResident
  | some piece =>
    match decode piece.asBytes with
    | none => .error .malformed
    | some signed => .ok signed

/-- The distinct addresses that a term refers to, in the order they first occur. -/
def directReferents (t : Term) : List Address := t.refs.eraseDups

/-- Whether a slot has the start's class. A slot that denotes no address is not classified. -/
def names (slot : Endset) (start : Address) : Bool :=
  slot.isAddressDenoting && decide (coverageClass slot = coverageClass (enc [start]))

section

variable (reg : TypeRegistry)

/-- The first tuple of a shipped type that names the start. -/
def tupleNaming (s : LinkState) (ty : ShippedType) (start : Address) (view : View) : Outcome Empty (Option Tuple) := do
  let tuples ← s.observe reg (reg.reservedType ty) ⟨[start.tumbler], []⟩ view
  return tuples.find? fun t => names t.fromSlot start

def isEverPred (s : LinkState) (start : Address) : Outcome Empty Bool := do
  let found ← tupleNaming reg s .predDef start .audit
  return found.isSome

def isActivePred (s : LinkState) (start : Address) : Outcome Empty Bool := do
  let found ← tupleNaming reg s .predDef start .active
  return found.isSome

/-- What derivations read of a world. -/
def DefWorld.defContent (w : DefWorld) : DefContent :=
  ⟨fun a => decide (isEverPred reg w.links a = .ok true), parseDef w.content⟩

end

/-- The first fill of a start stands. -/
def Memo.fill (memo : Memo) (start : Address) (derived : Option TypedTerm) : Memo :=
  match memo start with
  | some _ => memo
  | none => Function.update memo start (some derived)

/-- What a derivation leaves in the memo: a status of content that is there, and no other. -/
def memoized (content : DefContent) (start : Address) : Except DerivedTooDeep DefStatus → Option (Option TypedTerm)
  | .ok (.defined tt) => some (some tt)
  | .ok .undisciplined =>
    match content.parseDef start with
    | .error .notResident => none
    | .error .malformed | .ok _ => some none
  | .ok .neverRegistered | .error _ => none

inductive RegisterError where
  | notResident
  | parseFailed
  | referentNotEverRegistered (a : Address)
  | illTyped (e : TypeError)
  | referentNotActive (a : Address)
  | homeNotRegistered
  | emit (e : EmitError)

/-- The definition at a start, in the words of a registration's refusals. -/
def parsedRun (content : ContentStore) (start : Address) : Outcome RegisterError SignedTerm :=
  match parseDef content start with
  | .error .notResident => .err .notResident
  | .error .malformed => .err .parseFailed
  | .ok signed => .ok signed

section

variable (cat : TypeCatalog)

/-- The first referent that a probe denies. -/
def firstDenied (probe : Address → Outcome Empty Bool) (referents : List Address) : Outcome Empty (Option Address) :=
  referents.findM? fun a => do
    let holds ← probe a
    return !holds

/-- The gates of a registration, over one snapshot. The check consults the handle, which pins
snapshots of its own. -/
def registerGates (σ : DefWorld) (resolve : Resolver) (home start : Address) : Outcome RegisterError TypedTerm := do
  let signed ← parsedRun σ.content start
  let referents := directReferents signed.body
  let unregistered ← (firstDenied (isEverPred cat.registry σ.links) referents).expect
  Outcome.refuseSome unregistered .referentNotEverRegistered
  let tt ← (checkSigned ⟨cat, resolve⟩ signed 0).mapErr .illTyped
  let inactive ← (firstDenied (isActivePred cat.registry σ.links) referents).expect
  Outcome.refuseSome inactive .referentNotActive
  Outcome.refuseIf (σ.m3.isRegisteredDocument home = false) .homeNotRegistered
  return tt

/-- Validate the run at `start`, then name it. The writer of the definition layer reads every
document. -/
def registerPred (σ w : DefWorld) (resolve : Resolver) (seq : ℕ) (home start : Address) :
    Outcome RegisterError (TypedTerm × Address × LinkWorld) := do
  let tt ← registerGates cat σ resolve home start
  let (tuple, w') ← (emit cat.registry w.toLinkWorld seq (fun _ => true) .system home
    (cat.registry.reservedType .predDef) start []).mapErr .emit
  return (tt, tuple, w')

end

/-- A slot names a start where it has the class of the start alone. -/
theorem names_iff {slot : Endset} {start : Address} :
    names slot start = true ↔ coverageClass slot = coverageClass (enc [start]) := by
  rw [names, Bool.and_eq_true, decide_eq_true_eq]
  refine ⟨And.right, fun h => ⟨?_, h⟩⟩
  by_contra hnot
  rw [coverageClass_enc, coverageClass, if_neg hnot] at h
  obtain ⟨extents, -, h⟩ := Outcome.bind_eq_ok_iff.1 h
  cases h

/-- The slot of one address names that address alone. -/
theorem names_enc {a start : Address} : names (enc [a]) start = true ↔ a = start := by
  rw [names_iff]
  constructor
  · intro h
    rw [coverageClass_enc, coverageClass_enc, Outcome.ok.injEq, CoverageClass.addrs.injEq] at h
    have hmem : a.tumbler ∈ OrdSet.ofList [start.tumbler] := by
      rw [← h]
      simp
    exact Address.tumbler_injective (by simpa using hmem)
  · rintro rfl
    rfl

section

variable {reg : TypeRegistry} {s : LinkState} {start : Address}

/-- **A start has a tuple where a link of the class, met by the view, names it.** -/
theorem tupleNaming_spec (ty : ShippedType) (view : View) : ∃ found, tupleNaming reg s ty start view = .ok found ∧
    (found.isSome = true ↔ ∃ a l, s.readlink a = some l ∧ coverageClass l.typeSlot = .ok (reg.shippedClass ty) ∧
      (view.isActive = true → s.nullified reg a.tumbler = false) ∧ names l.fromSlot start = true) := by
  have hty := reg.coverageClass_reservedType ty
  obtain ⟨tuples, htuples⟩ : ∃ tuples, s.observe reg (reg.reservedType ty) ⟨[start.tumbler], []⟩ view = .ok tuples :=
    LinkState.observe_eq_ok ⟨_, hty⟩ ⟨[start.tumbler], []⟩ view
  refine ⟨tuples.find? fun t => names t.fromSlot start, Outcome.bind_eq_ok_iff.2 ⟨tuples, htuples, rfl⟩, ?_⟩
  rw [List.find?_isSome]
  constructor
  · rintro ⟨t, ht, hnames⟩
    obtain ⟨l, hl, hc, hview, -, heq⟩ := (LinkState.mem_observe hty htuples).1 ht
    rw [heq] at hnames
    exact ⟨t.addr, l, hl, hc, hview, hnames⟩
  · rintro ⟨a, l, hl, hc, hview, hnames⟩
    have hcovers : Pattern.admits ⟨[start.tumbler], []⟩ l = true := by
      simp [Pattern.admits, covers_of_class (names_iff.1 hnames)]
    exact ⟨l.tuple a, (LinkState.mem_observe hty htuples).2 ⟨l, hl, hc, hview, hcovers, rfl⟩, hnames⟩

theorem isEverPred_iff : isEverPred reg s start = .ok true ↔ ∃ a l, s.readlink a = some l ∧
    coverageClass l.typeSlot = .ok (reg.shippedClass .predDef) ∧ names l.fromSlot start = true := by
  obtain ⟨found, hfound, hiff⟩ := @tupleNaming_spec reg s start .predDef .audit
  rw [isEverPred, hfound]
  show Outcome.ok found.isSome = _ ↔ _
  rw [Outcome.ok.injEq, hiff]
  simp [View.isActive]

theorem isActivePred_iff : isActivePred reg s start = .ok true ↔ ∃ a l, s.readlink a = some l ∧
    coverageClass l.typeSlot = .ok (reg.shippedClass .predDef) ∧ s.nullified reg a.tumbler = false ∧
      names l.fromSlot start = true := by
  obtain ⟨found, hfound, hiff⟩ := @tupleNaming_spec reg s start .predDef .active
  rw [isActivePred, hfound]
  show Outcome.ok found.isSome = _ ↔ _
  rw [Outcome.ok.injEq, hiff]
  simp [View.isActive]

end

/-- The definition at a start, off the bytes that stand there. -/
theorem parseDef_eq_ok_iff {content : ContentStore} {start : Address} {signed : SignedTerm} :
    parseDef content start = .ok signed ↔
      ∃ piece, content.valueAt start.tumbler = some piece ∧ decode piece.asBytes = some signed := by
  rw [parseDef]
  cases content.valueAt start.tumbler with
  | none =>
    refine iff_of_false (fun h => by cases h) ?_
    rintro ⟨_, h, _⟩
    cases h
  | some piece =>
    simp only [Option.some.injEq, exists_eq_left']
    cases decode piece.asBytes <;> simp

theorem parseDef_grows {content content' : ContentStore} {start : Address}
    (hgrow : ∀ t p, content.valueAt t = some p → content'.valueAt t = some p)
    (h : parseDef content start ≠ .error .notResident) : parseDef content' start = parseDef content start := by
  cases hvalue : content.valueAt start.tumbler with
  | none =>
    rw [parseDef, hvalue] at h
    exact absurd rfl h
  | some piece => rw [parseDef, parseDef, hvalue, hgrow _ _ hvalue]

/-- No definition that is read nests past the bound. -/
theorem DefWorld.parseDef_defContent (reg : TypeRegistry) (w : DefWorld) (start : Address) :
    (w.defContent reg).parseDef start = parseDef w.content start := by
  have hstored : (w.defContent reg).stored start = parseDef w.content start := rfl
  rw [DefContent.parseDef, hstored]
  cases hparse : parseDef w.content start with
  | error e => rfl
  | ok signed =>
    obtain ⟨piece, -, hdecode⟩ := parseDef_eq_ok_iff.1 hparse
    have hnesting := (Term.fits_iff.1 (decode_eq_some_iff.1 hdecode).1.formed).1
    exact if_neg (by omega)

/-- The value that a registration stores. -/
def pdefTuple (reg : TypeRegistry) (start : Address) : Link := ⟨enc [start], enc [], reg.reservedType .predDef⟩

theorem firstDenied_eq_none_iff {probe : Address → Outcome Empty Bool} {referents : List Address} :
    firstDenied probe referents = .ok none ↔ ∀ a ∈ referents, probe a = .ok true := by
  induction referents with
  | nil => exact iff_of_true rfl (List.forall_mem_nil _)
  | cons a referents ih =>
    rw [List.forall_mem_cons, ← ih, firstDenied, firstDenied, List.findM?]
    cases hprobe : probe a with
    | ok b => cases b <;> simp
    | err e => simp
    | fault => simp

/-- What a registration that returns has read, checked and done. -/
structure Admission (cat : TypeCatalog) (σ w : DefWorld) (resolve : Resolver) (home start : Address) (tt : TypedTerm)
    (addr : Address) (w' : LinkWorld) : Prop where
  parsed : parseDef σ.content start = .ok tt.signed
  checked : checkSigned ⟨cat, resolve⟩ tt.signed 0 = .ok tt
  registered : ∀ a ∈ tt.signed.body.refs, isEverPred cat.registry σ.links a = .ok true
  endorsed : ∀ a ∈ tt.signed.body.refs, isActivePred cat.registry σ.links a = .ok true
  emitted : ∃ d, d.address = addr ∧
    Emitted cat.registry w.toLinkWorld (fun _ => true) home (pdefTuple cat.registry start) d w'

theorem registerPred_spec {cat : TypeCatalog} {σ w : DefWorld} {resolve : Resolver} {seq : ℕ} {home start : Address}
    {tt : TypedTerm} {addr : Address} {w' : LinkWorld}
    (h : registerPred cat σ w resolve seq home start = .ok (tt, addr, w')) :
    Admission cat σ w resolve home start tt addr w' := by
  obtain ⟨tt', hgates, h⟩ := Outcome.bind_eq_ok_iff.1 h
  obtain ⟨⟨addr', w''⟩, hemit, h⟩ := Outcome.bind_eq_ok_iff.1 h
  cases h
  obtain ⟨signed, hparsed, hgates⟩ := Outcome.bind_eq_ok_iff.1 hgates
  simp only [Outcome.bind_eq_ok_iff, Outcome.expect_eq_ok_iff, Outcome.refuseSome_eq_ok_iff, Outcome.mapErr_eq_ok_iff,
    Outcome.pure_eq, Outcome.ok.injEq, exists_const] at hgates
  obtain ⟨_, hever, rfl, tt', hchecked, _, hactive, rfl, _, -, rfl⟩ := hgates
  obtain rfl := checkSigned_signed hchecked
  rw [firstDenied_eq_none_iff] at hever hactive
  refine ⟨?_, hchecked, fun a ha => hever a (List.mem_eraseDups.2 ha), fun a ha => hactive a (List.mem_eraseDups.2 ha), ?_⟩
  · rw [parsedRun] at hparsed
    cases hparse : parseDef σ.content start with
    | error e =>
      rw [hparse] at hparsed
      cases e <;> cases hparsed
    | ok signed =>
      rw [hparse] at hparsed
      cases hparsed
      rfl
  · obtain ⟨value, d, hvalue, haddr, hemitted⟩ := emit_emitted (Outcome.mapErr_eq_ok_iff.1 hemit)
    rw [emitTuple, Option.ite_none_left_eq_some] at hvalue
    obtain ⟨-, hvalue⟩ := hvalue
    cases hvalue
    exact ⟨d, haddr, hemitted⟩

section

variable {reg : TypeRegistry} {w w' : LinkWorld} {home start : Address} {d : Deposited}

/-- The links after a registration: those before it, and one that names the start. -/
theorem links_of_emitted_pdef (h : Emitted reg w (fun _ => true) home (pdefTuple reg start) d w') :
    ∃ l, w'.links.readlink d.address = some l ∧ coverageClass l.typeSlot = .ok (reg.shippedClass .predDef) ∧
      names l.fromSlot start = true ∧
        ∀ a k, w'.links.readlink a = some k ↔ w.links.readlink a = some k ∨ (a = d.address ∧ k = l) := by
  cases h with
  | @fresh addr r seq m3 links hmint hm3 hlinks =>
    have hread := LinkState.readlink_deposit hlinks
    have hfresh := (LinkState.applyLink_eq_ok hlinks).1
    refine ⟨pdefTuple reg start, (hread addr).trans (if_pos rfl), reg.coverageClass_reservedType .predDef,
      names_enc.2 rfl, fun a k => ?_⟩
    show links.readlink a = some k ↔ _
    rw [hread]
    by_cases haddr : a = addr
    · subst haddr
      rw [if_pos rfl, hfresh]
      exact ⟨fun h => .inr ⟨rfl, (Option.some.inj h).symm⟩, fun h => by
        obtain h | ⟨-, rfl⟩ := h
        · cases h
        · rfl⟩
    · rw [if_neg haddr]
      exact ⟨.inl, fun h => h.resolve_right fun h => haddr h.1⟩
  | @incumbent a l key hl hkey hsame hactive hreadable =>
    simp only [DedupKey.of, Outcome.bind_eq_ok_iff, Outcome.pure_eq, Outcome.ok.injEq] at hkey hsame
    obtain ⟨c, hc, f, hf, t, ht, rfl⟩ := hkey
    obtain ⟨c', hc', f', hf', t', ht', hsame⟩ := hsame
    cases hsame
    have hclass : coverageClass (reg.reservedType .predDef) = .ok c := hc
    rw [reg.coverageClass_reservedType, Outcome.ok.injEq] at hclass
    subst hclass
    refine ⟨l, hl, hc', names_iff.2 (hf'.trans hf.symm), fun b k => ⟨.inl, fun h => ?_⟩⟩
    obtain h | ⟨rfl, rfl⟩ := h
    · exact h
    · exact hl

end

end Coordination
