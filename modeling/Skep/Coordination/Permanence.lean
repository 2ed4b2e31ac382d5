import Skep.Coordination.Definitions

/-!
# A signature is permanent

Handles share one store and each has a memo. Between two moments one thing happens: a commit of
some other kind, a registration, the end of a derivation, or the fill that follows a registration.
A derivation pins a snapshot of its own, and so does each that it asks for, so one derivation may
meet several worlds. Where every definition tuple is a registration's, a registered start is
answered with the definition it was registered under, at every later moment and on every memo.
-/

namespace Coordination

/-- One moment: the slices, and what each handle's memo holds. -/
structure DefMoment where
  world : DefWorld
  memo : ℕ → Memo

/-- What happens between two moments. -/
inductive DefOp where
  | other
  | register (handle : ℕ) (start : Address) (tt : TypedTerm)
  | probe (handle : ℕ) (start : Address)
  | adopt (handle : ℕ) (start : Address) (tt : TypedTerm)

section

variable (cat : TypeCatalog) (moment : ℕ → DefMoment)

/-- What derivations read at a moment. -/
def contentAt (n : ℕ) : DefContent := (moment n).world.defContent cat.registry

/-- What a handle may answer of a start at a level, asked at `since` and answered by `now`. The memo
is read, and a miss pins a snapshot no earlier and consults deeper after that. -/
inductive Answered (handle : ℕ) : (since now : ℕ) → Address → ℕ → Except Unresolved TypedTerm → Prop
  | intro {since read pin now : ℕ} {a : Address} {level : ℕ} {resolve : Resolver} (hread : since ≤ read)
      (hpin : read ≤ pin) (hnow : pin ≤ now)
      (hresolve : level ≤ maxDepth → ∀ b l, level < l → Answered handle pin now b l (resolve b l)) :
      Answered handle since now a level
        (resolveOver cat (contentAt cat moment pin) ((moment read).memo handle) resolve a level)

variable (op : ℕ → DefOp)

/-- What a moment may be followed by. No commit but a registration's deposits a definition tuple. -/
inductive DefStep (n : ℕ) : DefOp → DefMoment → Prop
  | other {w' : DefWorld} {recs : List ContentRec}
      (hlinks : Relation.ReflTransGen (LinkStep cat.registry) (moment n).world.toLinkWorld w'.toLinkWorld)
      (hpdef : ∀ a l, w'.links.readlink a = some l →
        coverageClass l.typeSlot = .ok (cat.registry.shippedClass .predDef) → (moment n).world.links.readlink a = some l)
      (hcontent : w'.content = (moment n).world.content.applyAll recs) : DefStep n .other ⟨w', (moment n).memo⟩
  | register {handle pin seq : ℕ} {home start : Address} {resolve : Resolver} {tt : TypedTerm} {addr : Address}
      {w' : LinkWorld} (hpin : pin ≤ n)
      (hresolve : ∀ b l, 0 < l → Answered cat moment handle pin n b l (resolve b l))
      (h : registerPred cat (moment pin).world (moment n).world resolve seq home start = .ok (tt, addr, w')) :
      DefStep n (.register handle start tt) ⟨{ (moment n).world with toLinkWorld := w' }, (moment n).memo⟩
  | probe {handle pin level : ℕ} {start : Address} {resolve : Resolver} {entry : Option TypedTerm} (hpin : pin ≤ n)
      (hresolve : level ≤ maxDepth → ∀ b l, level < l → Answered cat moment handle pin n b l (resolve b l))
      (h : memoized (contentAt cat moment pin) start (deriveDef cat (contentAt cat moment pin) resolve start level) =
        some entry) :
      DefStep n (.probe handle start)
        ⟨(moment n).world, Function.update (moment n).memo handle (((moment n).memo handle).fill start entry)⟩
  | adopt {handle m : ℕ} {start : Address} {tt : TypedTerm} (hm : m < n) (h : op m = .register handle start tt) :
      DefStep n (.adopt handle start tt)
        ⟨(moment n).world, Function.update (moment n).memo handle (((moment n).memo handle).fill start (some tt))⟩

end

/-- A run from genesis, memos empty. -/
structure DefRun (cat : TypeCatalog) where
  moment : ℕ → DefMoment
  op : ℕ → DefOp
  genesis : moment 0 = ⟨⟨LinkWorld.genesis, ContentStore.empty⟩, fun _ _ => none⟩
  step : ∀ n, DefStep cat moment op n (op n) (moment (n + 1))

namespace DefRun

variable {cat : TypeCatalog} (r : DefRun cat)

/-- A registration before the moment. -/
def RegisteredAs (n : ℕ) (start : Address) (tt : TypedTerm) : Prop :=
  ∃ m < n, ∃ handle, r.op m = .register handle start tt

/-- A registered definition's body refers to an address. -/
def Refers (n : ℕ) (a b : Address) : Prop := ∃ tt, r.RegisteredAs n a tt ∧ b ∈ tt.signed.body.refs

end DefRun

section

variable {cat : TypeCatalog} {content content' : DefContent} {defs defs' : DefSource} {a : Address} {level : ℕ}
  {resolve : Resolver}

theorem Checked.mono (hdefs : ∀ a tt, defs a = some tt → defs' a = some tt) {tt : TypedTerm} (h : Checked cat defs tt) :
    Checked cat defs' tt := by
  induction h with
  | @intro ch signed depth tt hcat hknown _ h ih =>
    exact .intro hcat (fun a ha level r hr => hdefs a r (hknown a ha level r hr)) ih h

/-- A definition's derivation answers the definition, or is too deep where it reaches past the
bound. -/
theorem deriveDef_of_defined (hd : Disciplined cat content defs) {tt : TypedTerm} (hdef : defs a = some tt)
    (hresolve : level ≤ maxDepth → ∀ b l r, level < l → defs b = some r →
      resolve b l = .ok r ∨ (resolve b l = .error .tooDeep ∧ maxDepth < l + r.reach)) :
    deriveDef cat content resolve a level = .ok (.defined tt) ∨
      (deriveDef cat content resolve a level = .error .mk ∧ maxDepth < level + tt.reach) := by
  obtain ⟨resolve₀, hanswers, hadmitted⟩ := hd.admitted a tt hdef
  have hregistered : content.everPred a = true := (hd.registered a).2 (by rw [hdef]; rfl)
  have hchecked : checkSigned ⟨cat, resolve⟩ tt.signed level = .ok tt ∨
      (checkSigned ⟨cat, resolve⟩ tt.signed level = .err .tooDeep ∧ maxDepth < level + tt.reach) := by
    by_cases hlevel : level ≤ maxDepth
    · refine checkSigned_shift (fun b l r hl hr => ?_) hadmitted
      have hconsult := hresolve hlevel b (l + level) r (by omega) (hanswers b l r hr).1
      exact hconsult
    · have hpast : maxDepth < level := not_le.1 hlevel
      exact .inr ⟨checkSigned_past hadmitted hpast, by omega⟩
  rcases hchecked with hok | ⟨hdeep, hpast⟩
  · left
    simp only [deriveDef, hregistered, hd.parsed a tt hdef, hok, Bool.true_eq_false, if_false]
  · right
    have hpos : 0 < level := by
      have hreach := reach_le_maxDepth hadmitted
      omega
    refine ⟨?_, hpast⟩
    simp only [deriveDef, hregistered, hd.parsed a tt hdef, hdeep, Bool.true_eq_false, if_false, if_pos hpos]

theorem deriveDef_of_none (hd : Disciplined cat content defs) (hdef : defs a = none) :
    deriveDef cat content resolve a level = .ok .neverRegistered := by
  have hregistered : content.everPred a = false := by
    rw [← Bool.not_eq_true, hd.registered a, hdef]
    exact Bool.false_ne_true
  simp only [deriveDef, hregistered, if_true]

/-- A check whose resolver answers definitions is the check over them. -/
theorem checkSigned_resolveKnown {signed : SignedTerm} {tt : TypedTerm}
    (hknown : ∀ b l t, 0 < l → resolve b l = .ok t → defs b = some t) (h : checkSigned ⟨cat, resolve⟩ signed 0 = .ok tt) :
    checkSigned ⟨cat, resolveKnown defs⟩ signed 0 = .ok tt := by
  have hsame : ∀ b l t, 0 < l → resolve b l = .ok t → resolveKnown defs b (l + 0) = .ok t ∨
      (resolveKnown defs b (l + 0) = .error .tooDeep ∧ maxDepth < l + 0 + t.reach) := by
    intro b l t hl ht
    exact .inl (by rw [resolveKnown, hknown b l t hl ht])
  rcases checkSigned_shift hsame h with hok | ⟨-, hpast⟩
  · exact hok
  · have hreach := reach_le_maxDepth h
    omega

/-- Content that grows keeps the definitions, where the registrations stay as they are. -/
theorem Disciplined.grow (hd : Disciplined cat content defs) (hpred : ∀ a, content'.everPred a = true ↔ content.everPred a = true)
    (hparse : ∀ a signed, content.parseDef a = .ok signed → content'.parseDef a = .ok signed) :
    Disciplined cat content' defs where
  registered a := (hpred a).trans (hd.registered a)
  parsed a tt h := hparse a tt.signed (hd.parsed a tt h)
  admitted := hd.admitted

/-- A registration of a start that had none adds its definition. -/
theorem Disciplined.add (hd : Disciplined cat content defs) {start : Address} {tt : TypedTerm} (hfresh : defs start = none)
    (hpred : ∀ a, content'.everPred a = true ↔ content.everPred a = true ∨ a = start)
    (hparse : ∀ a signed, content.parseDef a = .ok signed → content'.parseDef a = .ok signed)
    (hstart : content'.parseDef start = .ok tt.signed)
    (hchecked : checkSigned ⟨cat, resolveKnown defs⟩ tt.signed 0 = .ok tt) :
    Disciplined cat content' (Function.update defs start (some tt)) := by
  have hkeep : ∀ a t, defs a = some t → Function.update defs start (some tt) a = some t := by
    intro a t ha
    have hne : a ≠ start := by
      rintro rfl
      rw [hfresh] at ha
      cases ha
    rw [Function.update_of_ne hne, ha]
  constructor
  · intro a
    rw [hpred, hd.registered]
    by_cases ha : a = start
    · subst ha
      simp
    · simp [ha]
  · intro a t ha
    by_cases hne : a = start
    · subst hne
      rw [Function.update_self, Option.some.injEq] at ha
      exact ha ▸ hstart
    · rw [Function.update_of_ne hne] at ha
      exact hparse a t.signed (hd.parsed a t ha)
  · intro a t ha
    by_cases hne : a = start
    · subst hne
      rw [Function.update_self, Option.some.injEq] at ha
      subst ha
      refine ⟨resolveKnown defs, fun b l t hb => ?_, hchecked⟩
      have hdef : defs b = some t := by
        rw [resolveKnown] at hb
        cases hdef : defs b with
        | some t' =>
          rw [hdef] at hb
          cases hb
          rfl
        | none =>
          rw [hdef] at hb
          cases hb
      exact ⟨hkeep b t hdef, (hd.checked hdef).mono hkeep⟩
    · rw [Function.update_of_ne hne] at ha
      obtain ⟨resolve₀, hanswers, hadmitted⟩ := hd.admitted a t ha
      refine ⟨resolve₀, fun b l t hb => ?_, hadmitted⟩
      exact ⟨hkeep b t (hanswers b l t hb).1, (hanswers b l t hb).2.mono hkeep⟩

theorem Disciplined.admits_one (hd : Disciplined cat content defs) {start : Address} {tt tt' : TypedTerm}
    (hdef : defs start = some tt') (hstart : content.parseDef start = .ok tt.signed)
    (hchecked : checkSigned ⟨cat, resolveKnown defs⟩ tt.signed 0 = .ok tt) : tt = tt' := by
  obtain ⟨resolve₀, hanswers, hadmitted⟩ := hd.admitted start tt' hdef
  have hsigned : tt.signed = tt'.signed := Except.ok.inj (hstart.symm.trans (hd.parsed start tt' hdef))
  have hadmitted' := checkSigned_resolveKnown (fun b l t _ hb => (hanswers b l t hb).1) hadmitted
  rw [hsigned, hadmitted'] at hchecked
  exact (Outcome.ok.inj hchecked).symm

end

theorem Memo.fill_eq_some {memo : Memo} {start a : Address} {derived : Option TypedTerm} {entry : Option TypedTerm}
    (h : memo.fill start derived a = some entry) : memo a = some entry ∨ (a = start ∧ entry = derived) := by
  cases hm : memo start with
  | some e =>
    rw [Memo.fill, hm] at h
    exact .inl h
  | none =>
    have hfill : memo.fill start derived = Function.update memo start (some derived) := by rw [Memo.fill, hm]
    rw [hfill] at h
    by_cases ha : a = start
    · subst ha
      rw [Function.update_self, Option.some.injEq] at h
      exact .inr ⟨rfl, h.symm⟩
    · rw [Function.update_of_ne ha] at h
      exact .inl h

section

variable {reg : TypeRegistry} {w w' : LinkWorld} {seq : ℕ} {caller : Caller} {home : Address} {value : Link} {d : Deposited}

/-- Where every home is read and no incumbent answers, the links of the key are retracted. -/
theorem nullified_of_activeIncumbent {s : LinkState} {key : DedupKey} (hidem : reg.isIdempotent key.ty = true)
    (h : s.activeIncumbent reg key (fun _ => true) = .ok none) {a : Address} {l : Link} (hl : s.readlink a = some l)
    (hkey : DedupKey.of l = .ok key) : s.nullified reg a.tumbler = true := by
  have hfind : ∀ as : List Address, as.findM? (fun a => do
        let home ← Outcome.expectSome (documentOf a)
        return (fun _ : Address => true) home : Address → Outcome Empty Bool) = .ok none → as = [] := by
    intro as has
    cases as with
    | nil => rfl
    | cons x as =>
      rw [List.findM?, Outcome.bind_eq_ok_iff] at has
      obtain ⟨b, hb, hrest⟩ := has
      simp only [Outcome.bind_eq_ok_iff, Outcome.pure_eq, Outcome.ok.injEq] at hb
      obtain ⟨-, -, rfl⟩ := hb
      cases hrest
  have hnil := List.map_eq_nil_iff.1 (hfind _ h)
  by_contra hactive
  have hmem := List.filter_eq_nil_iff.1 hnil (a, l) (OrdMap.get_eq_some_iff.1 hl)
  simp [hidem, hkey, hactive] at hmem

/-- A managed deposit read by a writer of every home answers an incumbent, or finds the links of its
key retracted. -/
theorem emitCore_retracted {c : CoverageClass} (hc : coverageClass value.typeSlot = .ok c) (hidem : reg.isIdempotent c = true)
    (h : emitCore reg w seq (fun _ => true) caller home value .managed = .ok (d, w')) :
    w' = w ∨ ∃ key, DedupKey.of value = .ok key ∧
      ∀ a l, w.links.readlink a = some l → DedupKey.of l = .ok key → w.links.nullified reg a.tumbler = true := by
  simp only [emitCore, Outcome.bind_eq_ok_iff, Outcome.expect_eq_ok_iff, Outcome.okOr_eq_ok_iff] at h
  obtain ⟨-, -, c', hc', registration, hreg, -, -, -, -, found, hfound, h⟩ := h
  rw [hc, Outcome.ok.injEq] at hc'
  subst hc'
  have hset : registration.idem = true := by
    rw [TypeRegistry.isIdempotent, hreg] at hidem
    exact hidem
  rw [incumbentOf, if_pos hset, Outcome.bind_eq_ok_iff] at hfound
  obtain ⟨key, hkey, hfound⟩ := hfound
  cases found with
  | some a =>
    cases h
    exact .inl rfl
  | none =>
    have hty : key.ty = c := by
      simp only [DedupKey.of, Outcome.bind_eq_ok_iff, Outcome.pure_eq, Outcome.ok.injEq] at hkey
      obtain ⟨c', hc', -, -, -, -, rfl⟩ := hkey
      exact Outcome.ok.inj (hc'.symm.trans hc)
    exact .inr ⟨key, hkey, fun a l hl hl' => nullified_of_activeIncumbent (hty ▸ hidem) hfound hl hl'⟩

/-- A registration's tuple goes through the managed path. -/
theorem registerPred_emitCore {cat : TypeCatalog} {σ w : DefWorld} {resolve : Resolver} {start : Address} {tt : TypedTerm}
    {addr : Address} (h : registerPred cat σ w resolve seq home start = .ok (tt, addr, w')) :
    ∃ d, emitCore cat.registry w.toLinkWorld seq (fun _ => true) .system home (pdefTuple cat.registry start) .managed =
      .ok (d, w') := by
  obtain ⟨tt', -, h⟩ := Outcome.bind_eq_ok_iff.1 h
  obtain ⟨⟨addr', w''⟩, hemit, h⟩ := Outcome.bind_eq_ok_iff.1 h
  cases h
  rw [Outcome.mapErr_eq_ok_iff] at hemit
  simp only [emit, Outcome.bind_eq_ok_iff, Outcome.okOr_eq_ok_iff, Prod.exists] at hemit
  obtain ⟨-, -, -, -, -, -, -, -, -, -, value, hvalue, d, w'', hcore, hemit⟩ := hemit
  cases hemit
  rw [emitTuple, Option.ite_none_left_eq_some] at hvalue
  obtain ⟨-, hvalue⟩ := hvalue
  cases hvalue
  exact ⟨d, liftErr_eq_ok hcore⟩

theorem nullified_grows (hgrow : w.Grows w') {t : Tumbler} (h : w.links.nullified reg t = true) :
    w'.links.nullified reg t = true := by
  rw [LinkState.nullified_iff] at h ⊢
  obtain ⟨a, l, hl, hc, ht⟩ := h
  exact ⟨a, l, hgrow.links a l hl, hc, ht⟩

theorem active_before (hgrow : w.Grows w') {t : Tumbler} (h : w'.links.nullified reg t = false) :
    w.links.nullified reg t = false := by
  rw [← Bool.not_eq_true] at h ⊢
  exact fun hnull => h (nullified_grows hgrow hnull)

end

namespace DefRun

variable {cat : TypeCatalog} {r : DefRun cat} {n : ℕ} {defs : DefSource}

/-- The definitions of a moment: each is what its content was admitted as, they are what was
registered, and memos hold them alone. -/
structure History (r : DefRun cat) (n : ℕ) (defs : DefSource) : Prop where
  disciplined : Disciplined cat (contentAt cat r.moment n) defs
  recorded : ∀ a tt, defs a = some tt ↔ r.RegisteredAs n a tt
  memos : ∀ handle a entry, (r.moment n).memo handle a = some entry → ∃ tt, entry = some tt ∧ defs a = some tt

theorem registeredAs_succ {a : Address} {tt : TypedTerm} :
    r.RegisteredAs (n + 1) a tt ↔ r.RegisteredAs n a tt ∨ ∃ handle, r.op n = .register handle a tt := by
  constructor
  · rintro ⟨m, hm, h⟩
    rcases Nat.lt_succ_iff_lt_or_eq.1 hm with hlt | rfl
    · exact .inl ⟨m, hlt, h⟩
    · exact .inr h
  · rintro (⟨m, hm, h⟩ | h)
    · exact ⟨m, Nat.lt_succ_of_lt hm, h⟩
    · exact ⟨n, Nat.lt_succ_self n, h⟩

theorem History.mono {m : ℕ} {defs' : DefSource} (h : r.History m defs) (h' : r.History n defs') (hle : m ≤ n)
    {a : Address} {tt : TypedTerm} (hdef : defs a = some tt) : defs' a = some tt := by
  obtain ⟨k, hk, hop⟩ := (h.recorded a tt).1 hdef
  exact (h'.recorded a tt).2 ⟨k, hk.trans_le hle, hop⟩

/-- **What a handle answers is settled as of some moment in between**, whatever happens meanwhile. -/
theorem settled_of_answered {handle since now : ℕ} {a : Address} {level : ℕ} {answer : Except Unresolved TypedTerm}
    (hH : ∀ k ≤ now, ∃ defs, r.History k defs) (h : Answered cat r.moment handle since now a level answer) :
    ∃ k defs, since ≤ k ∧ k ≤ now ∧ r.History k defs ∧ Settled defs a level answer := by
  induction h with
  | @intro since read pin now a level resolve hread hpin hnow _ ih =>
    cases hm : (r.moment read).memo handle a with
    | some entry =>
      obtain ⟨defs, hdefs⟩ := hH read (hpin.trans hnow)
      obtain ⟨tt, rfl, hdef⟩ := hdefs.memos handle a entry hm
      have hanswer : resolveOver cat (contentAt cat r.moment pin) ((r.moment read).memo handle) resolve a level = .ok tt := by
        rw [resolveOver, hm]
      refine ⟨read, defs, hread, hpin.trans hnow, hdefs, fun tt' hdef' => .inl ?_, fun hnone => ?_⟩
      · obtain rfl : tt = tt' := Option.some.inj (hdef.symm.trans hdef')
        exact hanswer
      · rw [hdef] at hnone
        cases hnone
    | none =>
      obtain ⟨defs, hdefs⟩ := hH pin hnow
      refine ⟨pin, defs, hread.trans hpin, hnow, hdefs, fun tt hdef => ?_, fun hnone => ?_⟩
      · have hderived := deriveDef_of_defined hdefs.disciplined hdef fun hlevel b l r' hl hb => by
          obtain ⟨k, defs', hk, -, hdefs', hsettled⟩ := ih hlevel b l hl hH
          exact hsettled.defined r' (hdefs.mono hdefs' hk hb)
        rcases hderived with hok | ⟨hdeep, hpast⟩
        · exact .inl (by simp only [resolveOver, hm, hok])
        · exact .inr ⟨by simp only [resolveOver, hm, hdeep], hpast⟩
      · simp only [resolveOver, hm, deriveDef_of_none hdefs.disciplined hnone]

/-- What a consultation answered is registered by the end. -/
theorem known_of_answered {handle since now : ℕ} {a : Address} {level : ℕ} {tt : TypedTerm}
    (hH : ∀ k ≤ now, ∃ defs, r.History k defs) (hdefs : r.History now defs)
    (h : Answered cat r.moment handle since now a level (.ok tt)) : defs a = some tt := by
  obtain ⟨k, defs', -, hk, hdefs', hsettled⟩ := settled_of_answered hH h
  cases hdef : defs' a with
  | none =>
    have hundefined := hsettled.undefined hdef
    cases hundefined
  | some tt' =>
    rcases hsettled.defined tt' hdef with hok | ⟨hdeep, -⟩
    · cases hok
      exact hdefs'.mono hdefs hk hdef
    · cases hdeep

/-- A fill with a definition keeps the memos to the definitions. -/
theorem memos_fill {memo : ℕ → Memo} {handle : ℕ} {start : Address} {tt : TypedTerm}
    (hmemos : ∀ handle a entry, memo handle a = some entry → ∃ tt, entry = some tt ∧ defs a = some tt)
    (hdef : defs start = some tt) (handle' : ℕ) (a : Address) (entry : Option TypedTerm)
    (h : Function.update memo handle ((memo handle).fill start (some tt)) handle' a = some entry) :
    ∃ tt, entry = some tt ∧ defs a = some tt := by
  by_cases hh : handle' = handle
  · subst hh
    rw [Function.update_self] at h
    obtain h | ⟨rfl, rfl⟩ := Memo.fill_eq_some h
    · exact hmemos handle' a entry h
    · exact ⟨tt, rfl, hdef⟩
  · rw [Function.update_of_ne hh] at h
    exact hmemos handle' a entry h

theorem everPred_contentAt {moment : ℕ → DefMoment} {a : Address} :
    (contentAt cat moment n).everPred a = true ↔ isEverPred cat.registry (moment n).world.links a = .ok true :=
  decide_eq_true_iff

theorem parseDef_contentAt {moment : ℕ → DefMoment} {a : Address} :
    (contentAt cat moment n).parseDef a = parseDef (moment n).world.content a :=
  DefWorld.parseDef_defContent cat.registry _ a

/-- What was read of a store is read of a later one. -/
theorem parseDef_applyAll {content : ContentStore} {a : Address} {signed : SignedTerm} (recs : List ContentRec)
    (h : parseDef content a = .ok signed) : parseDef (content.applyAll recs) a = .ok signed := by
  rw [← h]
  refine parseDef_grows (fun t p => ContentStore.valueAt_of_entries (content.entries_applyAll recs)) ?_
  rw [h]
  exact fun heq => by cases heq

theorem genesis_history : r.History 0 fun _ => none := by
  have hlinks : (r.moment 0).world.links = LinkState.genesis := by
    rw [r.genesis]
    rfl
  have hpred : ∀ a, (contentAt cat r.moment 0).everPred a ≠ true := by
    intro a h
    rw [everPred_contentAt, hlinks, isEverPred_iff] at h
    obtain ⟨x, l, hl, -⟩ := h
    cases hl
  refine ⟨⟨fun a => iff_of_false (hpred a) Bool.false_ne_true, fun a tt h => (by cases h), fun a tt h => (by cases h)⟩,
    fun a tt => iff_of_false (fun h => by cases h) ?_, fun handle a entry h => ?_⟩
  · rintro ⟨m, hm, -⟩
    exact Nat.not_lt_zero m hm
  · rw [r.genesis] at h
    cases h

theorem exists_applyAll (r : DefRun cat) (n : ℕ) :
    ∃ recs, (r.moment (n + 1)).world.content = (r.moment n).world.content.applyAll recs := by
  have hstep := r.step n
  generalize r.op n = op at hstep
  generalize r.moment (n + 1) = next at hstep
  cases hstep with
  | @other w' recs hlinks hpdef hcontent => exact ⟨recs, hcontent⟩
  | register | probe | adopt => exact ⟨[], rfl⟩

theorem parsed_le {m : ℕ} (hle : m ≤ n) {a : Address} {signed : SignedTerm}
    (h : parseDef (r.moment m).world.content a = .ok signed) : parseDef (r.moment n).world.content a = .ok signed := by
  induction n, hle using Nat.le_induction with
  | base => exact h
  | succ n hle ih =>
    obtain ⟨recs, hnext⟩ := r.exists_applyAll n
    rw [hnext]
    exact parseDef_applyAll recs ih

theorem parsed_succ {a : Address} {signed : SignedTerm} (h : (contentAt cat r.moment n).parseDef a = .ok signed) :
    (contentAt cat r.moment (n + 1)).parseDef a = .ok signed := by
  rw [parseDef_contentAt] at h ⊢
  exact parsed_le (Nat.le_succ n) h

theorem grows_of_run {reg : TypeRegistry} {w w' : LinkWorld} (h : Relation.ReflTransGen (LinkStep reg) w w') : w.Grows w' := by
  induction h with
  | refl => exact .refl w
  | tail _ hstep ih => exact ih.trans hstep.grows

/-- **A registration takes the definitions of a moment to those of the next.** -/
theorem History.register (hH : ∀ k ≤ n, ∃ defs, r.History k defs) (hdefs : r.History n defs) {handle pin seq : ℕ}
    {home start : Address} {resolve : Resolver} {tt : TypedTerm} {addr : Address} {w' : LinkWorld} (hpin : pin ≤ n)
    (hresolve : ∀ b l, 0 < l → Answered cat r.moment handle pin n b l (resolve b l))
    (h : registerPred cat (r.moment pin).world (r.moment n).world resolve seq home start = .ok (tt, addr, w'))
    (hop : r.op n = .register handle start tt)
    (hnext : r.moment (n + 1) = ⟨{ (r.moment n).world with toLinkWorld := w' }, (r.moment n).memo⟩) :
    ∃ defs, r.History (n + 1) defs := by
  have hadm := registerPred_spec h
  obtain ⟨d, rfl, hemitted⟩ := hadm.emitted
  obtain ⟨l, hl, hc, hnames, hiff⟩ := links_of_emitted_pdef hemitted
  have hchecked : checkSigned ⟨cat, resolveKnown defs⟩ tt.signed 0 = .ok tt := by
    refine checkSigned_resolveKnown (fun b l t hl ht => ?_) hadm.checked
    have hans := hresolve b l hl
    rw [ht] at hans
    exact known_of_answered hH hdefs hans
  have hpred : ∀ a, (contentAt cat r.moment (n + 1)).everPred a = true ↔
      (contentAt cat r.moment n).everPred a = true ∨ a = start := by
    intro a
    rw [everPred_contentAt, everPred_contentAt, hnext, isEverPred_iff, isEverPred_iff]
    constructor
    · rintro ⟨x, k, hk, hclass, hslot⟩
      rcases (hiff x k).1 hk with hold | ⟨rfl, rfl⟩
      · exact .inl ⟨x, k, hold, hclass, hslot⟩
      · rw [names_iff] at hslot hnames
        exact .inr (names_enc.1 (names_iff.2 (hslot.symm.trans hnames)))
    · rintro (⟨x, k, hk, hclass, hslot⟩ | rfl)
      · exact ⟨x, k, (hiff x k).2 (.inl hk), hclass, hslot⟩
      · exact ⟨d.address, l, hl, hc, hnames⟩
  have hstart : (contentAt cat r.moment n).parseDef start = .ok tt.signed := by
    rw [parseDef_contentAt]
    exact parsed_le hpin hadm.parsed
  have hmemos : ∀ handle a entry, (r.moment (n + 1)).memo handle a = some entry →
      ∃ t, entry = some t ∧ defs a = some t := by
    rw [hnext]
    exact hdefs.memos
  have hrecorded : ∀ a t, r.RegisteredAs (n + 1) a t ↔ r.RegisteredAs n a t ∨ (a = start ∧ t = tt) := by
    intro a t
    rw [registeredAs_succ, hop]
    refine or_congr_right ⟨?_, ?_⟩
    · rintro ⟨handle', heq⟩
      cases heq
      exact ⟨rfl, rfl⟩
    · rintro ⟨rfl, rfl⟩
      exact ⟨handle, rfl⟩
  cases hdef : defs start with
  | none =>
    refine ⟨Function.update defs start (some tt), hdefs.disciplined.add hdef hpred (fun _ _ => parsed_succ)
      (parsed_succ hstart) hchecked, fun a t => ?_, fun handle' a entry hentry => ?_⟩
    · rw [hrecorded, ← hdefs.recorded]
      by_cases ha : a = start
      · subst ha
        rw [Function.update_self, hdef]
        simp [eq_comm]
      · rw [Function.update_of_ne ha]
        exact ⟨.inl, fun h => h.resolve_right fun h => ha h.1⟩
    · obtain ⟨t, rfl, ht⟩ := hmemos handle' a entry hentry
      refine ⟨t, rfl, ?_⟩
      rw [Function.update_of_ne, ht]
      rintro rfl
      rw [hdef] at ht
      cases ht
  | some tt' =>
    obtain rfl := hdefs.disciplined.admits_one hdef hstart hchecked
    refine ⟨defs, hdefs.disciplined.grow (fun a => ?_) (fun _ _ => parsed_succ), fun a t => ?_, hmemos⟩
    · rw [hpred, or_iff_left_iff_imp]
      rintro rfl
      exact (hdefs.disciplined.registered a).2 (by rw [hdef]; rfl)
    · rw [hrecorded, ← hdefs.recorded, eq_comm (a := t), iff_comm, or_iff_left_iff_imp]
      rintro ⟨rfl, rfl⟩
      exact hdef

/-- A fill with a definition takes the definitions of a moment to those of the next. -/
theorem History.filled (hdefs : r.History n defs) {handle : ℕ} {start : Address} {tt : TypedTerm} (hdef : defs start = some tt)
    (hop : ∀ handle a t, r.op n ≠ .register handle a t) (hnext : r.moment (n + 1) = ⟨(r.moment n).world,
      Function.update (r.moment n).memo handle (((r.moment n).memo handle).fill start (some tt))⟩) :
    r.History (n + 1) defs where
  disciplined := by
    have hsame : contentAt cat r.moment (n + 1) = contentAt cat r.moment n := by rw [contentAt, hnext, contentAt]
    rw [hsame]
    exact hdefs.disciplined
  recorded a t := by
    rw [registeredAs_succ, hdefs.recorded]
    refine ⟨.inl, fun h => h.resolve_right ?_⟩
    rintro ⟨handle', heq⟩
    exact hop handle' a t heq
  memos := by
    rw [hnext]
    exact memos_fill hdefs.memos hdef

theorem memoized_known (hH : ∀ k ≤ n, ∃ defs, r.History k defs) (hdefs : r.History n defs) {handle pin level : ℕ}
    {start : Address} {resolve : Resolver} {entry : Option TypedTerm} (hpin : pin ≤ n)
    (hresolve : level ≤ maxDepth → ∀ b l, level < l → Answered cat r.moment handle pin n b l (resolve b l))
    (h : memoized (contentAt cat r.moment pin) start (deriveDef cat (contentAt cat r.moment pin) resolve start level) =
      some entry) : ∃ tt, entry = some tt ∧ defs start = some tt := by
  obtain ⟨defs', hdefs'⟩ := hH pin hpin
  cases hdef : defs' start with
  | none =>
    rw [deriveDef_of_none hdefs'.disciplined hdef] at h
    cases h
  | some tt =>
    have hderived := deriveDef_of_defined hdefs'.disciplined hdef fun hlevel b l t hl hb => by
      obtain ⟨k, defs'', hk, -, hdefs'', hsettled⟩ := settled_of_answered hH (hresolve hlevel b l hl)
      exact hsettled.defined t (hdefs'.mono hdefs'' hk hb)
    rcases hderived with hok | ⟨hdeep, -⟩
    · rw [hok] at h
      cases h
      exact ⟨tt, rfl, hdefs'.mono hdefs hpin hdef⟩
    · rw [hdeep] at h
      cases h

/-- **A step takes the definitions of a moment to those of the next.** -/
theorem History.succ (hH : ∀ k ≤ n, ∃ defs, r.History k defs) : ∃ defs, r.History (n + 1) defs := by
  obtain ⟨defs, hdefs⟩ := hH n le_rfl
  have hstep := r.step n
  generalize hop : r.op n = op at hstep
  generalize hnext : r.moment (n + 1) = next at hstep
  cases hstep with
  | @other w' recs hlinks hpdef hcontent =>
    refine ⟨defs, hdefs.disciplined.grow (fun a => ?_) (fun _ _ => parsed_succ), fun a t => ?_, ?_⟩
    · rw [everPred_contentAt, everPred_contentAt, hnext, isEverPred_iff, isEverPred_iff]
      constructor
      · rintro ⟨x, l, hl, hc, hnames⟩
        exact ⟨x, l, hpdef x l hl hc, hc, hnames⟩
      · rintro ⟨x, l, hl, hc, hnames⟩
        exact ⟨x, l, (grows_of_run hlinks).links x l hl, hc, hnames⟩
    · rw [registeredAs_succ, hdefs.recorded, hop]
      refine ⟨.inl, fun h => h.resolve_right ?_⟩
      rintro ⟨handle, heq⟩
      cases heq
    · rw [hnext]
      exact hdefs.memos
  | @register handle pin seq home start resolve tt addr w' hpin hresolve h =>
    exact hdefs.register hH hpin hresolve h hop hnext
  | @probe handle pin level start resolve entry hpin hresolve h =>
    obtain ⟨tt, rfl, hdef⟩ := memoized_known hH hdefs hpin hresolve h
    exact ⟨defs, hdefs.filled hdef (fun _ _ _ heq => by rw [hop] at heq; cases heq) hnext⟩
  | @adopt handle m start tt hm h =>
    have hdef := (hdefs.recorded start tt).2 ⟨m, hm, handle, h⟩
    exact ⟨defs, hdefs.filled hdef (fun _ _ _ heq => by rw [hop] at heq; cases heq) hnext⟩

theorem exists_history (r : DefRun cat) (n : ℕ) : ∃ defs, r.History n defs := by
  induction n using Nat.strong_induction_on with
  | _ n ih =>
    cases n with
    | zero => exact ⟨_, genesis_history⟩
    | succ n => exact History.succ fun k hk => ih k (Nat.lt_succ_of_le hk)

theorem exists_answered_now (moment : ℕ → DefMoment) (handle now : ℕ) (a : Address) (level : ℕ) :
    ∃ answer, Answered cat moment handle now now a level answer := by
  induction hk : maxDepth + 1 - level using Nat.strong_induction_on generalizing a level with
  | _ k ih =>
    have hdeeper : ∀ b l, ∃ answer, level ≤ maxDepth → level < l → Answered cat moment handle now now b l answer := by
      intro b l
      by_cases hl : level ≤ maxDepth ∧ level < l
      · obtain ⟨answer, hans⟩ := ih _ (by omega) b l rfl
        exact ⟨answer, fun _ _ => hans⟩
      · exact ⟨.error .tooDeep, fun h h' => absurd ⟨h, h'⟩ hl⟩
    choose resolve hresolve using hdeeper
    exact ⟨_, .intro le_rfl le_rfl le_rfl fun hlevel b l hl => hresolve b l hlevel hl⟩

theorem exists_answered (moment : ℕ → DefMoment) (handle : ℕ) {since now : ℕ} (hle : since ≤ now) (a : Address)
    (level : ℕ) : ∃ answer, Answered cat moment handle since now a level answer := by
  have hdeeper : ∀ b l, ∃ answer, Answered cat moment handle now now b l answer :=
    exists_answered_now moment handle now
  choose resolve hresolve using hdeeper
  exact ⟨_, .intro hle le_rfl le_rfl fun _ b l _ => hresolve b l⟩

/-- A registered start is answered with its definition. -/
theorem answered_of_registered {start : Address} {tt : TypedTerm} (h : r.RegisteredAs n start tt) {handle now : ℕ}
    {answer : Except Unresolved TypedTerm} (hans : Answered cat r.moment handle n now start 0 answer) :
    answer = .ok tt := by
  obtain ⟨k, defs, hk, -, hdefs, hsettled⟩ := settled_of_answered (fun k _ => exists_history r k) hans
  obtain ⟨m, hm, hop⟩ := h
  have hdef : defs start = some tt := (hdefs.recorded start tt).2 ⟨m, hm.trans_le hk, hop⟩
  rcases hsettled.defined tt hdef with hok | ⟨-, hpast⟩
  · exact hok
  · obtain ⟨resolve, -, hadmitted⟩ := hdefs.disciplined.admitted start tt hdef
    have hreach := reach_le_maxDepth hadmitted
    omega

/-- A start that no registration named is answered with nothing. -/
theorem answered_of_unregistered {handle since now : ℕ} {start : Address} (h : ∀ tt, ¬ r.RegisteredAs now start tt)
    {answer : Except Unresolved TypedTerm} (hans : Answered cat r.moment handle since now start 0 answer) :
    answer = .error .undefined := by
  obtain ⟨k, defs, -, hk, hdefs, hsettled⟩ := settled_of_answered (fun k _ => exists_history r k) hans
  refine hsettled.undefined (Option.eq_none_iff_forall_ne_some.2 fun tt hdef => ?_)
  obtain ⟨m, hm, hop⟩ := (hdefs.recorded start tt).1 hdef
  exact h tt ⟨m, hm.trans_le hk, hop⟩

theorem isEverPred_iff_registered {start : Address} :
    isEverPred cat.registry (r.moment n).world.links start = .ok true ↔ ∃ tt, r.RegisteredAs n start tt := by
  obtain ⟨defs, hdefs⟩ := exists_history r n
  rw [← everPred_contentAt, hdefs.disciplined.registered, Option.isSome_iff_exists]
  exact exists_congr fun tt => hdefs.recorded start tt

/-- The moment of a start's first registration. -/
noncomputable def firstRegistered (r : DefRun cat) (a : Address) : ℕ := sInf {m | ∃ handle tt, r.op m = .register handle a tt}

/-- **A referent was registered before the first registration that refers to it.** -/
theorem firstRegistered_lt {a b : Address} (h : r.Refers n a b) : r.firstRegistered b < r.firstRegistered a := by
  obtain ⟨tt, hreg, hb⟩ := h
  obtain ⟨m, hm, handle, hop⟩ := hreg
  obtain ⟨handle', tt', hfirst⟩ : ∃ handle tt, r.op (r.firstRegistered a) = .register handle a tt :=
    Nat.sInf_mem (s := {m | ∃ handle tt, r.op m = .register handle a tt}) ⟨m, handle, tt, hop⟩
  have hle : r.firstRegistered a ≤ m := Nat.sInf_le ⟨handle, tt, hop⟩
  obtain ⟨defs, hdefs⟩ := exists_history r n
  have hdef : defs a = some tt := (hdefs.recorded a tt).2 ⟨m, hm, handle, hop⟩
  have hdef' : defs a = some tt' := (hdefs.recorded a tt').2 ⟨_, hle.trans_lt hm, handle', hfirst⟩
  obtain rfl : tt' = tt := Option.some.inj (hdef'.symm.trans hdef)
  have hstep := r.step (r.firstRegistered a)
  rw [hfirst] at hstep
  generalize r.moment (r.firstRegistered a + 1) = next at hstep
  cases hstep with
  | @register _ pin seq home _ resolve _ addr w' hpin hresolve hregister =>
    obtain ⟨t, k, hk, handle'', hop'⟩ := isEverPred_iff_registered.1 ((registerPred_spec hregister).registered b hb)
    calc r.firstRegistered b ≤ k := Nat.sInf_le ⟨handle'', t, hop'⟩
      _ < pin := hk
      _ ≤ r.firstRegistered a := hpin

/-- **A signature is permanent.** The ever-registered starts are those registered; each is answered
with its own definition from then on, by every handle, in whatever order commits and fills come, and
its bytes still spell it. Any other start is answered with nothing and memoized nowhere, and no
definition reaches itself through its referents. -/
theorem signature_permanent (r : DefRun cat) (n : ℕ) (start : Address) :
    (isEverPred cat.registry (r.moment n).world.links start = .ok true ↔ ∃ tt, r.RegisteredAs n start tt) ∧
    (∀ tt, r.RegisteredAs n start tt → ∀ now ≥ n,
      parseDef (r.moment now).world.content start = .ok tt.signed ∧
      (∀ handle entry, (r.moment now).memo handle start = some entry → entry = some tt) ∧
      ∀ handle answer, Answered cat r.moment handle n now start 0 answer ↔ answer = .ok tt) ∧
    ((∀ tt, ¬ r.RegisteredAs n start tt) →
      (∀ handle, (r.moment n).memo handle start = none) ∧
      ∀ handle since answer, since ≤ n → (Answered cat r.moment handle since n start 0 answer ↔ answer = .error .undefined)) ∧
    ¬ Relation.TransGen (r.Refers n) start start := by
  refine ⟨isEverPred_iff_registered, fun tt h now hnow => ⟨?_, fun handle entry hentry => ?_, fun handle answer => ?_⟩,
    fun h => ⟨fun handle => ?_, fun handle since answer hsince => ?_⟩, fun h => ?_⟩
  · obtain ⟨defs, hdefs⟩ := exists_history r n
    have hparsed := hdefs.disciplined.parsed start tt ((hdefs.recorded start tt).2 h)
    rw [parseDef_contentAt] at hparsed
    exact parsed_le hnow hparsed
  · obtain ⟨defs, hdefs⟩ := exists_history r now
    obtain ⟨m, hm, hop⟩ := h
    have hdef : defs start = some tt := (hdefs.recorded start tt).2 ⟨m, hm.trans_le hnow, hop⟩
    obtain ⟨tt', rfl, hdef'⟩ := hdefs.memos handle start entry hentry
    exact hdef'.symm.trans hdef
  · refine ⟨answered_of_registered h, ?_⟩
    rintro rfl
    obtain ⟨answer, hans⟩ := exists_answered r.moment handle hnow start 0
    exact answered_of_registered h hans ▸ hans
  · obtain ⟨defs, hdefs⟩ := exists_history r n
    refine Option.eq_none_iff_forall_ne_some.2 fun entry hentry => ?_
    obtain ⟨tt, -, hdef⟩ := hdefs.memos handle start entry hentry
    exact h tt ((hdefs.recorded start tt).1 hdef)
  · refine ⟨answered_of_unregistered h, ?_⟩
    rintro rfl
    obtain ⟨answer, hans⟩ := exists_answered r.moment handle hsince start 0
    exact answered_of_unregistered h hans ▸ hans
  · have hlt : ∀ b, Relation.TransGen (r.Refers n) start b → r.firstRegistered b < r.firstRegistered start := by
      intro b hb
      induction hb with
      | single h => exact firstRegistered_lt h
      | tail _ h ih => exact (firstRegistered_lt h).trans ih
    exact lt_irrefl _ (hlt start h)

/-- The definition tuples are what registrations store, at most one of them active for each start. -/
structure Endorsed (links : LinkState) : Prop where
  stored : ∀ a l, links.readlink a = some l → coverageClass l.typeSlot = .ok (TypeRegistry.build.shippedClass .predDef) →
    ∃ start, l = pdefTuple TypeRegistry.build start
  single : ∀ a a' l, links.readlink a = some l → links.readlink a' = some l →
    coverageClass l.typeSlot = .ok (TypeRegistry.build.shippedClass .predDef) →
    links.nullified TypeRegistry.build a.tumbler = false → links.nullified TypeRegistry.build a'.tumbler = false → a = a'

/-- Steps that deposit no definition tuple keep at most one active. -/
theorem Endorsed.keep {w w' : LinkWorld} (h : Endorsed w.links) (hgrow : w.Grows w')
    (hold : ∀ a l, w'.links.readlink a = some l →
      coverageClass l.typeSlot = .ok (TypeRegistry.build.shippedClass .predDef) → w.links.readlink a = some l) :
    Endorsed w'.links where
  stored a l hl hc := h.stored a l (hold a l hl hc) hc
  single a a' l hl hl' hc hactive hactive' :=
    h.single a a' l (hold a l hl hc) (hold a' l hl' hc) hc (active_before hgrow hactive) (active_before hgrow hactive')

/-- A registration finds the tuple of its start, or deposits the one that is active. -/
theorem Endorsed.register {w w' : LinkWorld} {seq : ℕ} {home start : Address} {d : Deposited} (h : Endorsed w.links)
    (hcore : emitCore TypeRegistry.build w seq (fun _ => true) .system home (pdefTuple TypeRegistry.build start) .managed =
      .ok (d, w')) : Endorsed w'.links := by
  have hemitted : Emitted TypeRegistry.build w (fun _ => true) home (pdefTuple TypeRegistry.build start) d w' :=
    emitCore_spec hcore
  have hgrow : w.Grows w' := by
    rcases hemitted.step with rfl | hstep
    · exact .refl w'
    · exact hstep.grows
  have hidem : TypeRegistry.build.isIdempotent (TypeRegistry.build.shippedClass .predDef) = true := by
    rw [TypeRegistry.isIdempotent, TypeRegistry.registration_shippedClass]
    rfl
  rcases emitCore_retracted (TypeRegistry.build.coverageClass_reservedType .predDef) hidem hcore with
    rfl | ⟨key, hkey, hretracted⟩
  · exact h
  cases hemitted with
  | incumbent => exact h
  | @fresh addr _ _ _ links _ _ hlinks =>
    have hread := LinkState.readlink_deposit hlinks
    -- beside the new tuple, none of the same value is active
    have hothers : ∀ a, links.readlink a = some (pdefTuple TypeRegistry.build start) →
        links.nullified TypeRegistry.build a.tumbler = false → a = addr := by
      intro a ha hactive
      by_contra hne
      rw [hread, if_neg hne] at ha
      have hnull := nullified_grows hgrow (hretracted a _ ha hkey)
      rw [hactive] at hnull
      cases hnull
    constructor
    · intro a l hl hc
      rw [hread] at hl
      by_cases hne : a = addr
      · rw [if_pos hne, Option.some.injEq] at hl
        exact ⟨start, hl.symm⟩
      · rw [if_neg hne] at hl
        exact h.stored a l hl hc
    · intro a a' l hl hl' hc hactive hactive'
      by_cases hvalue : l = pdefTuple TypeRegistry.build start
      · subst hvalue
        rw [hothers a hl hactive, hothers a' hl' hactive']
      · have hold : ∀ b, links.readlink b = some l → w.links.readlink b = some l := by
          intro b hb
          have hne : b ≠ addr := by
            rintro rfl
            rw [hread, if_pos rfl, Option.some.injEq] at hb
            exact hvalue hb.symm
          rwa [hread, if_neg hne] at hb
        exact h.single a a' l (hold a hl) (hold a' hl') hc (active_before hgrow hactive) (active_before hgrow hactive')

variable (r : DefRun ⟨TypeRegistry.build⟩) (n : ℕ)

theorem endorsed : Endorsed (r.moment n).world.links := by
  induction n with
  | zero =>
    rw [r.genesis]
    exact ⟨fun a l hl => (by cases hl), fun a a' l hl => (by cases hl)⟩
  | succ n ih =>
    have hstep := r.step n
    generalize r.op n = op at hstep
    generalize r.moment (n + 1) = next at hstep
    cases hstep with
    | @other w' recs hlinks hpdef hcontent => exact ih.keep (grows_of_run hlinks) hpdef
    | @register handle pin seq home start resolve tt addr w' hpin hresolve h =>
      obtain ⟨d, hcore⟩ := registerPred_emitCore h
      exact ih.register hcore
    | probe | adopt => exact ih

/-- The active definition tuples that name a start. -/
def activeTuples (start : Address) : Set Address :=
  {a | ∃ l, (r.moment n).world.links.readlink a = some l ∧
    coverageClass l.typeSlot = .ok (TypeRegistry.build.shippedClass .predDef) ∧
    (r.moment n).world.links.nullified TypeRegistry.build a.tumbler = false ∧ names l.fromSlot start = true}

/-- **No start has two active tuples**, whatever is retracted and registered again; one stands where the
endorsement probe answers that one does. -/
theorem one_active_tuple (start : Address) : (r.activeTuples n start).Subsingleton ∧
    (isActivePred TypeRegistry.build (r.moment n).world.links start = .ok true ↔ (r.activeTuples n start).Nonempty) := by
  have hvalue : ∀ a l, (r.moment n).world.links.readlink a = some l →
      coverageClass l.typeSlot = .ok (TypeRegistry.build.shippedClass .predDef) → names l.fromSlot start = true →
      l = pdefTuple TypeRegistry.build start := by
    intro a l hl hc hnames
    obtain ⟨start', rfl⟩ := (r.endorsed n).stored a l hl hc
    rw [names_enc.1 hnames]
  constructor
  · rintro a ⟨l, hl, hc, hactive, hnames⟩ a' ⟨l', hl', hc', hactive', hnames'⟩
    obtain rfl := hvalue a l hl hc hnames
    obtain rfl := hvalue a' l' hl' hc' hnames'
    exact (r.endorsed n).single a a' _ hl hl' hc hactive hactive'
  · rw [isActivePred_iff]
    rfl

end DefRun

private def truthStart : Address := ⟨⟨[1, 1, 0, 1, 0, 2, 0, 1, 8], by simp⟩, .element, by decide⟩

private def truthRun : ContentRec := .write ⟨truthStart, ⟨[3, 0, 2, 1]⟩⟩

private def truthWorld : DefWorld := ⟨LinkWorld.genesis, ContentStore.empty.applyAll [truthRun]⟩

/-- The run is written, then registered, and nothing follows. -/
private def truthMoment (w : LinkWorld) : ℕ → DefMoment
  | 0 => ⟨⟨LinkWorld.genesis, ContentStore.empty⟩, fun _ _ => none⟩
  | 1 => ⟨truthWorld, fun _ _ => none⟩
  | _ + 2 => ⟨{ truthWorld with toLinkWorld := w }, fun _ _ => none⟩

private def truthOp (tt : TypedTerm) : ℕ → DefOp
  | 1 => .register 0 truthStart tt
  | _ => .other

private theorem answered_before {w : LinkWorld} {since : ℕ} {a : Address} {level : ℕ} {answer : Except Unresolved TypedTerm}
    (h : Answered ⟨TypeRegistry.build⟩ (truthMoment w) 0 since 1 a level answer) : answer = .error .undefined := by
  have hempty : ∀ k ≤ 1, (truthMoment w k).memo 0 a = none ∧ (truthMoment w k).world.links = LinkState.genesis := by
    intro k hk
    interval_cases k <;> exact ⟨rfl, rfl⟩
  cases h with
  | @intro _ read pin _ _ _ resolve hread hpin hnow _ =>
    have hpred : (contentAt ⟨TypeRegistry.build⟩ (truthMoment w) pin).everPred a = false := by
      rw [← Bool.not_eq_true, DefRun.everPred_contentAt, (hempty pin hnow).2, isEverPred_iff]
      rintro ⟨x, l, hl, -⟩
      cases hl
    simp only [resolveOver, (hempty read (hpin.trans hnow)).1, deriveDef, hpred, if_true]

/-- A definition written and registered is answered from then on. -/
theorem signature_permanent_truthStart : ∃ (r : DefRun ⟨TypeRegistry.build⟩) (tt : TypedTerm),
    r.RegisteredAs 2 truthStart tt ∧
    ∀ now ≥ 2, ∀ handle answer, Answered ⟨TypeRegistry.build⟩ r.moment handle 2 now truthStart 0 answer ↔ answer = .ok tt := by
  have hok : (registerPred ⟨TypeRegistry.build⟩ truthWorld truthWorld (fun _ _ => .error .undefined) 1 headDocument
      truthStart).isOk = true := by decide +kernel
  obtain ⟨⟨tt, addr, w⟩, hregister⟩ := Outcome.isOk_iff.1 hok
  have hstep : ∀ n, DefStep ⟨TypeRegistry.build⟩ (truthMoment w) (truthOp tt) n (truthOp tt n) (truthMoment w (n + 1)) := by
    intro n
    rcases n with - | - | n
    · exact .other .refl (fun a l hl _ => hl) (show truthWorld.content = ContentStore.empty.applyAll [truthRun] from rfl)
    · refine .register le_rfl (fun b l _ => ?_) hregister
      obtain ⟨answer, hans⟩ := DefRun.exists_answered (truthMoment w) 0 (le_refl 1) b l
      exact answered_before hans ▸ hans
    · exact .other .refl (fun a l hl _ => hl) (show truthWorld.content = truthWorld.content.applyAll [] from rfl)
  let r : DefRun ⟨TypeRegistry.build⟩ := ⟨truthMoment w, truthOp tt, rfl, hstep⟩
  have hreg : r.RegisteredAs 2 truthStart tt := ⟨1, Nat.one_lt_two, 0, rfl⟩
  obtain ⟨-, hanswers, -, -⟩ := DefRun.signature_permanent r 2 truthStart
  exact ⟨r, tt, hreg, fun now hnow => (hanswers tt hreg now hnow).2.2⟩

end Coordination
