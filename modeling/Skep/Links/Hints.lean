import Skep.Library.Exchange
import Skep.Links.Store
import Skep.Links.Supersession

/-!
# The hints of the link slice

The indices that the link slice keeps beside its links. The fold of a deposit maintains them,
and a load computes them again from the links. A filing adds to sets and counts, so the
filings of two links can be exchanged, and one state is left by any order of the deposits.
-/

instance : LinearOrder LinkState.SupEdge :=
  LinearOrder.lift' (fun e => toLex (e.new, e.claim)) fun a b h => by
    cases a
    cases b
    cases h
    rfl

/-- What can be computed again from the links. -/
@[ext] structure Hints where
  typeSlices : Finmap fun _ : CoverageClass => OrdSet Address
  nullified : OrdSet Tumbler
  retractions : Finmap fun _ : Tumbler => OrdSet Address
  dedup : Finmap fun _ : DedupKey => OrdSet Address
  supFwd : Finmap fun _ : Tumbler => OrdSet LinkState.SupEdge
  homeFrontier : Finmap fun _ : Address => ℕ
  spanfilade : Spanfilade

namespace Hints

def empty : Hints := ⟨∅, ∅, ∅, ∅, ∅, ∅, .empty⟩

/-- The edges of a claim, out of each of its olds. -/
def fileClaim (supFwd : Finmap fun _ : Tumbler => OrdSet LinkState.SupEdge) (addr : Address) (value : Link) :
    Finmap fun _ : Tumbler => OrdSet LinkState.SupEdge :=
  let olds := OrdSet.ofList value.fromSlot.addrs
  let news := OrdSet.ofList value.toSlot.addrs
  olds.elems.foldl (fun supFwd old =>
    updateAt ∅ supFwd old fun edges => news.elems.foldl (fun edges new => edges.insert ⟨new, addr⟩) edges) supFwd

variable (reg : TypeRegistry)

/-- A link of an idempotent class under its dedup key. -/
def fileDedup {ε : Type} (dedup : Finmap fun _ : DedupKey => OrdSet Address) (addr : Address) (c : CoverageClass)
    (value : Link) : Outcome ε (Finmap fun _ : DedupKey => OrdSet Address) :=
  if reg.isIdempotent c then do
    let key ← (DedupKey.of value).expect
    return updateAt ∅ dedup key (OrdSet.insert addr)
  else return dedup

/-- Fold a deposit into the hints. -/
def fold {ε : Type} (out : Hints) (addr : Address) (value : Link) : Outcome ε Hints := do
  let c ← (coverageClass value.typeSlot).expect
  let typeSlices := updateAt ∅ out.typeSlices c (OrdSet.insert addr)
  let nullified :=
    if c = reg.shippedClass .retraction then value.toSlot.addrs.foldl (fun nullified root => nullified.insert root) out.nullified
    else out.nullified
  let retractions :=
    if c = reg.shippedClass .retraction then value.toSlot.addrs.foldl (fun retractions root =>
      updateAt ∅ retractions root (OrdSet.insert addr)) out.retractions
    else out.retractions
  let dedup ← fileDedup reg out.dedup addr c value
  let supFwd := if c = reg.shippedClass .supersedes then fileClaim out.supFwd addr value else out.supFwd
  let home ← Outcome.expectSome (documentOf addr)
  return ⟨typeSlices, nullified, retractions, dedup, supFwd,
    updateAt 0 out.homeFrontier home (· + 1), out.spanfilade.file addr home value⟩

end Hints

/-- The link slice with its hints. -/
structure HintedLinks where
  links : OrdMap Address Link
  hints : Hints

namespace HintedLinks

def genesis : HintedLinks := ⟨OrdMap.empty, .empty⟩

variable (reg : TypeRegistry)

/-- Fold a deposit. -/
def applyLink {ε : Type} (s : HintedLinks) : LinkRec → Outcome ε HintedLinks
  | .deposit addr value => do
      Outcome.require (s.links.get addr = none)
      let hints ← s.hints.fold reg addr value
      return ⟨s.links.insert addr value, hints⟩

/-- The links with the hints a load computes. -/
def rebuildDerived {ε : Type} (links : OrdMap Address Link) : Outcome ε HintedLinks := do
  let hints ← links.entries.foldlM (fun hints e => hints.fold reg e.1 e.2) Hints.empty
  return ⟨links, hints⟩

end HintedLinks

section Filings

variable {home home' link link' : Address}

theorem SlotIndex.file_commute (hne : link ≠ link') (index index' : ℕ) (span span' : Span) :
    Function.Commute (fun idx => SlotIndex.file idx home link index span)
      fun idx => idx.file home' link' index' span' := by
  intro idx
  have hresidue : (⟨home, link, index⟩ : Residual) ≠ ⟨home', link', index'⟩ := fun h => hne (congrArg Residual.link h)
  cases hrun : SiblingRun.of span with
  | none =>
    cases hrun' : SiblingRun.of span' with
    | none => simp only [SlotIndex.file, hrun, hrun', OrdMap.insert_commute hresidue _ _ idx.residue]
    | some run' => simp only [SlotIndex.file, hrun, hrun']
  | some run =>
    cases hrun' : SiblingRun.of span' with
    | none => simp only [SlotIndex.file, hrun, hrun']
    | some run' =>
      have hends := ite_ite_commute (OrdSet.insert_commute
        (⟨home, run.axis, run.level, run.stop, link⟩ : Filing) ⟨home', run'.axis, run'.level, run'.stop, link'⟩)
        (0 < run.level) (0 < run'.level) idx.byEnd
      simp only [SlotIndex.file, hrun, hrun', SlotIndex.mk.injEq]
      exact ⟨OrdSet.insert_commute _ _ _, OrdSet.insert_commute _ _ _, OrdSet.insert_commute _ _ _,
        OrdSet.insert_commute _ _ _, hends, trivial, OrdSet.insert_commute _ _ _, OrdSet.insert_commute _ _ _⟩

theorem SlotIndex.fileFrom_eq_foldl (idx : SlotIndex) (index : ℕ) (spans : List Span) :
    idx.fileFrom home link index spans =
      (spans.zipIdx index).foldl (fun idx e => idx.file home link e.2 e.1) idx := by
  induction spans generalizing idx index with
  | nil => rfl
  | cons span spans ih =>
    rw [SlotIndex.fileFrom, ih, List.zipIdx_cons, List.foldl_cons]

theorem SlotIndex.fileFrom_commute (hne : link ≠ link') (spans spans' : List Span) :
    Function.Commute (fun idx => SlotIndex.fileFrom idx home link 0 spans)
      fun idx => idx.fileFrom home' link' 0 spans' := by
  simp only [SlotIndex.fileFrom_eq_foldl]
  exact foldl_foldl_commute fun e _ e' _ => SlotIndex.file_commute hne _ _ _ _

namespace Spanfilade

theorem length_fileSlots {home link : Address} (endsets : List Endset) {slots : List SlotIndex} {position : ℕ}
    (hle : position ≤ slots.length) :
    (fileSlots slots home link position endsets).length = max slots.length (position + endsets.length) := by
  induction endsets generalizing slots position with
  | nil =>
    rw [fileSlots, List.length_nil]
    omega
  | cons endset rest ih =>
    rw [fileSlots, ih (length_fileSlot hle), fileSlot, List.length_modify, List.length_cons]
    split
    · rw [List.length_append, List.length_singleton]
      omega
    · omega

theorem slots_ext {slots slots' : List SlotIndex} (hlen : slots.length = slots'.length)
    (h : ∀ n, indexAt slots n = indexAt slots' n) : slots = slots' := by
  refine List.ext_getElem hlen fun n hn hn' => ?_
  have hindex := h n
  rwa [indexAt, indexAt, List.getElem?_eq_getElem hn, List.getElem?_eq_getElem hn'] at hindex

theorem file_commute (hne : link ≠ link') (value value' : Link) :
    Function.Commute (fun sf => Spanfilade.file sf link home value)
      fun sf => sf.file link' home' value' := by
  intro sf
  simp only [Spanfilade.file, Spanfilade.mk.injEq]
  refine ⟨slots_ext ?_ fun n => ?_, OrdSet.insert_commute _ _ _⟩
  · simp only [length_fileSlots _ (Nat.zero_le _)]
    omega
  · simp only [indexAt_fileSlots _ (Nat.zero_le _), Nat.zero_le, if_true, Nat.sub_zero]
    cases value.slots[n]? with
    | none => rfl
    | some endset =>
      cases value'.slots[n]? with
      | none => rfl
      | some endset' => exact SlotIndex.fileFrom_commute hne _ _ (indexAt sf.slots n)

end Spanfilade

end Filings

/-- What the filing of a deposit reads of it. -/
structure FiledLink where
  addr : Address
  value : Link
  cls : CoverageClass
  key : Option DedupKey
  home : Address

/-- The dedup key of a link of a class, where the class is idempotent. -/
def dedupKeyOf {ε : Type} (reg : TypeRegistry) (c : CoverageClass) (value : Link) : Outcome ε (Option DedupKey) :=
  if reg.isIdempotent c then (DedupKey.of value).expect.bind fun key => .ok (some key) else .ok none

/-- A deposit that can be filed: its class, its key where the class has one, its home. -/
def FiledLink.of {ε : Type} (reg : TypeRegistry) (addr : Address) (value : Link) : Outcome ε FiledLink := do
  let cls ← (coverageClass value.typeSlot).expect
  let key ← dedupKeyOf reg cls value
  let home ← Outcome.expectSome (documentOf addr)
  return ⟨addr, value, cls, key, home⟩

/-- What a deposit's filing reads is of the deposit. -/
theorem FiledLink.parts {ε : Type} {reg : TypeRegistry} {addr : Address} {value : Link} {d : FiledLink}
    (h : (FiledLink.of reg addr value : Outcome ε FiledLink) = .ok d) : d.addr = addr ∧ d.value = value ∧
      coverageClass value.typeSlot = .ok d.cls ∧ (dedupKeyOf reg d.cls value : Outcome ε _) = .ok d.key ∧
      documentOf addr = some d.home := by
  simp only [FiledLink.of, Outcome.bind_eq_ok_iff, Outcome.pure_eq, Outcome.ok.injEq, Outcome.expect_eq_ok_iff,
    Outcome.expectSome_eq_ok_iff] at h
  obtain ⟨cls, hcls, key, hkey, home, hhome, rfl⟩ := h
  exact ⟨rfl, rfl, hcls, hkey, hhome⟩

namespace Hints

variable (reg : TypeRegistry)

/-- The hints with a deposit filed. -/
def filed (d : FiledLink) (out : Hints) : Hints where
  typeSlices := updateAt ∅ out.typeSlices d.cls (OrdSet.insert d.addr)
  nullified :=
    if d.cls = reg.shippedClass .retraction then
      d.value.toSlot.addrs.foldl (fun nullified root => nullified.insert root) out.nullified
    else out.nullified
  retractions :=
    if d.cls = reg.shippedClass .retraction then
      d.value.toSlot.addrs.foldl (fun retractions root =>
        updateAt ∅ retractions root (OrdSet.insert d.addr)) out.retractions
    else out.retractions
  dedup := d.key.elim out.dedup fun key => updateAt ∅ out.dedup key (OrdSet.insert d.addr)
  supFwd := if d.cls = reg.shippedClass .supersedes then fileClaim out.supFwd d.addr d.value else out.supFwd
  homeFrontier := updateAt 0 out.homeFrontier d.home (· + 1)
  spanfilade := out.spanfilade.file d.addr d.home d.value

theorem fold_eq {ε : Type} (out : Hints) (addr : Address) (value : Link) :
    (out.fold reg addr value : Outcome ε Hints) = FiledLink.of reg addr value >>= fun d => .ok (out.filed reg d) := by
  rw [fold, FiledLink.of]
  cases coverageClass value.typeSlot with
  | err e => nomatch e
  | fault => rfl
  | ok c =>
    simp only [Outcome.expect_ok, Outcome.ok_bind, fileDedup, dedupKeyOf]
    by_cases hidem : reg.isIdempotent c = true
    · simp only [hidem, if_true]
      cases DedupKey.of value with
      | err e => nomatch e
      | fault => rfl
      | ok key => cases documentOf addr <;> rfl
    · simp only [hidem, Bool.false_eq_true, if_false]
      cases documentOf addr <;> rfl

theorem fileClaim_commute (addr addr' : Address) (value value' : Link) :
    Function.Commute (fun supFwd => fileClaim supFwd addr value) fun supFwd => fileClaim supFwd addr' value' :=
  foldl_foldl_commute fun _ _ _ _ => updateAt_commute _ _ _
    (foldl_foldl_commute fun _ _ _ _ => OrdSet.insert_commute _ _)

theorem filed_commute {d d' : FiledLink} (hne : d.addr ≠ d'.addr) :
    Function.Commute (Hints.filed reg d) (Hints.filed reg d') := by
  intro h
  refine Hints.ext ?_ ?_ ?_ ?_ ?_ ?_ ?_
  · exact updateAt_commute _ _ _ (OrdSet.insert_commute _ _) h.typeSlices
  · exact ite_ite_commute (foldl_foldl_commute fun _ _ _ _ => OrdSet.insert_commute _ _) _ _ h.nullified
  · exact ite_ite_commute (foldl_foldl_commute fun _ _ _ _ =>
      updateAt_commute _ _ _ (OrdSet.insert_commute _ _)) _ _ h.retractions
  · simp only [filed]
    cases d.key with
    | none => rfl
    | some key =>
      cases d'.key with
      | none => rfl
      | some key' => exact updateAt_commute _ _ _ (OrdSet.insert_commute _ _) h.dedup
  · exact ite_ite_commute (fileClaim_commute _ _ _ _) _ _ h.supFwd
  · exact updateAt_commute _ _ _ (fun _ => rfl) h.homeFrontier
  · exact Spanfilade.file_commute hne _ _ h.spanfilade

end Hints

namespace HintedLinks

variable {reg : TypeRegistry} {s s' : HintedLinks}

theorem applyLink_eq_ok_iff {ε : Type} {addr : Address} {value : Link} :
    (s.applyLink reg (.deposit addr value) : Outcome ε HintedLinks) = .ok s' ↔
      s.links.get addr = none ∧ ∃ d, (FiledLink.of reg addr value : Outcome ε FiledLink) = .ok d ∧
        s' = ⟨s.links.insert addr value, s.hints.filed reg d⟩ := by
  simp only [applyLink, Hints.fold_eq, Outcome.bind_eq_ok_iff, Outcome.require_eq_ok_iff, Outcome.pure_eq,
    Outcome.ok.injEq, exists_const]
  constructor
  · rintro ⟨hfresh, hints, ⟨d, hd, rfl⟩, rfl⟩
    exact ⟨hfresh, d, hd, rfl⟩
  · rintro ⟨hfresh, d, hd, rfl⟩
    exact ⟨hfresh, _, ⟨d, hd, rfl⟩, rfl⟩

/-- Two deposits that can be folded can be exchanged. -/
theorem applyLink_commute {ε : Type} (r r' : LinkRec) (s s' : HintedLinks)
    (h : (s.applyLink reg r >>= fun t => t.applyLink reg r' : Outcome ε HintedLinks) = .ok s') :
    (s.applyLink reg r' >>= fun t => t.applyLink reg r : Outcome ε HintedLinks) = .ok s' := by
  cases r with
  | deposit addr value =>
    cases r' with
    | deposit addr' value' =>
      obtain ⟨t, ht, h⟩ := Outcome.bind_eq_ok_iff.1 h
      obtain ⟨hfresh, d, hd, rfl⟩ := applyLink_eq_ok_iff.1 ht
      obtain ⟨hfresh', d', hd', rfl⟩ := applyLink_eq_ok_iff.1 h
      have hne : addr ≠ addr' := by
        rintro rfl
        simp at hfresh'
      simp only [OrdMap.get_insert_of_ne _ _ hne.symm] at hfresh'
      refine Outcome.bind_eq_ok_iff.2 ⟨_, applyLink_eq_ok_iff.2 ⟨hfresh', d', hd', rfl⟩,
        applyLink_eq_ok_iff.2 ⟨?_, d, hd, ?_⟩⟩
      · simp only [OrdMap.get_insert_of_ne _ _ hne]
        exact hfresh
      · have hdne : d.addr ≠ d'.addr := by
          rw [(FiledLink.parts hd).1, (FiledLink.parts hd').1]
          exact hne
        exact congrArg₂ HintedLinks.mk (OrdMap.insert_commute hne.symm value' value s.links)
          (Hints.filed_commute reg hdne.symm s.hints)

/-- The links of a run are its deposits, and its hints their fold. -/
theorem foldlM_applyLink {ε : Type} {recs : List (Address × Link)}
    (h : (recs.foldlM (fun s e => s.applyLink reg (.deposit e.1 e.2)) s : Outcome ε HintedLinks) = .ok s') :
    s'.links.entries.Perm (recs ++ s.links.entries) ∧
      (recs.foldlM (fun hints e => hints.fold reg e.1 e.2) s.hints : Outcome ε Hints) = .ok s'.hints := by
  induction recs generalizing s with
  | nil =>
    cases h
    exact ⟨List.Perm.refl _, rfl⟩
  | cons e recs ih =>
    rw [List.foldlM_cons, Outcome.bind_eq_ok_iff] at h
    obtain ⟨t, ht, h⟩ := h
    obtain ⟨hfresh, d, hd, rfl⟩ := applyLink_eq_ok_iff.1 ht
    obtain ⟨hperm, hfold⟩ := ih h
    constructor
    · refine hperm.trans (((OrdMap.insert_entries_perm e.2 hfresh).append_left recs).trans ?_)
      exact List.perm_middle
    · rw [List.foldlM_cons, Hints.fold_eq, hd]
      exact hfold

/-- **The hints are a function of the links.** After any deposits at fresh addresses, the rebuild
of a load computes the hints the run maintained, and the same deposits in any order leave the
same links and the same hints. -/
theorem rebuild_exact {ε : Type} {recs : List (Address × Link)} {s : HintedLinks}
    (h : (recs.foldlM (fun s e => s.applyLink reg (.deposit e.1 e.2)) genesis : Outcome ε HintedLinks) = .ok s) :
    (rebuildDerived reg s.links : Outcome ε HintedLinks) = .ok s ∧ ∀ recs', recs.Perm recs' →
      (recs'.foldlM (fun s e => s.applyLink reg (.deposit e.1 e.2)) genesis : Outcome ε HintedLinks) = .ok s := by
  have hany : ∀ recs', recs.Perm recs' →
      (recs'.foldlM (fun s e => s.applyLink reg (.deposit e.1 e.2)) genesis : Outcome ε HintedLinks) = .ok s :=
    fun recs' hperm => Outcome.foldlM_perm hperm (fun a b t t' =>
      applyLink_commute (.deposit a.1 a.2) (.deposit b.1 b.2) t t') h
  refine ⟨?_, hany⟩
  have hentries : s.links.entries.Perm recs := by
    simpa [genesis] using (foldlM_applyLink h).1
  have hfold := (foldlM_applyLink (hany _ hentries.symm)).2
  rw [rebuildDerived]
  exact Outcome.bind_eq_ok_iff.2 ⟨s.hints, hfold, rfl⟩

end HintedLinks

/-- The hints answer what is read off the links. -/
structure Hints.Derived (reg : TypeRegistry) (state : LinkState) (hints : Hints) : Prop where
  typeSlices : ∀ c a, a ∈ (hints.typeSlices.lookup c).getD ∅ ↔
    ∃ l, state.readlink a = some l ∧ coverageClass l.typeSlot = .ok c
  nullified : ∀ t, t ∈ hints.nullified ↔ state.nullified reg t = true
  retractions : ∀ t a, a ∈ (hints.retractions.lookup t).getD ∅ ↔ ∃ l, state.readlink a = some l ∧
    coverageClass l.typeSlot = .ok (reg.shippedClass .retraction) ∧ t ∈ l.toSlot.addrs
  dedup : ∀ key a, a ∈ (hints.dedup.lookup key).getD ∅ ↔
    ∃ l, state.readlink a = some l ∧ reg.isIdempotent key.ty = true ∧ DedupKey.of l = .ok key
  supFwd : ∀ x e, e ∈ (hints.supFwd.lookup x).getD ∅ ↔ e ∈ state.supFwd reg x
  homeFrontier : ∀ home, (hints.homeFrontier.lookup home).getD 0 = state.homeFrontier home

theorem mem_foldl_insert {κ : Type} [LinearOrder κ] {x : κ} {l : List κ} {s : OrdSet κ} :
    x ∈ l.foldl (fun s k => s.insert k) s ↔ x ∈ s ∨ x ∈ l := by
  induction l generalizing s with
  | nil => simp
  | cons k l ih =>
    rw [List.foldl_cons, ih, OrdSet.mem_insert, List.mem_cons, or_comm (a := x = k), or_assoc]

theorem mem_foldl_updateAt {κ ν : Type} [DecidableEq κ] [LinearOrder ν] {F : OrdSet ν → OrdSet ν} {P : ν → Prop}
    (hF : ∀ s v, v ∈ F s ↔ v ∈ s ∨ P v) {x : κ} {v : ν} {l : List κ} {m : Finmap fun _ : κ => OrdSet ν} :
    v ∈ ((l.foldl (fun m k => updateAt ∅ m k F) m).lookup x).getD ∅ ↔
      v ∈ (m.lookup x).getD ∅ ∨ x ∈ l ∧ P v := by
  induction l generalizing m with
  | nil => simp
  | cons k l ih =>
    rw [List.foldl_cons, ih, lookup_updateAt, List.mem_cons]
    by_cases hx : x = k
    · subst hx
      rw [if_pos rfl, hF]
      simp only [true_or, true_and]
      tauto
    · rw [if_neg hx]
      simp only [hx, false_or]

/-- An edge of a claim is from one of its olds to one of its news. -/
theorem mem_fileClaim {supFwd : Finmap fun _ : Tumbler => OrdSet LinkState.SupEdge} {addr : Address} {value : Link}
    {x : Tumbler} {e : LinkState.SupEdge} : e ∈ ((Hints.fileClaim supFwd addr value).lookup x).getD ∅ ↔
      e ∈ (supFwd.lookup x).getD ∅ ∨
        x ∈ value.fromSlot.addrs ∧ e.claim = addr ∧ e.new ∈ value.toSlot.addrs := by
  have hedges : ∀ (edges : OrdSet LinkState.SupEdge) (e : LinkState.SupEdge),
      e ∈ (OrdSet.ofList value.toSlot.addrs).elems.foldl (fun edges new => edges.insert ⟨new, addr⟩) edges ↔
        e ∈ edges ∨ e.claim = addr ∧ e.new ∈ value.toSlot.addrs := by
    intro edges e
    have hmap : (OrdSet.ofList value.toSlot.addrs).elems.foldl (fun edges new => edges.insert ⟨new, addr⟩) edges =
        ((OrdSet.ofList value.toSlot.addrs).elems.map fun new => (⟨new, addr⟩ : LinkState.SupEdge)).foldl
          (fun edges edge => edges.insert edge) edges := by
      rw [List.foldl_map]
    rw [hmap, mem_foldl_insert, List.mem_map]
    refine or_congr_right ⟨?_, fun ⟨hclaim, hnew⟩ => ⟨e.new, OrdSet.mem_ofList.2 hnew, by rw [← hclaim]⟩⟩
    rintro ⟨new, hnew, rfl⟩
    exact ⟨rfl, OrdSet.mem_ofList.1 hnew⟩
  rw [Hints.fileClaim, mem_foldl_updateAt hedges]
  exact or_congr_right (and_congr_left fun _ => OrdSet.mem_ofList)

theorem DedupKey.class_of {value : Link} {key : DedupKey} (h : DedupKey.of value = .ok key) :
    coverageClass value.typeSlot = .ok key.ty := by
  simp only [DedupKey.of, Outcome.bind_eq_ok_iff, Outcome.pure_eq, Outcome.ok.injEq] at h
  obtain ⟨ty, hty, _, -, _, -, rfl⟩ := h
  exact hty

/-- The fold of a deposit into the links stops where its filing has nothing to read. -/
theorem LinkState.applyLink_eq_ok_iff {ε : Type} {reg : TypeRegistry} {s s' : LinkState} {addr : Address}
    {value : Link} : (s.applyLink reg (.deposit addr value) : Outcome ε LinkState) = .ok s' ↔
      s.readlink addr = none ∧ (∃ d, (FiledLink.of reg addr value : Outcome ε FiledLink) = .ok d) ∧
        s' = ⟨s.links.insert addr value⟩ := by
  have hindex : ∀ c, (indexDedup reg c value : Outcome ε Unit) = .ok () ↔
      ∃ key, (dedupKeyOf reg c value : Outcome ε _) = .ok key := by
    intro c
    rw [indexDedup, dedupKeyOf]
    by_cases hidem : reg.isIdempotent c = true
    · rw [if_pos hidem, if_pos hidem]
      cases DedupKey.of value with
      | err e => nomatch e
      | fault => simp [Outcome.expect, Outcome.bind]
      | ok key => simp [Outcome.bind]
    · simp [hidem]
  simp only [applyLink, FiledLink.of, Outcome.bind_eq_ok_iff, Outcome.require_eq_ok_iff, Outcome.pure_eq,
    Outcome.ok.injEq, exists_const, Outcome.expect_eq_ok_iff, Outcome.expectSome_eq_ok_iff, readlink,
    OrdMap.contains, Option.isSome_eq_false_iff, Option.isNone_iff_eq_none]
  constructor
  · rintro ⟨hfresh, c, hc, _, hdedup, home, hhome, rfl⟩
    obtain ⟨key, hkey⟩ := (hindex c).1 hdedup
    exact ⟨hfresh, ⟨_, c, hc, key, hkey, home, hhome, rfl⟩, rfl⟩
  · rintro ⟨hfresh, ⟨d, c, hc, key, hkey, home, hhome, rfl⟩, rfl⟩
    exact ⟨hfresh, c, hc, (), (hindex c).2 ⟨key, hkey⟩, home, hhome, rfl⟩

namespace Hints

variable {reg : TypeRegistry}

theorem derived_genesis : Hints.empty.Derived reg LinkState.genesis := by
  refine ⟨fun c a => ?_, fun t => ?_, fun t a => ?_, fun key a => ?_, fun x e => ?_, fun home => rfl⟩
  · simp [Hints.empty, LinkState.readlink, LinkState.genesis]
  · simp [Hints.empty, LinkState.nullified_iff, LinkState.readlink, LinkState.genesis]
  · simp [Hints.empty, LinkState.readlink, LinkState.genesis]
  · simp [Hints.empty, LinkState.readlink, LinkState.genesis]
  · simp [Hints.empty, LinkState.mem_supFwd, LinkState.readlink, LinkState.genesis]

theorem Derived.filed {hints : Hints} {state : LinkState} (h : hints.Derived reg state) {addr : Address}
    {value : Link} {d : FiledLink} (hfresh : state.readlink addr = none)
    (hd : (FiledLink.of reg addr value : Outcome Empty FiledLink) = .ok d) :
    (hints.filed reg d).Derived reg ⟨state.links.insert addr value⟩ := by
  have hread : ∀ a (Q : Link → Prop), (∃ l, LinkState.readlink ⟨state.links.insert addr value⟩ a = some l ∧ Q l) ↔
      (a = addr ∧ Q value) ∨ ∃ l, state.readlink a = some l ∧ Q l := by
    intro a Q
    rw [LinkState.readlink]
    simp only [OrdMap.get_insert]
    by_cases ha : a = addr
    · subst ha
      simp [hfresh]
    · simp [ha, LinkState.readlink]
  obtain ⟨rfl, rfl, hcls, hkey, hhome⟩ := FiledLink.parts hd
  have hclass : ∀ c, coverageClass d.value.typeSlot = .ok c ↔ c = d.cls := by
    intro c
    rw [hcls, Outcome.ok.injEq, eq_comm]
  refine ⟨fun c a => ?_, fun t => ?_, fun t a => ?_, fun key a => ?_, fun x e => ?_, fun home => ?_⟩
  · rw [hread, hclass, ← h.typeSlices]
    simp only [Hints.filed, lookup_updateAt]
    by_cases hc : c = d.cls
    · rw [if_pos hc, OrdSet.mem_insert, hc]
      simp
    · rw [if_neg hc]
      simp [hc]
  · have hnull : ∀ state : LinkState, state.nullified reg t = true ↔ ∃ a l, state.readlink a = some l ∧
        coverageClass l.typeSlot = .ok (reg.shippedClass .retraction) ∧ t ∈ l.toSlot.addrs :=
      fun state => LinkState.nullified_iff
    rw [hnull]
    simp only [hread, hclass, exists_or, exists_eq_left, Hints.filed]
    rw [← hnull, ← h.nullified]
    by_cases hc : d.cls = reg.shippedClass .retraction
    · rw [if_pos hc, mem_foldl_insert]
      simp [hc, or_comm]
    · rw [if_neg hc]
      simp [Ne.symm hc]
  · rw [hread, hclass, ← h.retractions]
    simp only [Hints.filed]
    by_cases hc : d.cls = reg.shippedClass .retraction
    · rw [if_pos hc, mem_foldl_updateAt fun s v => OrdSet.mem_insert.trans or_comm]
      simp [hc, or_comm, and_comm]
    · rw [if_neg hc]
      simp [Ne.symm hc]
  · rw [hread, ← h.dedup]
    have hty : ∀ key, DedupKey.of d.value = .ok key → key.ty = d.cls := fun key hkey =>
      (hclass key.ty).1 (DedupKey.class_of hkey)
    rw [dedupKeyOf] at hkey
    by_cases hidem : reg.isIdempotent d.cls = true
    · rw [if_pos hidem] at hkey
      obtain ⟨own, hown, hsome⟩ := Outcome.bind_eq_ok_iff.1 hkey
      rw [Outcome.expect_eq_ok_iff] at hown
      rw [Outcome.ok.injEq] at hsome
      simp only [Hints.filed, ← hsome, Option.elim_some, lookup_updateAt, hown, Outcome.ok.injEq]
      by_cases heq : key = own
      · subst heq
        rw [if_pos rfl, OrdSet.mem_insert, hty key hown]
        simp [hidem]
      · rw [if_neg heq]
        simp [Ne.symm heq]
    · rw [if_neg hidem, Outcome.ok.injEq] at hkey
      simp only [Hints.filed, ← hkey, Option.elim_none]
      have hnone : ¬ (a = d.addr ∧ reg.isIdempotent key.ty = true ∧ DedupKey.of d.value = .ok key) := by
        rintro ⟨-, hkeyidem, hof⟩
        rw [hty key hof] at hkeyidem
        exact hidem hkeyidem
      simp only [hnone, false_or]
  · rw [LinkState.mem_supFwd, hread, hclass, ← LinkState.mem_supFwd, ← h.supFwd]
    simp only [Hints.filed]
    by_cases hc : d.cls = reg.shippedClass .supersedes
    · rw [if_pos hc, mem_fileClaim]
      simp only [hc, true_and]
      tauto
    · rw [if_neg hc]
      simp [Ne.symm hc]
  · have hdeposit := LinkState.applyLink_eq_ok_iff.2 ⟨hfresh, ⟨d, hd⟩, rfl⟩
    rw [LinkState.homeFrontier_deposit hdeposit home, ← h.homeFrontier, hhome]
    simp only [Hints.filed, lookup_updateAt]
    by_cases hsame : home = d.home
    · rw [if_pos hsame, hsame, if_pos rfl]
    · rw [if_neg hsame, if_neg fun heq => hsame (Option.some.inj heq).symm, Nat.add_zero]

end Hints

/-- A run of the link store is a run of deposits, and leaves their links, their spanfilade, and
hints that answer what is read off the links. -/
theorem LinkStore.Reachable.exists_deposits {reg : TypeRegistry} {st : LinkStore} {m3 : M3State}
    (h : LinkStore.Reachable reg st m3) : ∃ (recs : List (Address × Link)) (s : HintedLinks),
      (recs.foldlM (fun s e => s.applyLink reg (.deposit e.1 e.2)) HintedLinks.genesis :
        Outcome Empty HintedLinks) = .ok s ∧
      s.links = st.state.links ∧ s.hints.spanfilade = st.spanfilade ∧ s.hints.Derived reg st.state := by
  induction h with
  | genesis => exact ⟨[], .genesis, rfl, rfl, rfl, Hints.derived_genesis⟩
  | record _ _ _ ih => exact ih
  | @deposit st st' m3 m3' home addr value r seq _ _ _ hlinks ih =>
    obtain ⟨recs, s, hfold, hsame, hfiled, hderived⟩ := ih
    obtain ⟨state, home', hstate, hdoc, rfl⟩ := LinkStore.applyLink_eq_ok hlinks
    obtain ⟨hfresh, ⟨d, hd⟩, rfl⟩ := LinkState.applyLink_eq_ok_iff.1 hstate
    obtain ⟨haddr, hvalue, -, -, hhome⟩ := FiledLink.parts hd
    rw [hdoc, Option.some.injEq] at hhome
    refine ⟨recs ++ [(addr, value)], ⟨s.links.insert addr value, s.hints.filed reg d⟩, ?_, ?_, ?_,
      hderived.filed hfresh hd⟩
    · rw [Outcome.foldlM_concat_eq_ok_iff]
      refine ⟨s, hfold, HintedLinks.applyLink_eq_ok_iff.2 ⟨?_, d, hd, rfl⟩⟩
      rw [hsame]
      exact hfresh
    · rw [hsame]
    · rw [Hints.filed, hfiled, haddr, hvalue, hhome]
