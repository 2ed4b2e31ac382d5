import Skep.Ops.Invariants
import Skep.Retrieval.Gate

/-!
# Delivery

The read that delivers bytes. A spec-set is gated, its walks are priced, and each spec is
resolved against its document's reading surface: a run whose origin is registered and admitted
is delivered position for position, any other is withheld whole at its own place.

## Main results

- `examined_le_walkPrice` — a walk is within its price
- `retrieveVMasked_eq` — the read is its gate, one admission for each budget, and the items
- `retrieveVMasked_exact` — a delivery tiles the positions its specs name
-/

/-- The clipped runs of some blocks, and how many blocks were examined: those that begin before
the bound, and the one that stops the walk. -/
def walkBlocks (lo hi : ℕ) (hlo : lo < hi) : List Block → List Run × ℕ
  | [] => ([], 0)
  | b :: bs =>
      if hstart : b.vStart < hi then
        let (runs, examined) := walkBlocks lo hi hlo bs
        ((clipBlock lo (some hi) b (by rintro _ ⟨⟩; exact hlo) (by rintro _ ⟨⟩; exact hstart)).toList ++ runs,
          examined + 1)
      else ([], 1)

/-- The runs a span resolves to, and how many runs the walk to them examined. -/
def M5State.resolveWalk (m5 : M5State) (doc : Address) (span : Span) : List Run × ℕ :=
  match asOrdinalVspan span with
  | none => ([], 0)
  | some v =>
      match (m5.arrangementOf doc).list v.subspace with
      | none => ([], 0)
      | some list =>
          if h : max v.ordinal 1 < v.ordinal + v.count then
            walkBlocks (max v.ordinal 1) (v.ordinal + v.count) h (blocksOf list.runs)
          else ([], 0)

theorem walkBlocks_runs {lo hi : ℕ} (hlo : lo < hi) (bs : List Block) :
    (walkBlocks lo hi hlo bs).1 = clippedFrom lo (some hi) (by rintro _ ⟨⟩; exact hlo) bs := by
  induction bs with
  | nil => rfl
  | cons b bs ih =>
    rw [walkBlocks, clippedFrom]
    by_cases hstart : b.vStart < hi
    · rw [dif_pos hstart, dif_pos (by rintro _ ⟨⟩; exact hstart), ← ih]
    · rw [dif_neg hstart, dif_neg fun hall => hstart (hall hi rfl)]

/-- A walk examines no more runs than there are, nor more than fit before its bound. -/
theorem walkBlocks_examined {lo hi : ℕ} (hlo : lo < hi) (runs : List Run) (v : ℕ) :
    (walkBlocks lo hi hlo (blocksFrom v runs)).2 ≤ runs.length ∧
      (walkBlocks lo hi hlo (blocksFrom v runs)).2 ≤ hi - v + 1 := by
  induction runs generalizing v with
  | nil => exact ⟨le_rfl, Nat.zero_le _⟩
  | cons run rest ih =>
    obtain ⟨hlen, hbound⟩ := ih (v + run.width)
    have hpos := run.pos
    rw [blocksFrom, walkBlocks]
    by_cases hstart : v < hi
    · simp only [dif_pos hstart, List.length_cons]
      omega
    · simp only [dif_neg hstart, List.length_cons]
      omega

/-- The walk of a resolution answers the resolution. -/
theorem M5State.resolveWalk_runs (m5 : M5State) (doc : Address) (span : Span) :
    (m5.resolveWalk doc span).1 = m5.iterResolve doc span := by
  rw [M5State.resolveWalk, M5State.iterResolve]
  cases asOrdinalVspan span with
  | none => rfl
  | some shape =>
    simp only
    cases (m5.arrangementOf doc).list shape.subspace with
    | none => rfl
    | some list =>
      simp only [RunList.iterResolveRange]
      split
      · exact walkBlocks_runs _ _
      · rfl

/-- A run is some consecutive part of another. -/
def Run.PartOf (part run : Run) : Prop :=
  ∃ off, off + part.width ≤ run.width ∧ part.iStart = run.addrAt off

theorem partOf_of_clipBlock {lo hi : ℕ} {b : Block} {hlo : ∀ h ∈ some hi, lo < h}
    {hstart : ∀ h ∈ some hi, b.vStart < h} {run : Run}
    (h : clipBlock lo (some hi) b hlo hstart = some run) : run.PartOf b.run := by
  have hreach : b.vReach = b.vStart + b.run.width := rfl
  rw [clipBlock] at h
  split at h
  · cases h
  · by_cases hwhole : max b.vStart lo = b.vStart ∧ min b.vReach hi = b.vReach
    · cases (if_pos hwhole).symm.trans h
      exact ⟨0, (Nat.zero_add _).le, (Address.advance_zero _).symm⟩
    · cases (if_neg hwhole).symm.trans h
      refine ⟨max b.vStart lo - b.vStart, ?_, rfl⟩
      simp only [Run.width_clip, Option.elim_some]
      omega

/-- The runs of a walk are parts of stored runs, one of each. -/
theorem clippedFrom_parts {lo hi : ℕ} (hlo : ∀ h ∈ some hi, lo < h) (runs : List Run) (v : ℕ) :
    ∃ stored, stored.Sublist runs ∧
      List.Forall₂ Run.PartOf (clippedFrom lo (some hi) hlo (blocksFrom v runs)) stored := by
  induction runs generalizing v with
  | nil => exact ⟨[], List.Sublist.slnil, List.Forall₂.nil⟩
  | cons run rest ih =>
    rw [blocksFrom, clippedFrom]
    split
    · next hstart =>
      obtain ⟨stored, hsub, hparts⟩ := ih (v + run.width)
      cases hclip : clipBlock lo (some hi) ⟨v, run⟩ hlo hstart with
      | none => exact ⟨stored, hsub.cons run, hparts⟩
      | some part => exact ⟨run :: stored, hsub.cons_cons run, .cons (partOf_of_clipBlock hclip) hparts⟩
    · exact ⟨[], List.nil_sublist _, List.Forall₂.nil⟩

namespace Retrieval

def maxDeliveryItems : ℕ := 2 ^ 17

/-- A document and a span of its positions. -/
structure Spec where
  doc : Address
  span : Span

/-- What is delivered: a value, a link, some bytes, or a run that is withheld. -/
inductive DeliveryItem where
  | content (v : Val)
  | ref (a : Address)
  | withheld (origin : Address) (width : ℕ)
  | bytes (b : List UInt8)
  deriving DecidableEq

inductive RetrieveError where
  | docNotRegistered (doc : Address)
  | malformedSpec (index : ℕ) (fault : SpanFault)
  | tooManyItems
  deriving DecidableEq

/-- Every spec is of a registered document and a well-formed span, the first fault in order. -/
def gateSpecs (m3 : M3State) : ℕ → List Spec → Outcome RetrieveError Unit
  | _, [] => .ok ()
  | index, spec :: specs => do
      Outcome.refuseIf (m3.isRegisteredDocument spec.doc = false) (.docNotRegistered spec.doc)
      (gateVspan spec.span).mapErr (.malformedSpec index)
      gateSpecs m3 (index + 1) specs

/-- More items admitted, or the request refused. -/
def admitItems (c : Count) (items : ℕ) : Outcome RetrieveError Count :=
  (c.admitUnits items).mapErr fun _ => .tooManyItems

def Piece.item : Piece → DeliveryItem
  | .bytes b => .bytes b
  | .value v => .content v

/-- An origin that is not a registered document, or that the reader may not read. -/
def isMasked (m3 : M3State) (readable : Address → Bool) (origin : Address) : Bool :=
  !m3.isRegisteredDocument origin || !readable origin

/-- A run as a machine word counts it. -/
def countedWidth (run : Run) : ℕ := if run.width < 2 ^ 64 then run.width else 2 ^ 64 - 1

/-- One more run delivered or withheld. -/
def deliverRun (w : World) (readable : Address → Bool) (sub : Option Subspace)
    (acc : Count × List DeliveryItem) (run : Run) : Outcome RetrieveError (Count × List DeliveryItem) := do
  let origin ← Outcome.expectSome (documentOf run.iStart)
  if isMasked w.m3 readable origin = true then do
    let itemsProduced ← admitItems acc.1 1
    return (itemsProduced, acc.2 ++ [.withheld origin run.width])
  else do
    let itemsProduced ← admitItems acc.1 (countedWidth run)
    match sub with
    | some .content => do
        let pieces := w.content.pieces run.iStart.tumbler run.width
        -- The assertion that an arranged content position has a stored value.
        Outcome.require (w.content.covered run.iStart.tumbler run.width = true)
        return (itemsProduced, acc.2 ++ pieces.map Piece.item)
    | some .link => return (itemsProduced, acc.2 ++ run.addrs.map .ref)
    | none => .fault

/-- One more spec's runs. -/
def deliverSpec (w : World) (readable : Address → Bool) (acc : Count × List DeliveryItem) (spec : Spec) :
    Outcome RetrieveError (Count × List DeliveryItem) :=
  let sub := Subspace.ofSpan spec.span
  let surface := readingSurface w.m3 spec.doc
  (w.m5.iterResolve surface spec.span).foldlM (deliverRun w readable sub) acc

/-- One more spec's walk priced. -/
def priceSpec (w : World) (stepsPriced : Count) (spec : Spec) : Outcome RetrieveError Count :=
  admitItems stepsPriced (walkPrice w.m5 (readingSurface w.m3 spec.doc) spec.span)

/-- RETRIEVEV of a spec-set for a reader. -/
def retrieveVMasked (w : World) (specs : List Spec) (readable : Address → Bool) :
    Outcome RetrieveError (List DeliveryItem) := do
  gateSpecs w.m3 0 specs
  let _ ← specs.foldlM (priceSpec w) (Count.against maxWalkSteps)
  let (_, out) ← specs.foldlM (deliverSpec w readable) (Count.against maxDeliveryItems, [])
  return out

namespace Subspace

/-- The stored runs of a subspace of a document. -/
def listOf (sub : Subspace) (m5 : M5State) (doc : Address) : RunList :=
  match sub with
  | content => m5.contentList doc
  | link => m5.linkList doc

theorem length_listOf (sub : Subspace) (m5 : M5State) (doc : Address) :
    (sub.listOf m5 doc).runs.length = sub.runCount m5 doc := by
  cases sub <;> rfl

theorem list_numeral (sub : Subspace) (m5 : M5State) (doc : Address) :
    (m5.arrangementOf doc).list sub.numeral = some (sub.listOf m5 doc) := by
  cases sub
  · exact if_pos rfl
  · exact (if_neg (by decide)).trans (if_pos rfl)

theorem ofNumeral_eq_some_iff {s : ℕ} {sub : Subspace} : ofNumeral s = some sub ↔ s = sub.numeral := by
  constructor
  · intro h
    have hnumeral := List.find?_some h
    exact (beq_iff_eq.1 hnumeral).symm
  · rintro rfl
    cases sub <;> rfl

theorem list_eq_none {s : ℕ} (h : ofNumeral s = none) (arrangement : DocArrangement) :
    arrangement.list s = none := by
  rw [ofNumeral, List.find?_eq_none] at h
  have hcontent := h content (by simp [all])
  have hlink := h link (by simp [all])
  rw [beq_iff_eq] at hcontent hlink
  rw [DocArrangement.list, if_neg fun hs => hcontent hs.symm, if_neg fun hs => hlink hs.symm]

end Subspace

/-- The stored runs a span is resolved against. -/
def storedRuns (m5 : M5State) (doc : Address) (span : Span) : List Run :=
  match Subspace.ofSpan span with
  | some sub => (sub.listOf m5 doc).runs
  | none => []

/-- A walk is within its price. -/
theorem examined_le_walkPrice (m5 : M5State) (doc : Address) (span : Span) :
    (m5.resolveWalk doc span).2 ≤ walkPrice m5 doc span := by
  rw [M5State.resolveWalk, walkPrice]
  cases hshape : asOrdinalVspan span with
  | none => exact Nat.zero_le _
  | some shape =>
    rw [Subspace.ofSpan, subspace_of_shape hshape]
    cases hsub : Subspace.ofNumeral shape.subspace with
    | none => simp [Subspace.list_eq_none hsub]
    | some sub =>
      simp only [Subspace.ofNumeral_eq_some_iff.1 hsub, Subspace.list_numeral]
      split
      · next hlt =>
        obtain ⟨hlen, hbound⟩ := walkBlocks_examined hlt (sub.listOf m5 doc).runs 1
        rw [Subspace.length_listOf] at hlen
        rw [blocksOf]
        split <;> omega
      · exact Nat.zero_le _

theorem iterResolve_parts (m5 : M5State) (doc : Address) (span : Span) :
    ∃ stored, stored.Sublist (storedRuns m5 doc span) ∧
      List.Forall₂ Run.PartOf (m5.iterResolve doc span) stored := by
  rw [M5State.iterResolve, storedRuns]
  cases hshape : asOrdinalVspan span with
  | none => exact ⟨[], List.nil_sublist _, List.Forall₂.nil⟩
  | some shape =>
    rw [Subspace.ofSpan, subspace_of_shape hshape]
    cases hsub : Subspace.ofNumeral shape.subspace with
    | none =>
      simp only [Subspace.list_eq_none hsub]
      exact ⟨[], List.nil_sublist _, List.Forall₂.nil⟩
    | some sub =>
      simp only [Subspace.ofNumeral_eq_some_iff.1 hsub, Subspace.list_numeral, RunList.iterResolveRange]
      split
      · exact clippedFrom_parts _ _ 1
      · exact ⟨[], List.nil_sublist _, List.Forall₂.nil⟩

/-- One position of a delivery. -/
inductive Shown where
  | value (bytes : List UInt8)
  | ref (a : Address)
  | withheld (origin : Address)
  deriving DecidableEq

/-- The positions an item occupies. -/
def DeliveryItem.positions : DeliveryItem → List Shown
  | .content v => [.value v.bytes]
  | .ref a => [.ref a]
  | .withheld origin width => List.replicate width (.withheld origin)
  | .bytes b => b.map fun byte => .value [byte]

/-- What the position that arranges an address has to show. -/
def shown (w : World) (readable : Address → Bool) (sub : Subspace) (a : Address) : Option Shown := do
  let origin ← documentOf a
  if isMasked w.m3 readable origin = true then return .withheld origin
  else match sub with
    | .content => (w.content.bytesAt a.tumbler).map .value
    | .link => return .ref a

/-- Every address of a run stands in the document its first one does. -/
theorem exists_origin (run : Run) : ∃ origin, ∀ k, documentOf (run.addrAt k) = some origin := by
  obtain ⟨d, hd, s, n, hs, hn, hcomps⟩ := Run.admitsStart_iff.1 run.full
  refine ⟨d, fun k => ?_⟩
  have hparts : run.iStart.comps = (d.comps ++ [0, s]) ++ [n] := by simp [hcomps]
  have hk : (run.addrAt k).comps = d.comps ++ 0 :: [s, n + k] :=
    (Run.comps_advance_of_parts hparts k).trans (by simp)
  exact (element_of_parts hd (List.cons_ne_nil _ _) (by simp; omega) hk).2.1

/-- The document a run's addresses stand in. -/
def runOrigin (run : Run) : Address :=
  (documentOf run.iStart).get (by
    obtain ⟨origin, horigin⟩ := exists_origin run
    rw [← Address.advance_zero run.iStart]
    exact Option.isSome_of_eq_some (horigin 0))

theorem documentOf_iStart (run : Run) : documentOf run.iStart = some (runOrigin run) :=
  (Option.some_get _).symm

theorem documentOf_addrAt (run : Run) (k : ℕ) : documentOf (run.addrAt k) = some (runOrigin run) := by
  obtain ⟨origin, horigin⟩ := exists_origin run
  have hstart := horigin 0
  rw [show run.addrAt 0 = run.iStart from Address.advance_zero _, documentOf_iStart] at hstart
  rw [horigin k, hstart]

/-- The items a run is delivered or withheld as. -/
def runItems (w : World) (readable : Address → Bool) (sub : Subspace) (run : Run) : List DeliveryItem :=
  if isMasked w.m3 readable (runOrigin run) = true then [.withheld (runOrigin run) run.width]
  else match sub with
    | .content => (w.content.pieces run.iStart.tumbler run.width).map Piece.item
    | .link => run.addrs.map .ref

/-- What a run is admitted at. -/
def runCharge (w : World) (readable : Address → Bool) (run : Run) : ℕ :=
  if isMasked w.m3 readable (runOrigin run) = true then 1 else countedWidth run

theorem positions_item (piece : Piece) : (Piece.item piece).positions = piece.values.map .value := by
  cases piece with
  | bytes b => simp [Piece.item, DeliveryItem.positions, Piece.values]
  | value v => rfl

/-- The items of a run show what its addresses have to. -/
theorem runItems_positions {w : World} (readable : Address → Bool) {sub : Subspace} {run : Run}
    (hcovered : sub = .content → w.content.covered run.iStart.tumbler run.width = true) :
    ((runItems w readable sub run).flatMap DeliveryItem.positions).map some =
      run.addrs.map (shown w readable sub) := by
  have hshown : run.addrs.map (shown w readable sub) = (List.range run.width).map fun k =>
      if isMasked w.m3 readable (runOrigin run) = true then some (.withheld (runOrigin run))
      else match sub with
        | .content => (w.content.bytesAt (run.iStart.tumbler.shift k)).map .value
        | .link => some (.ref (run.addrAt k)) := by
    rw [Run.addrs, List.map_map]
    refine List.map_congr_left fun k _ => ?_
    simp only [Function.comp_apply, shown, documentOf_addrAt, Option.bind_eq_bind, Option.bind_some]
    cases sub <;> rfl
  rw [hshown]
  unfold runItems
  by_cases hmasked : isMasked w.m3 readable (runOrigin run) = true
  · simp [hmasked, DeliveryItem.positions]
  · simp only [if_neg hmasked]
    cases sub with
    | content =>
      obtain ⟨hlen, hvalues⟩ := ContentStore.pieces_values (hcovered rfl)
      simp only [List.flatMap_map, positions_item, ← List.map_flatMap, List.map_map]
      refine List.ext_getElem (by simp [hlen]) fun i hi _ => ?_
      rw [List.length_map] at hi
      have hvalue := hvalues i (hlen ▸ hi)
      rw [List.getElem?_eq_getElem hi] at hvalue
      simp [hvalue]
    | link => simp [List.flatMap_map, DeliveryItem.positions, Run.addrs, Function.comp_def,
        ← List.map_eq_flatMap]

theorem admitItems_add (c : Count) (m n : ℕ) :
    (admitItems c m >>= fun c' => admitItems c' n) = admitItems c (m + n) := by
  have := c.within
  by_cases hm : m ≤ c.budget - c.admitted
  · by_cases hn : n ≤ c.budget - (c.admitted + m)
    · simp only [admitItems, Count.admitUnits, dif_pos hm, Outcome.mapErr, Outcome.ok_bind, dif_pos hn,
        dif_pos (show m + n ≤ c.budget - c.admitted by omega), Nat.add_assoc]
    · simp only [admitItems, Count.admitUnits, dif_pos hm, Outcome.mapErr, Outcome.ok_bind, dif_neg hn,
        dif_neg (show ¬ m + n ≤ c.budget - c.admitted by omega)]
  · simp only [admitItems, Count.admitUnits, dif_neg hm, Outcome.mapErr, Outcome.err_bind,
      dif_neg (show ¬ m + n ≤ c.budget - c.admitted by omega)]

theorem admitItems_zero (c : Count) : admitItems c 0 = .ok c := by
  simp [admitItems, Count.admitUnits, Outcome.mapErr]

/-- A pass whose steps each admit and deliver admits and delivers their sums. -/
theorem foldlM_admitItems {α β : Type} {f : Count × List β → α → Outcome RetrieveError (Count × List β)}
    {charge : α → ℕ} {items : α → List β} {l : List α}
    (h : ∀ a ∈ l, ∀ acc, f acc a = admitItems acc.1 (charge a) >>= fun c => .ok (c, acc.2 ++ items a))
    (acc : Count × List β) : l.foldlM f acc =
      admitItems acc.1 (l.map charge).sum >>= fun c => .ok (c, acc.2 ++ l.flatMap items) := by
  induction l generalizing acc with
  | nil => simp [admitItems_zero]
  | cons a l ih =>
    rw [List.foldlM_cons, h a List.mem_cons_self, bind_assoc]
    simp only [Outcome.ok_bind, ih fun x hx => h x (List.mem_cons_of_mem _ hx)]
    rw [← bind_assoc, admitItems_add, List.map_cons, List.sum_cons, List.flatMap_cons]
    simp only [List.append_assoc]

theorem foldlM_priceSpec (w : World) (specs : List Spec) (c : Count) : specs.foldlM (priceSpec w) c =
    admitItems c (specs.map fun spec => walkPrice w.m5 (readingSurface w.m3 spec.doc) spec.span).sum := by
  induction specs generalizing c with
  | nil => exact (admitItems_zero c).symm
  | cons spec specs ih =>
    rw [List.foldlM_cons, priceSpec]
    simp only [ih]
    rw [admitItems_add, List.map_cons, List.sum_cons]

/-- The items a spec is delivered as. -/
def specItems (w : World) (readable : Address → Bool) (spec : Spec) : List DeliveryItem :=
  match Subspace.ofSpan spec.span with
  | some sub => (w.m5.iterResolve (readingSurface w.m3 spec.doc) spec.span).flatMap (runItems w readable sub)
  | none => []

/-- What a spec is admitted at. -/
def specCharge (w : World) (readable : Address → Bool) (spec : Spec) : ℕ :=
  ((w.m5.iterResolve (readingSurface w.m3 spec.doc) spec.span).map (runCharge w readable)).sum

theorem iterResolve_eq_nil {m5 : M5State} {doc : Address} {span : Span} (h : Subspace.ofSpan span = none) :
    m5.iterResolve doc span = [] := by
  rw [M5State.iterResolve]
  cases hshape : asOrdinalVspan span with
  | none => rfl
  | some shape =>
    rw [Subspace.ofSpan, subspace_of_shape hshape] at h
    simp only [Subspace.list_eq_none h]

theorem covered_of_content {w : World} (hw : w.Sound) {doc : Address} {span : Span}
    (h : Subspace.ofSpan span = some .content) {run : Run} (hrun : run ∈ w.m5.iterResolve doc span) :
    w.content.covered run.iStart.tumbler run.width = true := by
  cases hshape : asOrdinalVspan span with
  | none =>
    rw [M5State.iterResolve, hshape] at hrun
    exact absurd hrun List.not_mem_nil
  | some shape =>
    refine hw.covered hshape ?_ hrun
    rw [Subspace.ofSpan, subspace_of_shape hshape, Subspace.ofNumeral_eq_some_iff] at h
    exact beq_iff_eq.2 h

theorem deliverRun_eq {w : World} (readable : Address → Bool) {sub : Subspace} {run : Run}
    (hcovered : sub = .content → w.content.covered run.iStart.tumbler run.width = true)
    (acc : Count × List DeliveryItem) : deliverRun w readable (some sub) acc run =
      admitItems acc.1 (runCharge w readable run) >>= fun c => .ok (c, acc.2 ++ runItems w readable sub run) := by
  unfold deliverRun runCharge runItems
  rw [documentOf_iStart]
  by_cases hmasked : isMasked w.m3 readable (runOrigin run) = true
  · simp [Outcome.expectSome, hmasked]
  · cases sub with
    | content => simp [Outcome.expectSome, hmasked, Outcome.require, hcovered rfl]
    | link => simp [Outcome.expectSome, hmasked]

theorem deliverSpec_eq {w : World} (hw : w.Sound) (readable : Address → Bool) (spec : Spec)
    (acc : Count × List DeliveryItem) : deliverSpec w readable acc spec =
      admitItems acc.1 (specCharge w readable spec) >>= fun c => .ok (c, acc.2 ++ specItems w readable spec) := by
  rw [deliverSpec, specCharge, specItems]
  cases hsub : Subspace.ofSpan spec.span with
  | none => simp [iterResolve_eq_nil hsub, admitItems_zero]
  | some sub =>
    have hstep : ∀ run ∈ w.m5.iterResolve (readingSurface w.m3 spec.doc) spec.span, ∀ acc,
        deliverRun w readable (some sub) acc run = admitItems acc.1 (runCharge w readable run) >>= fun c =>
          .ok (c, acc.2 ++ runItems w readable sub run) := by
      intro run hrun
      refine deliverRun_eq readable ?_
      rintro rfl
      exact covered_of_content hw hsub hrun
    exact foldlM_admitItems hstep acc

theorem retrieveVMasked_eq {w : World} (hw : w.Sound) (specs : List Spec) (readable : Address → Bool) :
    retrieveVMasked w specs readable = (do
      gateSpecs w.m3 0 specs
      let _ ← admitItems (.against maxWalkSteps)
        (specs.map fun spec => walkPrice w.m5 (readingSurface w.m3 spec.doc) spec.span).sum
      let _ ← admitItems (.against maxDeliveryItems) (specs.map (specCharge w readable)).sum
      return specs.flatMap (specItems w readable)) := by
  rw [retrieveVMasked, foldlM_priceSpec,
    foldlM_admitItems (fun spec _ acc => deliverSpec_eq hw readable spec acc)]
  simp only [bind_assoc, Outcome.ok_bind, List.nil_append]

theorem gateSpecs_spec (m3 : M3State) (index : ℕ) (specs : List Spec) :
    gateSpecs m3 index specs ≠ .fault ∧ (gateSpecs m3 index specs = .ok () ↔
      ∀ spec ∈ specs, m3.isRegisteredDocument spec.doc = true ∧ gateVspan spec.span = .ok ()) := by
  induction specs generalizing index with
  | nil => simp [gateSpecs]
  | cons spec specs ih =>
    obtain ⟨hfault, hok⟩ := ih (index + 1)
    constructor
    · refine Outcome.bind_ne_fault (by simp) fun _ => Outcome.bind_ne_fault ?_ fun _ => hfault
      simp [gateVspan_ne_fault]
    · simp only [gateSpecs, Outcome.bind_eq_ok_iff, Outcome.refuseIf_eq_ok_iff,
        Outcome.mapErr_eq_ok_iff, List.forall_mem_cons, hok]
      simp [and_assoc, Unique.exists_iff]

theorem admitItems_ne_fault (c : Count) (items : ℕ) : admitItems c items ≠ .fault := by
  simp [admitItems, c.admit_ne_fault]

theorem exists_admitItems_iff {budget items : ℕ} :
    (∃ c, admitItems (.against budget) items = .ok c) ↔ items ≤ budget := by
  simp only [admitItems, Outcome.mapErr_eq_ok_iff, Count.admit_eq_ok_iff, Count.against, Nat.zero_add]
  constructor
  · rintro ⟨c, hbudget, hadmitted⟩
    rw [← hadmitted, ← hbudget]
    exact c.within
  · intro h
    exact ⟨⟨budget, items, h⟩, rfl, rfl⟩

/-- Whether an item is a run withheld. -/
def DeliveryItem.isWithheld : DeliveryItem → Bool
  | .withheld _ _ => true
  | _ => false

/-- What the position of a document has to show. -/
def shownAt (w : World) (readable : Address → Bool) (doc : Address) (p : VPos) : Option Shown := do
  let sub ← Subspace.ofNumeral p.subspace
  let a ← w.m5.point (readingSurface w.m3 doc) p
  shown w readable sub a

/-- The items a run contributes: itself withheld whole, or its positions and nothing withheld. -/
structure Contributes (w : World) (readable : Address → Bool) (run : Run) (items : List DeliveryItem) :
    Prop where
  masked : isMasked w.m3 readable (runOrigin run) = true → items = [.withheld (runOrigin run) run.width]
  unmasked : isMasked w.m3 readable (runOrigin run) = false → ∀ item ∈ items, item.isWithheld = false
  width : (items.flatMap DeliveryItem.positions).length = run.width

/-- The items a spec contributes: run by run, one run for each stored one, and position by position,
those of its span that its document's surface arranges. -/
structure Delivers (w : World) (readable : Address → Bool) (spec : Spec) (items : List DeliveryItem) :
    Prop where
  runs : ∃ runs stored groups, items = groups.flatten ∧
    stored.Sublist (storedRuns w.m5 (readingSurface w.m3 spec.doc) spec.span) ∧
      List.Forall₂ Run.PartOf runs stored ∧ List.Forall₂ (Contributes w readable) runs groups
  positions : ∃ ps : List VPos, ps.Pairwise (fun p q => p.tumbler < q.tumbler) ∧
    (∀ p, p ∈ ps ↔ spec.span.contains p.tumbler = true ∧
      ∃ a, w.m5.point (readingSurface w.m3 spec.doc) p = some a) ∧
        (items.flatMap DeliveryItem.positions).map some = ps.map (shownAt w readable spec.doc)

theorem contributes_runItems {w : World} (readable : Address → Bool) {sub : Subspace} {run : Run}
    (hcovered : sub = .content → w.content.covered run.iStart.tumbler run.width = true) :
    Contributes w readable run (runItems w readable sub run) := by
  refine ⟨fun hmasked => if_pos hmasked, fun hopen item hitem => ?_, ?_⟩
  · unfold runItems at hitem
    rw [hopen] at hitem
    cases sub with
    | content =>
      obtain ⟨piece, -, rfl⟩ := List.mem_map.1 hitem
      cases piece <;> rfl
    | link =>
      obtain ⟨a, -, rfl⟩ := List.mem_map.1 hitem
      rfl
  · have hpositions := congrArg List.length (runItems_positions readable hcovered)
    simpa using hpositions

theorem exists_positions (m5 : M5State) (surface : Address) {span : Span} (hgate : gateVspan span = .ok ()) :
    ∃ ps : List VPos, ps.Pairwise (fun p q => p.tumbler < q.tumbler) ∧
      (∀ p, p ∈ ps ↔ span.contains p.tumbler = true ∧ ∃ a, m5.point surface p = some a) ∧
        ps.map (m5.point surface) = (denRuns (m5.iterResolve surface span)).map some ∧
          ∀ p ∈ ps, Subspace.ofNumeral p.subspace = Subspace.ofSpan span := by
  cases hshape : asOrdinalVspan span with
  | none =>
    refine ⟨[], List.Pairwise.nil, fun p => ?_, ?_, fun p hp => absurd hp List.not_mem_nil⟩
    · rw [contains_position_iff hgate, hshape]
      simp
    · rw [M5State.iterResolve, hshape]
      rfl
  | some shape =>
    have hord := ordinal_pos_of_gated hgate hshape
    have hlen := length_denRuns_iterResolve_le m5 surface hshape hord
    refine ⟨(List.range (denRuns (m5.iterResolve surface span)).length).map fun k =>
      ⟨shape.subspace, shape.ordinal + k⟩, ?_, fun p => ?_, ?_, fun p hp => ?_⟩
    · refine List.pairwise_map.2 (List.pairwise_lt_range.imp fun hlt => ?_)
      exact (Tumbler.snoc_lt_snoc (p := [shape.subspace])).2 (Nat.add_lt_add_left hlt _)
    · rw [← exists_and_left]
      simp only [arranged_iff m5 surface hgate, hshape, Option.some.injEq, exists_eq_left']
      constructor
      · intro hp
        obtain ⟨k, hk, rfl⟩ := List.mem_map.1 hp
        rw [List.mem_range] at hk
        exact ⟨_, k, rfl, List.getElem?_eq_getElem hk⟩
      · rintro ⟨a, k, rfl, hk⟩
        exact List.mem_map.2 ⟨k, List.mem_range.2 (List.getElem?_eq_some_iff.1 hk).1, rfl⟩
    · refine List.ext_getElem (by simp) fun k hk _ => ?_
      have hlt : k < (denRuns (m5.iterResolve surface span)).length := by simpa using hk
      have hpoint := point_iterResolve m5 surface hshape hord (hlt.trans_le hlen)
      rw [List.getElem?_eq_getElem hlt] at hpoint
      simpa using hpoint
    · obtain ⟨k, -, rfl⟩ := List.mem_map.1 hp
      rw [Subspace.ofSpan, subspace_of_shape hshape]

theorem delivers_specItems {w : World} (hw : w.Sound) (readable : Address → Bool) {spec : Spec}
    (hgate : gateVspan spec.span = .ok ()) : Delivers w readable spec (specItems w readable spec) := by
  obtain ⟨stored, hsub, hparts⟩ := iterResolve_parts w.m5 (readingSurface w.m3 spec.doc) spec.span
  obtain ⟨ps, hasc, hmem, hpoints, hsubspace⟩ :=
    exists_positions w.m5 (readingSurface w.m3 spec.doc) hgate
  cases hspan : Subspace.ofSpan spec.span with
  | none =>
    rw [iterResolve_eq_nil hspan] at hparts hpoints
    rw [List.forall₂_nil_left_iff] at hparts
    have hnil : ps = [] := List.map_eq_nil_iff.1 hpoints
    rw [specItems, hspan]
    refine ⟨⟨[], stored, [], rfl, hsub, by rw [hparts]; exact .nil, .nil⟩, ps, hasc, hmem, ?_⟩
    rw [hnil]
    rfl
  | some sub =>
    have hcovered : ∀ run ∈ w.m5.iterResolve (readingSurface w.m3 spec.doc) spec.span,
        sub = .content → w.content.covered run.iStart.tumbler run.width = true := by
      rintro run hrun rfl
      exact covered_of_content hw hspan hrun
    rw [specItems, hspan]
    refine ⟨⟨_, stored, _, List.flatMap_def, hsub, hparts, ?_⟩, ps, hasc, hmem, ?_⟩
    · exact List.forall₂_map_right_iff.2
        (List.forall₂_same.2 fun run hrun => contributes_runItems readable (hcovered run hrun))
    · have hshown : ∀ p ∈ ps, shownAt w readable spec.doc p =
          (w.m5.point (readingSurface w.m3 spec.doc) p).bind (shown w readable sub) := by
        intro p hp
        rw [shownAt, hsubspace p hp, hspan]
        rfl
      have haddrs : ps.map (shownAt w readable spec.doc) =
          (denRuns (w.m5.iterResolve (readingSurface w.m3 spec.doc) spec.span)).map (shown w readable sub) := by
        have hbound := congrArg (List.map fun a => a.bind (shown w readable sub)) hpoints
        simp only [List.map_map, Function.comp_def, Option.bind_some] at hbound
        rw [List.map_congr_left hshown, hbound]
      rw [haddrs, denRuns, List.map_flatMap, List.flatMap_assoc, List.map_flatMap]
      refine List.flatMap_congr fun run hrun => ?_
      rw [← List.map_flatMap]
      exact runItems_positions readable (hcovered run hrun)

/-- **A delivery is exact, and masks by origin alone.** The walk of any resolution answers the
resolution within its price. At every commit of every run, for every spec-set and reader: the read
does not fault; it delivers exactly the spec-sets that the gate admits and the two budgets hold; and
what it delivers is, spec by spec in order, the positions of the span that the surface arranges, each
as its stored value or its link where its origin is registered and readable, and every other run
withheld whole, one item for each stored run. -/
theorem retrieveVMasked_exact (requests : List Request) :
    (∀ m5 doc span, (m5.resolveWalk doc span).1 = m5.iterResolve doc span ∧
      (m5.resolveWalk doc span).2 ≤ walkPrice m5 doc span) ∧
    ∀ c ∈ (Board.run requests).commits, ∀ specs readable,
      retrieveVMasked c.world specs readable ≠ .fault ∧
      ((∃ items, retrieveVMasked c.world specs readable = .ok items) ↔
        (∀ spec ∈ specs, c.world.m3.isRegisteredDocument spec.doc = true ∧ gateVspan spec.span = .ok ()) ∧
        (specs.map fun spec =>
          walkPrice c.world.m5 (readingSurface c.world.m3 spec.doc) spec.span).sum ≤ maxWalkSteps ∧
        (specs.map (specCharge c.world readable)).sum ≤ maxDeliveryItems) ∧
      ∀ items, retrieveVMasked c.world specs readable = .ok items → ∃ groups, items = groups.flatten ∧
        List.Forall₂ (Delivers c.world readable) specs groups := by
  refine ⟨fun m5 doc span => ⟨m5.resolveWalk_runs doc span, examined_le_walkPrice m5 doc span⟩,
    fun c hc specs readable => ?_⟩
  have hw := (Board.run_grown requests).sound c hc
  obtain ⟨hfault, hgate⟩ := gateSpecs_spec c.world.m3 0 specs
  rw [retrieveVMasked_eq hw]
  refine ⟨?_, ?_, fun items hitems => ?_⟩
  · exact Outcome.bind_ne_fault hfault fun _ => Outcome.bind_ne_fault (admitItems_ne_fault _ _) fun _ =>
      Outcome.bind_ne_fault (admitItems_ne_fault _ _) fun _ => by simp
  · simp only [Outcome.bind_eq_ok_iff, Outcome.pure_eq, Outcome.ok.injEq]
    constructor
    · rintro ⟨items, _, hgated, priced, hpriced, charged, hcharged, -⟩
      exact ⟨hgate.1 hgated, exists_admitItems_iff.1 ⟨priced, hpriced⟩,
        exists_admitItems_iff.1 ⟨charged, hcharged⟩⟩
    · rintro ⟨hgated, hpriced, hcharged⟩
      obtain ⟨priced, hpriced⟩ := exists_admitItems_iff.2 hpriced
      obtain ⟨charged, hcharged⟩ := exists_admitItems_iff.2 hcharged
      exact ⟨_, (), hgate.2 hgated, priced, hpriced, charged, hcharged, rfl⟩
  · simp only [Outcome.bind_eq_ok_iff, Outcome.pure_eq, Outcome.ok.injEq] at hitems
    obtain ⟨_, hgated, _, -, _, -, rfl⟩ := hitems
    refine ⟨_, List.flatMap_def, List.forall₂_map_right_iff.2 (List.forall₂_same.2 fun spec hspec => ?_)⟩
    exact delivers_specItems hw readable (hgate.1 hgated spec hspec).2

/-- A run of another document between two of the document's own, read by a reader of the document. -/
example :
    let own : Run := ⟨⟨⟨[1, 1, 0, 1, 0, 2, 0, 1, 1], by simp⟩, .element, by decide⟩, 2, by decide, by decide⟩
    let other : Run := ⟨⟨⟨[1, 1, 0, 1, 0, 1, 0, 1, 1], by simp⟩, .element, by decide⟩, 3, by decide, by decide⟩
    let w : World := ⟨.genesis, ContentStore.empty.applyStretch ⟨own.iStart, [0x61, 0x62, 0x63], by simp⟩,
      { M5State.genesis with arrangements := OrdMap.empty.insert headDocument ⟨.ofRuns [own, other, own], .empty⟩ }⟩
    retrieveVMasked w [⟨headDocument, ⟨⟨[1, 1], by simp⟩, ⟨[0, 7], by simp⟩, ⟨_, rfl⟩⟩⟩] (· == headDocument) =
      .ok [.bytes [0x61, 0x62], .withheld ghostHomeDocument 3, .bytes [0x61, 0x62]] := by
  decide +kernel

end Retrieval
