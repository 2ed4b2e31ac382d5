import Skep.Ops.MintedIdentity
import Skep.Ops.Edit

/-!
# Publish shots, committed

A shot mints the next version of a published chain. Its runs are judged against
the base and the drafts it names; the addresses that come from a draft are
minted again under the chain's trunk, once each; what the base holds past the
extent the client saw is carried over.
-/

inductive PublishError where
  | docNotRegistered
  | notOwner (a : Address)
  | sourceNotRegistered
  | badRun
  | baseNotInChain
  | baseSuperseded
  | baseExtentTooLarge
  | claimRefused (a : Address)
  | privateSourceVersionless
  | withheld (a : Address)
  | danglingSource
  | tooManyRuns
  | tooManyValues
  | mint (e : MintError)
  | content (e : ContentError)
  deriving DecidableEq

def maxReinsertedValues : ℕ := 131072

/-- A run of a shot and the document its content is from. -/
structure SettledRun where
  run : Run
  originDoc : Address

/-- What an admitted shot mints under, and the runs it places. -/
structure Admission where
  anchor : Address
  supplied : List SettledRun

namespace Vstream

/-- The drafts a shot names are registered and the caller's own. -/
def settleDrafts (m3 : M3State) (caller : Caller) : List Address → Outcome PublishError Unit
  | [] => return ()
  | draft :: drafts => do
      Outcome.refuseIf (m3.isRegisteredDocument draft = false) .sourceNotRegistered
      Outcome.refuseIf (caller.isOwner m3 draft = false) (.notOwner draft)
      settleDrafts m3 caller drafts

/-- A run is from the document the client says it is from. -/
def settleRun (m3 : M3State) (stated : ShotRun) : Outcome PublishError SettledRun := do
  let originDoc ← Outcome.okOr (runOriginDocument stated.run) .badRun
  Outcome.refuseIf (originDoc ≠ trunkOf stated.origin) .badRun
  Outcome.refuseIf (m3.isRegisteredDocument originDoc = false) .sourceNotRegistered
  return ⟨stated.run, originDoc⟩

/-- The base a shot states is registered. -/
def settleBase (m3 : M3State) : Option Base → Outcome PublishError Unit
  | some base => Outcome.refuseIf (m3.isRegisteredDocument base.member = false) .sourceNotRegistered
  | none => return ()

def settleRuns (m3 : M3State) (caller : Caller) (shot : Shot) :
    Outcome PublishError (List SettledRun) := do
  settleBase m3 shot.base
  settleDrafts m3 caller shot.namedDrafts
  shot.runs.mapM (settleRun m3)

/-- Whether the base already holds the run. -/
def carried (m5 : M5State) (base : Option Base) (run : Run) : Bool :=
  base.any fun base => (RunUnion.of (m5.contentList base.member).runs).covers run

/-- Each source is the chain's own, held by the base, or readable by the caller. -/
def sourceGate (w : World) (trunk : Address) (base : Option Base) (readable : World → Address → Bool) :
    List SettledRun → List Address → Outcome PublishError Unit
  | [], _ => return ()
  | settled :: supplied, admitted =>
      if settled.originDoc = trunk ∨ settled.originDoc ∈ admitted then
        sourceGate w trunk base readable supplied admitted
      else if carried w.m5 base settled.run = true then
        sourceGate w trunk base readable supplied admitted
      else do
        Outcome.refuseIf (readable w settled.originDoc = false) (.withheld settled.originDoc)
        sourceGate w trunk base readable supplied (settled.originDoc :: admitted)

/-- The document a shot's version is minted under. -/
def shotAnchor (m3 : M3State) (m5 : M5State) (doc : Address) :
    Option Base → Outcome PublishError Address
  | none => do
      Outcome.refuseIf ((trunkHead m3 doc).isSome = true) .baseSuperseded
      return trunkOf doc
  | some base => do
      let trunk := trunkOf doc
      Outcome.refuseIf (base.member ≠ trunk ∧ trunkOf base.member ≠ trunk) .baseNotInChain
      Outcome.refuseIf (m5.contentCount base.member < base.extent) .baseExtentTooLarge
      if base.member = trunk then return (birthVersion m3 doc).getD trunk
      else if trunkHead m3 doc = some base.member then return trunk
      else return base.member

def admitShot (w : World) (caller : Caller) (doc : Address) (shot : Shot)
    (readable : World → Address → Bool) : Outcome PublishError Admission := do
  gateWrite w.m3 caller doc .docNotRegistered .notOwner
  let supplied ← settleRuns w.m3 caller shot
  Outcome.refuseIf (publishedTarget w.m3 doc = false) .privateSourceVersionless
  let anchor ← shotAnchor w.m3 w.m5 doc shot.base
  sourceGate w (trunkOf doc) shot.base readable supplied []
  return ⟨anchor, supplied⟩

-- The second mint

/-- A stretch of bytes or one longer value. -/
inductive Part where
  | run (bytes : List UInt8)
  | atom (v : Val)

/-- The bytes gathered so far, as a part. -/
def flushPart (pending : List UInt8) : List Part := if pending = [] then [] else [.run pending]

/-- Gather the pieces of a walk into stretches and longer values. -/
def gatherParts : List Piece → List UInt8 → List Part
  | [], pending => flushPart pending
  | .bytes b :: pieces, pending => gatherParts pieces (pending ++ b)
  | .value v :: pieces, pending =>
      if v.bytes.length = 1 then gatherParts pieces (pending ++ v.bytes)
      else flushPart pending ++ .atom v :: gatherParts pieces []

def allocatePart (trunk : Address) (acc : List Run × Staging World) :
    Part → Outcome PublishError (List Run × Staging World)
  | .run bytes => allocateStretchForPlacement .mint .content acc.2 trunk bytes acc.1
  | .atom value => allocateForPlacement .mint .content acc.2 trunk value acc.1

/-- Mint the values of a piece again, under the trunk. -/
def reinsert (stg : Staging World) (trunk : Address) (piece : Run) :
    Outcome PublishError (List Run × Staging World) := do
  let content := stg.working.content
  let parts := gatherParts (content.pieces piece.iStart.tumbler piece.width) []
  -- every address of the piece was found stored
  Outcome.require (content.covered piece.iStart.tumbler piece.width = true)
  parts.foldlM (allocatePart trunk) ([], stg)

/-- The placement under way. -/
structure Placing where
  stg : Staging World
  placement : List Run
  minted : MintedIdentity
  pairing : Pairing

def placePortion (trunk home : Address) (index : ℕ) (p : Placing) :
    Portion → Outcome PublishError Placing
  | .referenced fromRun toRun =>
      return { p with
        placement := extendOrPushRun p.placement toRun
        pairing := p.pairing ++ [⟨fromRun, toRun, home, index, false⟩] }
  | .unminted piece => do
      let (fresh, stg) ← reinsert p.stg trunk piece
      let (minted, pairing) ← p.minted.note piece fresh home index p.pairing
      return ⟨stg, fresh.foldl extendOrPushRun p.placement, minted, pairing⟩

/-- Place one run of the shot, minted again where it is a draft's. -/
def placeRun (shot : Shot) (trunk : Address) (index : ℕ) (p : Placing) (settled : SettledRun) :
    Outcome PublishError Placing :=
  if shot.isDraftNative settled.originDoc = true then do
    let portions ← p.minted.portionsOf settled.run
    portions.foldlM (placePortion trunk settled.originDoc index) p
  else return { p with placement := extendOrPushRun p.placement settled.run }

/-- Place the runs of the shot in order, under the cap on them. -/
def placeSupplied (shot : Shot) (trunk : Address) :
    List SettledRun → ℕ → Placing → Outcome PublishError Placing
  | [], _, p => return p
  | settled :: supplied, index, p => do
      let p ← placeRun shot trunk index p settled
      Outcome.refuseIf (maxPlacedRuns < p.placement.length) .tooManyRuns
      placeSupplied shot trunk supplied (index + 1) p

/-- What the base holds past the extent the client saw. -/
def carryTail (m5 : M5State) (base : Option Base) (placement : List Run) :
    Outcome PublishError (List Run) :=
  match base with
  | some base => (m5.contentRunsPast base.member base.extent).foldlM
      (fun placement run => placeCapped placement run .tooManyRuns) placement
  | none => return placement

/-- Every run of the union is stored at every position. -/
def requireStored (content : ContentStore) : List Run → Outcome PublishError Unit
  | [] => return ()
  | run :: runs => do
      Outcome.refuseIf (content.covered run.iStart.tumbler run.width = false) .danglingSource
      requireStored content runs

def stagePublish (stg : Staging World) (caller : Caller) (doc : Address) (shot : Shot)
    (readable : World → Address → Bool) :
    Outcome PublishError ((Address × Pairing) × Staging World) := do
  let trunk := trunkOf doc
  let admission ← admitShot stg.working caller doc shot readable
  let supplied := admission.supplied
  Outcome.refuseIf (maxReinsertedValues < shot.reinsertedValues) .tooManyValues
  requireStored stg.working.content (RunUnion.of (supplied.map SettledRun.run)).runs
  let placed := (supplied.map fun settled => settled.run.width).sum
  let p ← placeSupplied shot trunk supplied 0 ⟨stg, [], .empty, []⟩
  let placement ← carryTail p.stg.working.m5 shot.base p.placement
  let (member, m3rec) ← (p.stg.working.m3.mintVersion admission.anchor true).mapErr .mint
  let stg ← p.stg.push (Record.namespaceRec m3rec)
  let stg ← stg.push (Record.arrangement
    (.shotPlace member placement ⟨placed, shot.base.map Base.extent⟩ shot.draft))
  return ((member, p.pairing), stg)

-- What the second mint of a piece issues

/-- The bytes at each position of a part. -/
def Part.values : Part → List (List UInt8)
  | .run bytes => bytes.map fun b => [b]
  | .atom v => [v.bytes]

theorem flushPart_values (pending : List UInt8) :
    (flushPart pending).flatMap Part.values = pending.map fun b => [b] := by
  rw [flushPart]
  split
  · next h => simp [h]
  · simp [Part.values]

/-- Gathered parts hold the values of their pieces, position by position. -/
theorem gatherParts_values (pieces : List Piece) (pending : List UInt8) :
    (gatherParts pieces pending).flatMap Part.values =
      (pending.map fun b => [b]) ++ pieces.flatMap Piece.values := by
  induction pieces generalizing pending with
  | nil => rw [gatherParts, flushPart_values, List.flatMap_nil, List.append_nil]
  | cons piece pieces ih =>
    cases piece with
    | bytes b => rw [gatherParts, ih, List.map_append, List.append_assoc]; rfl
    | value v =>
      rw [gatherParts]
      split
      · next hone =>
        obtain ⟨b, hb⟩ := List.length_eq_one_iff.1 hone
        rw [ih, hb]
        simp [Piece.values, hb]
      · rw [List.flatMap_append, flushPart_values, List.flatMap_cons, ih]
        rfl

theorem allocateParts_minted {trunk : Address} {parts : List Part} {stg stg' : Staging World}
    {runs runs' : List Run} (hm : Merged runs)
    (h : parts.foldlM (allocatePart trunk) (runs, stg) = .ok (runs', stg')) :
    ∃ addrs, MintedAll stg stg' trunk (parts.flatMap Part.values) addrs ∧ Merged runs' ∧
      denRuns runs' = denRuns runs ++ addrs := by
  induction parts generalizing runs stg with
  | nil =>
    cases h
    exact ⟨[], .nil _ _, hm, by simp⟩
  | cons part parts ih =>
    rw [List.foldlM_cons, Outcome.bind_eq_ok_iff] at h
    obtain ⟨⟨runs₁, stg₁⟩, hpart, hrest⟩ := h
    have hstep : ∃ addrs, MintedAll stg stg₁ trunk part.values addrs ∧ Merged runs₁ ∧
        denRuns runs₁ = denRuns runs ++ addrs := by
      cases part with
      | run bytes => exact allocateStretchForPlacement_minted hm hpart
      | atom v => exact allocateForPlacement_minted hm hpart
    obtain ⟨addrs, hminted, hm₁, hden⟩ := hstep
    obtain ⟨addrs', hminted', hm', hden'⟩ := ih hm₁ hrest
    exact ⟨addrs ++ addrs', hminted.trans hminted', hm', by rw [hden', hden, List.append_assoc]⟩

/-- The value at an address. -/
def valueOf (content : ContentStore) (x : Address) : List UInt8 :=
  (content.bytesAt x.tumbler).getD []

/-- A piece minted again: the next addresses of the trunk, each holding what its
source holds. -/
theorem reinsert_spec {stg stg' : Staging World} {trunk : Address} {piece : Run} {fresh : List Run}
    (h : reinsert stg trunk piece = .ok (fresh, stg')) :
    MintedAll stg stg' trunk (piece.addrs.map (valueOf stg.working.content)) (denRuns fresh) := by
  simp only [reinsert, Outcome.bind_eq_ok_iff, Outcome.require_eq_ok_iff, exists_const] at h
  obtain ⟨hcovered, hparts⟩ := h
  obtain ⟨addrs, hminted, -, hden⟩ := allocateParts_minted List.isChain_nil hparts
  obtain ⟨hlen, hvalues⟩ := ContentStore.pieces_values hcovered
  rw [denRuns_nil, List.nil_append] at hden
  rw [gatherParts_values, List.map_nil, List.nil_append] at hminted
  have heq : (stg.working.content.pieces piece.iStart.tumbler piece.width).flatMap Piece.values =
      piece.addrs.map (valueOf stg.working.content) := by
    refine List.ext_getElem? fun i => ?_
    by_cases hi : i < piece.width
    · rw [← hvalues i hi, List.getElem?_map, Run.getElem?_addrs hi, Option.map_some, valueOf]
      have hsome : ∃ b, stg.working.content.bytesAt (piece.iStart.tumbler.shift i) = some b :=
        ContentStore.covered_iff.1 hcovered i hi
      obtain ⟨b, hb⟩ := hsome
      rw [hb, Run.tumbler_addrAt, Run.tumblerAt, hb, Option.getD_some]
    · rw [List.getElem?_eq_none (by omega),
        List.getElem?_eq_none (by rw [List.length_map, Run.length_addrs]; omega)]
  rwa [heq, ← hden] at hminted

end Vstream

-- First occurrences

section FirstOccurrences

variable {α : Type*} [DecidableEq α]

theorem eraseDups_of_nodup {l : List α} (h : l.Nodup) : l.eraseDups = l := by
  induction l with
  | nil => rfl
  | cons a l ih =>
    obtain ⟨ha, hl⟩ := List.nodup_cons.1 h
    rw [List.eraseDups_cons, List.filter_eq_self.2, ih hl]
    intro b hb
    simpa using fun heq : b = a => ha (heq ▸ hb)

theorem nodup_eraseDups (l : List α) : l.eraseDups.Nodup := by
  induction hn : l.length using Nat.strong_induction_on generalizing l with
  | _ n ih =>
    cases l with
    | nil => simp
    | cons a l =>
      have hlt : (l.filter fun b => !b == a).length < n :=
        lt_of_le_of_lt (List.length_filter_le _ _) (hn ▸ Nat.lt_succ_self _)
      rw [List.eraseDups_cons, List.nodup_cons]
      refine ⟨?_, ih _ hlt _ rfl⟩
      simp [List.mem_eraseDups]

theorem eraseDups_append_of_nodup {l xs : List α} (hl : l.Nodup) (hxs : xs.Nodup) :
    (l ++ xs).eraseDups = l ++ xs.filter fun x => decide (x ∉ l) := by
  rw [List.eraseDups_append, eraseDups_of_nodup hl]
  congr 1
  have heq : xs.removeAll l = xs.filter fun x => decide (x ∉ l) := by
    rw [List.removeAll]
    refine List.filter_congr fun x _ => ?_
    simp
  rw [heq, eraseDups_of_nodup (hxs.filter _)]

theorem eraseDups_eraseDups_append (xs ys : List α) :
    (xs.eraseDups ++ ys).eraseDups = (xs ++ ys).eraseDups := by
  rw [List.eraseDups_append, List.eraseDups_append, eraseDups_of_nodup (nodup_eraseDups xs)]
  congr 2
  rw [List.removeAll, List.removeAll]
  refine List.filter_congr fun y _ => ?_
  rw [Bool.not_eq_eq_eq_not, Bool.not_not, Bool.eq_iff_iff, List.elem_iff, List.elem_iff,
    List.mem_eraseDups]

end FirstOccurrences

/-- The fresh address of an address minted again. -/
def remint (olds fresh : List Address) (x : Address) : Address := (fresh[olds.idxOf x]?).getD x

theorem remint_of_mem_zip {olds fresh : List Address} (h : olds.Nodup) {x y : Address}
    (hxy : (x, y) ∈ olds.zip fresh) : remint olds fresh x = y := by
  obtain ⟨k, hk⟩ := List.mem_iff_getElem?.1 hxy
  rw [List.getElem?_zip_eq_some] at hk
  obtain ⟨hx, hy⟩ := hk
  obtain ⟨hlt, rfl⟩ := List.getElem?_eq_some_iff.1 hx
  rw [remint, h.idxOf_getElem k hlt, hy, Option.getD_some]

namespace Vstream

-- The placement of the runs

/-- The addresses minted again so far, and the fresh ones they were minted as. -/
structure Progress (stg : Staging World) (trunk : Address) (p : Placing)
    (olds fresh : List Address) : Prop where
  issued : MintedAll stg p.stg trunk (olds.map (valueOf stg.working.content)) fresh
  nodup : olds.Nodup
  apart : p.minted.Apart
  mints : ∀ x y, p.minted.Mints x y ↔ (x, y) ∈ olds.zip fresh
  merged : Merged p.placement

theorem Progress.start (stg : Staging World) (trunk : Address) :
    Progress stg trunk ⟨stg, [], .empty, []⟩ [] [] :=
  ⟨.nil stg trunk, List.nodup_nil, MintedIdentity.apart_empty,
    fun x y => ⟨fun h => absurd h MintedIdentity.not_mints_empty, by simp⟩, List.isChain_nil⟩

theorem Progress.length_eq {stg : Staging World} {trunk : Address} {p : Placing}
    {olds fresh : List Address} (h : Progress stg trunk p olds fresh) :
    olds.length = fresh.length := by
  rw [h.issued.length_eq, List.length_map]

theorem Progress.mem_iff {stg : Staging World} {trunk : Address} {p : Placing}
    {olds fresh : List Address} (h : Progress stg trunk p olds fresh) {x : Address} :
    x ∈ olds ↔ ∃ y, p.minted.Mints x y := by
  simp only [h.mints]
  constructor
  · intro hx
    obtain ⟨k, hk⟩ := List.mem_iff_getElem?.1 hx
    have hlt : k < fresh.length := h.length_eq ▸ (List.getElem?_eq_some_iff.1 hk).1
    refine ⟨fresh[k], List.mem_iff_getElem?.2 ⟨k, ?_⟩⟩
    exact List.getElem?_zip_eq_some.2 ⟨hk, List.getElem?_eq_getElem hlt⟩
  · rintro ⟨y, hy⟩
    exact (List.of_mem_zip hy).1

/-- What a step of the placement does: it places `ys` for `xs`, and pairs them. -/
structure Placed (home : Address) (index : ℕ) (seen : Address → Prop) (p p' : Placing)
    (olds fresh xs ys : List Address) : Prop where
  placement : denRuns p'.placement = denRuns p.placement ++ ys
  image : List.Forall₂ (fun x y => (x, y) ∈ olds.zip fresh) xs ys
  pairing : ∃ group, p'.pairing = p.pairing ++ group ∧ Paired home index seen group xs ys

theorem forall₂_zip_append {olds fresh olds' fresh' xs ys : List Address}
    (hlen : olds.length = fresh.length)
    (h : List.Forall₂ (fun x y => (x, y) ∈ olds.zip fresh) xs ys) :
    List.Forall₂ (fun x y => (x, y) ∈ (olds ++ olds').zip (fresh ++ fresh')) xs ys := by
  refine h.imp fun x y hxy => ?_
  rw [List.zip_append hlen]
  exact List.mem_append_left _ hxy

theorem Placed.trans {home : Address} {index : ℕ} {seen : Address → Prop} {p p' p'' : Placing}
    {olds fresh olds' fresh' xs ys xs' ys' : List Address} (hlen : olds.length = fresh.length)
    (h : Placed home index seen p p' olds fresh xs ys)
    (h' : Placed home index seen p' p'' (olds ++ olds') (fresh ++ fresh') xs' ys') :
    Placed home index seen p p'' (olds ++ olds') (fresh ++ fresh') (xs ++ xs') (ys ++ ys') := by
  obtain ⟨group, hgroup, hpaired⟩ := h.pairing
  obtain ⟨group', hgroup', hpaired'⟩ := h'.pairing
  refine ⟨?_, ?_, group ++ group', ?_, hpaired.append hpaired'⟩
  · rw [h'.placement, h.placement, List.append_assoc]
  · exact List.rel_append (forall₂_zip_append hlen h.image) h'.image
  · rw [hgroup', hgroup, List.append_assoc]

section Portions

variable {stg : Staging World} {trunk home : Address} {index : ℕ} {seen : Address → Prop}
  {p p' : Placing} {olds fresh : List Address}

/-- A reference places the fresh addresses its piece was minted as. -/
theorem placeReferenced_spec {fromRun toRun : Run} (hp : Progress stg trunk p olds fresh)
    (hexact : (Portion.referenced fromRun toRun).Exact p.minted)
    (hseen : ∀ x ∈ fromRun.addrs, seen x ↔ x ∈ olds)
    (h : placePortion trunk home index p (.referenced fromRun toRun) = .ok p') :
    Progress stg trunk p' olds fresh ∧
      Placed home index seen p p' olds fresh fromRun.addrs toRun.addrs ∧
      ∀ x ∈ fromRun.addrs, x ∈ olds := by
  obtain ⟨hwidth, hmints⟩ := hexact
  cases h
  have hold : ∀ x ∈ fromRun.addrs, x ∈ olds := by
    intro x hx
    obtain ⟨k, hk, rfl⟩ := Run.mem_addrs_iff.1 hx
    exact hp.mem_iff.2 ⟨_, hmints k hk⟩
  obtain ⟨hmerged, hden⟩ := extendOrPushRun_spec toRun hp.merged
  refine ⟨⟨hp.issued, hp.nodup, hp.apart, hp.mints, hmerged⟩, ⟨hden, ?_, _, rfl, ?_⟩, hold⟩
  · rw [Run.addrs, Run.addrs, hwidth, List.forall₂_map_left_iff, List.forall₂_map_right_iff,
      List.forall₂_same]
    intro k hk
    exact (hp.mints _ _).1 (hmints k (List.mem_range.1 hk))
  · exact .single hwidth.symm fun x hx => by simp [hseen x hx, hold x hx]

/-- A piece not minted before is minted now, its addresses after those before. -/
theorem placeUnminted_spec {piece : Run} (hp : Progress stg trunk p olds fresh)
    (hexact : (Portion.unminted piece).Exact p.minted)
    (hstored : ∀ x ∈ piece.addrs, ∃ b, stg.working.content.bytesAt x.tumbler = some b)
    (hseen : ∀ x ∈ piece.addrs, seen x ↔ x ∈ olds)
    (h : placePortion trunk home index p (.unminted piece) = .ok p') :
    ∃ fresh', Progress stg trunk p' (olds ++ piece.addrs) (fresh ++ fresh') ∧
      Placed home index seen p p' (olds ++ piece.addrs) (fresh ++ fresh') piece.addrs fresh' ∧
      ∀ x ∈ piece.addrs, x ∉ olds := by
  simp only [placePortion, Outcome.bind_eq_ok_iff, Outcome.pure_eq, Outcome.ok.injEq,
    Prod.exists] at h
  obtain ⟨runs, stg', hreinsert, minted, pairing, hnote, rfl⟩ := h
  have hissued := reinsert_spec hreinsert
  have hnew : ∀ x ∈ piece.addrs, x ∉ olds := by
    intro x hx hold
    obtain ⟨y, hy⟩ := hp.mem_iff.1 hold
    exact hexact x hx y hy
  have hvalues : piece.addrs.map (valueOf p.stg.working.content) =
      piece.addrs.map (valueOf stg.working.content) := by
    refine List.map_congr_left fun x hx => ?_
    obtain ⟨b, hb⟩ := hstored x hx
    rw [valueOf, valueOf, hb, hp.issued.kept _ _ hb]
  rw [hvalues] at hissued
  have hwidth : (denRuns runs).length = piece.width := by
    rw [hissued.length_eq, List.length_map, Run.length_addrs]
  obtain ⟨hapart, hmints, group, rfl, hpaired⟩ := MintedIdentity.note_spec hp.apart hwidth hexact
    (fun x hx hs => hnew x hx ((hseen x hx).1 hs)) hnote
  obtain ⟨hmerged, hden⟩ := foldl_extendOrPushRun_spec runs hp.merged
  refine ⟨denRuns runs, ⟨?_, ?_, hapart, fun x y => ?_, hmerged⟩, ⟨hden, ?_, _, rfl, hpaired⟩, hnew⟩
  · rw [List.map_append]
    exact hp.issued.trans hissued
  · exact List.nodup_append'.2 ⟨hp.nodup, piece.nodup_addrs, fun x hold hx => hnew x hx hold⟩
  · rw [hmints, hp.mints, List.zip_append hp.length_eq, List.mem_append]
  · refine List.forall₂_iff_zip.2 ⟨by rw [Run.length_addrs, hwidth], fun hxy => ?_⟩
    rw [List.zip_append hp.length_eq]
    exact List.mem_append_right _ hxy

/-- The addresses of a portion not minted before are minted, in order. -/
theorem placePortion_spec {portion : Portion} (hp : Progress stg trunk p olds fresh)
    (hexact : portion.Exact p.minted)
    (hstored : ∀ x ∈ portion.addrs, ∃ b, stg.working.content.bytesAt x.tumbler = some b)
    (hseen : ∀ x ∈ portion.addrs, seen x ↔ x ∈ olds)
    (h : placePortion trunk home index p portion = .ok p') :
    ∃ fresh' ys,
      Progress stg trunk p' (olds ++ portion.addrs.filter fun x => decide (x ∉ olds))
        (fresh ++ fresh') ∧
      Placed home index seen p p' (olds ++ portion.addrs.filter fun x => decide (x ∉ olds))
        (fresh ++ fresh') portion.addrs ys := by
  cases portion with
  | referenced fromRun toRun =>
    obtain ⟨hp', hplaced, hold⟩ := placeReferenced_spec hp hexact hseen h
    have hnone : (Portion.referenced fromRun toRun).addrs.filter (fun x => decide (x ∉ olds)) = [] :=
      List.filter_eq_nil_iff.2 fun x hx => by simpa using hold x hx
    rw [hnone, List.append_nil]
    refine ⟨[], toRun.addrs, ?_⟩
    rw [List.append_nil]
    exact ⟨hp', hplaced⟩
  | unminted piece =>
    obtain ⟨fresh', hp', hplaced, hnew⟩ := placeUnminted_spec hp hexact hstored hseen h
    have hall : (Portion.unminted piece).addrs.filter (fun x => decide (x ∉ olds)) = piece.addrs :=
      List.filter_eq_self.2 fun x hx => by simpa using hnew x hx
    rw [hall]
    exact ⟨fresh', fresh', hp', hplaced⟩

/-- A portion stays exact where none of its own addresses is minted. -/
theorem exact_of_progress {p₁ : Placing} {portion : Portion} {news fresh' : List Address}
    (hp : Progress stg trunk p olds fresh)
    (hp₁ : Progress stg trunk p₁ (olds ++ news) (fresh ++ fresh'))
    (hnews : ∀ x ∈ portion.addrs, x ∉ news) (h : portion.Exact p.minted) :
    portion.Exact p₁.minted := by
  cases portion with
  | referenced fromRun toRun =>
    refine ⟨h.1, fun k hk => ?_⟩
    rw [hp₁.mints, List.zip_append hp.length_eq]
    exact List.mem_append_left _ ((hp.mints _ _).1 (h.2 k hk))
  | unminted piece =>
    intro x hx y hy
    rcases List.mem_append.1 (hp₁.mem_iff.2 ⟨y, hy⟩) with hold | hnew
    · obtain ⟨z, hz⟩ := hp.mem_iff.1 hold
      exact h x hx z hz
    · exact hnews x hx hnew

/-- The portions of a run are placed one after another. -/
theorem placePortions_spec {portions : List Portion} (hp : Progress stg trunk p olds fresh)
    (hexact : ∀ portion ∈ portions, portion.Exact p.minted)
    (hnodup : (portions.flatMap Portion.addrs).Nodup)
    (hstored : ∀ x ∈ portions.flatMap Portion.addrs,
      ∃ b, stg.working.content.bytesAt x.tumbler = some b)
    (hseen : ∀ x ∈ portions.flatMap Portion.addrs, seen x ↔ x ∈ olds)
    (h : portions.foldlM (placePortion trunk home index) p = .ok p') :
    ∃ fresh' ys,
      Progress stg trunk p'
        (olds ++ (portions.flatMap Portion.addrs).filter fun x => decide (x ∉ olds))
        (fresh ++ fresh') ∧
      Placed home index seen p p'
        (olds ++ (portions.flatMap Portion.addrs).filter fun x => decide (x ∉ olds))
        (fresh ++ fresh') (portions.flatMap Portion.addrs) ys := by
  induction portions generalizing p olds fresh with
  | nil =>
    cases h
    refine ⟨[], [], by simpa using hp, ⟨by simp, .nil, [], by simp, .nil⟩⟩
  | cons portion portions ih =>
    rw [List.foldlM_cons, Outcome.bind_eq_ok_iff] at h
    obtain ⟨p₁, hstep, hrest⟩ := h
    simp only [List.flatMap_cons, List.mem_append] at hstored hseen
    rw [List.flatMap_cons, List.nodup_append'] at hnodup
    obtain ⟨-, hnodupRest, hdisjoint⟩ := hnodup
    obtain ⟨fresh₁, ys₁, hp₁, hplaced₁⟩ := placePortion_spec hp (hexact _ List.mem_cons_self)
      (fun x hx => hstored x (.inl hx)) (fun x hx => hseen x (.inl hx)) hstep
    -- the later portions share no address with this one
    have hapart : ∀ x ∈ portions.flatMap Portion.addrs,
        x ∉ portion.addrs.filter fun x => decide (x ∉ olds) :=
      fun x hx hmem => hdisjoint (List.mem_of_mem_filter hmem) hx
    have hexact₁ : ∀ later ∈ portions, later.Exact p₁.minted := fun later hlater =>
      exact_of_progress hp hp₁ (fun x hx => hapart x (List.mem_flatMap.2 ⟨later, hlater, hx⟩))
        (hexact later (List.mem_cons_of_mem _ hlater))
    obtain ⟨fresh₂, ys₂, hp₂, hplaced₂⟩ := ih hp₁ hexact₁ hnodupRest
      (fun x hx => hstored x (.inr hx))
      (fun x hx => by rw [hseen x (.inr hx), List.mem_append, or_iff_left (hapart x hx)]) hrest
    have hnews : (portions.flatMap Portion.addrs).filter (fun x => decide
        (x ∉ olds ++ portion.addrs.filter fun x => decide (x ∉ olds))) =
          (portions.flatMap Portion.addrs).filter fun x => decide (x ∉ olds) :=
      List.filter_congr fun x hx => by
        rw [decide_eq_decide, List.mem_append, or_iff_left (hapart x hx)]
    have hplaced := hplaced₁.trans hp₁.length_eq hplaced₂
    rw [hnews, List.append_assoc, List.append_assoc, ← List.filter_append] at hp₂ hplaced
    exact ⟨fresh₁ ++ fresh₂, ys₁ ++ ys₂, hp₂, hplaced⟩

end Portions

/-- The addresses of a run that are minted again. -/
def nativeAddrs (shot : Shot) (settled : SettledRun) : List Address :=
  if shot.isDraftNative settled.originDoc = true then settled.run.addrs else []

/-- What a run is placed as: its addresses minted again, or its own. -/
def placedAddrs (shot : Shot) (f : Address → Address) (settled : SettledRun) : List Address :=
  if shot.isDraftNative settled.originDoc = true then settled.run.addrs.map f else settled.run.addrs

/-- The part of the pairing that is one run's. -/
def PairedRun (shot : Shot) (f : Address → Address) (index : ℕ) (seen : Address → Prop)
    (settled : SettledRun) (group : Pairing) : Prop :=
  if shot.isDraftNative settled.originDoc = true then
    Paired settled.originDoc index seen group settled.run.addrs (settled.run.addrs.map f)
  else group = []

theorem nodup_nativeAddrs (shot : Shot) (settled : SettledRun) :
    (nativeAddrs shot settled).Nodup := by
  rw [nativeAddrs]
  split
  · exact settled.run.nodup_addrs
  · exact List.nodup_nil

/-- A function that gives each address minted again its fresh one. -/
def Agrees (f : Address → Address) (olds fresh : List Address) : Prop :=
  ∀ x y, (x, y) ∈ olds.zip fresh → f x = y

theorem Agrees.of_append {f : Address → Address} {olds fresh more later : List Address}
    (hlen : olds.length = fresh.length) (h : Agrees f (olds ++ more) (fresh ++ later)) :
    Agrees f olds fresh := fun x y hxy => h x y (by
  rw [List.zip_append hlen]
  exact List.mem_append_left _ hxy)

theorem agrees_remint {olds fresh : List Address} (h : olds.Nodup) :
    Agrees (remint olds fresh) olds fresh := fun _ _ hxy => remint_of_mem_zip h hxy

theorem Agrees.eq_map {f : Address → Address} {olds fresh xs ys : List Address}
    (hf : Agrees f olds fresh)
    (h : List.Forall₂ (fun x y => (x, y) ∈ olds.zip fresh) xs ys) : ys = xs.map f := by
  induction h with
  | nil => rfl
  | cons hhead _ ih => rw [List.map_cons, hf _ _ hhead, ih]

section Supplied

variable {stg : Staging World} {shot : Shot} {trunk : Address} {index : ℕ} {p p' : Placing}
  {olds fresh : List Address}

/-- One run of the shot is placed, and paired where it is a draft's. -/
theorem placeRun_spec {settled : SettledRun} (hp : Progress stg trunk p olds fresh)
    (hstored : ∀ x ∈ settled.run.addrs, ∃ b, stg.working.content.bytesAt x.tumbler = some b)
    (h : placeRun shot trunk index p settled = .ok p') :
    ∃ fresh', Progress stg trunk p' (olds ++ nativeAddrs shot settled).eraseDups (fresh ++ fresh') ∧
      ∀ f, Agrees f (olds ++ nativeAddrs shot settled).eraseDups (fresh ++ fresh') → ∃ group,
        p'.pairing = p.pairing ++ group ∧
        denRuns p'.placement = denRuns p.placement ++ placedAddrs shot f settled ∧
        PairedRun shot f index (· ∈ olds) settled group := by
  rw [eraseDups_append_of_nodup hp.nodup (nodup_nativeAddrs shot settled)]
  rw [placeRun] at h
  split at h
  · next hnative =>
    rw [Outcome.bind_eq_ok_iff] at h
    obtain ⟨portions, hportions, hplace⟩ := h
    obtain ⟨haddrs, hexact⟩ := MintedIdentity.portionsOf_spec hp.apart hportions
    have hseen : ∀ x ∈ portions.flatMap Portion.addrs, (fun x => x ∈ olds) x ↔ x ∈ olds :=
      fun _ _ => Iff.rfl
    obtain ⟨fresh', ys, hp', hplaced⟩ := placePortions_spec hp hexact
      (by rw [haddrs]; exact settled.run.nodup_addrs) (by rwa [haddrs]) hseen hplace
    rw [haddrs] at hp' hplaced
    rw [nativeAddrs, if_pos hnative]
    refine ⟨fresh', hp', fun f hf => ?_⟩
    obtain ⟨group, hgroup, hpaired⟩ := hplaced.pairing
    have hys := hf.eq_map hplaced.image
    refine ⟨group, hgroup, ?_, ?_⟩
    · rw [hplaced.placement, placedAddrs, if_pos hnative, hys]
    · rw [PairedRun, if_pos hnative, ← hys]
      exact hpaired
  · next hforeign =>
    cases h
    obtain ⟨hmerged, hden⟩ := extendOrPushRun_spec settled.run hp.merged
    rw [nativeAddrs, if_neg hforeign, List.filter_nil, List.append_nil]
    refine ⟨[], ?_, fun f _ => ⟨[], by simp, ?_, ?_⟩⟩
    · rw [List.append_nil]
      exact ⟨hp.issued, hp.nodup, hp.apart, hp.mints, hmerged⟩
    · rw [hden, placedAddrs, if_neg hforeign]
    · rw [PairedRun, if_neg hforeign]

/-- The runs of the shot are placed in order, each draft address minted once. -/
theorem placeSupplied_spec {supplied : List SettledRun} (hp : Progress stg trunk p olds fresh)
    (hstored : ∀ settled ∈ supplied, ∀ x ∈ settled.run.addrs,
      ∃ b, stg.working.content.bytesAt x.tumbler = some b)
    (h : placeSupplied shot trunk supplied index p = .ok p') :
    ∃ fresh', Progress stg trunk p' (olds ++ supplied.flatMap (nativeAddrs shot)).eraseDups
        (fresh ++ fresh') ∧
      ∀ f, Agrees f (olds ++ supplied.flatMap (nativeAddrs shot)).eraseDups (fresh ++ fresh') →
        ∃ groups : List Pairing, groups.length = supplied.length ∧
          p'.pairing = p.pairing ++ groups.flatten ∧
          denRuns p'.placement = denRuns p.placement ++ supplied.flatMap (placedAddrs shot f) ∧
          ∀ i settled group, supplied[i]? = some settled → groups[i]? = some group →
            PairedRun shot f (index + i)
              (fun x => x ∈ olds ∨ x ∈ (supplied.take i).flatMap (nativeAddrs shot))
              settled group := by
  induction supplied generalizing index p olds fresh with
  | nil =>
    cases h
    rw [List.flatMap_nil, List.append_nil, eraseDups_of_nodup hp.nodup]
    refine ⟨[], by rwa [List.append_nil], fun f _ => ⟨[], rfl, by simp, by simp, by simp⟩⟩
  | cons settled supplied ih =>
    simp only [placeSupplied, Outcome.bind_eq_ok_iff, Outcome.refuseIf_eq_ok_iff, exists_const] at h
    obtain ⟨p₁, hrun, -, hrest⟩ := h
    obtain ⟨fresh₁, hp₁, hone⟩ := placeRun_spec hp (hstored settled List.mem_cons_self) hrun
    obtain ⟨fresh₂, hp₂, hmany⟩ :=
      ih hp₁ (fun s hs => hstored s (List.mem_cons_of_mem _ hs)) hrest
    rw [eraseDups_eraseDups_append, List.append_assoc, List.append_assoc,
      ← List.flatMap_cons] at hp₂ hmany
    refine ⟨fresh₁ ++ fresh₂, hp₂, fun f hf => ?_⟩
    have hfront : (olds ++ (settled :: supplied).flatMap (nativeAddrs shot)).eraseDups =
        (olds ++ nativeAddrs shot settled).eraseDups ++ ((supplied.flatMap (nativeAddrs shot)).removeAll
          (olds ++ nativeAddrs shot settled)).eraseDups := by
      rw [List.flatMap_cons, ← List.append_assoc, List.eraseDups_append]
    have hf₁ : Agrees f (olds ++ nativeAddrs shot settled).eraseDups (fresh ++ fresh₁) := by
      rw [hfront, ← List.append_assoc] at hf
      exact hf.of_append hp₁.length_eq
    obtain ⟨group, hgroup, hplace, hpaired⟩ := hone f hf₁
    obtain ⟨groups, hlen, hgroups, hplaces, hall⟩ := hmany f hf
    refine ⟨group :: groups, by simp [hlen], ?_, ?_, fun i s g hs hg => ?_⟩
    · rw [hgroups, hgroup, List.flatten_cons, List.append_assoc]
    · rw [hplaces, hplace, List.flatMap_cons, List.append_assoc]
    · cases i with
      | zero =>
        rw [List.getElem?_cons_zero, Option.some.injEq] at hs hg
        subst hs hg
        simpa using hpaired
      | succ i =>
        rw [List.getElem?_cons_succ] at hs hg
        have hseen := hall i s g hs hg
        simp only [List.mem_eraseDups, List.mem_append] at hseen
        rw [List.take_succ_cons, List.flatMap_cons, ← Nat.add_assoc, Nat.add_right_comm]
        simpa [or_assoc] using hseen

end Supplied

-- What an accepted shot checked

/-- A settled run is the client's, and of the origin it has. -/
def Settles (stated : ShotRun) (settled : SettledRun) : Prop :=
  settled.run = stated.run ∧ runOriginDocument stated.run = some settled.originDoc

/-- What an admitted shot checked. -/
structure Admitted (w : World) (caller : Caller) (doc : Address) (shot : Shot)
    (admission : Admission) : Prop where
  registered : w.m3.isRegisteredDocument doc = true
  owner : caller.isOwner w.m3 doc = true
  published : publishedTarget w.m3 doc = true
  drafts : ∀ d ∈ shot.namedDrafts, w.m3.isRegisteredDocument d = true
  runs : List.Forall₂ Settles shot.runs admission.supplied
  chain : trunkOf admission.anchor = trunkOf doc
  base : ∀ base ∈ shot.base, w.m3.isRegisteredDocument base.member = true ∧
    (base.member = trunkOf doc ∨ trunkOf base.member = trunkOf doc) ∧
    base.extent ≤ w.m5.contentCount base.member

theorem settleDrafts_eq_ok {m3 : M3State} {caller : Caller} {drafts : List Address} {u : Unit}
    (h : settleDrafts m3 caller drafts = .ok u) :
    ∀ d ∈ drafts, m3.isRegisteredDocument d = true := by
  induction drafts with
  | nil => simp
  | cons draft drafts ih =>
    simp only [settleDrafts, Outcome.bind_eq_ok_iff, Outcome.refuseIf_eq_ok_iff, exists_const,
      Bool.not_eq_false] at h
    obtain ⟨hreg, -, hrest⟩ := h
    exact List.forall_mem_cons.2 ⟨hreg, ih hrest⟩

theorem settleRun_eq_ok {m3 : M3State} {stated : ShotRun} {settled : SettledRun}
    (h : settleRun m3 stated = .ok settled) :
    Settles stated settled := by
  simp only [settleRun, Outcome.bind_eq_ok_iff, Outcome.okOr_eq_ok_iff, Outcome.refuseIf_eq_ok_iff,
    Outcome.pure_eq, Outcome.ok.injEq, exists_const] at h
  obtain ⟨originDoc, horigin, -, -, rfl⟩ := h
  exact ⟨rfl, horigin⟩

theorem trunkOf_birthVersion {m3 : M3State} {doc a : Address} (h : birthVersion m3 doc = some a) :
    trunkOf a = trunkOf doc := by
  rw [birthVersion, Option.bind_eq_some_iff] at h
  obtain ⟨_, -, hfirst⟩ := h
  obtain ⟨hlv, hchild⟩ := firstVersionAddress_childOf hfirst
  rw [(trunkOf_childOf hlv hchild).2.1, trunkOf_trunkOf]

/-- A version is minted under a document of the shot's own chain. -/
theorem shotAnchor_eq_ok {m3 : M3State} {m5 : M5State} {doc anchor : Address} {base : Option Base}
    (h : shotAnchor m3 m5 doc base = .ok anchor) : trunkOf anchor = trunkOf doc ∧
      ∀ b ∈ base, (b.member = trunkOf doc ∨ trunkOf b.member = trunkOf doc) ∧
        b.extent ≤ m5.contentCount b.member := by
  cases base with
  | none =>
    simp only [shotAnchor, Outcome.bind_eq_ok_iff, Outcome.refuseIf_eq_ok_iff, Outcome.pure_eq,
      Outcome.ok.injEq, exists_const] at h
    exact ⟨by rw [← h.2, trunkOf_trunkOf], by simp⟩
  | some base =>
    simp only [shotAnchor, Outcome.bind_eq_ok_iff, Outcome.refuseIf_eq_ok_iff, exists_const,
      not_lt, not_and, not_not] at h
    obtain ⟨hchain, hextent, h⟩ := h
    have hin : base.member = trunkOf doc ∨ trunkOf base.member = trunkOf doc := by
      by_cases heq : base.member = trunkOf doc
      · exact .inl heq
      · exact .inr (hchain heq)
    refine ⟨?_, by simpa using ⟨hin, hextent⟩⟩
    split at h
    · cases h
      cases hbirth : birthVersion m3 doc with
      | none => rw [Option.getD_none, trunkOf_trunkOf]
      | some a => rw [Option.getD_some, trunkOf_birthVersion hbirth]
    · next hne =>
      split at h
      · cases h
        exact trunkOf_trunkOf doc
      · cases h
        exact hchain hne

theorem admit_eq_ok {w : World} {caller : Caller} {doc : Address} {shot : Shot}
    {readable : World → Address → Bool} {admission : Admission}
    (h : admitShot w caller doc shot readable = .ok admission) : Admitted w caller doc shot admission := by
  simp only [admitShot, settleRuns, Outcome.bind_eq_ok_iff, gateWrite_eq_ok_iff,
    Outcome.refuseIf_eq_ok_iff, Outcome.pure_eq, Outcome.ok.injEq, exists_const,
    Bool.not_eq_false] at h
  obtain ⟨⟨hreg, howner⟩, supplied, ⟨u, hbase, v, hdrafts, hruns⟩, hpub, anchor, hanchor, -, -, rfl⟩ := h
  obtain ⟨hchain, hstated⟩ := shotAnchor_eq_ok hanchor
  refine ⟨hreg, howner, hpub, settleDrafts_eq_ok hdrafts,
    (Outcome.forall₂_of_mapM hruns).imp fun _ _ => settleRun_eq_ok, hchain, fun b hb => ⟨?_, hstated b hb⟩⟩
  rw [hb, settleBase, Outcome.refuseIf_eq_ok_iff, Bool.not_eq_false] at hbase
  exact hbase

theorem Settles.isDraftNative_eq {shot : Shot} {stated : ShotRun} {settled : SettledRun}
    (h : Settles stated settled) :
    shot.isDraftNative settled.originDoc = shot.reinserts stated.run := by
  rw [Shot.reinserts, h.2, Option.any_some]

theorem map_run_of_settles {runs : List ShotRun} {supplied : List SettledRun}
    (h : List.Forall₂ Settles runs supplied) :
    supplied.map SettledRun.run = runs.map ShotRun.run := by
  induction h with
  | nil => rfl
  | cons hhead _ ih => rw [List.map_cons, List.map_cons, hhead.1, ih]

/-- The addresses minted again are those of the shot's draft runs. -/
theorem nativeAddrs_of_settles {shot : Shot} {runs : List ShotRun} {supplied : List SettledRun}
    (h : List.Forall₂ Settles runs supplied) : supplied.flatMap (nativeAddrs shot) =
      denRuns ((runs.map ShotRun.run).filter shot.reinserts) := by
  induction h with
  | nil => rfl
  | cons hhead _ ih =>
    rw [List.flatMap_cons, ih, nativeAddrs, hhead.isDraftNative_eq, hhead.1, List.map_cons]
    split
    · next hnative => rw [List.filter_cons_of_pos hnative, denRuns_cons]
    · next hforeign => rw [List.filter_cons_of_neg hforeign, List.nil_append]

theorem requireStored_eq_ok {content : ContentStore} {runs : List Run} {u : Unit}
    (h : requireStored content runs = .ok u) :
    ∀ x ∈ denRuns runs, ∃ b, content.bytesAt x.tumbler = some b := by
  induction runs with
  | nil => simp
  | cons run runs ih =>
    simp only [requireStored, Outcome.bind_eq_ok_iff, Outcome.refuseIf_eq_ok_iff, exists_const,
      Bool.not_eq_false] at h
    obtain ⟨hcovered, hrest⟩ := h
    intro x hx
    rw [denRuns_cons, List.mem_append] at hx
    exact hx.elim (fun hx => bytesAt_of_covered hcovered hx) (ih hrest x)

/-- What the base holds past its extent is carried over. -/
theorem carryTail_eq_ok {m5 : M5State} {base : Option Base} {placement placement' : List Run}
    (hm : Merged placement) (h : carryTail m5 base placement = .ok placement') :
    denRuns placement' = denRuns placement ++ base.toList.flatMap fun b =>
      (m5.contentList b.member).den.drop b.extent := by
  cases base with
  | none =>
    cases h
    simp
  | some base =>
    have hfold : ∀ {runs placement : List Run}, runs.foldlM
        (fun placement run => placeCapped placement run PublishError.tooManyRuns) placement =
          .ok placement' → placement' = runs.foldl extendOrPushRun placement := by
      intro runs
      induction runs with
      | nil => exact fun h => (Outcome.ok.inj h).symm
      | cons run runs ih =>
        intro placement h
        rw [List.foldlM_cons, Outcome.bind_eq_ok_iff] at h
        obtain ⟨next, hnext, hrest⟩ := h
        rw [ih hrest, (placeCapped_eq_ok hnext).1]
        rfl
    rw [hfold h, (foldl_extendOrPushRun_spec _ hm).2, M5State.contentRunsPast,
      RunList.den_iterResolveFrom]
    simp

-- What an accepted shot stages

/-- The draft addresses a shot names, each once, in the order they first occur. -/
def reinsertedAddrs (shot : Shot) : List Address := (denRuns shot.reinsertedRuns).eraseDups

/-- What a run of a shot is placed as. -/
def placedAs (shot : Shot) (f : Address → Address) (stated : ShotRun) : List Address :=
  if shot.reinserts stated.run = true then stated.run.addrs.map f else stated.run.addrs

/-- The part of the pairing that is a stated run's: where it is a draft's it tiles
the run, and marks the pieces that no earlier run named. -/
def PairedStated (shot : Shot) (f : Address → Address) (index : ℕ) (stated : ShotRun)
    (group : Pairing) : Prop :=
  if shot.reinserts stated.run = true then ∃ home, runOriginDocument stated.run = some home ∧
    Paired home index
      (fun x => x ∈ denRuns (((shot.runs.take index).map ShotRun.run).filter shot.reinserts))
      group stated.run.addrs (stated.run.addrs.map f)
  else group = []

theorem placedAddrs_of_settles {shot : Shot} {f : Address → Address} {runs : List ShotRun}
    {supplied : List SettledRun} (h : List.Forall₂ Settles runs supplied) :
    supplied.flatMap (placedAddrs shot f) = runs.flatMap (placedAs shot f) := by
  induction h with
  | nil => rfl
  | cons hhead _ ih =>
    rw [List.flatMap_cons, List.flatMap_cons, ih, placedAddrs, placedAs, hhead.isDraftNative_eq,
      hhead.1]

theorem getElem?_of_forall₂ {α β : Type*} {R : α → β → Prop} {l : List α} {l' : List β}
    (h : List.Forall₂ R l l') {i : ℕ} {a : α} (ha : l[i]? = some a) :
    ∃ b, l'[i]? = some b ∧ R a b := by
  induction h generalizing i with
  | nil => cases ha
  | cons hhead _ ih =>
    cases i with
    | zero =>
      cases ha
      exact ⟨_, rfl, hhead⟩
    | succ i => exact ih ha

/-- What an accepted shot has staged: the second mints, then the version and its placement. -/
structure Published (stg stg' : Staging World) (caller : Caller) (doc : Address) (shot : Shot)
    (member : Address) (pairing : Pairing) (fresh : List Address) (placement : List Run) : Prop where
  admitted : ∃ admission, Admitted stg.working caller doc shot admission ∧
    namespaceOf member = some (versionNs admission.anchor) ∧
    stg.working.m3.isRegisteredDocument admission.anchor = true
  stored : ∀ stated ∈ shot.runs, ∀ x ∈ stated.run.addrs,
    ∃ b, stg.working.content.bytesAt x.tumbler = some b
  placed : denRuns placement =
    shot.runs.flatMap (placedAs shot (remint (reinsertedAddrs shot) fresh)) ++
      shot.base.toList.flatMap fun b => (stg.working.m5.contentList b.member).den.drop b.extent
  pairing : ∃ groups : List Pairing, groups.length = shot.runs.length ∧ pairing = groups.flatten ∧
    ∀ i stated group, shot.runs[i]? = some stated → groups[i]? = some group →
      PairedStated shot (remint (reinsertedAddrs shot) fresh) i stated group
  staged : ∃ mid : Staging World,
    MintedAll stg mid (trunkOf doc) ((reinsertedAddrs shot).map (valueOf stg.working.content)) fresh ∧
    mid.Pushed [.namespaceRec (.allocate member true), .arrangement (.shotPlace member placement
      ⟨(shot.runs.map fun stated => stated.run.width).sum, shot.base.map Base.extent⟩
      shot.draft)] stg'

theorem stagePublish_eq_ok {stg stg' : Staging World} {caller : Caller} {doc member : Address}
    {shot : Shot} {readable : World → Address → Bool} {pairing : Pairing}
    (h : stagePublish stg caller doc shot readable = .ok ((member, pairing), stg')) :
    ∃ fresh placement, Published stg stg' caller doc shot member pairing fresh placement := by
  simp only [stagePublish, Outcome.bind_eq_ok_iff, Outcome.refuseIf_eq_ok_iff,
    Outcome.mapErr_eq_ok_iff, Outcome.pure_eq, Outcome.ok.injEq, Prod.exists, Prod.mk.injEq,
    exists_const] at h
  obtain ⟨admission, hadmit, -, u, hstored, p, hplace, placement, htail, _, r, hmint, pushed, hpush,
    last, hlast, ⟨rfl, rfl⟩, rfl⟩ := h
  have hadmitted := admit_eq_ok hadmit
  have hruns := map_run_of_settles hadmitted.runs
  have hall : ∀ x ∈ denRuns (admission.supplied.map SettledRun.run),
      ∃ b, stg.working.content.bytesAt x.tumbler = some b := fun x hx =>
    requireStored_eq_ok hstored x (RunUnion.mem_runs_iff.2 hx)
  have hsettled : ∀ settled ∈ admission.supplied, ∀ x ∈ settled.run.addrs,
      ∃ b, stg.working.content.bytesAt x.tumbler = some b := fun settled hs x hx =>
    hall x (List.mem_flatMap.2 ⟨settled.run, List.mem_map_of_mem hs, hx⟩)
  obtain ⟨fresh, hp, hagree⟩ := placeSupplied_spec (.start stg (trunkOf doc)) hsettled hplace
  rw [List.nil_append, List.nil_append, nativeAddrs_of_settles hadmitted.runs] at hp hagree
  obtain ⟨groups, hlen, hgroups, hplaced, hpaired⟩ := hagree _ (agrees_remint hp.nodup)
  rw [placedAddrs_of_settles hadmitted.runs] at hplaced
  obtain ⟨hreg, rfl, hmember, -⟩ := M3State.mintVersion_eq_ok hmint
  obtain ⟨recs, hrecs, hmints⟩ := hp.issued.pushed
  obtain ⟨hm5, hm3⟩ := World.elementsOnly_pushed hrecs hmints
  rw [hm3.isRegisteredDocument_eq] at hreg
  refine ⟨fresh, placement, ⟨admission, hadmitted, hmember, hreg⟩, fun stated hs x hx => ?_, ?_,
    ⟨groups, ?_, ?_, fun i stated group hstated hgroup => ?_⟩, p.stg, hp.issued, ?_⟩
  · rw [hruns] at hall
    exact hall x (List.mem_flatMap.2 ⟨stated.run, List.mem_map_of_mem hs, hx⟩)
  · rw [carryTail_eq_ok hp.merged htail, hplaced, hm5]
    rfl
  · rw [hlen, hadmitted.runs.length_eq]
  · rw [hgroups]
    rfl
  · obtain ⟨settled, hget, hsettles⟩ := getElem?_of_forall₂ hadmitted.runs hstated
    have hpair := hpaired i settled group hget hgroup
    have hseen : (admission.supplied.take i).flatMap (nativeAddrs shot) = _ :=
      nativeAddrs_of_settles (List.forall₂_take i hadmitted.runs)
    rw [PairedRun, hsettles.isDraftNative_eq, hsettles.1] at hpair
    rw [PairedStated]
    split at hpair
    · next hnative =>
      rw [if_pos hnative]
      refine ⟨settled.originDoc, hsettles.2, ?_⟩
      simp only [Nat.zero_add, hseen, List.not_mem_nil, false_or] at hpair
      exact hpair
    · next hforeign => rwa [if_neg hforeign]
  · have hwidths : (admission.supplied.map fun settled => settled.run.width).sum =
        (shot.runs.map fun stated => stated.run.width).sum := by
      have := congrArg (fun l => (l.map Run.width).sum) hruns
      rwa [List.map_map, List.map_map] at this
    rw [← hwidths]
    exact (Staging.pushed_of_push hpush).append (Staging.pushed_of_push hlast)

/-- The draft addresses are those of the runs minted again. -/
theorem mem_reinsertedAddrs {shot : Shot} {x : Address} : x ∈ reinsertedAddrs shot ↔
    ∃ stated ∈ shot.runs, shot.reinserts stated.run = true ∧ x ∈ stated.run.addrs := by
  rw [reinsertedAddrs, List.mem_eraseDups, Shot.reinsertedRuns, denRuns, List.mem_flatMap]
  constructor
  · rintro ⟨run, hrun, hx⟩
    obtain ⟨hrun, hnative⟩ := List.mem_filter.1 hrun
    obtain ⟨stated, hs, rfl⟩ := List.mem_map.1 hrun
    exact ⟨stated, hs, hnative, hx⟩
  · rintro ⟨stated, hs, hnative, hx⟩
    exact ⟨stated.run, List.mem_filter.2 ⟨List.mem_map_of_mem hs, hnative⟩, hx⟩

theorem nodup_reinsertedAddrs (shot : Shot) : (reinsertedAddrs shot).Nodup := nodup_eraseDups _

/-- As many addresses are minted again as the shot counts. -/
theorem length_reinsertedAddrs (shot : Shot) :
    (reinsertedAddrs shot).length = shot.reinsertedValues := by
  rw [Shot.reinsertedValues_eq]
  refine List.Perm.length_eq ((List.perm_ext_iff_of_nodup (nodup_eraseDups _)
    (List.nodup_dedup _)).2 fun x => ?_)
  rw [List.mem_eraseDups, List.mem_dedup]

section Published

variable {stg stg' : Staging World} {caller : Caller} {doc member : Address} {shot : Shot}
  {pairing : Pairing} {fresh : List Address} {placement : List Run}

/-- The second mint of a draft address is the fresh address at its place. -/
theorem Published.remint_eq (h : Published stg stg' caller doc shot member pairing fresh placement)
    {k : ℕ} {x : Address} (hx : (reinsertedAddrs shot)[k]? = some x) :
    fresh[k]? = some (remint (reinsertedAddrs shot) fresh x) := by
  obtain ⟨mid, hissued, -⟩ := h.staged
  have hlt : k < (reinsertedAddrs shot).length := (List.getElem?_eq_some_iff.1 hx).1
  have hlt' : k < fresh.length := by rwa [hissued.length_eq, List.length_map]
  have hzip : (x, fresh[k]) ∈ (reinsertedAddrs shot).zip fresh :=
    List.mem_iff_getElem?.2 ⟨k, List.getElem?_zip_eq_some.2 ⟨hx, List.getElem?_eq_getElem hlt'⟩⟩
  rw [List.getElem?_eq_getElem hlt', remint_of_mem_zip (nodup_reinsertedAddrs shot) hzip]

theorem Published.pushed
    (h : Published stg stg' caller doc shot member pairing fresh placement) : ∃ terms elems,
      (∀ r ∈ elems, r.MintsElement) ∧ stg.Pushed (elems ++ [.namespaceRec (.allocate member true),
        .arrangement (.shotPlace member placement terms shot.draft)]) stg' := by
  obtain ⟨mid, hissued, hlast⟩ := h.staged
  obtain ⟨elems, helems, hmints⟩ := hissued.pushed
  exact ⟨_, elems, hmints, helems.append hlast⟩

/-- Everything a shot places is stored, or arranged by its base. -/
theorem Published.effect (h : Published stg stg' caller doc shot member pairing fresh placement) :
    ∃ recs, stg.Pushed recs stg' ∧ Effect stg.working shot.draft recs := by
  obtain ⟨admission, hadmitted, hmember, hreg⟩ := h.admitted
  obtain ⟨mid, hissued, hlast⟩ := h.staged
  obtain ⟨elems, helems, hmints⟩ := hissued.pushed
  refine ⟨_, helems.append hlast, .publish _ hmints (fun x hx => ?_) hreg ?_ hmember fun d hd => ?_⟩
  · rw [h.placed] at hx
    rcases List.mem_append.1 hx with hx | hx
    · obtain ⟨stated, hs, hx⟩ := List.mem_flatMap.1 hx
      rw [placedAs] at hx
      split at hx
      · next hnative =>
        obtain ⟨y, hy, rfl⟩ := List.mem_map.1 hx
        obtain ⟨k, hk⟩ := List.mem_iff_getElem?.1
          (mem_reinsertedAddrs.2 ⟨stated, hs, hnative, hy⟩)
        exact hissued.supplied helems (List.mem_of_getElem? (h.remint_eq hk))
      · obtain ⟨b, hb⟩ := h.stored stated hs x hx
        exact supplied_of_bytesAt hb
    · obtain ⟨base, -, hx⟩ := List.mem_flatMap.1 hx
      exact .inr ⟨base.member, List.mem_of_mem_drop hx⟩
  · have hpub := hadmitted.published
    rw [publishedTarget, ← hadmitted.chain] at hpub
    exact hpub
  · refine hadmitted.drafts _ (List.mem_map_of_mem (List.mem_append_left _ ?_))
    rwa [Option.mem_toList]

end Published

end Vstream
