import Skep.Dump.World

/-!
# A reader's dump

A reader's dump is the unfiltered tree less the entries of documents that the reader does not
read. Most entries are judged by their own document. A supersession edge and a predicate
member name something other than the link that put them there, so the filter derives that link
again and asks for its home too.
-/

namespace Dump

/-- An address is judged at its document. One that has none is readable. -/
def documentReadable (readable : Address → Bool) (a : Address) : Bool := (documentOf a).all readable

/-- The by-home hint families that have no table of their own. -/
def reducedByHome : List String := ["links.audit", "links.active", "links.nullified"]

variable (reg : TypeRegistry)

/-- The operative claims by the edges that they assert. -/
def supEdgeClaims (links : LinkState) : Outcome Empty (List ((Tumbler × Tumbler) × Address)) := do
  let claims ← links.typeSliceOf reg (reg.reservedType .supersedes) .audit
  let byEdge ← (claims.filter fun claim => !links.nullified reg claim.tumbler).mapM fun claim => do
    let link ← Outcome.expectSome (links.readlink claim)
    return link.fromSlot.addrs.flatMap fun old => link.toSlot.addrs.map fun new => ((old, new), claim)
  return byEdge.flatten

/-- The tuples of a class under a view by the members that they assert. -/
def memberTuples (links : LinkState) (ty : Endset) (view : View) :
    Outcome Empty (List (Tumbler × Address)) := do
  let tuples ← links.typeSliceOf reg ty view
  let byMember ← tuples.mapM fun tuple => do
    let link ← Outcome.expectSome (links.readlink tuple)
    return link.fromSlot.addrs.map fun member => (member, tuple)
  return byMember.flatten

/-- Whether some link filed under a key is homed readably. -/
def filedReadably {κ : Type} [DecidableEq κ] (readable : Address → Bool) (filed : List (κ × Address)) (k : κ) :
    Bool :=
  filed.any fun e => e.1 == k && documentReadable readable e.2

variable (natOf : String → Option ℕ) (readable : Address → Bool)

/-- Reduce the members of a row to those that the reader reads, by a tuple that the reader reads. -/
def filterProjection (links : LinkState) (root : SerdeTree) (p : Projection) : Outcome Empty SerdeTree := do
  let assertedBy ← memberTuples reg links (reg.reservedType p.ty) p.view
  return retainSeq ["hints", p.family] (fun item => (dottedAddress natOf item).any fun member =>
    documentReadable readable member && filedReadably readable assertedBy member.tumbler) root

/-- The dump tree post-filtered at a reader's class. -/
def filterTree (links : LinkState) (root : SerdeTree) : Outcome Empty SerdeTree := do
  let keepSerdeForm := fun k => (serdeFormAddress k).any (documentReadable readable)
  let keepDotted := fun s => (dottedAddress natOf s).any (documentReadable readable)
  let claims ← supEdgeClaims reg links
  let root := retainMap ["authoritative", "content", "map"] keepSerdeForm root
  let root := retainMap ["authoritative", "arrangement", "arrangements"] keepSerdeForm root
  let root := retainMap ["authoritative", "arrangement", "provenance"] keepSerdeForm root
  let root := retainMap ["authoritative", "arrangement", "fork_sources"] keepSerdeForm root
  let root := retainMap ["authoritative", "arrangement", "arranged_at"] keepSerdeForm root
  let root := retainMap ["authoritative", "arrangement", "draft_bases"] keepSerdeForm root
  let root := retainMap ["authoritative", "links", "links"] keepSerdeForm root
  let root := retainSeq ["publication"] keepDotted root
  let root := reducedByHome.foldl (fun root family => retainSeq ["hints", family] keepDotted root) root
  let root ← predicateProjections.foldlM (filterProjection reg natOf readable links) root
  let root := ShippedType.all.foldl (fun root ty => sliceViews.foldl (fun root v =>
    retainSeq ["hints", "types", shippedLabel ty, v.1] keepDotted root) root) root
  let root := retainMapOfSeqs natOf ["hints", "supersession"] (documentReadable readable)
    (fun old new => documentReadable readable new && filedReadably readable claims (old.tumbler, new.tumbler)) root
  return retainMap ["hints", "publication.drafts"] keepDotted root

/-- A reader's dump. -/
def dumpVisible (w : World) : Outcome Empty SerdeTree := do
  let root ← dumpTree reg w
  filterTree reg natOf readable w.links root

/-- The entries of a tree that two predicates, on edges and on members, leave beside the reader's own. -/
def Shown.restrict (s : Shown) (edge : Address → Address → Bool)
    (member : ShippedType → View → Address → Bool) : Shown :=
  { s with
    content := s.content.filter fun e => documentReadable readable e.1
    arrangements := s.arrangements.filter fun e => documentReadable readable e.1
    provenance := s.provenance.filter fun e => documentReadable readable e.1
    forkSources := s.forkSources.filter fun e => documentReadable readable e.1
    arrangedAt := s.arrangedAt.filter fun e => documentReadable readable e.1
    draftBases := s.draftBases.filter fun e => documentReadable readable e.1
    links := s.links.filter fun e => documentReadable readable e.1
    publication := s.publication.filter (documentReadable readable)
    audit := s.audit.filter (documentReadable readable)
    active := s.active.filter (documentReadable readable)
    nullified := s.nullified.filter (documentReadable readable)
    classes := fun ty view => (s.classes ty view).filter (documentReadable readable)
    edges := (s.edges.map fun e => (e.1, e.2.filter fun new => documentReadable readable new && edge e.1 new)).filter
      fun e => documentReadable readable e.1 && !e.2.isEmpty
    members := fun ty view => (s.members ty view).filter fun a => documentReadable readable a && member ty view a
    drafts := s.drafts.filter fun e => documentReadable readable e.1 }

section

variable {natOf : String → Option ℕ} (hnat : ∀ n : ℕ, natOf n.repr = some n)

theorem retainKeys_addressMap {ν : Type} (valueTree : ν → SerdeTree) (entries : List (Address × ν))
    (keep : Address → Bool) :
    retainKeys (fun k => (serdeFormAddress k).any keep) (addressMap valueTree entries) =
      addressMap valueTree (entries.filter fun e => keep e.1) := by
  rw [addressMap, mapTree, retainKeys, List.filter_map, addressMap, mapTree]
  refine congrArg (fun l => SerdeTree.map (List.map _ l)) (List.filter_congr fun e _ => ?_)
  rw [Function.comp_apply, serdeFormAddress_addressTree, Option.any_some]

include hnat

theorem retainKeys_dotted {ν : Type} (valueTree : ν → SerdeTree) (entries : List (Address × ν))
    (keep : Address → Bool) :
    retainKeys (fun k => (dottedAddress natOf k).any keep) (mapTree dotted valueTree entries) =
      mapTree dotted valueTree (entries.filter fun e => keep e.1) := by
  rw [mapTree, retainKeys, List.filter_map, mapTree]
  refine congrArg (fun l => SerdeTree.map (List.map _ l)) (List.filter_congr fun e _ => ?_)
  rw [Function.comp_apply, dottedAddress_dotted hnat, Option.any_some]

theorem filter_dotted (addrs : List Address) (keep : Address → Bool) :
    (addrs.map dotted).filter (fun item => (dottedAddress natOf item).any keep) = (addrs.filter keep).map dotted := by
  rw [List.filter_map]
  refine congrArg (List.map _) (List.filter_congr fun a _ => ?_)
  rw [Function.comp_apply, dottedAddress_dotted hnat, Option.any_some]

theorem retainItems_addrSeq (addrs : List Address) (keep : Address → Bool) :
    retainItems (fun item => (dottedAddress natOf item).any keep) (addrSeq addrs) = addrSeq (addrs.filter keep) := by
  rw [addrSeq, retainItems, filter_dotted hnat, addrSeq]

theorem retainPairs_edges (edges : List (Address × List Address)) (keepKey : Address → Bool)
    (keepPair : Address → Address → Bool) :
    retainPairs natOf keepKey keepPair (mapTree dotted addrSeq edges) = mapTree dotted addrSeq
      ((edges.map fun e => (e.1, e.2.filter (keepPair e.1))).filter fun e => keepKey e.1 && !e.2.isEmpty) := by
  rw [mapTree, retainPairs, mapTree]
  refine congrArg SerdeTree.map ?_
  induction edges with
  | nil => rfl
  | cons e edges ih =>
    rw [List.map_cons, List.filterMap_cons, ih, List.map_cons, retainPair, dottedAddress_dotted hnat]
    by_cases hkey : keepKey e.1 = true
    · rw [Option.filter_some_pos hkey]
      dsimp only [addrSeq]
      rw [filter_dotted hnat]
      by_cases hempty : e.2.filter (keepPair e.1) = []
      · rw [hempty]
        simp
      · rw [if_neg (by simpa using hempty), List.filter_cons_of_pos (by simpa [hkey] using hempty)]
        rfl
    · rw [Option.filter_some_neg (Bool.eq_false_iff.2 hkey), List.filter_cons_of_neg (by simp [hkey])]

omit hnat in
/-- The authoritative slices reduce by their documents. -/
theorem retain_slices (s : Shown) (keep : Address → Bool) :
    let keepSerdeForm := fun k => (serdeFormAddress k).any keep
    retainMap ["authoritative", "links", "links"] keepSerdeForm
      (retainMap ["authoritative", "arrangement", "draft_bases"] keepSerdeForm
      (retainMap ["authoritative", "arrangement", "arranged_at"] keepSerdeForm
      (retainMap ["authoritative", "arrangement", "fork_sources"] keepSerdeForm
      (retainMap ["authoritative", "arrangement", "provenance"] keepSerdeForm
      (retainMap ["authoritative", "arrangement", "arrangements"] keepSerdeForm
      (retainMap ["authoritative", "content", "map"] keepSerdeForm (s.tree reg))))))) =
    ({ s with
      content := s.content.filter fun e => keep e.1
      arrangements := s.arrangements.filter fun e => keep e.1
      provenance := s.provenance.filter fun e => keep e.1
      forkSources := s.forkSources.filter fun e => keep e.1
      arrangedAt := s.arrangedAt.filter fun e => keep e.1
      draftBases := s.draftBases.filter fun e => keep e.1
      links := s.links.filter fun e => keep e.1 } : Shown).tree reg := by
  simp (disch := decide) only [retainMap, Shown.tree, Shown.authoritativeTree, updateAt_cons, updateAt_nil, atFirst_here,
    atFirst_past, retainKeys_addressMap]
  rfl

/-- So do the sections that are sequences of addresses. -/
theorem retain_seqs (s : Shown) (keep : Address → Bool) :
    let keepDotted := fun item => (dottedAddress natOf item).any keep
    reducedByHome.foldl (fun root family => retainSeq ["hints", family] keepDotted root)
      (retainSeq ["publication"] keepDotted (s.tree reg)) =
    ({ s with
      publication := s.publication.filter keep
      audit := s.audit.filter keep
      active := s.active.filter keep
      nullified := s.nullified.filter keep } : Shown).tree reg := by
  simp (disch := decide) only [reducedByHome, List.foldl_cons, List.foldl_nil, retainSeq, Shown.tree, Shown.hintsTree,
    List.cons_append, updateAt_cons, updateAt_nil, atFirst_here, atFirst_past, retainItems_addrSeq hnat]
  rfl

/-- Each row of the projections reduces by its own test. -/
theorem retain_projections (s : Shown) (keep : ShippedType → View → Address → Bool) :
    predicateProjections.foldl (fun root p =>
      retainSeq ["hints", p.family] (fun item => (dottedAddress natOf item).any (keep p.ty p.view)) root) (s.tree reg) =
    ({ s with members := fun ty view => (s.members ty view).filter (keep ty view) } : Shown).tree reg := by
  simp (disch := decide) only [predicateProjections, List.foldl_cons, List.foldl_nil, retainSeq, Shown.tree,
    Shown.hintsTree, List.map_cons, List.map_nil, List.cons_append, List.nil_append, updateAt_cons, updateAt_nil,
    atFirst_here, atFirst_past, retainItems_addrSeq hnat]
  rfl

/-- The slices of the shipped classes reduce by home. -/
theorem retain_classes (s : Shown) (keep : Address → Bool) :
    ShippedType.all.foldl (fun root ty => sliceViews.foldl (fun root v =>
      retainSeq ["hints", "types", shippedLabel ty, v.1] (fun item => (dottedAddress natOf item).any keep) root) root)
        (s.tree reg) =
    ({ s with classes := fun ty view => (s.classes ty view).filter keep } : Shown).tree reg := by
  simp (disch := decide) only [ShippedType.all, sliceViews, List.foldl_cons, List.foldl_nil, retainSeq, Shown.tree,
    Shown.hintsTree, Shown.classTree, shippedLabel, List.map_cons, List.map_nil, List.cons_append, updateAt_cons,
    updateAt_nil, atFirst_here, atFirst_past, retainItems_addrSeq hnat]
  rfl

/-- The edges of supersession, and the private documents. -/
theorem retain_edges (s : Shown) (keep : Address → Bool) (keepPair : Address → Address → Bool) :
    retainMap ["hints", "publication.drafts"] (fun k => (dottedAddress natOf k).any keep)
      (retainMapOfSeqs natOf ["hints", "supersession"] keep keepPair (s.tree reg)) =
    ({ s with
      edges := (s.edges.map fun e => (e.1, e.2.filter (keepPair e.1))).filter fun e => keep e.1 && !e.2.isEmpty
      drafts := s.drafts.filter fun e => keep e.1 } : Shown).tree reg := by
  simp (disch := decide) only [retainMap, retainMapOfSeqs, Shown.tree, Shown.hintsTree, predicateProjections,
    List.map_cons, List.map_nil, List.cons_append, List.nil_append, updateAt_cons, updateAt_nil, atFirst_here,
    atFirst_past, retainKeys_dotted hnat, retainPairs_edges hnat]
  rfl

theorem filterTree_tree {links : LinkState} {claims : List ((Tumbler × Tumbler) × Address)}
    {assertedBy : ShippedType → View → List (Tumbler × Address)} (hclaims : supEdgeClaims reg links = .ok claims)
    (hasserted : ∀ p ∈ predicateProjections,
      memberTuples reg links (reg.reservedType p.ty) p.view = .ok (assertedBy p.ty p.view)) (s : Shown) :
    filterTree reg natOf readable links (s.tree reg) = .ok ((s.restrict readable
      (fun old new => filedReadably readable claims (old.tumbler, new.tumbler))
      fun ty view a => filedReadably readable (assertedBy ty view) a.tumbler).tree reg) := by
  have hrows : ∀ root, predicateProjections.foldlM (filterProjection reg natOf readable links) root =
      .ok (predicateProjections.foldl (fun root p => retainSeq ["hints", p.family] (fun item =>
        (dottedAddress natOf item).any fun a => documentReadable readable a &&
          filedReadably readable (assertedBy p.ty p.view) a.tumbler) root) root) := by
    intro root
    apply Outcome.foldlM_eq_foldl
    intro root p hp
    rw [filterProjection, hasserted p hp]
    rfl
  rw [filterTree, hclaims, Outcome.ok_bind]
  dsimp only
  rw [retain_slices, retain_seqs reg hnat, hrows, Outcome.ok_bind,
    retain_projections reg hnat _ fun ty view a => documentReadable readable a &&
      filedReadably readable (assertedBy ty view) a.tumbler,
    retain_classes reg hnat, retain_edges reg hnat]
  rfl

end

end Dump
