import Skep.Ops.History

/-!
# What every run keeps

The published chains only grow, what is arranged is stored, and the deletions a
document shows are what an earlier commit arranged and the newest does not.

## Main results

- `edition_appendOnly` — a published document's positions are kept for ever
- `content_stored` — every arranged position has a value
- `deletions_exact` — the deletions of a document after any run
-/

/-- What an effect supplies is stored once it is committed. -/
theorem Supplied.stored {w w' : World} {seq : ℕ} (elems : List Record) {all : List Record}
    (hw : w.Sound) (hfold : foldAt w seq all = .ok w')
    (hall : all.filterMap Record.content? = elems.filterMap Record.content?) {x : Address}
    (hx : Supplied w elems x) : ∃ b, w'.content.bytesAt x.tumbler = some b := by
  rcases hx with hb | ⟨d, hx⟩
  · rwa [World.foldAt_content hfold, hall]
  · obtain ⟨b, hb⟩ := hw.stored d x hx
    exact ⟨b, World.foldAt_values hfold _ _ hb⟩

/-- Every address a record of an effect states has a value once it is committed. -/
theorem Effect.stated_stored {w w' : World} {seq : ℕ} {inst : Option Address}
    {recs : List Record} (hw : w.Sound) (h : Effect w inst recs) (hfold : foldAt w seq recs = .ok w') {r : M5Rec}
    (hr : r ∈ recs.filterMap Record.m5?) {x : Address} (hx : x ∈ denRuns r.stated) :
    ∃ b, w'.content.bytesAt x.tumbler = some b := by
  cases h with
  | @edit doc elems stated clear fill hdoc hprivate helems hedits hclear hfill =>
    rw [List.filterMap_append, filterMap_m5_elements helems, filterMap_m5_arrangement,
      List.nil_append] at hr
    have hall : (elems ++ (clear ++ fill).map Record.arrangement).filterMap Record.content? =
        elems.filterMap Record.content? := by
      rw [List.filterMap_append, filterMap_content_arrangement, List.append_nil]
    cases hedits r hr with
    | place ord hruns => exact (hruns x hx).stored elems hw hfold hall
    | remove => simp [M5Rec.stated] at hx
    | reorder => simp [M5Rec.stated] at hx
    | base => simp [M5Rec.stated] at hx
  | @deposit doc elems runs hdoc hpub helems hruns =>
    rw [List.filterMap_append, filterMap_m5_elements helems, List.nil_append] at hr
    obtain rfl := List.mem_singleton.1 hr
    refine (hruns x hx).stored elems hw hfold ?_
    rw [List.filterMap_append]
    exact List.append_nil _
  | fork surface hmint =>
    obtain rfl := List.mem_singleton.1 hr
    simp [M5Rec.stated] at hx
  | stage haccount hnew hbase =>
    rcases List.mem_pair.1 hr with rfl | rfl <;> simp [M5Rec.stated] at hx
  | @publish member anchor elems draft runs terms helems hruns =>
    rw [List.filterMap_append, filterMap_m5_elements helems, List.nil_append] at hr
    obtain rfl := List.mem_singleton.1 hr
    refine (hruns x hx).stored elems hw hfold ?_
    rw [List.filterMap_append]
    exact List.append_nil _
  | seat hdoc hlink =>
    obtain rfl := List.mem_singleton.1 hr
    simp [M5Rec.stated] at hx
  | entity hrecs =>
    obtain ⟨_, hmem, hnone⟩ := List.mem_filterMap.1 hr
    obtain ⟨_, -, rfl⟩ := List.mem_map.1 hmem
    cases hnone

/-- A range of content resolves to runs the store covers. -/
theorem World.Sound.covered {w : World} (hw : w.Sound) {doc : Address} {span : Span}
    {vspan : OrdinalVSpan} (hspan : asOrdinalVspan span = some vspan)
    (hcontent : vspan.isContent = true) {run : Run} (hrun : run ∈ w.m5.iterResolve doc span) :
    w.content.covered run.iStart.tumbler run.width = true := by
  refine ContentStore.covered_iff.2 fun i hi => ?_
  have hmem : run.addrAt i ∈ denRuns (w.m5.iterResolve doc span) :=
    List.mem_flatMap.2 ⟨run, hrun, Run.mem_addrs_iff.2 ⟨i, hi, rfl⟩⟩
  exact hw.stored doc _ (M5State.arranges_of_mem_iterResolve hspan hcontent hmem)

theorem M5State.arranges_of_point {s : M5State} {d x : Address} {k : ℕ}
    (h : s.point d (.content k) = some x) : s.Arranges d x := by
  rw [point_content, RunList.point_eq] at h
  split at h
  · cases h
  · exact List.mem_of_getElem? h

namespace Board

/-- A relation between consecutive worlds that composes holds between all. -/
theorem Grown.pairwise {h : History World} (hg : Grown h) {R : World → World → Prop}
    (htrans : ∀ {a b c}, R a b → R b c → R a c)
    (hstep : ∀ {w w' : World}, w.Sound → w.Moved w' → R w w') :
    h.commits.Pairwise fun later earlier => R earlier.world later.world := by
  have : Trans (fun later earlier : Commit World => R earlier.world later.world)
      (fun later earlier : Commit World => R earlier.world later.world)
      (fun later earlier : Commit World => R earlier.world later.world) :=
    ⟨fun hab hbc => htrans hbc hab⟩
  refine List.IsChain.pairwise (List.isChain_iff_getElem.2 fun i hi => ?_)
  exact hstep (hg.sound _ (List.getElem_mem _)) (List.isChain_iff_getElem.1 hg.moved i hi)

theorem Grown.links {h : History World} (hg : Grown h) (d : Address) :
    h.commits.Pairwise fun later earlier =>
      (earlier.world.m5.linkList d).den <+: (later.world.m5.linkList d).den := by
  refine hg.pairwise (R := fun w w' => (w.m5.linkList d).den <+: (w'.m5.linkList d).den)
    (fun h h' => h.trans h') fun _ hmoved => ?_
  rcases hmoved.links d with hkept | ⟨-, hle⟩
  · rw [hkept]
  · exact hle

end Board

namespace World

/-- Where a published document gains positions: at the end of its chain, or in the
document just minted. -/
theorem Moved.gains {w w' : World} (h : w.Moved w') (hw : w.Sound) {a : Address}
    (hpub : publishedTarget w'.m3 a = true)
    (hgain : w.m5.contentCount a < w'.m5.contentCount a) : depositSurface w.m3 a = a ∨
      w.m3.isRegisteredDocument a = false ∧ w'.m3.isRegisteredDocument a = true := by
  cases h.content a with
  | kept hkept =>
    rw [contentCount_eq, contentCount_eq, hkept] at hgain
    exact absurd hgain (lt_irrefl _)
  | edited hdoc hprivate =>
    rw [h.grows.publishedTarget_eq hw.m3 hdoc, hprivate] at hpub
    cases hpub
  | deposited more hdoc hsurface hden => exact .inl hsurface
  | minted hnew hdoc => exact .inr ⟨hnew, hdoc⟩

/-- A birth extent is what its document was minted with, and stays. -/
theorem Moved.birth_noted {w w' : World} (h : w.Moved w') {m : Address} {n : ℕ}
    (hn : w'.m5.birthExtent m = some n) : w.m5.birthExtent m = some n ∨
      w.m3.isRegisteredDocument m = false ∧ w'.m3.isRegisteredDocument m = true ∧
        w'.m5.contentCount m = n := by
  cases h.birth m with
  | kept hkept => exact .inl (hkept ▸ hn)
  | noted hnew hdoc hpub hnoted =>
    rw [hnoted, Option.some.injEq] at hn
    exact .inr ⟨hnew, hdoc, hn⟩

/-- Between two worlds of a run a published document keeps its positions. -/
theorem Evolves.point {w w' : World} (h : w.Evolves w') {a : Address}
    (hpub : publishedTarget w'.m3 a = true) : (∀ k x, w.m5.point a (.content k) = some x →
      w'.m5.point a (.content k) = some x) ∧ w.m5.contentCount a ≤ w'.m5.contentCount a := by
  have hle := h.published a hpub
  refine ⟨fun k x hx => ?_, ?_⟩
  · rw [M5State.point_content, RunList.point_eq] at hx ⊢
    split at hx
    · cases hx
    · next hk =>
      obtain ⟨more, hmore⟩ := hle
      rw [if_neg hk, ← hmore, List.getElem?_append_left (List.getElem?_eq_some_iff.1 hx).1, hx]
  · rw [contentCount_eq, contentCount_eq]
    exact hle.length_le

end World

/-- **The edition is append-only.** Over every run, a document of a published
chain holds at every later commit what it holds at an earlier one, position by
position, and its count never falls. Between consecutive commits only the
surface its chain's deposits land on gains positions, or the document the commit
mints. A birth extent never changes once noted, is no more than the document
holds, and is the count the document was minted with. -/
theorem edition_appendOnly (requests : List Request) :
    let commits := (Board.run requests).commits
    (commits.Pairwise fun later earlier => ∀ a, publishedTarget later.world.m3 a = true →
      (∀ k x, earlier.world.m5.point a (.content k) = some x →
        later.world.m5.point a (.content k) = some x) ∧
      earlier.world.m5.contentCount a ≤ later.world.m5.contentCount a) ∧
    (commits.IsChain fun later earlier => ∀ a, publishedTarget later.world.m3 a = true →
      earlier.world.m5.contentCount a < later.world.m5.contentCount a →
        depositSurface earlier.world.m3 a = a ∨
          earlier.world.m3.isRegisteredDocument a = false ∧
            later.world.m3.isRegisteredDocument a = true) ∧
    (commits.Pairwise fun later earlier => ∀ m n,
      earlier.world.m5.birthExtent m = some n → later.world.m5.birthExtent m = some n) ∧
    (∀ c ∈ commits, ∀ m n, c.world.m5.birthExtent m = some n → n ≤ c.world.m5.contentCount m) ∧
    commits.IsChain fun later earlier => ∀ m n, later.world.m5.birthExtent m = some n →
      earlier.world.m5.birthExtent m = some n ∨
        earlier.world.m3.isRegisteredDocument m = false ∧
          later.world.m3.isRegisteredDocument m = true ∧ later.world.m5.contentCount m = n := by
  intro commits
  have hg := Board.run_grown requests
  have hmoved : ∀ i (hi : i + 1 < commits.length), commits[i + 1].world.Sound ∧
      commits[i + 1].world.Moved commits[i].world := fun i hi =>
    ⟨hg.sound _ (List.getElem_mem _), List.isChain_iff_getElem.1 hg.moved i hi⟩
  refine ⟨?_, ?_, hg.evolves.imp World.Evolves.birth,
    fun c hc m n hn => ((hg.sound c hc).birth m n hn).2.2, ?_⟩
  · refine hg.evolves.imp ?_
    intro later earlier h a hpub
    exact h.point hpub
  · refine List.isChain_iff_getElem.2 fun i hi a hpub hgain => ?_
    exact (hmoved i hi).2.gains (hmoved i hi).1 hpub hgain
  · exact List.isChain_iff_getElem.2 fun i hi m n hn => (hmoved i hi).2.birth_noted hn

/-- **What is arranged is stored.** At every commit of every run, every content
position of every document has a value; a range of content resolves to runs the
store covers, each answering a value for each of its positions; what a commit's
own records state has a value in the world it leaves; and the links seated stay
in their places. -/
theorem content_stored (requests : List Request) :
    (∀ c ∈ (Board.run requests).commits,
      (∀ d k x, c.world.m5.point d (.content k) = some x →
        ∃ b, c.world.content.bytesAt x.tumbler = some b) ∧
      (∀ d span vspan, asOrdinalVspan span = some vspan → vspan.isContent = true →
        ∀ run ∈ c.world.m5.iterResolve d span,
          c.world.content.covered run.iStart.tumbler run.width = true ∧
          ((c.world.content.pieces run.iStart.tumbler run.width).flatMap Piece.values).length =
            run.width ∧
          ∀ i < run.width, c.world.content.bytesAt (run.iStart.tumbler.shift i) =
            ((c.world.content.pieces run.iStart.tumbler run.width).flatMap Piece.values)[i]?) ∧
      ∀ r ∈ c.records.filterMap Record.m5?, ∀ x ∈ denRuns r.stated,
        ∃ b, c.world.content.bytesAt x.tumbler = some b) ∧
    ∀ d, (Board.run requests).commits.Pairwise fun later earlier =>
      (earlier.world.m5.linkList d).den <+: (later.world.m5.linkList d).den := by
  have hg := Board.run_grown requests
  refine ⟨fun c hc => ⟨fun d k x hx => ?_, fun d span vspan hspan hcontent run hrun => ?_, ?_⟩,
    hg.links⟩
  · exact (hg.sound c hc).stored d x (M5State.arranges_of_point hx)
  · have hcovered := (hg.sound c hc).covered hspan hcontent hrun
    exact ⟨hcovered, ContentStore.pieces_values hcovered⟩
  · intro r hr x hx
    rcases hg.committed hc with rfl | ⟨e, he, ⟨inst, heffect⟩, hfold⟩
    · exact absurd hr List.not_mem_nil
    · exact heffect.stated_stored (hg.sound e he) hfold hr hx

/-- **The deletions of a document are exact.** After any run they are answered
without a fault, and denote a full element position exactly where some commit
arranged it in the document and the newest does not. After any records at all
they denote what some prefix of the records arranged and the whole does not. -/
theorem deletions_exact :
    (∀ requests doc, ∃ out, (Board.run requests).head.world.m5.deletions doc = .ok out ∧
      ∀ x, Run.admitsStart x = true → (out.denotes x.tumbler = true ↔
        (∃ c ∈ (Board.run requests).commits, c.world.m5.Arranges doc x) ∧
          ¬ (Board.run requests).head.world.m5.Arranges doc x)) ∧
    ∀ recs doc, ∃ out, (M5State.genesis.applyAll recs).deletions doc = .ok out ∧
      ∀ x, Run.admitsStart x = true → (out.denotes x.tumbler = true ↔
        M5State.EverArranged recs doc x ∧ ¬ (M5State.genesis.applyAll recs).Arranges doc x) := by
  refine ⟨fun requests doc => ?_, M5State.deletions_spec⟩
  have hg := Board.run_grown requests
  obtain ⟨out, hout, hden⟩ := M5State.deletions_spec (Board.stamped (Board.run requests)) doc
  rw [hg.replayed]
  refine ⟨out, hout, fun x hx => ?_⟩
  rw [hden x hx, hg.settled]
