import Skep.Ops.History

/-!
# What a committed shot has minted again

A shot places exactly what was rendered. The addresses of the drafts it names are
minted again under the chain's trunk, each once and in the order they first
occur; everything else is placed as it is named, and what the base holds past its
extent follows.

## Main results

- `Vstream.Published.remints`, `placesRendered` — a committed shot does both
- `publish_remints` — over every run
-/

theorem M3State.frontiers_applyM3 {ε ε' : Type} {s s' t t' : M3State} {seq seq' : ℕ} {r : M3Rec}
    (hst : s.frontiers = t.frontiers) (hs : (s.applyM3 seq r : Outcome ε M3State) = .ok s')
    (ht : (t.applyM3 seq' r : Outcome ε' M3State) = .ok t') : s'.frontiers = t'.frontiers := by
  cases r with
  | allocate addr pub =>
    obtain ⟨key, hkey, -, rfl⟩ := applyM3_allocate_iff.1 hs
    obtain ⟨key', hkey', -, rfl⟩ := applyM3_allocate_iff.1 ht
    obtain rfl := Option.some.inj (hkey.symm.trans hkey')
    rw [hst]
  | allocateRange first count =>
    obtain ⟨key, hkey, -, rfl⟩ := applyM3_allocateRange_iff.1 hs
    obtain ⟨key', hkey', -, rfl⟩ := applyM3_allocateRange_iff.1 ht
    obtain rfl := Option.some.inj (hkey.symm.trans hkey')
    rw [hst]
  | registerNode addr =>
    cases hs
    cases ht
    exact hst
  | registerPrincipal pre id =>
    cases hs
    cases ht
    exact hst

theorem World.frontiers_of_pushed {stg stg' : Staging World} {recs : List Record}
    (h : stg.Pushed recs stg') {w w' : World} {seq : ℕ}
    (hw : w.m3.frontiers = stg.working.m3.frontiers) (hfold : foldAt w seq recs = .ok w') :
    w'.m3.frontiers = stg'.working.m3.frontiers := by
  induction h generalizing w with
  | nil =>
    cases hfold
    exact hw
  | @cons stg stg' r recs next hnext _ ih =>
    obtain ⟨mid, hmid, hrest⟩ := foldAt_cons_eq_ok_iff.1 hfold
    refine ih ?_ hrest
    obtain ⟨hns, -, hkeep, -⟩ := apply_eq_ok hmid
    obtain ⟨hns', -, hkeep', -⟩ := apply_eq_ok hnext
    cases r with
    | namespaceRec x => exact M3State.frontiers_applyM3 hw (hns x rfl).1 (hns' x rfl).1
    | content x => rw [hkeep rfl, hw, hkeep' rfl]
    | contentStretch x => rw [hkeep rfl, hw, hkeep' rfl]
    | arrangement x => rw [hkeep rfl, hw, hkeep' rfl]

theorem contentFrontier_congr {w w' : World} (h : w.m3.frontiers = w'.m3.frontiers)
    (home : Address) : contentFrontier w home = contentFrontier w' home := by
  rw [contentFrontier, M3State.effectiveFrontier, h]
  rfl

theorem contentNs_injective {a b : Address} (h : contentNs a = contentNs b) : a = b := by
  have hcomps := congrArg (fun key : NsKey => key.parent.comps) h
  simp only [M3State.contentNs_comps] at hcomps
  exact Address.ext (List.append_cancel_right hcomps)

open Vstream in
/-- A shot's draft addresses are minted again by `f`: as the next addresses of the
trunk's content chain, in order, each with the value of its source. -/
structure Remints (w w' : World) (trunk : Address) (shot : Shot) (f : Address → Address) : Prop where
  injective : ∀ x ∈ reinsertedAddrs shot, ∀ y ∈ reinsertedAddrs shot, f x = f y → x = y
  comps : (reinsertedAddrs shot).map (fun x => (f x).comps) =
    (List.range shot.reinsertedValues).map fun k =>
      trunk.comps ++ [0, contentSubspace, contentFrontier w trunk + 1 + k]
  frontier : contentFrontier w' trunk = contentFrontier w trunk + shot.reinsertedValues
  others : ∀ home : Address, home.level = .document → home ≠ trunk →
    contentFrontier w' home = contentFrontier w home
  fresh : ∀ x ∈ reinsertedAddrs shot, w.content.bytesAt (f x).tumbler = none
  value : ∀ x ∈ reinsertedAddrs shot, ∃ b, w.content.bytesAt x.tumbler = some b ∧
    w'.content.bytesAt (f x).tumbler = some b

open Vstream in
/-- The minted member holds the runs as rendered, minted again by `f` where they
are a draft's, then the base's own positions past the extent stated. -/
structure PlacesRendered (w w' : World) (shot : Shot) (member : Address) (f : Address → Address) :
    Prop where
  minted : w.m3.isRegisteredDocument member = false ∧ w'.m3.isRegisteredDocument member = true
  content : (w'.m5.contentList member).den = shot.runs.flatMap (placedAs shot f) ++
    shot.base.toList.flatMap fun b => (w.m5.contentList b.member).den.drop b.extent
  undrafted : ∀ x ∈ shot.runs.flatMap (placedAs shot f), ∀ d ∈ shot.namedDrafts,
    x.originDocument ≠ some d

open Vstream in
theorem Remints.originDocument {w w' : World} {trunk : Address} {shot : Shot}
    {f : Address → Address} (h : Remints w w' trunk shot f) (htrunk : trunk.level = .document)
    {x : Address} (hx : x ∈ reinsertedAddrs shot) : (f x).originDocument = some (trunkOf trunk) := by
  obtain ⟨k, hk⟩ := List.mem_iff_getElem?.1 hx
  have hlt : k < shot.reinsertedValues := by
    rw [← length_reinsertedAddrs]
    exact (List.getElem?_eq_some_iff.1 hk).1
  have hcomps := congrArg (fun l => l[k]?) h.comps
  simp only [List.getElem?_map, hk, List.getElem?_range hlt, Option.map_some,
    Option.some.injEq] at hcomps
  rw [Address.originDocument_of_parts htrunk (by decide) (by omega) hcomps, if_pos rfl]

namespace Vstream

section Published

variable {w : World} {first : ℕ} {stg' : Staging World} {caller : Caller} {doc member : Address}
  {shot : Shot} {pairing : Pairing} {fresh : List Address} {placement : List Run}

/-- The fresh addresses, in the order of their sources. -/
theorem Published.map_remint {stg : Staging World}
    (h : Published stg stg' caller doc shot member pairing fresh placement) :
    (reinsertedAddrs shot).map (remint (reinsertedAddrs shot) fresh) = fresh := by
  obtain ⟨mid, hissued, -⟩ := h.staged
  refine List.ext_getElem? fun k => ?_
  rw [List.getElem?_map]
  cases hk : (reinsertedAddrs shot)[k]? with
  | none =>
    rw [List.getElem?_eq_none_iff] at hk
    rw [Option.map_none, eq_comm, List.getElem?_eq_none_iff, hissued.length_eq, List.length_map]
    exact hk
  | some x => rw [Option.map_some, h.remint_eq hk]

/-- A committed world has the frontiers and the store the placement left. -/
theorem Published.committed
    (h : Published (.start w first) stg' caller doc shot member pairing fresh placement)
    {recs : List Record} (hrecs : (Staging.start w first).Pushed recs stg') {w' : World} {seq : ℕ}
    (hfold : foldAt w seq recs = .ok w') : ∃ mid : Staging World,
      MintedAll (.start w first) mid (trunkOf doc) ((reinsertedAddrs shot).map (valueOf w.content))
        fresh ∧
      w'.content = mid.working.content ∧
      ∀ home : Address, home.level = .document →
        contentFrontier w' home = contentFrontier mid.working home := by
  obtain ⟨admission, hadmitted, hmember, hreg⟩ := h.admitted
  obtain ⟨mid, hissued, hlast⟩ := h.staged
  refine ⟨mid, hissued, ?_, fun home hhome => ?_⟩
  · have hend := World.pushed_content hrecs
    rw [show (Staging.start w first).working = w from rfl, ← World.foldAt_content hfold,
      World.pushed_content hlast] at hend
    exact hend.symm
  · rw [contentFrontier_congr (World.frontiers_of_pushed hrecs rfl hfold)]
    -- the last two records issue a version and no content
    cases hlast with
    | cons alloc halloc hrest =>
      cases hrest with
      | cons shotPlace hshot hnil =>
        cases hnil
        obtain ⟨hns, -, -, -⟩ := World.apply_eq_ok halloc
        obtain ⟨-, harr, -, -⟩ := World.apply_eq_ok hshot
        have hkey : namespaceOf member ≠ some (contentNs home) := by
          rw [hmember, ne_eq, Option.some.injEq]
          intro heq
          have hlv := M3State.level_of_isRegisteredDocument hreg
          have hcount := congrArg (fun key : NsKey => key.parent.comps.count 0) heq
          have hanchor := admission.anchor.count_zero
          have hcount' := home.count_zero
          rw [hlv] at hanchor
          rw [hhome] at hcount'
          simp [M3State.contentNs_comps, versionNs, contentSubspace, Address.comps, Level.zeros,
            List.count_append] at hcount hanchor hcount'
          omega
        calc contentFrontier shotPlace home = alloc.m3.effectiveFrontier (contentNs home) := by
              rw [contentFrontier, (harr _ rfl).1]
          _ = contentFrontier mid.working home := effectiveFrontier_of_allocate (hns _ rfl).1 hkey

theorem Published.remints
    (h : Published (.start w first) stg' caller doc shot member pairing fresh placement)
    {recs : List Record} (hrecs : (Staging.start w first).Pushed recs stg') {w' : World} {seq : ℕ}
    (hfold : foldAt w seq recs = .ok w') :
    Remints w w' (trunkOf doc) shot (remint (reinsertedAddrs shot) fresh) := by
  obtain ⟨mid, hissued, hcontent, hfrontiers⟩ := h.committed hrecs hfold
  obtain ⟨admission, hadmitted, -, -⟩ := h.admitted
  have htrunk : (trunkOf doc).level = .document := by
    rw [level_trunkOf, M3State.level_of_isRegisteredDocument hadmitted.registered]
  have hcomps := hissued.comps
  rw [List.length_map, length_reinsertedAddrs] at hcomps
  have hmap := h.map_remint
  have hget : ∀ {k x}, (reinsertedAddrs shot)[k]? = some x →
      fresh[k]? = some (remint (reinsertedAddrs shot) fresh x) := fun hx => h.remint_eq hx
  have hnodup : fresh.Nodup := by
    refine List.Nodup.of_map Address.comps ?_
    rw [hcomps]
    exact List.Nodup.map_on (fun i _ j _ hij => by simpa using hij) List.nodup_range
  have hmem : ∀ x ∈ reinsertedAddrs shot, remint (reinsertedAddrs shot) fresh x ∈ fresh := by
    intro x hx
    have hx' := List.mem_map_of_mem (f := remint (reinsertedAddrs shot) fresh) hx
    rwa [hmap] at hx'
  refine ⟨fun x hx y hy heq => ?_, ?_, ?_, fun home hhome hne => ?_, fun x hx => ?_, fun x hx => ?_⟩
  · rw [← hmap] at hnodup
    exact List.inj_on_of_nodup_map hnodup hx hy heq
  · calc (reinsertedAddrs shot).map (fun x => (remint (reinsertedAddrs shot) fresh x).comps)
        = ((reinsertedAddrs shot).map (remint (reinsertedAddrs shot) fresh)).map Address.comps :=
          by rw [List.map_map]; rfl
      _ = fresh.map Address.comps := by rw [hmap]
      _ = _ := hcomps
  · rw [hfrontiers _ htrunk, hissued.frontier, List.length_map, length_reinsertedAddrs]
    rfl
  · rw [hfrontiers home hhome]
    exact hissued.others _ fun heq => hne (contentNs_injective heq)
  · exact hissued.fresh _ (hmem x hx)
  · obtain ⟨stated, hs, -, hx'⟩ := mem_reinsertedAddrs.1 hx
    obtain ⟨b, hb⟩ := h.stored stated hs x hx'
    obtain ⟨k, hk⟩ := List.mem_iff_getElem?.1 hx
    refine ⟨b, hb, ?_⟩
    rw [hcontent, hissued.stored k _ (hget hk), List.getElem?_map, hk, Option.map_some, valueOf]
    rw [show (Staging.start w first).working = w from rfl] at hb
    rw [hb, Option.getD_some]

/-- A committed shot mints its member, in a published chain, and places the runs and the
base's tail in it. -/
theorem Published.minted
    (h : Published (.start w first) stg' caller doc shot member pairing fresh placement)
    (hw : w.Sound) {recs : List Record} (hrecs : (Staging.start w first).Pushed recs stg')
    {w' : World} {seq : ℕ} (hfold : foldAt w seq recs = .ok w') :
    DocumentMinted w.m3 w'.m3 member true ∧ publishedTarget w'.m3 member = true ∧
      (w'.m5.contentList member).den =
        shot.runs.flatMap (placedAs shot (remint (reinsertedAddrs shot) fresh)) ++
          shot.base.toList.flatMap fun b => (w.m5.contentList b.member).den.drop b.extent := by
  obtain ⟨admission, hadmitted, hmember, hreg⟩ := h.admitted
  obtain ⟨terms, elems, hmints, hpushed⟩ := h.pushed
  obtain rfl := hpushed.unique hrecs
  have hpub : publishedTarget w.m3 admission.anchor = true := by
    rw [publishedTarget, hadmitted.chain]
    exact hadmitted.published
  have hmint : ForkMint w member true := .version hreg hpub hmember
  have hfold' : foldAt w seq (elems ++ .namespaceRec (.allocate member true) ::
    [M5Rec.shotPlace member placement terms shot.draft].map Record.arrangement) = .ok w' := hfold
  obtain ⟨mid, hmid, happ, hm5⟩ := World.foldAt_mint hmints hfold'
  have hminted := hmint.minted hw hmid happ
  have hempty := hw.registered member hminted.fresh
  refine ⟨hminted, ?_, ?_⟩
  · obtain ⟨-, htrunk, -⟩ := trunkOf_childOf (M3State.level_of_isRegisteredDocument hreg)
      (namespaceOf_eq_some hmember).1
    rw [publishedTarget, htrunk, ← publishedTarget, hminted.grows.publishedTarget_eq hw.m3 hreg, hpub]
  · rw [List.foldl_cons, List.foldl_nil] at hm5
    have hden : (w'.m5.contentList member).den = denRuns placement := by
      rw [hm5, M5State.contentList_applyM5, if_pos (by simp only [M5Rec.moves]),
        M5State.contentAfter]
      split
      · next hnone => rw [hempty, List.isEmpty_iff.1 hnone, denRuns_nil]
      · simp [RunList.den_spliceIn, hempty]
    rw [hden, h.placed]
    rfl

theorem Published.placesRendered
    (h : Published (.start w first) stg' caller doc shot member pairing fresh placement)
    (hw : w.Sound) (hdrafts : trunkOf doc ∉ shot.namedDrafts) {recs : List Record}
    (hrecs : (Staging.start w first).Pushed recs stg') {w' : World} {seq : ℕ}
    (hfold : foldAt w seq recs = .ok w') :
    PlacesRendered w w' shot member (remint (reinsertedAddrs shot) fresh) := by
  obtain ⟨admission, hadmitted, -, -⟩ := h.admitted
  have hremints := h.remints hrecs hfold
  obtain ⟨hminted, -, hcontent⟩ := h.minted hw hrecs hfold
  refine ⟨⟨hminted.fresh, hminted.registered⟩, hcontent, fun x hx d hd => ?_⟩
  obtain ⟨stated, hs, hx⟩ := List.mem_flatMap.1 hx
  rw [placedAs] at hx
  split at hx
  · next hnative =>
    obtain ⟨y, hy, rfl⟩ := List.mem_map.1 hx
    have htrunk : (trunkOf doc).level = .document := by
      rw [level_trunkOf, M3State.level_of_isRegisteredDocument hadmitted.registered]
    rw [hremints.originDocument htrunk (mem_reinsertedAddrs.2 ⟨stated, hs, hnative, hy⟩),
      trunkOf_trunkOf, ne_eq, Option.some.injEq]
    rintro rfl
    exact hdrafts hd
  · next hforeign =>
    rw [runOriginDocument_of_mem hx]
    intro horigin
    exact hforeign (Shot.reinserts_iff.2 ⟨d, hd, horigin⟩)

end Published

end Vstream

/-- A committed shot is its staging's records folded over the newest world. -/
theorem publish_cases {h h' : History World} {gap seq : ℕ} {caller : Caller}
    {doc member : Address} {shot : Shot} {readable : World → Address → Bool} {pairing : Pairing}
    (hrun : h.transact gap (fun stg => Vstream.stagePublish stg caller doc shot readable) =
      .ok (((member, pairing), seq), h')) : ∃ stg' fresh placement recs,
      Vstream.Published (.start h.head.world (h.head.seq + gap + 1)) stg' caller doc shot member
        pairing fresh placement ∧
      (Staging.start h.head.world (h.head.seq + gap + 1)).Pushed recs stg' ∧
      foldAt h.head.world seq recs = .ok h'.head.world := by
  have hpushes : ∀ stg, Vstream.stagePublish (.start h.head.world (h.head.seq + gap + 1)) caller doc
      shot readable = .ok ((member, pairing), stg) →
      ∃ recs, (Staging.start h.head.world (h.head.seq + gap + 1)).Pushed recs stg := by
    intro stg hstg
    obtain ⟨fresh, placement, hpublished⟩ := Vstream.stagePublish_eq_ok hstg
    obtain ⟨terms, elems, -, hpushed⟩ := hpublished.pushed
    exact ⟨_, hpushed⟩
  obtain ⟨stg, recs, hstg, hpushed, hcase⟩ := History.transact_eq_ok hpushes hrun
  obtain ⟨fresh, placement, hpublished⟩ := Vstream.stagePublish_eq_ok hstg
  refine ⟨stg, fresh, placement, recs, hpublished, hpushed, ?_⟩
  rcases hcase with ⟨rfl, -⟩ | ⟨-, -, w', hfold, rfl⟩
  · obtain ⟨terms, elems, -, hpushed'⟩ := hpublished.pushed
    have hnil := congrArg List.length (hpushed'.unique hpushed)
    simp at hnil
  · exact hfold

open Vstream in
/-- **A shot places exactly what was rendered.** Over every run, a committed shot
whose named drafts are outside its chain mints each draft address it names once,
under the trunk, on content addresses no commit has stored a value at, as the last
of the trunk's content chain, in the order they first occur and with their values.
The minted member holds the runs so rendered, then what the base holds past its
extent; no address of a named draft is among the runs' own; and the pairing answers
one group for each run, which tiles the run where it is a draft's. -/
theorem publish_remints (requests : List Request) (gap seq : ℕ) (caller : Caller)
    (doc member : Address) (shot : Shot) (readable : World → Address → Bool) (pairing : Pairing)
    (h' : History World) (hdrafts : trunkOf doc ∉ shot.namedDrafts)
    (hrun : (Board.run requests).transact gap (fun stg => stagePublish stg caller doc shot readable) =
      .ok (((member, pairing), seq), h')) : ∃ f,
    Remints (Board.run requests).head.world h'.head.world (trunkOf doc) shot f ∧
    (∀ c ∈ (Board.run requests).commits, ∀ x ∈ reinsertedAddrs shot,
      c.world.content.bytesAt (f x).tumbler = none) ∧
    PlacesRendered (Board.run requests).head.world h'.head.world shot member f ∧
    ∃ groups : List Pairing, groups.length = shot.runs.length ∧ pairing = groups.flatten ∧
      ∀ i stated group, shot.runs[i]? = some stated → groups[i]? = some group →
        PairedStated shot f i stated group := by
  have hg := Board.run_grown requests
  obtain ⟨stg', fresh, placement, recs, hpublished, hrecs, hfold⟩ := publish_cases hrun
  have hremints := hpublished.remints hrecs hfold
  refine ⟨_, hremints, fun c hc x hx => ?_, hpublished.placesRendered (hg.sound _ List.mem_cons_self)
    hdrafts hrecs hfold, hpublished.pairing⟩
  -- a value once stored would be there still
  by_contra hne
  obtain ⟨b, hb⟩ := Option.ne_none_iff_exists'.1 hne
  have hnow : (Board.run requests).head.world.content.bytesAt
      (remint (reinsertedAddrs shot) fresh x).tumbler = some b := by
    rcases List.mem_cons.1 hc with rfl | hc
    · exact hb
    · exact ((List.pairwise_cons.1 hg.evolves).1 c hc).values _ _ hb
  rw [hremints.fresh x hx] at hnow
  cases hnow

namespace Rendering

/-- A published document of the system account. -/
def chain : Address := firstCreated

/-- A draft beside it. -/
def draft : Address := ⟨⟨[1, 1, 0, 1, 0, 4], by simp⟩, .document, by decide⟩

/-- The two values inserted into the draft. -/
def run : Run := ⟨⟨⟨[1, 1, 0, 1, 0, 4, 0, 1, 1], by simp⟩, .element, by decide⟩, 2, by decide, by decide⟩

/-- Both documents are created, and the values inserted. -/
def requests : List Request :=
  [⟨.ofNamespace (.createNewDocument systemPrincipal systemAccount (some true)), 0, 0⟩,
    ⟨.ofNamespace (.createNewDocument systemPrincipal systemAccount (some false)), 0, 0⟩,
    ⟨.insert (.principal systemPrincipal) draft (.content 1) [⟨[7]⟩, ⟨[8]⟩] .undeclared .unchecked, 0,
      0⟩]

/-- The draft's content, named twice. -/
def shot : Shot := ⟨none, some draft, [], [⟨draft, run⟩, ⟨draft, run⟩]⟩

end Rendering

open Vstream in
/-- A shot of a draft's two values is committed with two addresses minted again. -/
theorem publish_remints_rendering : trunkOf Rendering.chain ∉ Rendering.shot.namedDrafts ∧
    ∃ member pairing seq h', (Board.run Rendering.requests).transact 0 (fun stg => stagePublish stg
      (.principal systemPrincipal) Rendering.chain Rendering.shot fun _ _ => true) =
        .ok (((member, pairing), seq), h') ∧
    ∃ f, Remints (Board.run Rendering.requests).head.world h'.head.world (trunkOf Rendering.chain)
      Rendering.shot f ∧
      PlacesRendered (Board.run Rendering.requests).head.world h'.head.world Rendering.shot member f := by
  have hdrafts : trunkOf Rendering.chain ∉ Rendering.shot.namedDrafts := by decide
  have hok : ((Board.run Rendering.requests).transact 0 (fun stg => stagePublish stg
      (.principal systemPrincipal) Rendering.chain Rendering.shot fun _ _ => true)).isOk = true := by
    decide +kernel
  obtain ⟨⟨⟨⟨member, pairing⟩, seq⟩, h'⟩, hrun⟩ := Outcome.isOk_iff.1 hok
  obtain ⟨f, hremints, -, hplaces, -⟩ := publish_remints Rendering.requests 0 seq _ _ member _ _
    pairing h' hdrafts hrun
  exact ⟨hdrafts, member, pairing, seq, h', hrun, f, hremints, hplaces⟩
