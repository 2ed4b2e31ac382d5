import Skep.Arrangement.AddressForm
import Skep.Ops.Invariants
import Skep.Ops.Reminted

/-!
# The form a shot is signed in

What a client signs of a shot, and what a reader of the minted member checks the
signature against, are spelled alike: at the commit, and after every later one.

## Main results

- `addressForms_agree` — the request's form and the member's have one body
-/

/-- A record states the terms of the document it places a shot in alone. -/
theorem M5State.shotTerms_applyM5 (s : M5State) (seq : ℕ) {r : M5Rec} {m : Address}
    (h : ∀ runs terms draft, r ≠ .shotPlace m runs terms draft) :
    (s.applyM5 seq r).shotTerms.get m = s.shotTerms.get m := by
  cases r with
  | shotPlace doc runs terms draft =>
    have hne : m ≠ doc := by
      rintro rfl
      exact h _ _ _ rfl
    rw [applyM5]
    split <;> exact OrdMap.get_insert_of_ne _ _ hne
  | versionSnapshot source new =>
    rw [applyM5]
    split <;> rfl
  | contentPlace | contentRemove | contentReorder | linkSeat | draftBase => rfl

theorem M5State.shotTerms_foldl (s : M5State) (seq : ℕ) {recs : List M5Rec} {m : Address}
    (h : ∀ r ∈ recs, ∀ runs terms draft, r ≠ .shotPlace m runs terms draft) :
    (recs.foldl (fun s r => s.applyM5 seq r) s).shotTerms.get m = s.shotTerms.get m := by
  induction recs generalizing s with
  | nil => rfl
  | cons r recs ih =>
    rw [List.foldl_cons, ih _ fun r' hr' => h r' (List.mem_cons_of_mem _ hr'),
      s.shotTerms_applyM5 seq (h r List.mem_cons_self)]

/-- No operation places a shot in a document there is already. -/
theorem Effect.shotTerms {w w' : World} {inst : Option Address} {recs : List Record} {seq : ℕ}
    (h : Effect w inst recs) (hw : w.Sound) (hfold : foldAt w seq recs = .ok w') {m : Address}
    (hm : w.m3.isRegisteredDocument m = true) :
    w'.m5.shotTerms.get m = w.m5.shotTerms.get m := by
  rw [World.foldAt_m5 hfold]
  refine M5State.shotTerms_foldl _ _ fun r hr runs terms draft heq => ?_
  subst heq
  cases h with
  | edit hdoc hprivate helems hedits =>
    rw [List.filterMap_append, filterMap_m5_elements helems, filterMap_m5_arrangement,
      List.nil_append] at hr
    exact nomatch hedits _ hr
  | deposit hdoc hpub helems =>
    rw [List.filterMap_append, filterMap_m5_elements helems, List.nil_append] at hr
    exact nomatch List.mem_singleton.1 hr
  | fork => exact nomatch List.mem_singleton.1 hr
  | stage =>
    rcases List.mem_pair.1 hr with heq | heq
    · cases heq
    · cases heq
  | @publish _ anchor elems _ _ _ helems hruns hanchor hpub hmember hdraft =>
    rw [List.filterMap_append, filterMap_m5_elements helems, List.nil_append] at hr
    cases List.mem_singleton.1 hr
    -- the document of a shot is minted beside it
    have hfold' : foldAt w seq (elems ++ .namespaceRec (.allocate m true) ::
      [M5Rec.shotPlace m runs terms _].map Record.arrangement) = .ok w' := hfold
    obtain ⟨mid, hmid, happ, -⟩ := World.foldAt_mint helems hfold'
    have hminted := (ForkMint.version hanchor hpub hmember).minted hw hmid happ
    rw [hminted.fresh] at hm
    cases hm
  | seat => exact nomatch List.mem_singleton.1 hr
  | entity hrecs =>
    obtain ⟨_, hmem, hnone⟩ := List.mem_filterMap.1 hr
    obtain ⟨_, -, rfl⟩ := List.mem_map.1 hmem
    cases hnone

/-- What every later commit keeps of a published member of a world. -/
structure MemberKept (w : World) (member : Address) (w' : World) : Prop where
  registered : w'.m3.isRegisteredDocument member = true
  published : publishedTarget w'.m3 member = true
  content : (w.m5.contentList member).den <+: (w'.m5.contentList member).den
  terms : w'.m5.shotTerms.get member = w.m5.shotTerms.get member
  values : ∀ t b, w.content.bytesAt t = some b → w'.content.bytesAt t = some b

theorem MemberKept.step {w₀ w w' : World} {member : Address} {inst : Option Address}
    {recs : List Record} {seq : ℕ} (h : MemberKept w₀ member w) (hw : w.Sound)
    (heffect : Effect w inst recs) (hfold : foldAt w seq recs = .ok w') : MemberKept w₀ member w' := by
  have hevolves := (heffect.moved hw hfold).evolves hw
  have hpub : publishedTarget w'.m3 member = true := by
    rw [hevolves.grows.publishedTarget_eq hw.m3 h.registered, h.published]
  exact ⟨hevolves.grows.registered _ h.registered, hpub, h.content.trans (hevolves.published _ hpub),
    (heffect.shotTerms hw hfold h.registered).trans h.terms,
    fun t b hb => hevolves.values t b (h.values t b hb)⟩

namespace Board

theorem Grown.foldl {h : History World} (hg : Grown h) (later : List Request) :
    Grown (later.foldl Board.step h) := by
  induction later generalizing h with
  | nil => exact hg
  | cons r later ih => exact ih (hg.step r)

/-- A member of a run's newest world is kept by every run from there. -/
theorem Grown.memberKept {h : History World} (hg : Grown h) {member : Address}
    (hreg : h.head.world.m3.isRegisteredDocument member = true)
    (hpub : publishedTarget h.head.world.m3 member = true) (later : List Request) :
    MemberKept h.head.world member (later.foldl Board.step h).head.world := by
  induction later using List.reverseRecOn with
  | nil => exact ⟨hreg, hpub, List.prefix_rfl, rfl, fun _ _ hb => hb⟩
  | append_singleton later r ih =>
    rw [List.foldl_append, List.foldl_cons, List.foldl_nil]
    have hg' := hg.foldl later
    rcases step_cases r (hg'.snapshot_grows r.age) with
      hsame | ⟨stg, inst, recs, w, -, -, heffect, -, -, hfold, hstep⟩
    · rwa [hsame]
    · rw [hstep]
      exact ih.step (hg'.sound _ List.mem_cons_self) heffect hfold

end Board

/-- The values of a world, by the address they are stored at. -/
def World.valueAt (w : World) (x : Address) : Option (List UInt8) := w.content.bytesAt x.tumbler

theorem World.valueAt_later {w w' : World} {x : Address} {b : List UInt8}
    (hvalues : ∀ t b, w.content.bytesAt t = some b → w'.content.bytesAt t = some b)
    (h : w.content.bytesAt x.tumbler = some b) : w'.valueAt x = some b := hvalues _ _ h

theorem Shot.byValue_eq {shot : Shot} {trunk : Address} {run : Run}
    (h : shot.reinserts run = false) :
    shot.byValue trunk run = decide (runOriginDocument run = some trunk) := by
  rw [reinserts, Option.any_eq_false] at h
  rw [byValue]
  cases horigin : runOriginDocument run with
  | none => rfl
  | some o => simp [h o horigin, beq_eq_decide]

open Vstream in
/-- A run of the request reads as the positions it is placed at do. -/
theorem Shot.statedCells_eq {w w' later : World} {trunk : Address} {shot : Shot}
    {f : Address → Address} (h : Remints w w' trunk shot f) (htrunk : trunk.level = .document)
    (hself : trunkOf trunk = trunk)
    (hvalues : ∀ t b, w.content.bytesAt t = some b → later.content.bytesAt t = some b)
    (hvalues' : ∀ t b, w'.content.bytesAt t = some b → later.content.bytesAt t = some b)
    {stated : ShotRun} (hs : stated ∈ shot.runs)
    (hstored : ∀ x ∈ stated.run.addrs, ∃ b, w.content.bytesAt x.tumbler = some b) :
    shot.statedCells trunk w.valueAt stated = (placedAs shot f stated).map fun x =>
      if x.originDocument = some trunk then .inl (later.valueAt x) else .inr x := by
  rw [statedCells, placedAs]
  cases hnative : shot.reinserts stated.run with
  | true =>
    have hvalue : shot.byValue trunk stated.run = true := by
      obtain ⟨d, hd, hrun⟩ := reinserts_iff.1 hnative
      simp [byValue, hrun, isDraftNative_iff.2 hd]
    rw [if_pos rfl, List.map_map]
    refine List.map_congr_left fun x hx => ?_
    have hmem := mem_reinsertedAddrs.2 ⟨stated, hs, hnative, hx⟩
    have horigin := h.originDocument htrunk hmem
    obtain ⟨b, hb, hb'⟩ := h.value x hmem
    rw [hself] at horigin
    rw [if_pos hvalue, Function.comp_apply, if_pos horigin, World.valueAt_later hvalues' hb']
    exact congrArg Sum.inl hb
  | false =>
    rw [if_neg Bool.false_ne_true]
    refine List.map_congr_left fun x hx => ?_
    rw [byValue_eq hnative, runOriginDocument_of_mem hx]
    by_cases horigin : runOriginDocument stated.run = some trunk
    · obtain ⟨b, hb⟩ := hstored x hx
      rw [decide_eq_true horigin, if_pos rfl, if_pos horigin, World.valueAt_later hvalues hb]
      exact congrArg Sum.inl hb
    · rw [decide_eq_false horigin, if_neg Bool.false_ne_true, if_neg horigin]

namespace Vstream

section Published

variable {w : World} {first : ℕ} {stg' : Staging World} {caller : Caller} {doc member : Address}
  {shot : Shot} {pairing : Pairing} {fresh : List Address} {placement : List Run}

theorem length_placed (shot : Shot) (f : Address → Address) :
    (shot.runs.flatMap (placedAs shot f)).length =
      (shot.runs.map fun stated => stated.run.width).sum := by
  rw [List.length_flatMap]
  congr 1
  refine List.map_congr_left fun stated _ => ?_
  rw [placedAs]
  split
  · rw [List.length_map, Run.length_addrs]
  · exact Run.length_addrs _

/-- A committed shot leaves its placement, and states how much of it is the client's. -/
theorem Published.shotTerms
    (h : Published (.start w first) stg' caller doc shot member pairing fresh placement)
    {recs : List Record} (hrecs : (Staging.start w first).Pushed recs stg') {w' : World} {seq : ℕ}
    (hfold : foldAt w seq recs = .ok w') : w'.m5.shotTerms.get member =
      some ⟨(shot.runs.map fun stated => stated.run.width).sum, shot.base.map Base.extent⟩ := by
  obtain ⟨mid, hissued, hlast⟩ := h.staged
  obtain ⟨elems, helems, hmints⟩ := hissued.pushed
  obtain rfl := (helems.append hlast).unique hrecs
  rw [World.foldAt_m5 hfold, List.filterMap_append, filterMap_m5_elements hmints, List.nil_append]
  show (M5State.applyM5 _ _ (.shotPlace _ _ _ _)).shotTerms.get member = _
  rw [M5State.applyM5]
  split <;> exact OrdMap.get_insert_self _ _ _

end Published

end Vstream

open Vstream in
/-- **The signed form agrees on both sides of the commit.** A shot committed after any
run, and any run from there: the minted member's terms state a number of positions,
and the form of the request and the form of so many positions of the member have one
body, segment for segment. The request is read in the world the shot was committed
over and the member in the newest one, and every value read is stored. -/
theorem addressForms_agree (requests later : List Request) (gap seq : ℕ) (caller : Caller)
    (doc member : Address) (shot : Shot) (readable : World → Address → Bool) (pairing : Pairing)
    (h' : History World)
    (hrun : (Board.run requests).transact gap (fun stg => stagePublish stg caller doc shot readable) =
      .ok (((member, pairing), seq), h')) :
    let before := (Board.run requests).head.world
    let world := (later.foldl Board.step h').head.world
    ∃ terms, world.m5.shotTerms.get member = some terms ∧
      h'.head.world.m5.shotTerms.get member = some terms ∧
      bodySegments before.valueAt (shot.addressForm doc) =
        bodySegments world.valueAt (world.m5.addressFormOf member terms.placed) ∧
      bodySegments world.valueAt (shot.addressForm doc) =
        bodySegments world.valueAt (world.m5.addressFormOf member terms.placed) ∧
      ∀ vs, .values vs ∈ bodySegments world.valueAt (world.m5.addressFormOf member terms.placed) →
        none ∉ vs := by
  intro before world
  have hstep : Board.step (Board.run requests) ⟨.publish caller doc shot readable, 0, gap⟩ = h' :=
    History.attempt_of_transact (fun stg hstg => (staged_eq_ok_iff (u := ())).2 ⟨_, hstg⟩) hrun
  have hg := Board.run_grown requests
  have hg' : Board.Grown h' := hstep ▸ hg.step _
  have hbefore : before.Sound := hg.sound _ List.mem_cons_self
  obtain ⟨stg', fresh, placement, recs, hpublished, hrecs, hfold⟩ := publish_cases hrun
  have hremints := hpublished.remints hrecs hfold
  have hterms := hpublished.shotTerms hrecs hfold
  obtain ⟨hminted, hpub, hcontent⟩ := hpublished.minted hbefore hrecs hfold
  obtain ⟨admission, hadmitted, hmember, hreg⟩ := hpublished.admitted
  have hkept := hg'.memberKept hminted.registered hpub later
  have hvalues : ∀ t b, before.content.bytesAt t = some b → world.content.bytesAt t = some b :=
    fun t b hb => hkept.values t b (World.foldAt_values hfold t b hb)
  -- the member is of the chain the shot was stated to
  have hchain : trunkOf member = trunkOf doc := by
    obtain ⟨-, htrunk, -⟩ := trunkOf_childOf (M3State.level_of_isRegisteredDocument hreg)
      (namespaceOf_eq_some hmember).1
    rw [htrunk, hadmitted.chain]
  have htrunk : (trunkOf doc).level = .document := by
    rw [level_trunkOf, M3State.level_of_isRegisteredDocument hadmitted.registered]
  -- later deposits stand past what the client placed
  have hclient : (world.m5.contentList member).den.take
      (shot.runs.map fun stated => stated.run.width).sum =
      shot.runs.flatMap (placedAs shot (remint (reinsertedAddrs shot) fresh)) := by
    obtain ⟨deposits, hdeposits⟩ := hkept.content
    rw [← hdeposits, hcontent, List.append_assoc, ← length_placed, List.take_left]
  obtain ⟨hmerged, hcells⟩ := world.m5.addressFormOf_spec member
    (shot.runs.map fun stated => stated.run.width).sum world.valueAt
  have hreads : ∀ read : Address → Option (List UInt8),
      (∀ stated ∈ shot.runs, shot.statedCells (trunkOf doc) read stated =
        shot.statedCells (trunkOf doc) before.valueAt stated) →
      (shot.addressForm doc).flatMap (runCells read) =
        (world.m5.addressFormOf member (shot.runs.map fun stated => stated.run.width).sum).flatMap
          (runCells world.valueAt) := by
    intro read hread
    rw [(shot.addressForm_spec doc read).2, hcells, hclient, hchain, List.map_flatMap]
    refine List.flatMap_congr fun stated hs => ?_
    rw [hread stated hs]
    exact Shot.statedCells_eq hremints htrunk (trunkOf_trunkOf doc) hvalues hkept.values hs
      (hpublished.stored stated hs)
  have hlater : ∀ stated ∈ shot.runs, shot.statedCells (trunkOf doc) world.valueAt stated =
      shot.statedCells (trunkOf doc) before.valueAt stated := by
    intro stated hs
    refine List.map_congr_left fun x hx => ?_
    obtain ⟨b, hb⟩ := hpublished.stored stated hs x hx
    rw [World.valueAt_later hvalues hb, show before.valueAt x = some b from hb]
  refine ⟨_, hkept.terms.trans hterms, hterms, bodySegments_eq (shot.addressForm_spec doc before.valueAt).1 hmerged
    (hreads _ fun _ _ => rfl), bodySegments_eq (shot.addressForm_spec doc world.valueAt).1 hmerged
    (hreads _ hlater), fun vs hvs hnone => ?_⟩
  have hmem := mem_runCells_of_mem_values hvs hnone
  rw [← hreads _ fun _ _ => rfl, (shot.addressForm_spec doc before.valueAt).2, List.mem_flatMap] at hmem
  obtain ⟨stated, hs, hmem⟩ := hmem
  obtain ⟨x, hx, hcell⟩ := List.mem_map.1 hmem
  obtain ⟨b, hb⟩ := hpublished.stored stated hs x hx
  split at hcell
  · rw [Sum.inl.injEq] at hcell
    rw [show before.valueAt x = some b from hb] at hcell
    cases hcell
  · cases hcell

open Vstream in
/-- The shot of a draft's two values is signed alike before and after. -/
theorem addressForms_agree_rendering : ∃ member pairing seq h' terms,
    (Board.run Rendering.requests).transact 0 (fun stg => stagePublish stg
      (.principal systemPrincipal) Rendering.chain Rendering.shot fun _ _ => true) =
        .ok (((member, pairing), seq), h') ∧
    h'.head.world.m5.shotTerms.get member = some terms ∧
    bodySegments (Board.run Rendering.requests).head.world.valueAt
        (Rendering.shot.addressForm Rendering.chain) =
      bodySegments h'.head.world.valueAt (h'.head.world.m5.addressFormOf member terms.placed) := by
  have hok : ((Board.run Rendering.requests).transact 0 (fun stg => stagePublish stg
      (.principal systemPrincipal) Rendering.chain Rendering.shot fun _ _ => true)).isOk = true := by
    decide +kernel
  obtain ⟨⟨⟨⟨member, pairing⟩, seq⟩, h'⟩, hrun⟩ := Outcome.isOk_iff.1 hok
  obtain ⟨terms, hterms, -, hbody, -⟩ := addressForms_agree Rendering.requests [] 0 seq _ _ member _ _
    pairing h' hrun
  exact ⟨member, pairing, seq, h', terms, hrun, hterms, hbody⟩
