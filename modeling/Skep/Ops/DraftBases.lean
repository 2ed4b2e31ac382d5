import Skep.Ops.Staleness

/-!
# The bases of drafts

A draft's recorded base is a registered document of a published chain, and no
more of it than it holds: a shot that states it meets no verdict on its base.
The entry moves with the commits that install it alone.

## Main results

- `Vstream.stagePublish_base` — a shot on a publishable base
- `draftBase_publishable` — the recorded base of every draft
-/

/-- The draft whose entry a record installs. -/
def M5Rec.installs : M5Rec → Option Address
  | .draftBase draft .. => some draft
  | .shotPlace _ _ _ draft => draft
  | _ => none

/-- A commit with a record that installs the entry of a draft. -/
def Commit.Installs (c : Commit World) (d : Address) : Prop :=
  ∃ r ∈ c.records.filterMap Record.m5?, r.installs = some d

namespace M5State

theorem draftBase_of_not_installs {s : M5State} {seq : ℕ} {r : M5Rec} {d : Address}
    (h : r.installs ≠ some d) : (s.applyM5 seq r).draftBase d = s.draftBase d := by
  rw [draftBase_applyM5]
  cases r with
  | draftBase draft =>
    simp only
    rw [if_neg fun hd => h (by rw [hd]; rfl)]
  | shotPlace doc runs terms draft =>
    cases draft with
    | none => rfl
    | some draft =>
      simp only
      rw [if_neg fun hd => h (by rw [hd]; rfl)]
  | _ => rfl

/-- An installed entry is stamped with the position it is folded at. -/
theorem draftBase_of_installs {s : M5State} {seq : ℕ} {r : M5Rec} {d : Address}
    (h : r.installs = some d) : ∃ b, (s.applyM5 seq r).draftBase d = some b ∧
      ∀ m, b.merge = some m → m.pos = seq := by
  rw [draftBase_applyM5]
  cases r with
  | draftBase draft base extent source merge =>
    cases h
    refine ⟨_, if_pos rfl, fun m hm => ?_⟩
    obtain ⟨m', -, rfl⟩ := Option.map_eq_some_iff.1 hm
    rfl
  | shotPlace doc runs terms draft =>
    cases h
    exact ⟨_, if_pos rfl, fun m hm => nomatch hm⟩
  | _ => cases h

/-- The entry a shot installs records no reconciliation. -/
theorem draftBase_shotPlace {s : M5State} {seq : ℕ} {doc draft : Address} {runs : List Run}
    {terms : ShotTerms} : ∃ b, (s.applyM5 seq (.shotPlace doc runs terms (some draft))).draftBase draft =
      some b ∧ b.merge = none := by
  rw [draftBase_applyM5]
  exact ⟨_, if_pos rfl, rfl⟩

theorem draftBase_foldl (seq : ℕ) (recs : List M5Rec) (s : M5State) (d : Address) :
    ((∀ r ∈ recs, r.installs ≠ some d) →
      (recs.foldl (fun s r => s.applyM5 seq r) s).draftBase d = s.draftBase d) ∧
    ((∃ r ∈ recs, r.installs = some d) →
      ∃ b, (recs.foldl (fun s r => s.applyM5 seq r) s).draftBase d = some b ∧
        ∀ m, b.merge = some m → m.pos = seq) := by
  induction recs generalizing s with
  | nil => exact ⟨fun _ => rfl, by simp⟩
  | cons r recs ih =>
    obtain ⟨hkept, hinstalled⟩ := ih (s.applyM5 seq r)
    refine ⟨fun hnone => ?_, ?_⟩
    · rw [List.foldl_cons, hkept fun r' hr' => hnone r' (List.mem_cons_of_mem _ hr'),
        draftBase_of_not_installs (hnone r List.mem_cons_self)]
    · rintro ⟨r', hr', hr''⟩
      by_cases hrest : ∃ r ∈ recs, r.installs = some d
      · exact hinstalled hrest
      · -- the last record that installs it is the head
        push Not at hrest
        rcases List.mem_cons.1 hr' with rfl | hr'
        · rw [List.foldl_cons, hkept hrest]
          exact draftBase_of_installs hr''
        · exact absurd hr'' (hrest r' hr')

end M5State

/-- An effect installs the entry of the draft it names and no other. -/
theorem Effect.installs {w : World} {inst : Option Address} {recs : List Record}
    (h : Effect w inst recs) {r : M5Rec} (hr : r ∈ recs.filterMap Record.m5?) {d : Address}
    (hd : r.installs = some d) : inst = some d := by
  cases h with
  | @edit doc elems stated clear fill hdoc hprivate helems hedits =>
    rw [List.filterMap_append, filterMap_m5_elements helems, filterMap_m5_arrangement,
      List.nil_append] at hr
    cases hedits r hr with
    | base source merge hstated =>
      rw [hstated]
      exact hd
    | place => cases hd
    | remove => cases hd
    | reorder => cases hd
  | @deposit doc elems runs hdoc hpub helems =>
    rw [List.filterMap_append, filterMap_m5_elements helems, List.nil_append] at hr
    obtain rfl := List.mem_singleton.1 hr
    cases hd
  | fork surface hmint =>
    obtain rfl := List.mem_singleton.1 hr
    cases hd
  | stage haccount hnew hbase =>
    rcases List.mem_pair.1 hr with rfl | rfl
    · cases hd
    · exact hd
  | @publish member anchor elems _ runs terms helems =>
    rw [List.filterMap_append, filterMap_m5_elements helems, List.nil_append] at hr
    obtain rfl := List.mem_singleton.1 hr
    exact hd
  | seat hdoc hlink =>
    obtain rfl := List.mem_singleton.1 hr
    cases hd
  | entity hrecs =>
    obtain ⟨_, hmem, hnone⟩ := List.mem_filterMap.1 hr
    obtain ⟨_, -, rfl⟩ := List.mem_map.1 hmem
    cases hnone

namespace Board

theorem Succeeds.draftBase {earlier later : Commit World} (h : Succeeds earlier later)
    (d : Address) :
    (¬ later.Installs d → later.world.m5.draftBase d = earlier.world.m5.draftBase d) ∧
      (later.Installs d → ∃ b, later.world.m5.draftBase d = some b ∧
        ∀ m, b.merge = some m → m.pos = later.seq) := by
  obtain ⟨hkept, hinstalled⟩ := M5State.draftBase_foldl later.seq
    (later.records.filterMap Record.m5?) earlier.world.m5 d
  rw [World.foldAt_m5 h.fold]
  exact ⟨fun hnone => hkept fun r hr hd => hnone ⟨r, hr, hd⟩, hinstalled⟩

/-- An entry is what the newest commit that installed it left, stamped with its
position. -/
theorem draftBase_spec {c : Commit World} {past : List (Commit World)} (h : Linked (c :: past))
    {d : Address} {b : DraftBase} (hb : c.world.m5.draftBase d = some b) :
    ∃ e ∈ c :: past, e.Installs d ∧ (∀ m, b.merge = some m → m.pos = e.seq) ∧
      ∀ e' ∈ c :: past, e'.Installs d → e'.seq ≤ e.seq := by
  induction past generalizing c with
  | nil =>
    rw [h.first] at hb
    cases hb
  | cons e past ih =>
    obtain ⟨hkept, hinstalled⟩ := Succeeds.draftBase (List.isChain_cons_cons.1 h.succeeds).1 d
    have hlt := (List.pairwise_cons.1 h.ordered).1
    by_cases hc : c.Installs d
    · obtain ⟨b', hb', hmerge⟩ := hinstalled hc
      obtain rfl := Option.some.inj (hb.symm.trans hb')
      refine ⟨c, List.mem_cons_self, hc, hmerge, fun e' he' _ => ?_⟩
      rcases List.mem_cons.1 he' with rfl | he'
      · exact le_rfl
      · exact (hlt e' he').le
    · rw [hkept hc] at hb
      obtain ⟨e', he', hinstalls, hmerge, hlast⟩ := ih h.tail hb
      refine ⟨e', List.mem_cons_of_mem _ he', hinstalls, hmerge, fun e'' he'' hd => ?_⟩
      rcases List.mem_cons.1 he'' with rfl | he''
      · exact absurd hd hc
      · exact hlast e'' he'' hd

end Board

namespace MintedIdentity

variable {ε : Type} {e : ε}

theorem gap_ne_err {run : Run} {lo hi : ℕ} : gap run lo hi ≠ .err e := by
  rw [gap]
  split <;> simp [Outcome.bind_eq_err_iff, pieceOf]

theorem portionsFrom_ne_err {run : Run} {cursor : ℕ} {covered : List (ℕ × ℕ × Address)} :
    portionsFrom run cursor covered ≠ .err e := by
  induction covered generalizing cursor with
  | nil => exact gap_ne_err
  | cons c covered ih =>
    simp [portionsFrom, Outcome.bind_eq_err_iff, gap_ne_err, pieceOf, ih]

theorem portionsOf_ne_err {m : MintedIdentity} {run : Run} : m.portionsOf run ≠ .err e := by
  intro h
  rcases Outcome.bind_eq_err_iff.1 h with h | ⟨_, -, h⟩
  · obtain ⟨a, -, h⟩ := Outcome.mapM_eq_err h
    simp [clipped, Outcome.bind_eq_err_iff] at h
  · exact portionsFrom_ne_err h

theorem noteFrom_ne_err {piece : Run} {home : Address} {index : ℕ} {fresh : List Run} {offset : ℕ}
    {pieces : OrdMap ℕ (ℕ × Address)} {pairing : Pairing} :
    noteFrom piece home index fresh offset pieces pairing ≠ .err e := by
  induction fresh generalizing offset pieces pairing with
  | nil => simp [noteFrom]
  | cons toRun fresh ih => simp [noteFrom, Outcome.bind_eq_err_iff, ih]

theorem note_ne_err {m : MintedIdentity} {piece : Run} {fresh : List Run} {home : Address}
    {index : ℕ} {pairing : Pairing} : m.note piece fresh home index pairing ≠ .err e := by
  simp [note, Outcome.bind_eq_err_iff, noteFrom_ne_err]

end MintedIdentity

/-- A verdict on the placement of an admitted shot. -/
inductive PublishError.OfPlacement : PublishError → Prop
  | danglingSource : OfPlacement .danglingSource
  | tooManyRuns : OfPlacement .tooManyRuns
  | tooManyValues : OfPlacement .tooManyValues
  | mint (m : MintError) : OfPlacement (.mint m)
  | content (c : ContentError) : OfPlacement (.content c)

namespace Vstream

variable {e : PublishError}

theorem allocatePart_eq_err {trunk : Address} {acc : List Run × Staging World} {part : Part}
    (h : allocatePart trunk acc part = .err e) : e.OfPlacement := by
  have hcases : (∃ m, e = .mint m) ∨ ∃ c, e = .content c := by
    cases part with
    | run bytes => exact allocateStretchForPlacement_eq_err h
    | atom v => exact allocateForPlacement_eq_err h
  rcases hcases with ⟨m, rfl⟩ | ⟨c, rfl⟩
  · exact .mint m
  · exact .content c

theorem reinsert_eq_err {stg : Staging World} {trunk : Address} {piece : Run}
    (h : reinsert stg trunk piece = .err e) : e.OfPlacement := by
  rcases Outcome.bind_eq_err_iff.1 h with h | ⟨_, -, h⟩
  · rw [Outcome.require] at h
    split at h <;> cases h
  · obtain ⟨part, -, acc, h⟩ := Outcome.foldlM_eq_err h
    exact allocatePart_eq_err h

theorem placePortion_eq_err {trunk home : Address} {index : ℕ} {p : Placing} {portion : Portion}
    (h : placePortion trunk home index p portion = .err e) : e.OfPlacement := by
  cases portion with
  | referenced => cases h
  | unminted piece =>
    simp only [placePortion, Outcome.bind_eq_err_iff, MintedIdentity.note_ne_err, Outcome.pure_eq,
      reduceCtorEq, and_false, exists_false, or_false] at h
    exact reinsert_eq_err h

theorem placeRun_eq_err {shot : Shot} {trunk : Address} {index : ℕ} {p : Placing}
    {settled : SettledRun} (h : placeRun shot trunk index p settled = .err e) : e.OfPlacement := by
  rw [placeRun] at h
  split at h
  · rcases Outcome.bind_eq_err_iff.1 h with h | ⟨_, -, h⟩
    · exact absurd h MintedIdentity.portionsOf_ne_err
    · obtain ⟨portion, -, p', h⟩ := Outcome.foldlM_eq_err h
      exact placePortion_eq_err h
  · cases h

theorem placeSupplied_eq_err {shot : Shot} {trunk : Address} {supplied : List SettledRun}
    {index : ℕ} {p : Placing} (h : placeSupplied shot trunk supplied index p = .err e) :
    e.OfPlacement := by
  induction supplied generalizing index p with
  | nil => cases h
  | cons settled supplied ih =>
    simp only [placeSupplied, Outcome.bind_eq_err_iff, Outcome.refuseIf_eq_err_iff] at h
    rcases h with h | ⟨_, -, ⟨-, rfl⟩ | ⟨_, -, h⟩⟩
    · exact placeRun_eq_err h
    · exact .tooManyRuns
    · exact ih h

theorem carryTail_eq_err {m5 : M5State} {base : Option Base} {placement : List Run}
    (h : carryTail m5 base placement = .err e) : e.OfPlacement := by
  cases base with
  | none => cases h
  | some base =>
    obtain ⟨run, -, placement', h⟩ := Outcome.foldlM_eq_err h
    simp only [placeCapped, Outcome.bind_eq_err_iff, Outcome.refuseIf_eq_err_iff, Outcome.pure_eq,
      reduceCtorEq, and_false, exists_false, or_false] at h
    obtain ⟨-, rfl⟩ := h
    exact .tooManyRuns

theorem requireStored_eq_err {content : ContentStore} {runs : List Run}
    (h : requireStored content runs = .err e) : e.OfPlacement := by
  induction runs with
  | nil => cases h
  | cons run runs ih =>
    simp only [requireStored, Outcome.bind_eq_err_iff, Outcome.refuseIf_eq_err_iff] at h
    rcases h with ⟨-, rfl⟩ | ⟨_, -, h⟩
    · exact .danglingSource
    · exact ih h

/-- A refused shot was refused at its admission or over its placement. -/
theorem stagePublish_eq_err {stg : Staging World} {caller : Caller} {doc : Address} {shot : Shot}
    {readable : World → Address → Bool}
    (h : stagePublish stg caller doc shot readable = .err e) :
    admitShot stg.working caller doc shot readable = .err e ∨ e.OfPlacement := by
  simp only [stagePublish, Outcome.bind_eq_err_iff, Outcome.refuseIf_eq_err_iff,
    Outcome.mapErr_eq_err_iff, Staging.push_ne_err, Outcome.pure_eq, reduceCtorEq, and_false,
    exists_false, or_false] at h
  rcases h with h | ⟨_, -, ⟨-, rfl⟩ | ⟨_, -, h | ⟨_, -, h | ⟨_, -, h | ⟨_, -, m, -, rfl⟩⟩⟩⟩⟩
  · exact .inl h
  · exact .inr .tooManyValues
  · exact .inr (requireStored_eq_err h)
  · exact .inr (placeSupplied_eq_err h)
  · exact .inr (carryTail_eq_err h)
  · exact .inr (.mint m)

theorem sourceGate_eq_err {w : World} {trunk : Address} {base : Option Base}
    {readable : World → Address → Bool} {supplied : List SettledRun} {admitted : List Address}
    (h : sourceGate w trunk base readable supplied admitted = .err e) : ∃ a, e = .withheld a := by
  induction supplied generalizing admitted with
  | nil => cases h
  | cons settled supplied ih =>
    rw [sourceGate] at h
    split at h
    · exact ih h
    · split at h
      · exact ih h
      · simp only [Outcome.bind_eq_err_iff, Outcome.refuseIf_eq_err_iff] at h
        rcases h with ⟨-, rfl⟩ | ⟨_, -, h⟩
        · exact ⟨_, rfl⟩
        · exact ih h

theorem settleDrafts_eq_err {m3 : M3State} {caller : Caller} {drafts : List Address}
    (h : settleDrafts m3 caller drafts = .err e) : (∃ a, e = .notOwner a) ∨
      e = .sourceNotRegistered ∧ ∃ draft ∈ drafts, m3.isRegisteredDocument draft = false := by
  induction drafts with
  | nil => cases h
  | cons draft drafts ih =>
    simp only [settleDrafts, Outcome.bind_eq_err_iff, Outcome.refuseIf_eq_err_iff] at h
    rcases h with ⟨hdraft, rfl⟩ | ⟨_, -, ⟨-, rfl⟩ | ⟨_, -, h⟩⟩
    · exact .inr ⟨rfl, draft, List.mem_cons_self, hdraft⟩
    · exact .inl ⟨draft, rfl⟩
    · refine (ih h).imp_right (And.imp_right ?_)
      rintro ⟨d, hd, hreg⟩
      exact ⟨d, List.mem_cons_of_mem _ hd, hreg⟩

theorem settleRun_eq_err {m3 : M3State} {stated : ShotRun} (h : settleRun m3 stated = .err e) :
    e = .badRun ∨ e = .sourceNotRegistered ∧ ∃ origin,
      runOriginDocument stated.run = some origin ∧ m3.isRegisteredDocument origin = false := by
  simp only [settleRun, Outcome.bind_eq_err_iff, Outcome.okOr_eq_err_iff, Outcome.okOr_eq_ok_iff,
    Outcome.refuseIf_eq_err_iff, Outcome.pure_eq, reduceCtorEq, and_false, exists_false,
    or_false] at h
  rcases h with ⟨-, rfl⟩ | ⟨origin, horigin, ⟨-, rfl⟩ | ⟨_, -, hreg, rfl⟩⟩
  · exact .inl rfl
  · exact .inl rfl
  · exact .inr ⟨rfl, origin, horigin, hreg⟩

/-- A shot of a chain on a publishable base always has an anchor. -/
theorem shotAnchor_ne_err {w : World} {b : DraftBase} (hb : w.Publishable b) :
    shotAnchor w.m3 w.m5 (trunkOf b.base) (some ⟨b.base, b.extent⟩) ≠ .err e := by
  intro h
  simp only [shotAnchor, Outcome.bind_eq_err_iff, Outcome.refuseIf_eq_err_iff, trunkOf_trunkOf,
    ne_eq, not_true_eq_false, and_false, false_and, not_lt.2 hb.extent, false_or] at h
  obtain ⟨_, -, _, -, h⟩ := h
  split at h
  · cases h
  · split at h <;> cases h

theorem settleRuns_eq_err {m3 : M3State} {caller : Caller} {shot : Shot}
    (hbase : settleBase m3 shot.base = .ok ()) (h : settleRuns m3 caller shot = .err e) :
    (∃ a, e = .notOwner a) ∨ e = .badRun ∨ e = .sourceNotRegistered ∧
      ((∃ draft ∈ shot.namedDrafts, m3.isRegisteredDocument draft = false) ∨
        ∃ stated ∈ shot.runs, ∃ origin, runOriginDocument stated.run = some origin ∧
          m3.isRegisteredDocument origin = false) := by
  rw [settleRuns, hbase, Outcome.ok_bind] at h
  rcases Outcome.bind_eq_err_iff.1 h with h | ⟨_, -, h⟩
  · rcases settleDrafts_eq_err h with howner | ⟨rfl, hdraft⟩
    · exact .inl howner
    · exact .inr (.inr ⟨rfl, .inl hdraft⟩)
  · obtain ⟨stated, hstated, h⟩ := Outcome.mapM_eq_err h
    rcases settleRun_eq_err h with rfl | ⟨rfl, horigin⟩
    · exact .inr (.inl rfl)
    · exact .inr (.inr ⟨rfl, .inr ⟨stated, hstated, horigin⟩⟩)

/-- A shot of a chain on a publishable base meets no verdict on that base. -/
theorem stagePublish_base {w : World} {b : DraftBase} (hb : w.Publishable b) {first : ℕ}
    {caller : Caller} {shot : Shot} (hbase : shot.base = some ⟨b.base, b.extent⟩)
    {readable : World → Address → Bool}
    (h : stagePublish (.start w first) caller (trunkOf b.base) shot readable = .err e) :
    e ≠ .baseNotInChain ∧ e ≠ .baseExtentTooLarge ∧ (e = .sourceNotRegistered →
      (∃ draft ∈ shot.namedDrafts, w.m3.isRegisteredDocument draft = false) ∨
        ∃ stated ∈ shot.runs, ∃ origin, runOriginDocument stated.run = some origin ∧
          w.m3.isRegisteredDocument origin = false) := by
  have hsettled : settleBase w.m3 shot.base = .ok () := by
    rw [hbase, settleBase, hb.registered]
    rfl
  rcases stagePublish_eq_err h with h | h
  · rcases Outcome.bind_eq_err_iff.1 h with h | ⟨_, -, h⟩
    · rcases gateWrite_eq_err h with rfl | rfl <;> simp
    rcases Outcome.bind_eq_err_iff.1 h with h | ⟨supplied, -, h⟩
    · rcases settleRuns_eq_err hsettled h with ⟨a, rfl⟩ | rfl | ⟨rfl, hcause⟩
      · simp
      · simp
      · exact ⟨by simp, by simp, fun _ => hcause⟩
    rcases Outcome.bind_eq_err_iff.1 h with h | ⟨_, -, h⟩
    · obtain ⟨-, rfl⟩ := Outcome.refuseIf_eq_err_iff.1 h
      simp
    rcases Outcome.bind_eq_err_iff.1 h with h | ⟨anchor, -, h⟩
    · rw [hbase] at h
      exact absurd h (shotAnchor_ne_err hb)
    rcases Outcome.bind_eq_err_iff.1 h with h | ⟨_, -, h⟩
    · obtain ⟨a, rfl⟩ := sourceGate_eq_err h
      simp
    · cases h
  · cases h <;> simp

/-- A shot installs the entry of the draft it renders, with no reconciliation. -/
theorem Published.entry {stg stg' : Staging World} {caller : Caller} {doc : Address} {shot : Shot}
    {member : Address} {pairing : Pairing} {fresh : List Address} {placement : List Run}
    (h : Published stg stg' caller doc shot member pairing fresh placement) :
    ∃ recs, stg.Pushed recs stg' ∧ ∀ {w w' : World} {seq : ℕ}, foldAt w seq recs = .ok w' →
      ∀ draft, shot.draft = some draft → ∃ b, w'.m5.draftBase draft = some b ∧ b.merge = none := by
  obtain ⟨terms, elems, hmints, hpushed⟩ := h.pushed
  refine ⟨_, hpushed, fun hfold draft hdraft => ?_⟩
  rw [World.foldAt_m5 hfold, List.filterMap_append, filterMap_m5_elements hmints, List.nil_append]
  rw [hdraft]
  exact M5State.draftBase_shotPlace

end Vstream

namespace Board

/-- Only the calls that install the entry of a draft change it. -/
theorem step_draftBase {h : History World} (hg : Grown h) (r : Request) (d : Address) :
    (step h r).head.world.m5.draftBase d = h.head.world.m5.draftBase d ∨
      r.call.Installs (step h r).head.records d := by
  rcases step_cases r (hg.snapshot_grows r.age) with
    hsame | ⟨stg, inst, recs, w, -, -, heffect, hinst, -, hfold, hstep⟩
  · exact .inl (by rw [hsame])
  · rw [hstep]
    have hsucceeds : Succeeds h.head ⟨h.head.seq + r.gap + recs.length, recs, w⟩ :=
      ⟨⟨inst, heffect⟩, hfold⟩
    by_cases hc : Commit.Installs ⟨h.head.seq + r.gap + recs.length, recs, w⟩ d
    · obtain ⟨rec, hrec, hd⟩ := hc
      exact .inr (hinst d (heffect.installs hrec hd))
    · exact .inl ((Succeeds.draftBase hsucceeds d).1 hc)

/-- A committed shot leaves the entry of the draft it renders no reconciliation. -/
theorem step_shot {h : History World} (hg : Grown h) {r : Request} {caller : Caller} {doc : Address}
    {shot : Shot} {readable : World → Address → Bool} {draft : Address}
    (hcall : r.call = .publish caller doc shot readable) (hdraft : shot.draft = some draft) :
    step h r = h ∨ ∃ b, (step h r).head.world.m5.draftBase draft = some b ∧ b.merge = none := by
  rcases step_cases r (hg.snapshot_grows r.age) with
    hsame | ⟨stg, inst, recs, w, hperform, hpushed, -, -, -, hfold, hstep⟩
  · exact .inl hsame
  · rw [hcall] at hperform
    obtain ⟨⟨member, pairing⟩, hok⟩ := staged_eq_ok_iff.1 hperform
    obtain ⟨fresh, placement, hpublished⟩ := Vstream.stagePublish_eq_ok hok
    obtain ⟨recs', hpushed', hentry⟩ := Vstream.Published.entry hpublished
    obtain rfl := hpushed'.unique hpushed
    rw [hstep]
    exact .inr (hentry hfold draft hdraft)

end Board

/-- **A draft's recorded base is publishable.** After every run the recorded base
of a draft is a registered document of a published chain, no more of it is
recorded than it holds, and a recorded reconciliation stands at the position of
the last commit that installed the entry. A shot of that chain which states it
is never refused over its base. The entry of a draft is changed only by the call
that mints the draft, a landing on it that states a base, and a shot that names
it as its rendering; and a shot leaves no reconciliation. -/
theorem draftBase_publishable (requests : List Request) :
    let h := Board.run requests
    (∀ d b, h.head.world.m5.draftBase d = some b →
      h.head.world.m3.isRegisteredDocument b.base = true ∧
      publishedTarget h.head.world.m3 b.base = true ∧
      b.extent ≤ h.head.world.m5.contentCount b.base ∧
      (∃ e ∈ h.commits, e.Installs d ∧ (∀ m, b.merge = some m → m.pos = e.seq) ∧
        ∀ e' ∈ h.commits, e'.Installs d → e'.seq ≤ e.seq) ∧
      ∀ first caller shot readable e, shot.base = some ⟨b.base, b.extent⟩ →
        Vstream.stagePublish (.start h.head.world first) caller (trunkOf b.base) shot readable =
          .err e →
        e ≠ .baseNotInChain ∧ e ≠ .baseExtentTooLarge ∧ (e = .sourceNotRegistered →
          (∃ draft ∈ shot.namedDrafts, h.head.world.m3.isRegisteredDocument draft = false) ∨
            ∃ stated ∈ shot.runs, ∃ origin, runOriginDocument stated.run = some origin ∧
              h.head.world.m3.isRegisteredDocument origin = false)) ∧
    (∀ r d, (Board.step h r).head.world.m5.draftBase d = h.head.world.m5.draftBase d ∨
      r.call.Installs (Board.step h r).head.records d) ∧
    ∀ r caller doc shot readable draft, r.call = .publish caller doc shot readable →
      shot.draft = some draft → Board.step h r = h ∨
        ∃ b, (Board.step h r).head.world.m5.draftBase draft = some b ∧ b.merge = none := by
  intro h
  have hg : Board.Grown h := Board.run_grown requests
  refine ⟨fun d b hb => ?_, Board.step_draftBase hg, fun _ _ _ _ _ _ => Board.step_shot hg⟩
  have hpublishable := (hg.sound _ List.mem_cons_self).base d b hb
  refine ⟨hpublishable.registered, hpublishable.published, hpublishable.extent,
    Board.draftBase_spec hg.linked hb, fun first caller shot readable e hbase herr => ?_⟩
  exact Vstream.stagePublish_base hpublishable hbase herr
