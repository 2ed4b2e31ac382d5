import Skep.Ops.Call
import Skep.Ops.Moved

/-!
# Runs of a board

A board runs requests one after another from genesis. Its commits are each the
effect of a call over the one before, the worlds are sound, and the arrangements
are the fold of every record committed.
-/

/-- A call, the age of the snapshot it reads, and how far the order has passed the
newest commit. -/
structure Request where
  call : Call
  age : ℕ
  gap : ℕ

namespace Board

/-- The world a call found before its transaction. -/
def snapshot (h : History World) (age : ℕ) : World := (h.commits[age]?.getD h.head).world

def step (h : History World) (r : Request) : History World :=
  h.attempt r.gap fun stg => r.call.perform (snapshot h r.age) stg

/-- A run from genesis. -/
def run (requests : List Request) : History World := requests.foldl step (.initial World.genesis)

theorem run_concat (requests : List Request) (r : Request) :
    run (requests ++ [r]) = step (run requests) r := by
  rw [run, List.foldl_append, List.foldl_cons, List.foldl_nil, ← run]

end Board

/-- What holds between two worlds of a run, the later one second. -/
structure World.Evolves (w w' : World) : Prop where
  old : w.Sound
  new : w'.Sound
  grows : w.m3.Grows w'.m3
  published : ∀ d, publishedTarget w'.m3 d = true →
    (w.m5.contentList d).den <+: (w'.m5.contentList d).den
  birth : ∀ m n, w.m5.birthExtent m = some n → w'.m5.birthExtent m = some n
  values : ∀ t b, w.content.bytesAt t = some b → w'.content.bytesAt t = some b

namespace World

theorem Evolves.trans {a b c : World} (h : a.Evolves b) (h' : b.Evolves c) : a.Evolves c := by
  refine ⟨h.old, h'.new, h.grows.trans h'.grows, fun d hd => ?_,
    fun m n hm => h'.birth m n (h.birth m n hm), fun t v hv => h'.values t v (h.values t v hv)⟩
  cases hreg : b.m3.isRegisteredDocument d with
  | true =>
    have hmid : publishedTarget b.m3 d = true := by
      rw [← h'.grows.publishedTarget_eq h.new.m3 hreg, hd]
    exact (h.published d hmid).trans (h'.published d hd)
  | false =>
    have ha : a.m3.isRegisteredDocument d = false := by
      rw [← Bool.not_eq_true]
      intro hreg'
      rw [h.grows.registered d hreg'] at hreg
      cases hreg
    rw [h.old.registered d ha]
    exact List.nil_prefix

theorem Moved.evolves {w w' : World} (h : w.Moved w') (hw : w.Sound) : w.Evolves w' := by
  refine ⟨hw, hw.step h, h.grows, fun d hd => h.den_le hw hd, fun m n hm => ?_, h.values⟩
  cases h.birth m with
  | kept hkept => rw [hkept, hm]
  | noted hnew =>
    rw [(hw.birth m n hm).1] at hnew
    cases hnew

end World

namespace Board

/-- A request commits the effect of its call over the newest world, or nothing. -/
theorem step_cases {h : History World} (r : Request)
    (hgrows : (snapshot h r.age).m3.Grows h.head.world.m3) : step h r = h ∨
      ∃ stg inst recs w, r.call.perform (snapshot h r.age)
          (.start h.head.world (h.head.seq + r.gap + 1)) = .ok ((), stg) ∧
        Staging.Pushed (.start h.head.world (h.head.seq + r.gap + 1)) recs stg ∧
        Effect h.head.world inst recs ∧ (∀ d, inst = some d → r.call.Installs recs d) ∧ recs ≠ [] ∧
        foldAt h.head.world (h.head.seq + r.gap + recs.length) recs = .ok w ∧
        step h r = h.commit ⟨h.head.seq + r.gap + recs.length, recs, w⟩ := by
  rcases h.attempt_cases r.gap (f := fun stg => r.call.perform (snapshot h r.age) stg)
    fun stg value hstg => by
      obtain ⟨-, recs, hpushed, -⟩ := r.call.effect hgrows hstg
      exact ⟨recs, hpushed⟩ with
    hsame | ⟨value, stg, recs, w, hstg, hpushed, hne, hfold, hstep⟩
  · exact .inl hsame
  · obtain ⟨inst, recs', hpushed', heffect, hinst⟩ := r.call.effect hgrows hstg
    obtain rfl := hpushed'.unique hpushed
    exact .inr ⟨stg, inst, recs', w, hstg, hpushed, heffect, hinst, hne, hfold, hstep⟩

/-- The later commit is the effect of a call over the earlier one. -/
structure Succeeds (earlier later : Commit World) : Prop where
  effect : ∃ inst, Effect earlier.world inst later.records
  fold : foldAt earlier.world later.seq later.records = .ok later.world

/-- The arrangement records of a commit, each at the position it committed at. -/
def stampedOf (c : Commit World) : List (ℕ × M5Rec) :=
  (c.records.filterMap Record.m5?).map fun r => (c.seq, r)

/-- Every arrangement record a history has committed, in order. -/
def stamped (h : History World) : List (ℕ × M5Rec) := h.commits.reverse.flatMap stampedOf

theorem stamped_commit (h : History World) (c : Commit World) :
    stamped (h.commit c) = stamped h ++ stampedOf c := by
  simp [stamped, History.commit, History.commits]

theorem foldl_stampedOf (s : M5State) (c : Commit World) {pre : List (ℕ × M5Rec)}
    (hpre : pre <+: stampedOf c) : ∃ recs, recs <+: c.records.filterMap Record.m5? ∧
      s.applyAll pre = recs.foldl (fun s r => s.applyM5 c.seq r) s := by
  rw [List.prefix_iff_eq_take.1 hpre, stampedOf, ← List.map_take, M5State.applyAll, List.foldl_map]
  exact ⟨_, List.take_prefix _ _, rfl⟩

/-- What holds of the commits of a run. -/
structure Grown (h : History World) : Prop where
  origin : ∃ later, h.commits = later ++ [⟨0, [], World.genesis⟩]
  sound : ∀ c ∈ h.commits, c.world.Sound
  evolves : h.commits.Pairwise fun later earlier => earlier.world.Evolves later.world
  succeeds : h.commits.IsChain fun later earlier => Succeeds earlier later
  ordered : h.commits.Pairwise fun later earlier => earlier.seq < later.seq
  replayed : h.head.world.m5 = M5State.genesis.applyAll (stamped h)
  settled : ∀ d x, M5State.EverArranged (stamped h) d x ↔
    ∃ c ∈ h.commits, c.world.m5.Arranges d x

theorem Grown.snapshot_grows {h : History World} (hg : Grown h) (age : ℕ) :
    (snapshot h age).m3.Grows h.head.world.m3 := by
  rw [snapshot]
  cases hc : h.commits[age]? with
  | none => exact .refl _
  | some c =>
    rcases List.mem_cons.1 (List.mem_of_getElem? hc) with rfl | hmem
    · exact .refl _
    · exact ((List.pairwise_cons.1 hg.evolves).1 c hmem).grows

/-- A commit is the first, or the effect of a call over the one before it. -/
theorem Grown.committed {h : History World} (hg : Grown h) {c : Commit World}
    (hc : c ∈ h.commits) : c = ⟨0, [], World.genesis⟩ ∨ ∃ e ∈ h.commits, Succeeds e c := by
  obtain ⟨later, horigin⟩ := hg.origin
  have hchain := hg.succeeds
  rw [horigin] at hc hchain ⊢
  rcases List.mem_append.1 hc with hc | hc
  · obtain ⟨i, hi, rfl⟩ := List.mem_iff_getElem.1 hc
    have hsucceeds := List.isChain_iff_getElem.1 hchain i (by
      rw [List.length_append, List.length_singleton]
      omega)
    rw [List.getElem_append_left hi] at hsucceeds
    exact .inr ⟨_, List.getElem_mem _, hsucceeds⟩
  · exact .inl (List.mem_singleton.1 hc)

/-- Consecutive worlds are moved one from the other. -/
theorem Grown.moved {h : History World} (hg : Grown h) :
    h.commits.IsChain fun later earlier => earlier.world.Moved later.world := by
  refine List.isChain_iff_getElem.2 fun i hi => ?_
  obtain ⟨⟨inst, heffect⟩, hfold⟩ := List.isChain_iff_getElem.1 hg.succeeds i hi
  exact heffect.moved (hg.sound _ (List.getElem_mem _)) hfold

/-- The records of the next commit arrange what it leaves arranged, and no more than
was arranged before. -/
theorem Grown.settled_commit {h : History World} (hg : Grown h) {c : Commit World}
    (hc : Succeeds h.head c) (hreplay : c.world.m5 = M5State.genesis.applyAll (stamped (h.commit c)))
    (d x : Address) : M5State.EverArranged (stamped (h.commit c)) d x ↔
      ∃ c' ∈ (h.commit c).commits, c'.world.m5.Arranges d x := by
  constructor
  · rintro ⟨pre, hpre, hx⟩
    rw [stamped_commit] at hpre
    rcases List.prefix_or_prefix_of_prefix hpre (List.prefix_append (stamped h) (stampedOf c)) with
      hle | ⟨mid, rfl⟩
    · obtain ⟨c', hc', hx'⟩ := (hg.settled d x).1 ⟨pre, hle, hx⟩
      exact ⟨c', List.mem_cons_of_mem _ hc', hx'⟩
    · rw [List.prefix_append_right_inj] at hpre
      obtain ⟨recs, hrecs, hfold⟩ := foldl_stampedOf h.head.world.m5 c hpre
      rw [M5State.applyAll_append, ← hg.replayed, hfold] at hx
      obtain ⟨inst, heffect⟩ := hc.effect
      rcases heffect.settled hc.fold hrecs hx with hx | hx
      · exact ⟨h.head, List.mem_cons_of_mem _ List.mem_cons_self, hx⟩
      · exact ⟨c, List.mem_cons_self, hx⟩
  · rintro ⟨c', hc', hx⟩
    rcases List.mem_cons.1 hc' with rfl | hc'
    · exact ⟨_, List.prefix_rfl, hreplay ▸ hx⟩
    · obtain ⟨pre, hpre, hx⟩ := (hg.settled d x).2 ⟨c', hc', hx⟩
      refine ⟨pre, hpre.trans ?_, hx⟩
      rw [stamped_commit]
      exact List.prefix_append _ _

theorem Grown.step {h : History World} (hg : Grown h) (r : Request) : Grown (step h r) := by
  rcases step_cases r (hg.snapshot_grows r.age) with
    hsame | ⟨stg, inst, recs, w, -, -, heffect, -, hne, hfold, hstep⟩
  · rwa [hsame]
  · have hhead : h.head.world.Sound := hg.sound _ List.mem_cons_self
    have hmoved := heffect.moved hhead hfold
    have hlt : h.head.seq < h.head.seq + r.gap + recs.length := by
      have := List.length_pos_of_ne_nil hne
      omega
    have hsucceeds : Succeeds h.head ⟨h.head.seq + r.gap + recs.length, recs, w⟩ :=
      ⟨⟨inst, heffect⟩, hfold⟩
    have hreplay : w.m5 = M5State.genesis.applyAll
        (stamped (h.commit ⟨h.head.seq + r.gap + recs.length, recs, w⟩)) := by
      rw [stamped_commit, M5State.applyAll_append, ← hg.replayed, stampedOf, M5State.applyAll,
        List.foldl_map]
      exact World.foldAt_m5 hfold
    rw [hstep]
    refine ⟨?_, fun c hc => ?_, ?_, ?_, ?_, hreplay, hg.settled_commit hsucceeds hreplay⟩
    · obtain ⟨later, horigin⟩ := hg.origin
      exact ⟨_ :: later, congrArg (List.cons _) horigin⟩
    · rcases List.mem_cons.1 hc with rfl | hc
      · exact hhead.step hmoved
      · exact hg.sound c hc
    · exact History.pairwise_commit (R := World.Evolves) World.Evolves.trans hg.evolves
        (hmoved.evolves hhead)
    · exact List.isChain_cons_cons.2 ⟨hsucceeds, hg.succeeds⟩
    · refine List.pairwise_cons.2 ⟨fun c hc => ?_, hg.ordered⟩
      rcases List.mem_cons.1 hc with rfl | hc
      · exact hlt
      · exact ((List.pairwise_cons.1 hg.ordered).1 c hc).trans hlt

theorem grown_initial : Grown (.initial World.genesis) := by
  refine ⟨⟨[], rfl⟩, fun c hc => ?_, List.pairwise_singleton _ _, List.isChain_singleton _,
    List.pairwise_singleton _ _, rfl, fun d x => ⟨?_, ?_⟩⟩
  · obtain rfl := List.mem_singleton.1 hc
    exact World.sound_genesis
  · rintro ⟨pre, hpre, hx⟩
    rw [show stamped (.initial World.genesis) = [] from rfl, List.prefix_nil] at hpre
    subst hpre
    cases hx
  · rintro ⟨c, hc, hx⟩
    obtain rfl := List.mem_singleton.1 hc
    cases hx

theorem run_grown (requests : List Request) : Grown (run requests) := by
  induction requests using List.reverseRecOn with
  | nil => exact grown_initial
  | append_singleton requests r ih =>
    rw [run_concat]
    exact ih.step r

end Board
