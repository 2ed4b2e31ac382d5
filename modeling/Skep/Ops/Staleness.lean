import Skep.Ops.History

/-!
# Stale edits

An edit in place says which commit it was typed at. It is refused where a record
has moved the arrangement it lands in since, and lands on the arrangement it was
typed on otherwise.

## Main results

- `Board.arrangedAt_spec` — the newest commit that moved an arrangement
- `stale_edit_refused` — what an edit lands on is what it was typed on
- `edit_refused_unchanged` — a record may leave an arrangement as it was
-/

/-- A commit with a record that moves the arrangement of a document. -/
def Commit.Moves (c : Commit World) (d : Address) : Prop :=
  ∃ r ∈ c.records.filterMap Record.m5?, r.moves = some d

/-- The arrangement an edit in place lands in, and the state it was typed at. -/
def Call.landing (w : World) : Call → Option (Address × AsOf)
  | insert _ doc pos _ deposit asOf =>
      match Vstream.insertSurface w doc pos deposit with
      | .ok surface => some (surface, asOf)
      | .err _ | .fault => none
  | copy _ doc _ _ asOf | reinstate _ doc _ _ asOf | delete _ doc _ _ asOf
  | rearrange _ doc _ asOf | setArrangement _ doc _ asOf => some (doc, asOf)
  | version .. | stage .. | publish .. | makeLink _ | ofNamespace _ => none

/-- Whether an edit was refused as stale. -/
def Refusal.isArrangementMoved : Refusal → Bool
  | insert (.arrangementMoved ..) | copy (.arrangementMoved ..) | reinstate (.arrangementMoved ..)
  | delete (.arrangementMoved ..) | rearrange (.arrangementMoved ..)
  | setArrangement (.arrangementMoved ..) => true
  | _ => false

def refusedAsMoved {α : Type} : Outcome Refusal α → Bool
  | .err e => e.isArrangementMoved
  | .ok _ | .fault => false

namespace Board

theorem arrangedAt_foldl (seq : ℕ) (recs : List M5Rec) (s : M5State) (d : Address) :
    ((∃ r ∈ recs, r.moves = some d) →
      (recs.foldl (fun s r => s.applyM5 seq r) s).arrangedAt.get d = some seq) ∧
    ((∀ r ∈ recs, r.moves ≠ some d) →
      (recs.foldl (fun s r => s.applyM5 seq r) s).arrangedAt.get d = s.arrangedAt.get d ∧
      (recs.foldl (fun s r => s.applyM5 seq r) s).contentList d = s.contentList d) := by
  induction recs generalizing s with
  | nil => exact ⟨by simp, fun _ => ⟨rfl, rfl⟩⟩
  | cons r recs ih =>
    have hhead := s.arrangedAt_applyM5 seq r d
    obtain ⟨hmoved, hkept⟩ := ih (s.applyM5 seq r)
    refine ⟨?_, fun hnone => ?_⟩
    · rintro ⟨r', hr', hmoves⟩
      by_cases hrest : ∃ r'' ∈ recs, r''.moves = some d
      · exact hmoved hrest
      · -- the last record that moves it is the head
        push Not at hrest
        rcases List.mem_cons.1 hr' with rfl | hr'
        · rw [List.foldl_cons, (hkept hrest).1, hhead, if_pos hmoves]
        · exact absurd hmoves (hrest r' hr')
    · obtain ⟨harr, hcontent⟩ := hkept fun r' hr' => hnone r' (List.mem_cons_of_mem _ hr')
      have hne := hnone r List.mem_cons_self
      rw [List.foldl_cons, harr, hcontent, hhead, if_neg hne, M5State.contentList_applyM5, if_neg hne]
      exact ⟨rfl, rfl⟩

theorem Succeeds.arrangedAt {earlier later : Commit World} (h : Succeeds earlier later)
    (d : Address) : (later.Moves d → later.world.m5.arrangedAt.get d = some later.seq) ∧
      (¬ later.Moves d →
        later.world.m5.arrangedAt.get d = earlier.world.m5.arrangedAt.get d ∧
        later.world.m5.contentList d = earlier.world.m5.contentList d) := by
  obtain ⟨hmoved, hkept⟩ := arrangedAt_foldl later.seq (later.records.filterMap Record.m5?)
    earlier.world.m5 d
  rw [World.foldAt_m5 h.fold]
  exact ⟨hmoved, fun hnone => hkept fun r hr hr' => hnone ⟨r, hr, hr'⟩⟩

/-- Commits from the first on, each the effect of a call over the one before. -/
structure Linked (commits : List (Commit World)) : Prop where
  origin : ∃ later, commits = later ++ [⟨0, [], World.genesis⟩]
  succeeds : commits.IsChain fun later earlier => Succeeds earlier later
  ordered : commits.Pairwise fun later earlier => earlier.seq < later.seq

theorem Grown.linked {h : History World} (hg : Grown h) : Linked h.commits :=
  ⟨hg.origin, hg.succeeds, hg.ordered⟩

theorem Linked.tail {c e : Commit World} {rest : List (Commit World)} (h : Linked (c :: e :: rest)) :
    Linked (e :: rest) := by
  obtain ⟨later, horigin⟩ := h.origin
  refine ⟨?_, (List.isChain_cons_cons.1 h.succeeds).2, (List.pairwise_cons.1 h.ordered).2⟩
  cases later with
  | nil => cases horigin
  | cons c later => exact ⟨later, (List.cons.inj horigin).2⟩

theorem Linked.first {c : Commit World} (h : Linked [c]) : c = ⟨0, [], World.genesis⟩ := by
  obtain ⟨later, horigin⟩ := h.origin
  cases later with
  | nil => exact (List.cons.inj horigin).1
  | cons c later =>
    have hlen := congrArg List.length horigin
    simp at hlen

/-- The position an arrangement last moved at is that of the newest commit that
moved it. -/
theorem arrangedAt_spec {c : Commit World} {past : List (Commit World)} (h : Linked (c :: past))
    (d : Address) :
    (∀ p, c.world.m5.arrangedAt.get d = some p → ∃ e ∈ c :: past, e.seq = p ∧ e.Moves d) ∧
    ∀ e ∈ c :: past, e.Moves d → ∃ p, c.world.m5.arrangedAt.get d = some p ∧ e.seq ≤ p := by
  induction past generalizing c with
  | nil =>
    rw [h.first]
    refine ⟨fun p hp => ?_, fun e he hmoves => ?_⟩
    · cases hp
    obtain rfl := List.mem_singleton.1 he
    obtain ⟨r, hr, -⟩ := hmoves
    cases hr
  | cons e past ih =>
    obtain ⟨hback, hmono⟩ := ih h.tail
    have hsucceeds := (List.isChain_cons_cons.1 h.succeeds).1
    have hlt := (List.pairwise_cons.1 h.ordered).1
    obtain ⟨hmoved, hkept⟩ := Succeeds.arrangedAt hsucceeds d
    by_cases hc : c.Moves d
    · refine ⟨fun p hp => ?_, fun e' he' _ => ⟨c.seq, hmoved hc, ?_⟩⟩
      · rw [hmoved hc, Option.some.injEq] at hp
        exact ⟨c, List.mem_cons_self, hp, hc⟩
      · rcases List.mem_cons.1 he' with rfl | he'
        · exact le_rfl
        · exact (hlt e' he').le
    · rw [(hkept hc).1]
      refine ⟨fun p hp => ?_, fun e' he' hmoves => ?_⟩
      · obtain ⟨e', he', hp'⟩ := hback p hp
        exact ⟨e', List.mem_cons_of_mem _ he', hp'⟩
      · rcases List.mem_cons.1 he' with rfl | he'
        · exact absurd hmoves hc
        · exact hmono e' he' hmoves

/-- An arrangement no commit past a position moved is what it was there. -/
theorem contentList_at {c : Commit World} {past : List (Commit World)} (h : Linked (c :: past))
    {d : Address} {s : ℕ} (hnone : ∀ e ∈ c :: past, s < e.seq → ¬ e.Moves d) {e : Commit World}
    (he : (c :: past).find? (fun e => decide (e.seq ≤ s)) = some e) :
    e.world.m5.contentList d = c.world.m5.contentList d := by
  induction past generalizing c with
  | nil =>
    rw [List.mem_singleton.1 (List.mem_of_find?_eq_some he)]
  | cons e' past ih =>
    by_cases hc : c.seq ≤ s
    · rw [List.find?_cons_of_pos (by simpa using hc), Option.some.injEq] at he
      rw [he]
    · rw [List.find?_cons_of_neg (by simpa using hc)] at he
      have hsucceeds := (List.isChain_cons_cons.1 h.succeeds).1
      have hkept := ((Succeeds.arrangedAt hsucceeds d).2
        (hnone c List.mem_cons_self (not_le.1 hc))).2
      rw [hkept]
      exact ih h.tail (fun e hmem => hnone e (List.mem_cons_of_mem _ hmem)) he

end Board

@[simp] theorem staged_eq_err_iff {ε α : Type} {x : Outcome ε (α × Staging World)}
    {refuse : ε → Refusal} {e : Refusal} :
    staged x refuse = .err e ↔ ∃ e', x = .err e' ∧ refuse e' = e := by
  simp [staged, Outcome.bind_eq_err_iff, Outcome.mapErr_eq_err_iff]

theorem refusedAsMoved_iff {α : Type} {x : Outcome Refusal α} :
    refusedAsMoved x = true ↔ ∃ e, x = .err e ∧ e.isArrangementMoved = true := by
  cases x <;> simp [refusedAsMoved]

section Gate

variable {snapshot w : World} {first : ℕ} {c : Call} {surface : Address} {asOf : AsOf}

/-- An edit that lands has passed the gate at the arrangement it lands in. -/
theorem Call.landing_unmoved (hland : c.landing w = some (surface, asOf)) {stg : Staging World}
    {u : Unit} (h : c.perform snapshot (.start w first) = .ok (u, stg)) :
    arrangementMoved w.m5 surface asOf = none := by
  cases c with
  | insert caller doc pos values deposit asOf' =>
    obtain ⟨a, h⟩ := staged_eq_ok_iff.1 h
    obtain ⟨-, surface', hsurface, hmoved, -⟩ := Vstream.insert_eq_ok h
    rw [show (Staging.start w first).working = w from rfl] at hsurface hmoved
    simp only [landing, hsurface] at hland
    cases hland
    exact hmoved
  | copy =>
    obtain ⟨a, h⟩ := staged_eq_ok_iff.1 h
    cases hland
    exact (Vstream.copy_eq_ok h).2.1
  | reinstate =>
    obtain ⟨a, h⟩ := staged_eq_ok_iff.1 h
    cases hland
    exact (Vstream.stageReinstateAt_eq_ok h).2.1
  | delete =>
    obtain ⟨a, h⟩ := staged_eq_ok_iff.1 h
    cases hland
    exact (Vstream.stageDeleteAt_eq_ok h).2.1
  | rearrange =>
    obtain ⟨a, h⟩ := staged_eq_ok_iff.1 h
    cases hland
    exact (Vstream.rearrange_eq_ok h).2.1
  | setArrangement =>
    obtain ⟨a, h⟩ := staged_eq_ok_iff.1 h
    cases hland
    exact (Vstream.stageSetArrangement_eq_ok h).2.1
  | _ => cases hland

/-- An edit refused as stale was refused by the gate. -/
theorem Call.landing_moved (hland : c.landing w = some (surface, asOf))
    (hmoved : refusedAsMoved (c.perform snapshot (.start w first)) = true) :
    arrangementMoved w.m5 surface asOf ≠ none := by
  obtain ⟨e, h, he⟩ := refusedAsMoved_iff.1 hmoved
  cases c with
  | insert caller doc pos values deposit asOf' =>
    obtain ⟨e', herr, rfl⟩ := staged_eq_err_iff.1 h
    cases e' <;> simp only [Refusal.isArrangementMoved, Bool.false_eq_true] at he
    obtain ⟨surface', hsurface, hmoved⟩ := Vstream.insert_eq_moved herr
    rw [show (Staging.start w first).working = w from rfl] at hsurface hmoved
    simp only [landing, hsurface] at hland
    cases hland
    simp [hmoved]
  | copy =>
    obtain ⟨e', herr, rfl⟩ := staged_eq_err_iff.1 h
    cases e' <;> simp only [Refusal.isArrangementMoved, Bool.false_eq_true] at he
    cases hland
    simp [show arrangementMoved w.m5 _ _ = _ from Vstream.copy_eq_moved herr]
  | reinstate =>
    obtain ⟨e', herr, rfl⟩ := staged_eq_err_iff.1 h
    cases e' <;> simp only [Refusal.isArrangementMoved, Bool.false_eq_true] at he
    cases hland
    simp [show arrangementMoved w.m5 _ _ = _ from Vstream.stageReinstateAt_eq_moved herr]
  | delete =>
    obtain ⟨e', herr, rfl⟩ := staged_eq_err_iff.1 h
    cases e' <;> simp only [Refusal.isArrangementMoved, Bool.false_eq_true] at he
    cases hland
    simp [show arrangementMoved w.m5 _ _ = _ from Vstream.stageDeleteAt_eq_moved herr]
  | rearrange =>
    obtain ⟨e', herr, rfl⟩ := staged_eq_err_iff.1 h
    cases e' <;> simp only [Refusal.isArrangementMoved, Bool.false_eq_true] at he
    cases hland
    simp [show arrangementMoved w.m5 _ _ = _ from Vstream.rearrange_eq_moved herr]
  | setArrangement =>
    obtain ⟨e', herr, rfl⟩ := staged_eq_err_iff.1 h
    cases e' <;> simp only [Refusal.isArrangementMoved, Bool.false_eq_true] at he
    cases hland
    simp [show arrangementMoved w.m5 _ _ = _ from Vstream.stageSetArrangement_eq_moved herr]
  | _ => cases hland

end Gate

/-- **No stale edit lands.** After any run, an edit in place typed at a commit
position that is accepted lands in an arrangement whose content run-list is what
it was at that position. One typed at or past the last commit with a record that
moves that arrangement is never refused as stale. -/
theorem stale_edit_refused (requests : List Request) (c : Call) (age first typed : ℕ)
    {surface : Address}
    (hland : c.landing (Board.run requests).head.world = some (surface, .typed typed)) :
    (∀ u stg, c.perform (Board.snapshot (Board.run requests) age)
        (.start (Board.run requests).head.world first) = .ok (u, stg) →
      ∀ w, (Board.run requests).worldAt typed = some w →
        w.m5.contentList surface = (Board.run requests).head.world.m5.contentList surface) ∧
    ((∀ e ∈ (Board.run requests).commits, e.Moves surface → e.seq ≤ typed) →
      refusedAsMoved (c.perform (Board.snapshot (Board.run requests) age)
        (.start (Board.run requests).head.world first)) = false) := by
  have hlinked := (Board.run_grown requests).linked
  obtain ⟨hback, hmono⟩ := Board.arrangedAt_spec hlinked surface
  refine ⟨fun u stg hok w hw => ?_, fun hlast => ?_⟩
  · have hgate := arrangementMoved_eq_none_iff.1 (c.landing_unmoved hland hok) typed rfl
    rw [History.worldAt, Option.map_eq_some_iff] at hw
    obtain ⟨e, he, rfl⟩ := hw
    refine Board.contentList_at hlinked (fun e' he' hlt hmoves => ?_) he
    obtain ⟨p, hp, hle⟩ := hmono e' he' hmoves
    have := hgate p hp
    omega
  · rw [← Bool.not_eq_true]
    intro hstale
    refine c.landing_moved hland hstale (arrangementMoved_eq_none_iff.2 ?_)
    rintro _ ⟨⟩ p hp
    obtain ⟨e, he, rfl, hmoves⟩ := hback p hp
    exact hlast e he hmoves

namespace Landing

/-- The first draft of the system account. -/
def draft : Address := firstCreated

/-- The first value stored there. -/
def run : Run := ⟨⟨⟨[1, 1, 0, 1, 0, 3, 0, 1, 1], by simp⟩, .element, by decide⟩, 1, by decide, by decide⟩

/-- A draft is created and a value inserted. -/
def typed : List Request :=
  [⟨.ofNamespace (.createNewDocument systemPrincipal systemAccount (some false)), 0, 0⟩,
    ⟨.insert (.principal systemPrincipal) draft (.content 1) [⟨[7]⟩] .undeclared .unchecked, 0, 0⟩]

/-- And the same value is landed in its place. -/
def landed : List Request := typed ++
  [⟨.setArrangement (.principal systemPrincipal) draft ⟨[⟨draft, run⟩], none, none, none⟩ .unchecked,
    0, 0⟩]

/-- The removal of the value, typed after the insert. -/
def removal : Call := .delete (.principal systemPrincipal) draft (.content 1) 1 (.typed 4)

end Landing

/-- A removal typed at the insert lands after it. -/
theorem stale_edit_refused_removal :
    (∀ w, (Board.run Landing.typed).worldAt 4 = some w → w.m5.contentList Landing.draft =
      (Board.run Landing.typed).head.world.m5.contentList Landing.draft) ∧
    refusedAsMoved (Landing.removal.perform (Board.snapshot (Board.run Landing.typed) 0)
      (.start (Board.run Landing.typed).head.world 5)) = false := by
  have hland : Landing.removal.landing (Board.run Landing.typed).head.world =
      some (Landing.draft, .typed 4) := rfl
  have hcases := stale_edit_refused Landing.typed Landing.removal 0 5 4 hland
  obtain ⟨⟨u, stg⟩, hok⟩ := Outcome.isOk_iff.1 (show (Landing.removal.perform
    (Board.snapshot (Board.run Landing.typed) 0)
      (.start (Board.run Landing.typed).head.world 5)).isOk = true by decide +kernel)
  refine ⟨hcases.1 u stg hok, hcases.2 fun e he _ => ?_⟩
  exact (show ∀ e ∈ (Board.run Landing.typed).commits, e.seq ≤ 4 by decide +kernel) e he

/-- A landing of what stands leaves the run-list as it was, and an edit typed
before it is refused as stale all the same. -/
theorem edit_refused_unchanged :
    Landing.removal.landing (Board.run Landing.landed).head.world =
      some (Landing.draft, .typed 4) ∧
    (Board.run Landing.landed).commits.map (fun e => e.seq) = [6, 4, 1, 0] ∧
    (∀ e ∈ (Board.run Landing.landed).commits, 4 ≤ e.seq → e.world.m5.contentList Landing.draft =
      (Board.run Landing.landed).head.world.m5.contentList Landing.draft) ∧
    refusedAsMoved (Landing.removal.perform (Board.snapshot (Board.run Landing.landed) 0)
      (.start (Board.run Landing.landed).head.world 7)) = true := by
  refine ⟨rfl, ?_, ?_, ?_⟩
  · decide +kernel
  · decide +kernel
  · decide +kernel
