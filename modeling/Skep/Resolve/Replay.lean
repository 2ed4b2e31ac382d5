import Skep.Resolve.Ledger
import Skep.Library.Runs

/-!
# Runs of the ledger

What holds of the ledger after any calls whose folded records each have a link of
their own. The histories are the folded records in order, each under the answer its
fold gave, so the honored ones succeed one another. A record folded again under
another link is inert, and a retraction moves the active view alone.

## Main results

- `Ledger.Follows.call` — every call keeps the invariant
- `Ledger.lawful_after` — the ledger after any calls with links of their own
-/

namespace Resolve

/-- A call of the ledger's writer. -/
inductive Call where
  | foldBinding (judged : Judged BindingRecord)
  | foldEndpoint (judged : Judged EndpointRecord)
  | nullify (link : Address)
  deriving DecidableEq

namespace Call

/-- The link of the record folded. -/
def folded : Call → Option Address
  | foldBinding j => some j.link
  | foldEndpoint j => some j.link
  | nullify _ => none

/-- The links of the records folded, in order. -/
def links (calls : List Call) : List Address := calls.filterMap folded

/-- Whether the call folds a record. -/
def isFold (c : Call) : Bool := c.folded.isSome

/-- The binding folded at the prefix, under the call's answer. -/
def bindingAt (pre : Address) : Call × Bool → Option (Judged BindingRecord)
  | (foldBinding j, answer) => if j.record.pre = pre then some (j.walked answer) else none
  | _ => none

/-- The deposit folded in the home, under the call's answer and before any retraction. -/
def depositAt (home : Address) : Call × Bool → Option (Judged EndpointRecord)
  | (foldEndpoint j, answer) => if j.home = home then some (j.weighed answer).restored else none
  | _ => none

theorem links_concat (calls : List Call) (c : Call) :
    links (calls ++ [c]) = links calls ++ c.folded.toList := by
  simp only [links, List.filterMap_append]
  cases hc : c.folded <;> simp [hc]

theorem bindingAt_isFold {pre : Address} {x : Call × Bool} (h : (bindingAt pre x).isSome) :
    x.1.isFold = true := by
  obtain ⟨c, answer⟩ := x
  cases c with
  | foldBinding j => rfl
  | foldEndpoint j => rfl
  | nullify link => simp [bindingAt] at h

theorem depositAt_isFold {home : Address} {x : Call × Bool} (h : (depositAt home x).isSome) :
    x.1.isFold = true := by
  obtain ⟨c, answer⟩ := x
  cases c with
  | foldBinding j => rfl
  | foldEndpoint j => rfl
  | nullify link => simp [depositAt] at h

/-- The records of one prefix or home have links among the links folded. -/
theorem sublist_links {ρ : Type} {f : Call × Bool → Option (Judged ρ)}
    (hf : ∀ x j, f x = some j → x.1.folded = some j.link) (answers : List (Call × Bool)) :
    ((answers.filterMap f).map Judged.link).Sublist (links (answers.map Prod.fst)) := by
  induction answers with
  | nil => exact .slnil
  | cons x answers ih =>
    rw [List.map_cons, links, List.filterMap_cons, List.filterMap_cons]
    cases hx : f x with
    | none =>
      cases x.1.folded with
      | none => exact ih
      | some link => exact ih.cons link
    | some j =>
      rw [hf x j hx]
      exact ih.cons_cons j.link

theorem bindingAt_folded (pre : Address) (x : Call × Bool) (j : Judged BindingRecord)
    (h : bindingAt pre x = some j) : x.1.folded = some j.link := by
  obtain ⟨c, answer⟩ := x
  cases c with
  | foldBinding j' =>
    simp only [bindingAt, Option.ite_none_right_eq_some, Option.some.injEq] at h
    rw [← h.2]
    rfl
  | foldEndpoint j' => cases h
  | nullify link => cases h

theorem depositAt_folded (home : Address) (x : Call × Bool) (j : Judged EndpointRecord)
    (h : depositAt home x = some j) : x.1.folded = some j.link := by
  obtain ⟨c, answer⟩ := x
  cases c with
  | foldBinding j' => cases h
  | foldEndpoint j' =>
    simp only [depositAt, Option.ite_none_right_eq_some, Option.some.injEq] at h
    rw [← h.2]
    rfl
  | nullify link => cases h

end Call

open Call (links bindingAt depositAt)

/-- The link's deposit left the active view: it was handed over already nullified, or the link was
retracted after it was folded. -/
def OffView (calls : List Call) (link : Address) : Prop :=
  ∃ before judged later, calls = before ++ .foldEndpoint judged :: later ∧
    judged.link = link ∧ (judged.record.nullified = true ∨ .nullify link ∈ later)

theorem OffView.mem_links {calls : List Call} {link : Address} (h : OffView calls link) :
    link ∈ links calls := by
  obtain ⟨before, judged, later, rfl, rfl, -⟩ := h
  simp [links, Call.folded]

theorem offView_concat {calls : List Call} {c : Call} {link : Address} :
    OffView (calls ++ [c]) link ↔ OffView calls link ∨
      (∃ j, c = .foldEndpoint j ∧ j.link = link ∧ j.record.nullified = true) ∨
      (c = .nullify link ∧ ∃ j, .foldEndpoint j ∈ calls ∧ j.link = link) := by
  constructor
  · rintro ⟨before, judged, later, heq, hlink, hoff⟩
    rcases List.eq_nil_or_concat later with rfl | ⟨later, last, rfl⟩
    · obtain ⟨rfl, rfl⟩ : calls = before ∧ c = .foldEndpoint judged := by simpa using heq
      have hnull : judged.record.nullified = true := by simpa using hoff
      exact .inr (.inl ⟨judged, rfl, hlink, hnull⟩)
    · have hcut : calls ++ [c] = (before ++ .foldEndpoint judged :: later) ++ [last] := by
        simpa using heq
      obtain ⟨rfl, hlast⟩ := List.append_inj' hcut rfl
      obtain rfl : c = last := by simpa using hlast
      by_cases hc : c = .nullify link
      · exact .inr (.inr ⟨hc, judged, by simp, hlink⟩)
      · have hoff' : judged.record.nullified = true ∨ .nullify link ∈ later := by
          refine hoff.imp_right fun hmem => ?_
          rw [List.concat_eq_append] at hmem
          rcases List.mem_append.1 hmem with hmem | hmem
          · exact hmem
          · exact absurd (List.mem_singleton.1 hmem).symm hc
        exact .inl ⟨before, judged, later, rfl, hlink, hoff'⟩
  · rintro (⟨before, judged, later, rfl, hlink, hoff⟩ | ⟨j, rfl, hlink, hnull⟩ | ⟨rfl, j, hj, hlink⟩)
    · exact ⟨before, judged, later ++ [c], by simp, hlink,
        hoff.imp_right (List.mem_append_left _)⟩
    · exact ⟨calls, j, [], rfl, hlink, .inl hnull⟩
    · obtain ⟨before, later, rfl⟩ := List.append_of_mem hj
      exact ⟨before, j, later ++ [.nullify link], by simp, hlink, .inr (by simp)⟩

namespace Ledger

/-- One call of the writer, and its answer. -/
def call (l : Ledger) : Call → Ledger × Bool
  | .foldBinding j => l.foldBinding j
  | .foldEndpoint j => l.foldEndpoint j
  | .nullify link => l.nullify link

/-- The ledger after the calls. -/
def after (calls : List Call) : Ledger := Runs.after (fun l c => (l.call c).1) empty calls

/-- The calls beside their answers. -/
def answered (l : Ledger) : List Call → List (Call × Bool)
  | [] => []
  | c :: rest => (c, (l.call c).2) :: (l.call c).1.answered rest

theorem after_concat (calls : List Call) (c : Call) :
    after (calls ++ [c]) = ((after calls).call c).1 := Runs.after_concat ..

theorem answered_append (l : Ledger) (calls more : List Call) :
    l.answered (calls ++ more) =
      l.answered calls ++ (Runs.after (fun l c => (l.call c).1) l calls).answered more := by
  induction calls generalizing l with
  | nil => rfl
  | cons c calls ih => simp [answered, ih]

theorem answered_concat (calls : List Call) (c : Call) :
    empty.answered (calls ++ [c]) = empty.answered calls ++ [(c, ((after calls).call c).2)] :=
  answered_append empty calls [c]

theorem answered_fst (l : Ledger) (calls : List Call) :
    (l.answered calls).map Prod.fst = calls := by
  induction calls generalizing l with
  | nil => rfl
  | cons c calls ih => simp [answered, ih]

-- What one call does

theorem foldBinding_bindings (l : Ledger) (j : Judged BindingRecord) (pre : Address) :
    (l.foldBinding j).1.bindings pre =
      if j.record.pre = pre then (l.bindings pre).push j else l.bindings pre := by
  by_cases hpre : j.record.pre = pre
  · subst hpre
    simp [foldBinding, bindings]
  · simp [foldBinding, bindings, OrdMap.get_insert_of_ne _ _ (Ne.symm hpre), hpre]

theorem foldEndpoint_deposits (l : Ledger) (j : Judged EndpointRecord) (home : Address) :
    (l.foldEndpoint j).1.deposits home =
      if j.home = home then (l.deposits home).push j else l.deposits home := by
  by_cases hhome : j.home = home
  · subst hhome
    simp [foldEndpoint, deposits]
  · simp [foldEndpoint, deposits, OrdMap.get_insert_of_ne _ _ (Ne.symm hhome), hhome]

/-- A retraction takes off the active view the deposit in the link's place, and else
changes nothing. -/
theorem nullify_cases (l : Ledger) (link : Address) :
    (∃ home i, l.places.get link = some (.endpoint home i) ∧
      i < (l.deposits home).entries.length ∧
      (l.nullify link).1 =
        { l with endpoints := l.endpoints.insert home ((l.deposits home).retract i) }) ∨
    ((l.nullify link).1 = l ∧ ∀ home i, l.places.get link = some (.endpoint home i) →
      ¬ i < (l.deposits home).entries.length) := by
  rw [nullify]
  cases hplace : l.places.get link with
  | none => exact .inr ⟨rfl, by simp⟩
  | some place =>
    cases place with
    | binding pre => exact .inr ⟨rfl, by simp⟩
    | endpoint home i =>
      cases hd : l.endpoints.get home with
      | none =>
        refine .inr ⟨by simp [hd], ?_⟩
        rintro home' i' ⟨⟩
        simp [deposits, hd, Deposits.empty]
      | some d =>
        have hdeposits : l.deposits home = d := by simp [deposits, hd]
        by_cases hi : i < d.entries.length
        · refine .inl ⟨home, i, rfl, hdeposits ▸ hi, ?_⟩
          simp [hd, hi, hdeposits]
        · refine .inr ⟨by simp [hd, hi], ?_⟩
          rintro home' i' ⟨⟩
          rw [hdeposits]
          exact hi

theorem nullify_bindings (l : Ledger) (link pre : Address) :
    (l.nullify link).1.bindings pre = l.bindings pre := by
  rcases l.nullify_cases link with ⟨home, i, -, -, heq⟩ | ⟨heq, -⟩ <;> rw [heq]
  rfl

theorem nullify_places (l : Ledger) (link : Address) : (l.nullify link).1.places = l.places := by
  rcases l.nullify_cases link with ⟨home, i, -, -, heq⟩ | ⟨heq, -⟩ <;> rw [heq]

theorem insert_deposits (l : Ledger) (d : Deposits) (home home' : Address) :
    deposits { l with endpoints := l.endpoints.insert home d } home' =
      if home' = home then d else l.deposits home' := by
  by_cases hhome : home' = home <;> simp [deposits, OrdMap.get_insert, hhome]

/-- A retraction leaves every deposit as it stood before any retraction. -/
theorem nullify_restored (l : Ledger) (link home : Address) :
    ((l.nullify link).1.deposits home).entries.map Judged.restored =
      (l.deposits home).entries.map Judged.restored := by
  rcases l.nullify_cases link with ⟨home', i, -, -, heq⟩ | ⟨heq, -⟩
  · rw [heq, insert_deposits]
    by_cases hhome : home = home'
    · rw [if_pos hhome, Deposits.retract_restored, hhome]
    · rw [if_neg hhome]
  · rw [heq]

theorem nullify_walked {l : Ledger} (h : ∀ home, (l.deposits home).Walked) (link home : Address) :
    ((l.nullify link).1.deposits home).Walked := by
  rcases l.nullify_cases link with ⟨home', i, -, -, heq⟩ | ⟨heq, -⟩
  · rw [heq, insert_deposits]
    by_cases hhome : home = home'
    · rw [if_pos hhome]
      exact (h home').retract i
    · rw [if_neg hhome]
      exact h home
  · rw [heq]
    exact h home

-- The invariant of a run

/-- The histories are the records folded under the answers given, and the marks are
those of the walk. -/
structure Follows (calls : List Call) (l : Ledger) : Prop where
  history : ∀ pre, (l.bindings pre).entries = (empty.answered calls).filterMap (bindingAt pre)
  walked : ∀ pre, (l.bindings pre).Walked
  deposited : ∀ home, (l.deposits home).entries.map Judged.restored =
    (empty.answered calls).filterMap (depositAt home)
  weighed : ∀ home, (l.deposits home).Walked

theorem Follows.start : Follows [] empty where
  history _ := rfl
  walked _ := .empty
  deposited _ := rfl
  weighed _ := .empty

theorem Follows.call {calls : List Call} (h : Follows calls (after calls)) (c : Call) :
    Follows (calls ++ [c]) (after (calls ++ [c])) := by
  rw [after_concat]
  have hanswered := answered_concat calls c
  cases c with
  | foldBinding j =>
    constructor
    · intro pre
      rw [hanswered, List.filterMap_append, ← h.history pre]
      change (((after calls).foldBinding j).1.bindings pre).entries = _
      rw [foldBinding_bindings]
      by_cases hpre : j.record.pre = pre
      · rw [if_pos hpre]
        subst hpre
        simp [bindingAt, Bindings.push, Ledger.call, foldBinding]
      · simp [bindingAt, hpre]
    · intro pre
      change (((after calls).foldBinding j).1.bindings pre).Walked
      rw [foldBinding_bindings]
      by_cases hpre : j.record.pre = pre
      · rw [if_pos hpre]
        exact (h.walked pre).push j
      · rw [if_neg hpre]
        exact h.walked pre
    · intro home
      rw [hanswered, List.filterMap_append, ← h.deposited home]
      exact (List.append_nil _).symm
    · exact h.weighed
  | foldEndpoint j =>
    constructor
    · intro pre
      rw [hanswered, List.filterMap_append, ← h.history pre]
      exact (List.append_nil _).symm
    · exact h.walked
    · intro home
      rw [hanswered, List.filterMap_append, ← h.deposited home]
      change (((after calls).foldEndpoint j).1.deposits home).entries.map _ = _
      rw [foldEndpoint_deposits]
      by_cases hhome : j.home = home
      · rw [if_pos hhome]
        subst hhome
        simp [depositAt, Deposits.push, Ledger.call, foldEndpoint]
      · simp [depositAt, hhome]
    · intro home
      change (((after calls).foldEndpoint j).1.deposits home).Walked
      rw [foldEndpoint_deposits]
      by_cases hhome : j.home = home
      · rw [if_pos hhome]
        exact (h.weighed home).push j
      · rw [if_neg hhome]
        exact h.weighed home
  | nullify link =>
    constructor
    · intro pre
      rw [hanswered, List.filterMap_append, ← h.history pre]
      change (((after calls).nullify link).1.bindings pre).entries = _
      rw [nullify_bindings]
      simp [bindingAt]
    · intro pre
      change (((after calls).nullify link).1.bindings pre).Walked
      rw [nullify_bindings]
      exact h.walked pre
    · intro home
      rw [hanswered, List.filterMap_append, ← h.deposited home]
      change (((after calls).nullify link).1.deposits home).entries.map _ = _
      rw [nullify_restored]
      simp [depositAt]
    · exact nullify_walked h.weighed link

theorem follows_after (calls : List Call) : Follows calls (after calls) := by
  induction calls using List.reverseRecOn with
  | nil => exact .start
  | append_singleton calls c ih => exact ih.call c

-- The active view

/-- The place kept of a link is that of its deposit, and the deposits off the view are
those retracted since they were folded. -/
structure Placed (calls : List Call) (l : Ledger) : Prop where
  placed : ∀ home i d, (l.deposits home).entries[i]? = some d →
    l.places.get d.link = some (.endpoint home i)
  located : ∀ link home i, l.places.get link = some (.endpoint home i) →
    ∃ d, (l.deposits home).entries[i]? = some d ∧ d.link = link
  known : ∀ link place, l.places.get link = some place → link ∈ links calls
  handed : ∀ home, ∀ d ∈ (l.deposits home).entries, ∃ j, .foldEndpoint j ∈ calls ∧ j.link = d.link
  off : ∀ home, ∀ d ∈ (l.deposits home).entries,
    d.record.nullified = true ↔ OffView calls d.link

theorem Placed.start : Placed [] empty where
  placed := by simp [deposits, Ledger.empty, Deposits.empty]
  located := by simp [Ledger.empty]
  known := by simp [Ledger.empty]
  handed := by simp [deposits, Ledger.empty, Deposits.empty]
  off := by simp [deposits, Ledger.empty, Deposits.empty]

section
variable {calls : List Call} {l : Ledger} (h : Placed calls l)
include h

theorem Placed.mem_links {home : Address} {d : Judged EndpointRecord}
    (hd : d ∈ (l.deposits home).entries) : d.link ∈ links calls := by
  obtain ⟨i, hi⟩ := List.mem_iff_getElem?.1 hd
  exact h.known d.link _ (h.placed home i d hi)

theorem Placed.foldBinding {j : Judged BindingRecord} (hfresh : j.link ∉ links calls) :
    Placed (calls ++ [.foldBinding j]) (l.foldBinding j).1 := by
  have hne : ∀ {link place}, l.places.get link = some place → link ≠ j.link := by
    rintro link place hplace rfl
    exact hfresh (h.known _ _ hplace)
  constructor
  · intro home i d hd
    have hplace := h.placed home i d hd
    exact (OrdMap.get_insert_of_ne _ _ (hne hplace)).trans hplace
  · intro link home i hplace
    apply h.located
    change (l.places.insert j.link _).get link = _ at hplace
    rw [OrdMap.get_insert] at hplace
    split at hplace
    · cases hplace
    · exact hplace
  · intro link place hplace
    change (l.places.insert j.link _).get link = _ at hplace
    rw [OrdMap.get_insert] at hplace
    rw [Call.links_concat, List.mem_append]
    split at hplace
    · next heq => exact .inr (by simp [Call.folded, heq])
    · exact .inl (h.known link place hplace)
  · intro home d hd
    obtain ⟨j', hj', hlink⟩ := h.handed home d hd
    exact ⟨j', List.mem_append_left _ hj', hlink⟩
  · intro home d hd
    rw [h.off home d hd, offView_concat]
    simp

theorem Placed.foldEndpoint {j : Judged EndpointRecord} (hfresh : j.link ∉ links calls) :
    Placed (calls ++ [.foldEndpoint j]) (l.foldEndpoint j).1 := by
  have hnew : l.places.contains j.link = false := by
    rw [Bool.eq_false_iff]
    intro hc
    obtain ⟨place, hplace⟩ := OrdMap.contains_iff.1 hc
    exact hfresh (h.known _ _ hplace)
  have hplaces : (l.foldEndpoint j).1.places =
      l.places.insert j.link (.endpoint j.home (l.deposits j.home).entries.length) := by
    simp [Ledger.foldEndpoint, hnew]
  have hne : ∀ {link place}, l.places.get link = some place → link ≠ j.link := by
    rintro link place hplace rfl
    exact hfresh (h.known _ _ hplace)
  -- The deposits of a home are the old ones, and in the record's home the new one.
  have hentry : ∀ home i d, ((l.foldEndpoint j).1.deposits home).entries[i]? = some d ↔
      (l.deposits home).entries[i]? = some d ∨
        (home = j.home ∧ i = (l.deposits home).entries.length ∧
          d = j.weighed ((l.deposits home).honors j.record)) := by
    intro home i d
    rw [foldEndpoint_deposits]
    by_cases hhome : j.home = home
    · rw [if_pos hhome, Deposits.push, List.getElem?_append]
      by_cases hi : i < (l.deposits home).entries.length
      · simp [hi, hi.ne]
      · rw [if_neg hi, List.getElem?_eq_none (not_lt.1 hi), List.getElem?_singleton]
        simp only [hhome, true_and, reduceCtorEq, false_or]
        by_cases heq : i = (l.deposits home).entries.length
        · simp [heq, eq_comm]
        · have : i - (l.deposits home).entries.length ≠ 0 := by omega
          simp [this, heq]
    · simp [hhome, Ne.symm hhome]
  have hmem : ∀ home, ∀ d ∈ ((l.foldEndpoint j).1.deposits home).entries,
      d ∈ (l.deposits home).entries ∨ d = j.weighed ((l.deposits home).honors j.record) := by
    intro home d hd
    obtain ⟨i, hi⟩ := List.mem_iff_getElem?.1 hd
    rcases (hentry home i d).1 hi with hi | ⟨-, -, hi⟩
    · exact .inl (List.mem_of_getElem? hi)
    · exact .inr hi
  constructor
  · intro home i d hd
    rw [hplaces]
    rcases (hentry home i d).1 hd with hd | ⟨rfl, rfl, rfl⟩
    · have hplace := h.placed home i d hd
      rw [OrdMap.get_insert_of_ne _ _ (hne hplace), hplace]
    · exact OrdMap.get_insert_self ..
  · intro link home i hplace
    rw [hplaces, OrdMap.get_insert] at hplace
    split at hplace
    · next heq =>
      cases hplace
      exact ⟨_, (hentry _ _ _).2 (.inr ⟨rfl, rfl, rfl⟩), heq.symm⟩
    · obtain ⟨d, hd, hlink⟩ := h.located link home i hplace
      exact ⟨d, (hentry _ _ _).2 (.inl hd), hlink⟩
  · intro link place hplace
    rw [hplaces, OrdMap.get_insert] at hplace
    rw [Call.links_concat, List.mem_append]
    split at hplace
    · next heq => exact .inr (by simp [Call.folded, heq])
    · exact .inl (h.known link place hplace)
  · intro home d hd
    rcases hmem home d hd with hd | rfl
    · obtain ⟨j', hj', hlink⟩ := h.handed home d hd
      exact ⟨j', List.mem_append_left _ hj', hlink⟩
    · exact ⟨j, by simp, rfl⟩
  · intro home d hd
    rw [offView_concat]
    rcases hmem home d hd with hd | rfl
    · have hlink : j.link ≠ d.link := fun heq => hfresh (heq ▸ h.mem_links hd)
      simp [h.off home d hd, hlink]
    · have hoff : ¬ OffView calls j.link := fun hoff => hfresh hoff.mem_links
      simp [hoff]

theorem Placed.nullify (link : Address) : Placed (calls ++ [.nullify link]) (l.nullify link).1 := by
  have hlinks : links (calls ++ [.nullify link]) = links calls := by
    simp [Call.links_concat, Call.folded]
  -- Off the view go the entries of the retracted link, wherever they stand.
  have hentry : ∀ (home : Address) (i : Nat), ((l.nullify link).1.deposits home).entries[i]? =
      (l.deposits home).entries[i]?.map fun d : Judged EndpointRecord =>
        if d.link = link then d.retracted else d := by
    intro home i
    rcases l.nullify_cases link with ⟨home', i', hplace, -, heq⟩ | ⟨heq, hnone⟩
    · rw [heq, insert_deposits]
      obtain ⟨d', hd', hlink'⟩ := h.located link home' i' hplace
      by_cases hhome : home = home'
      · subst hhome
        rw [if_pos rfl, Deposits.retract, List.getElem?_modify]
        cases hd : (l.deposits home).entries[i]? with
        | none => rfl
        | some d =>
          by_cases hi : i' = i
          · subst hi
            obtain rfl : d' = d := Option.some.inj (hd'.symm.trans hd)
            simp [hlink']
          · have hlink : d.link ≠ link := by
              rintro rfl
              have := Option.some.inj (hplace.symm.trans (h.placed home i d hd))
              cases this
              exact hi rfl
            simp [hi, hlink]
      · rw [if_neg hhome]
        cases hd : (l.deposits home).entries[i]? with
        | none => rfl
        | some d =>
          have hlink : d.link ≠ link := by
            rintro rfl
            have := Option.some.inj (hplace.symm.trans (h.placed home i d hd))
            cases this
            exact hhome rfl
          simp [hlink]
    · rw [heq]
      cases hd : (l.deposits home).entries[i]? with
      | none => rfl
      | some d =>
        have hlink : d.link ≠ link := by
          rintro rfl
          exact hnone home i (h.placed home i d hd) (List.getElem?_eq_some_iff.1 hd).1
        simp [hlink]
  have hmem : ∀ home, ∀ d ∈ ((l.nullify link).1.deposits home).entries,
      ∃ d' ∈ (l.deposits home).entries, d = if d'.link = link then d'.retracted else d' := by
    intro home d hd
    obtain ⟨i, hi⟩ := List.mem_iff_getElem?.1 hd
    rw [hentry, Option.map_eq_some_iff] at hi
    obtain ⟨d', hd', rfl⟩ := hi
    exact ⟨d', List.mem_of_getElem? hd', rfl⟩
  have hsame : ∀ d : Judged EndpointRecord,
      (if d.link = link then d.retracted else d).link = d.link := by
    intro d
    split <;> rfl
  constructor
  · intro home i d hd
    rw [hentry, Option.map_eq_some_iff] at hd
    obtain ⟨d', hd', rfl⟩ := hd
    rw [nullify_places, hsame]
    exact h.placed home i d' hd'
  · intro link' home i hplace
    rw [nullify_places] at hplace
    obtain ⟨d, hd, hlink⟩ := h.located link' home i hplace
    exact ⟨_, by rw [hentry, hd]; rfl, (hsame d).trans hlink⟩
  · intro link' place hplace
    rw [nullify_places] at hplace
    rw [hlinks]
    exact h.known link' place hplace
  · intro home d hd
    obtain ⟨d', hd', rfl⟩ := hmem home d hd
    obtain ⟨j, hj, hlink⟩ := h.handed home d' hd'
    exact ⟨j, List.mem_append_left _ hj, hlink.trans (hsame d').symm⟩
  · intro home d hd
    obtain ⟨d', hd', rfl⟩ := hmem home d hd
    rw [hsame, offView_concat]
    by_cases hlink : d'.link = link
    · have hj := h.handed home d' hd'
      simp [hlink, hlink ▸ hj]
    · simp [hlink, h.off home d' hd', Ne.symm hlink]

end

theorem placed_after {calls : List Call} (hlinks : (links calls).Nodup) :
    Placed calls (after calls) := by
  induction calls using List.reverseRecOn with
  | nil => exact .start
  | append_singleton calls c ih =>
    rw [Call.links_concat, List.nodup_append] at hlinks
    have hcalls := ih hlinks.1
    have hfresh : ∀ link, c.folded = some link → link ∉ links calls := by
      intro link hc hmem
      exact hlinks.2.2 link hmem link (by simp [hc]) rfl
    rw [after_concat]
    cases c with
    | foldBinding j => exact hcalls.foldBinding (hfresh j.link rfl)
    | foldEndpoint j => exact hcalls.foldEndpoint (hfresh j.link rfl)
    | nullify link => exact hcalls.nullify link

-- The reads

theorem standing_eq {l : Ledger} (pre : Address) (h : (l.bindings pre).Walked) :
    l.standing pre = (l.bindings pre).chain.getLast?.map fun current =>
      { pre, current, history := (l.bindings pre).entries } := by
  rw [← h.stood_eq, standing, bindings]
  cases l.prefixes.get pre with
  | none => rfl
  | some b =>
    simp only [Option.getD_some, Option.bind_eq_bind, Option.bind_some]
    cases b.stood <;> rfl

theorem endpointsIn_eq (l : Ledger) (home : Address) :
    l.endpointsIn home = (l.deposits home).entries := by
  rw [endpointsIn, deposits]
  cases l.endpoints.get home <;> rfl

/-- The current endpoint stands and no later deposit does. -/
theorem currentEndpoint_eq_some_iff {l : Ledger} {home : Address} {d : Judged EndpointRecord} :
    l.currentEndpoint home = some d ↔ ∃ before after,
      l.endpointsIn home = before ++ d :: after ∧ d.record.stands = true ∧
        ∀ e ∈ after, e.record.stands = false := by
  rw [currentEndpoint, List.find?_eq_some_iff_append]
  constructor
  · rintro ⟨hd, later, earlier, heq, hlater⟩
    refine ⟨earlier.reverse, later.reverse, ?_, hd, fun e he => ?_⟩
    · rw [← List.reverse_inj, heq]
      simp
    · simpa using hlater e (List.mem_reverse.1 he)
  · rintro ⟨before, after, heq, hd, hafter⟩
    refine ⟨hd, after.reverse, before.reverse, ?_, fun e he => ?_⟩
    · rw [heq]
      simp
    · simpa using hafter e (List.mem_reverse.1 he)

end Ledger

/-- The element found has the greatest key, and one is found of any. -/
theorem maxByKey_spec {α : Type*} (key : α → Nat) (l : List α) :
    (maxByKey key l = none ↔ l = []) ∧
      ∀ a, maxByKey key l = some a → a ∈ l ∧ ∀ x ∈ l, key x ≤ key a := by
  induction l using List.reverseRecOn with
  | nil => simp [maxByKey]
  | append_singleton l x ih =>
    obtain ⟨hnone, hsome⟩ := ih
    have hstep : maxByKey key (l ++ [x]) = greaterByKey key (maxByKey key l) x := by
      simp [maxByKey]
    rw [hstep]
    cases hl : maxByKey key l with
    | none =>
      rw [hnone.1 hl]
      simp [greaterByKey]
    | some b =>
      obtain ⟨hb, hmax⟩ := hsome b hl
      rw [greaterByKey]
      by_cases hkey : key b ≤ key x
      · rw [if_pos hkey]
        refine ⟨by simp, ?_⟩
        rintro a ⟨⟩
        refine ⟨by simp, fun y hy => ?_⟩
        rcases List.mem_append.1 hy with hy | hy
        · exact (hmax y hy).trans hkey
        · rw [List.mem_singleton.1 hy]
      · rw [if_neg hkey]
        refine ⟨by simp, ?_⟩
        rintro a ⟨⟩
        refine ⟨List.mem_append_left _ hb, fun y hy => ?_⟩
        rcases List.mem_append.1 hy with hy | hy
        · exact hmax y hy
        · rw [List.mem_singleton.1 hy]
          omega

namespace Ledger

/-- A proper prefix with a standing. -/
def IsParent (l : Ledger) (parent pre : Address) : Prop :=
  parent ≠ pre ∧ isPrefix parent.tumbler pre.tumbler = true ∧ (l.standing parent).isSome = true

theorem standing_isSome_iff {l : Ledger} {pre : Address} :
    (l.standing pre).isSome = true ↔ ∃ b, l.prefixes.get pre = some b ∧ b.honored ≠ [] := by
  rw [standing]
  cases l.prefixes.get pre with
  | none => simp
  | some b =>
    rcases List.eq_nil_or_concat b.honored with hnil | ⟨rest, last, hcat⟩
    · simp [Bindings.stood, hnil]
    · have hlast : last < b.entries.length := b.within last (by simp [hcat])
      simp [Bindings.stood, hcat, List.getElem?_eq_getElem hlast]

theorem mem_parents_iff {l : Ledger} {pre parent : Address} :
    (∃ b, (parent, b) ∈ l.prefixes.entries.filter fun e =>
      !e.2.honored.isEmpty && e.1 != pre && isPrefix e.1.tumbler pre.tumbler) ↔
      l.IsParent parent pre := by
  rw [IsParent, standing_isSome_iff]
  simp only [List.mem_filter, ← OrdMap.get_eq_some_iff, Bool.and_eq_true, Bool.not_eq_true',
    List.isEmpty_eq_false_iff, bne_iff_ne]
  constructor
  · rintro ⟨b, hb, ⟨hne, hparent⟩, hprefix⟩
    exact ⟨hparent, hprefix, b, hb, hne⟩
  · rintro ⟨hparent, hprefix, b, hb, hne⟩
    exact ⟨b, hb, ⟨hne, hparent⟩, hprefix⟩

/-- Two prefixes of one address of the same length are one. -/
theorem eq_of_prefix_of_length {p q a : Address} (hp : isPrefix p.tumbler a.tumbler = true)
    (hq : isPrefix q.tumbler a.tumbler = true)
    (hlen : p.tumbler.comps.length = q.tumbler.comps.length) : p = q := by
  rw [isPrefix_iff] at hp hq
  apply Address.tumbler_injective
  apply Tumbler.ext
  exact (List.prefix_of_prefix_length_le hp hq hlen.le).eq_of_length hlen

/-- The parent is the longest of the proper prefixes with a standing. -/
theorem parentPrefix_eq_some_iff {l : Ledger} {pre parent : Address} :
    l.parentPrefix pre = some parent ↔ l.IsParent parent pre ∧
      ∀ other, l.IsParent other pre →
        other.tumbler.comps.length ≤ parent.tumbler.comps.length := by
  rw [parentPrefix]
  obtain ⟨hnone, hsome⟩ := maxByKey_spec (fun e : Address × Bindings => e.1.tumbler.comps.length)
    (l.prefixes.entries.filter fun e =>
      !e.2.honored.isEmpty && e.1 != pre && isPrefix e.1.tumbler pre.tumbler)
  constructor
  · intro h
    obtain ⟨⟨parent', b⟩, he, rfl⟩ := Option.map_eq_some_iff.1 h
    obtain ⟨hmem, hmax⟩ := hsome _ he
    refine ⟨mem_parents_iff.1 ⟨b, hmem⟩, fun other hother => ?_⟩
    obtain ⟨b', hb'⟩ := mem_parents_iff.2 hother
    exact hmax _ hb'
  · rintro ⟨hparent, hmax⟩
    obtain ⟨b, hb⟩ := mem_parents_iff.2 hparent
    cases hfound : maxByKey (fun e : Address × Bindings => e.1.tumbler.comps.length) _ with
    | none => exact absurd (hnone.1 hfound ▸ hb) List.not_mem_nil
    | some e =>
      obtain ⟨hmem, hge⟩ := hsome e hfound
      have he : l.IsParent e.1 pre := mem_parents_iff.1 ⟨e.2, hmem⟩
      have hlen := le_antisymm (hmax e.1 he) (hge _ hb)
      simp [eq_of_prefix_of_length he.2.1 hparent.2.1 hlen]

theorem parentPrefix_eq_none_iff {l : Ledger} {pre : Address} :
    l.parentPrefix pre = none ↔ ∀ other, ¬ l.IsParent other pre := by
  rw [parentPrefix, Option.map_eq_none_iff, (maxByKey_spec _ _).1, List.eq_nil_iff_forall_not_mem]
  constructor
  · intro h other hother
    obtain ⟨b, hb⟩ := mem_parents_iff.2 hother
    exact h _ hb
  · rintro h ⟨other, b⟩ hb
    exact h other (mem_parents_iff.1 ⟨b, hb⟩)

-- What a reader relies on

/-- The ledger after the calls: each prefix's honored bindings are one chain of
replacements, a replayed record is inert, a retraction moves the active view alone, and
the reads answer from these. -/
structure Lawful (calls : List Call) (l : Ledger) : Prop where
  history : ∀ pre, (l.bindings pre).entries = (empty.answered calls).filterMap (bindingAt pre)
  chained : ∀ pre before c later, (l.bindings pre).chain = before ++ c :: later →
    c.record.replaces = before.getLast?.map Judged.link
  accounts : ∀ pre first rest, (l.bindings pre).chain = first :: rest →
    ∀ c ∈ rest, c.record.account = none ∨ c.record.account = first.record.account
  standing : ∀ pre, l.standing pre = (l.bindings pre).chain.getLast?.map fun current =>
    { pre, current, history := (l.bindings pre).entries }
  bindingReplay : ∀ pre, ∀ c ∈ (l.bindings pre).chain, ∀ copy : Judged BindingRecord,
    copy.record.pre = pre → copy.record.account = c.record.account →
    copy.record.replaces = c.record.replaces →
      (l.foldBinding copy).2 = false ∧
      ((l.foldBinding copy).1.standing pre).map Standing.current =
        (l.standing pre).map Standing.current
  deposited : ∀ home, (l.endpointsIn home).map Judged.restored =
    (empty.answered calls).filterMap (depositAt home)
  endpointReplay : ∀ home, ∀ d ∈ l.endpointsIn home, d.record.honored = true →
    ∀ copy : Judged EndpointRecord, copy.home = home →
      copy.record.replaces = d.record.replaces → (l.foldEndpoint copy).2 = false
  nullifyBindings : ∀ link pre, (l.nullify link).1.bindings pre = l.bindings pre
  nullifyDeposits : ∀ link home, ((l.nullify link).1.endpointsIn home).map Judged.restored =
    (l.endpointsIn home).map Judged.restored
  /-- The answers of the folds are those of the calls with no retraction among them. -/
  nullifyBlind : (empty.answered calls).filter (fun x => x.1.isFold) =
    empty.answered (calls.filter Call.isFold)
  currentEndpoint : ∀ home d, l.currentEndpoint home = some d ↔ ∃ before later,
    l.endpointsIn home = before ++ d :: later ∧
      (d.record.honored = true ∧ ¬ OffView calls d.link) ∧
      ∀ e ∈ later, ¬ (e.record.honored = true ∧ ¬ OffView calls e.link)
  parentPrefix : ∀ pre parent, l.parentPrefix pre = some parent ↔ l.IsParent parent pre ∧
    ∀ other, l.IsParent other pre → other.tumbler.comps.length ≤ parent.tumbler.comps.length
  noParent : ∀ pre, l.parentPrefix pre = none ↔ ∀ other, ¬ l.IsParent other pre
  /-- A call that folds no binding at the prefix leaves its history. -/
  bindingsApart : ∀ c pre, (∀ j, c = .foldBinding j → j.record.pre ≠ pre) →
    (l.call c).1.bindings pre = l.bindings pre
  /-- A call that folds no deposit in the home leaves its deposits, retractions apart. -/
  depositsApart : ∀ c home, (∀ j, c = .foldEndpoint j → j.home ≠ home) →
    ((l.call c).1.endpointsIn home).map Judged.restored = (l.endpointsIn home).map Judged.restored

section
variable {calls : List Call} {l : Ledger}

theorem Follows.answers_fst : links ((empty.answered calls).map Prod.fst) = links calls := by
  rw [answered_fst]

/-- The bindings of a prefix have distinct links when the calls' records have. -/
theorem Follows.bindings_nodup (h : Follows calls l) (hlinks : (links calls).Nodup)
    (pre : Address) : ((l.bindings pre).entries.map Judged.link).Nodup := by
  rw [h.history pre]
  have hsub := Call.sublist_links (Call.bindingAt_folded pre) (empty.answered calls)
  rw [Follows.answers_fst] at hsub
  exact hlinks.sublist hsub

theorem Follows.deposits_nodup (h : Follows calls l) (hlinks : (links calls).Nodup)
    (home : Address) : ((l.deposits home).entries.map Judged.link).Nodup := by
  have hrestored : (l.deposits home).entries.map Judged.link =
      ((l.deposits home).entries.map Judged.restored).map Judged.link := by
    rw [List.map_map]
    rfl
  rw [hrestored, h.deposited home]
  have hsub := Call.sublist_links (Call.depositAt_folded home) (empty.answered calls)
  rw [Follows.answers_fst] at hsub
  exact hlinks.sublist hsub

theorem Follows.bindingReplay (h : Follows calls l) (hlinks : (links calls).Nodup)
    {pre : Address} {c : Judged BindingRecord} (hc : c ∈ (l.bindings pre).chain)
    {copy : Judged BindingRecord} (hpre : copy.record.pre = pre)
    (hreplaces : copy.record.replaces = c.record.replaces) :
    (l.foldBinding copy).2 = false ∧
      ((l.foldBinding copy).1.standing pre).map Standing.current =
        (l.standing pre).map Standing.current := by
  have hinert : (l.bindings pre).honors copy.record = false :=
    (h.walked pre).not_honors (h.bindings_nodup hlinks pre) hc hreplaces
  have hpush : (l.foldBinding copy).1.bindings pre = (l.bindings pre).push copy := by
    rw [foldBinding_bindings, if_pos hpre]
  have hwalked : ((l.foldBinding copy).1.bindings pre).Walked := hpush ▸ (h.walked pre).push copy
  constructor
  · rw [foldBinding, hpre]
    exact hinert
  · rw [standing_eq pre hwalked, standing_eq pre (h.walked pre), hpush, Bindings.push_chain, hinert]
    simp [Function.comp_def]

theorem Follows.endpointReplay (h : Follows calls l) (hlinks : (links calls).Nodup)
    {home : Address} {d : Judged EndpointRecord} (hd : d ∈ (l.deposits home).entries)
    (hhonored : d.record.honored = true) {copy : Judged EndpointRecord} (hhome : copy.home = home)
    (hreplaces : copy.record.replaces = d.record.replaces) : (l.foldEndpoint copy).2 = false := by
  have hchain : d.restored ∈ (l.deposits home).chain :=
    List.mem_filter.2 ⟨List.mem_map_of_mem hd, hhonored⟩
  rw [foldEndpoint, hhome]
  exact (h.weighed home).not_honors (h.deposits_nodup hlinks home) hchain hreplaces

end

theorem bindings_honors_congr {b b' : Bindings} (h : b.Walked) (h' : b'.Walked)
    (heq : b.entries = b'.entries) (r : BindingRecord) : b.honors r = b'.honors r := by
  rw [Bool.eq_iff_iff, h.honors_iff, h'.honors_iff, Bindings.chain, Bindings.chain, heq]

theorem deposits_honors_congr {d d' : Deposits} (h : d.Walked) (h' : d'.Walked)
    (heq : d.entries.map Judged.restored = d'.entries.map Judged.restored) (r : EndpointRecord) :
    d.honors r = d'.honors r := by
  rw [Bool.eq_iff_iff, h.honors_iff, h'.honors_iff, Deposits.chain, Deposits.chain, heq]

/-- What is read of the folds alone is read of the calls with the retractions left out. -/
private theorem filterMap_folds {β : Type} {f : Call × Bool → Option β}
    (hf : ∀ {x}, (f x).isSome → x.1.isFold = true) (answers : List (Call × Bool)) :
    (answers.filter fun x => x.1.isFold).filterMap f = answers.filterMap f := by
  rw [List.filterMap_filter]
  apply List.filterMap_congr
  intro x _
  split
  · rfl
  · next hx =>
    cases hfx : f x with
    | none => rfl
    | some y => exact absurd (hf (by rw [hfx]; rfl)) hx

theorem nullifyBlind (calls : List Call) : (empty.answered calls).filter (fun x => x.1.isFold) =
    empty.answered (calls.filter Call.isFold) := by
  induction calls using List.reverseRecOn with
  | nil => rfl
  | append_singleton calls c ih =>
    have h := follows_after calls
    have h' := follows_after (calls.filter Call.isFold)
    rw [answered_concat, List.filter_append, List.filter_append, ih]
    by_cases hfold : c.isFold = true
    · simp only [List.filter_cons, hfold, if_true, List.filter_nil]
      rw [answered_concat]
      have hanswer : ((after calls).call c).2 =
          ((after (calls.filter Call.isFold)).call c).2 := by
        cases c with
        | foldBinding j =>
          refine bindings_honors_congr (h.walked _) (h'.walked _) ?_ j.record
          rw [h.history, h'.history, ← ih, filterMap_folds Call.bindingAt_isFold]
        | foldEndpoint j =>
          refine deposits_honors_congr (h.weighed _) (h'.weighed _) ?_ j.record
          rw [h.deposited, h'.deposited, ← ih, filterMap_folds Call.depositAt_isFold]
        | nullify link => cases hfold
      rw [hanswer]
    · simp [hfold]

theorem call_bindings_apart (l : Ledger) {c : Call} {pre : Address}
    (h : ∀ j, c = .foldBinding j → j.record.pre ≠ pre) :
    (l.call c).1.bindings pre = l.bindings pre := by
  cases c with
  | foldBinding j =>
    change (l.foldBinding j).1.bindings pre = _
    rw [foldBinding_bindings, if_neg (h j rfl)]
  | foldEndpoint j => rfl
  | nullify link => exact l.nullify_bindings link pre

theorem call_deposits_apart (l : Ledger) {c : Call} {home : Address}
    (h : ∀ j, c = .foldEndpoint j → j.home ≠ home) :
    ((l.call c).1.deposits home).entries.map Judged.restored =
      (l.deposits home).entries.map Judged.restored := by
  cases c with
  | foldBinding j => rfl
  | foldEndpoint j =>
    change ((l.foldEndpoint j).1.deposits home).entries.map _ = _
    rw [foldEndpoint_deposits, if_neg (h j rfl)]
  | nullify link => exact l.nullify_restored link home

/-- After any calls whose folded records each have a link of their own the ledger is
lawful. -/
theorem lawful_after (calls : List Call) (hlinks : (links calls).Nodup) :
    Lawful calls (after calls) := by
  have h := follows_after calls
  have hplaced := placed_after hlinks
  -- A deposit stands when it is honored and was not retracted since.
  have hstands : ∀ home, ∀ d ∈ (after calls).endpointsIn home,
      d.record.stands = true ↔ d.record.honored = true ∧ ¬ OffView calls d.link := by
    intro home d hd
    rw [endpointsIn_eq] at hd
    rw [← hplaced.off home d hd, EndpointRecord.stands]
    simp
  refine
    { history := h.history
      chained := fun pre => (h.walked pre).succeeding
      accounts := fun pre => (h.walked pre).accounts
      standing := fun pre => standing_eq pre (h.walked pre)
      bindingReplay := ?_
      deposited := ?_
      endpointReplay := ?_
      nullifyBindings := (after calls).nullify_bindings
      nullifyDeposits := ?_
      nullifyBlind := nullifyBlind calls
      currentEndpoint := ?_
      parentPrefix := fun _ _ => parentPrefix_eq_some_iff
      noParent := fun _ => parentPrefix_eq_none_iff
      bindingsApart := fun _ _ => (after calls).call_bindings_apart
      depositsApart := ?_ }
  · intro pre c hc copy hpre _ hreplaces
    exact h.bindingReplay hlinks hc hpre hreplaces
  · intro home
    rw [endpointsIn_eq]
    exact h.deposited home
  · intro home d hd hhonored copy hhome hreplaces
    rw [endpointsIn_eq] at hd
    exact h.endpointReplay hlinks hd hhonored hhome hreplaces
  · intro link home
    rw [endpointsIn_eq, endpointsIn_eq]
    exact (after calls).nullify_restored link home
  · intro home d
    rw [currentEndpoint_eq_some_iff]
    refine exists_congr fun before => exists_congr fun later => and_congr_right fun heq => ?_
    have hmem : ∀ e ∈ d :: later, e ∈ (after calls).endpointsIn home := by
      intro e he
      rw [heq]
      exact List.mem_append_right _ he
    rw [hstands home d (hmem d List.mem_cons_self)]
    refine and_congr_right fun _ => forall₂_congr fun e he => ?_
    rw [← hstands home e (hmem e (List.mem_cons_of_mem _ he)), Bool.not_eq_true]
  · intro c home hc
    rw [endpointsIn_eq, endpointsIn_eq]
    exact (after calls).call_deposits_apart hc

/-- An allocation, its copy under another link, a deposit, its retraction. -/
theorem lawful_after_replay :
    let prefixOne : Address := ⟨⟨[1, 5], by simp⟩, .node, by decide⟩
    let account : Address := ⟨⟨[1, 0, 2], by simp⟩, .account, by decide⟩
    let home : Address := ⟨⟨[1, 0, 2, 0, 1], by simp⟩, .document, by decide⟩
    let link (k : ℕ) : Tumbler := ⟨[1, 0, 1, 0, 1, 0, 2, k], by simp⟩
    let one : Address := ⟨link 1, .element, by decide⟩
    let two : Address := ⟨link 2, .element, by decide⟩
    let three : Address := ⟨link 3, .element, by decide⟩
    let calls : List Call :=
      [.foldBinding ⟨1, one, home, ⟨prefixOne, some account, none, false⟩, .unsigned⟩,
        .foldBinding ⟨2, two, home, ⟨prefixOne, some account, none, false⟩, .unsigned⟩,
        .foldEndpoint ⟨3, three, home, ⟨["one"], none, false, false⟩, .unsigned⟩,
        .nullify three]
    Lawful calls (after calls) := by
  intro _ _ _ _ _ _ _ calls
  exact lawful_after calls (by decide)

end Ledger

end Resolve
