import Skep.Links.Spanfilade

/-!
# What the spanfilade files

The index of a slot holds exactly the filings of the slot's spans, and a home, an axis
and a level for each. From this the stab of a home is exact: the links it answers are
those with a span that shares a tumbler with the query's.
-/

theorem overlaps_iff {a b : Span} :
    overlaps a b = true ↔ ∃ t, a.contains t = true ∧ b.contains t = true := by
  have hdisjoint := classifySpans_disjoint_iff (a := a) (b := b)
  rw [← not_iff_not, not_exists, ← hdisjoint, overlaps]
  cases classifySpans a b <;> simp

theorem overlaps_iff_lt {a b : Span} :
    overlaps a b = true ↔ a.start < b.reach ∧ b.start < a.reach := by
  have hboth := HalfOpen.exists_mem_both (I := a.endpoints) (J := b.endpoints)
  have ha := a.start_lt_reach
  have hb := b.start_lt_reach
  simp only [overlaps_iff, Span.contains_iff, hboth, max_lt_iff, lt_min_iff, Span.endpoints_lo,
    Span.endpoints_hi]
  exact ⟨fun h => ⟨h.2.1, h.1.2⟩, fun h => ⟨⟨ha, h.2⟩, h.1, hb⟩⟩

/-- A span that overlaps another starts in it, or before it and reaches into it. -/
theorem overlaps_iff_starts {q s : Span} : overlaps q s = true ↔
    (q.start ≤ s.start ∧ s.start < q.reach) ∨ (s.start < q.start ∧ q.start < s.reach) := by
  have hq := q.start_lt_reach
  have hs := s.start_lt_reach
  rw [overlaps_iff_lt]
  constructor
  · rintro ⟨hlo, hhi⟩
    by_cases hle : q.start ≤ s.start
    · exact .inl ⟨hle, hhi⟩
    · exact .inr ⟨lt_of_not_ge hle, hlo⟩
  · rintro (⟨hlo, hhi⟩ | ⟨hlo, hhi⟩)
    · exact ⟨hlo.trans_lt hs, hhi⟩
    · exact ⟨hhi, hlo.trans hq⟩

theorem SiblingRun.of_eq_some {span : Span} {run : SiblingRun} (h : SiblingRun.of span = some run) :
    span.start = .snoc run.axis run.first ∧ span.reach = .snoc run.axis run.stop ∧
      run.first < run.stop := by
  rw [SiblingRun.of] at h
  by_cases hlen : span.start.len = span.width.len
  · rw [if_neg (not_not.2 hlen)] at h
    by_cases hzero : (span.width.comps.dropLast.any (· != 0)) = true
    · rw [if_pos hzero] at h
      cases h
    · rw [if_neg hzero] at h
      cases h
      obtain ⟨k, hk⟩ := span.t12
      obtain ⟨haction, hle⟩ := addDomain_eq_ok_iff.1 hk
      obtain ⟨hpos, hkw, hne⟩ := actionPoint_parts haction
      obtain ⟨axis, first, hstart⟩ := span.start.exists_snoc
      obtain ⟨zeros, step, hwidth⟩ := span.width.exists_snoc
      have hsum := Span.reach_eq_sumAt hk
      have hlens : axis.length = zeros.length := by
        rw [hstart, hwidth] at hlen
        simpa [Tumbler.len] using hlen
      -- the width is nonzero only at its last component
      have hlast : k = zeros.length + 1 := by
        by_contra hother
        have hbefore : k - 1 < zeros.length := by
          rw [hwidth] at hkw
          simp only [Tumbler.len, Tumbler.comps_snoc, List.length_append, List.length_singleton] at hkw
          omega
        rw [hwidth, Tumbler.comps_snoc, List.getD_append _ _ _ _ hbefore,
          List.getD_eq_getElem _ _ hbefore] at hne
        refine hzero (List.any_eq_true.2 ⟨zeros[k - 1], ?_, by simpa using hne⟩)
        rw [hwidth, Tumbler.comps_snoc, List.dropLast_concat]
        exact List.getElem_mem hbefore
      have hreach : span.reach = .snoc axis (first + step) := by
        rw [hsum]
        refine Tumbler.ext ?_
        simp only [sumAt, hstart, hwidth, hlast, Nat.add_sub_cancel, Tumbler.comps_snoc, ← hlens]
        simp [hlens]
      have hstep : step ≠ 0 := by
        rw [hlast, hwidth, Nat.add_sub_cancel] at hne
        simpa using hne
      rw [hreach, hstart, hwidth]
      simp only [Tumbler.comps_snoc, List.dropLast_concat, ordinal_snoc]
      exact ⟨trivial, trivial, by omega⟩
  · rw [if_pos hlen] at h
    cases h

namespace SiblingRun

variable {s : Span} {run : SiblingRun} (hrun : SiblingRun.of s = some run)

include hrun

/-- A run holds a tumbler that extends one of its siblings. -/
theorem mem_iff {t : Tumbler} : s.start ≤ t ∧ t < s.reach ↔
    ∃ c rest, t.comps = run.axis ++ c :: rest ∧ run.first ≤ c ∧ c < run.stop := by
  obtain ⟨hstart, hreach, -⟩ := of_eq_some hrun
  rw [hstart, hreach]
  exact Tumbler.between_siblings rfl rfl

/-- A run that starts before a tumbler and holds it. -/
theorem containing_iff {t : Tumbler} : s.start < t ∧ t < s.reach ↔
    ∃ c rest, t.comps = run.axis ++ c :: rest ∧ run.first ≤ c ∧ c < run.stop ∧
      (rest = [] → run.first < c) := by
  obtain ⟨hstart, -, -⟩ := of_eq_some hrun
  constructor
  · rintro ⟨hlt, hreach⟩
    obtain ⟨c, rest, hcomps, hle, hstop⟩ := (mem_iff hrun).1 ⟨hlt.le, hreach⟩
    refine ⟨c, rest, hcomps, hle, hstop, fun hrest => lt_of_le_of_ne hle fun heq => hlt.ne ?_⟩
    rw [hstart, heq]
    exact Tumbler.ext (by rw [hcomps, hrest, Tumbler.comps_snoc])
  · rintro ⟨c, rest, hcomps, hle, hstop, hne⟩
    obtain ⟨hlo, hhi⟩ := (mem_iff hrun).2 ⟨c, rest, hcomps, hle, hstop⟩
    refine ⟨lt_of_le_of_ne hlo fun heq => ?_, hhi⟩
    rw [hstart] at heq
    rw [← heq, Tumbler.comps_snoc] at hcomps
    have hc := List.append_cancel_left hcomps
    obtain ⟨hfirst, hrest⟩ := List.cons.inj hc
    exact absurd hfirst (hne hrest.symm).ne

end SiblingRun

namespace SlotIndex

/-- A family of spans, each at a place of a link's slot, the link in a home. -/
abbrev Family := Address → Address → ℕ → Span → Prop

/-- The index holds the filings of the family's spans, and names the home, the axis and
the level of each. -/
structure Files (idx : SlotIndex) (P : Family) : Prop where
  starts : ∀ e, e ∈ idx.starts ↔
    ∃ i s run, P e.home e.link i s ∧ SiblingRun.of s = some run ∧ s.start = e.start
  byFirst : ∀ e, e ∈ idx.byFirst ↔ ∃ i s run, P e.home e.link i s ∧ SiblingRun.of s = some run ∧
    run.axis = e.axis ∧ run.level = e.level ∧ run.first = e.coord
  byEnd : ∀ e, e ∈ idx.byEnd ↔ ∃ i s run, P e.home e.link i s ∧ SiblingRun.of s = some run ∧
    run.axis = e.axis ∧ run.level = e.level ∧ run.stop = e.coord ∧ 0 < run.level
  residue : ∀ k s, idx.residue.get k = some s ↔
    P k.home k.link k.index s ∧ SiblingRun.of s = none
  axes : ∀ h l i s run, P h l i s → SiblingRun.of s = some run → run.axis ∈ idx.axes
  levels : ∀ h l i s run, P h l i s → SiblingRun.of s = some run →
    ⟨run.axis, run.level⟩ ∈ idx.levels
  startingHomes : ∀ h l i s run, P h l i s → SiblingRun.of s = some run →
    ⟨run.axis, blockOf run.axis run.first, h⟩ ∈ idx.startingHomes
  containingHomes : ∀ h l i s run, P h l i s → SiblingRun.of s = some run →
    ⟨run.axis, run.level, Bisection.node run.level run.first, h⟩ ∈ idx.containingHomes

theorem files_empty : SlotIndex.empty.Files fun _ _ _ _ => False where
  starts e := by simp [SlotIndex.empty]
  byFirst e := by simp [SlotIndex.empty]
  byEnd e := by simp [SlotIndex.empty]
  residue k s := by simp [SlotIndex.empty]
  axes _ _ _ _ _ h := h.elim
  levels _ _ _ _ _ h := h.elim
  startingHomes _ _ _ _ _ h := h.elim
  containingHomes _ _ _ _ _ h := h.elim

variable {idx : SlotIndex} {P : Family}

theorem Files.file (hf : idx.Files P) {home link : Address} {index : ℕ} (span : Span)
    (hfresh : ∀ s, ¬ P home link index s) : (idx.file home link index span).Files fun h l i s =>
      P h l i s ∨ h = home ∧ l = link ∧ i = index ∧ s = span := by
  cases hrun : SiblingRun.of span with
  | none =>
    have hold : ∀ {h l i s run}, P h l i s ∨ h = home ∧ l = link ∧ i = index ∧ s = span →
        SiblingRun.of s = some run → P h l i s := by
      rintro h l i s run (hP | ⟨-, -, -, rfl⟩) hs
      · exact hP
      · rw [hrun] at hs
        cases hs
    simp only [SlotIndex.file, hrun]
    refine ⟨fun e => ?_, fun e => ?_, fun e => ?_, fun k s => ?_, fun h l i s run hP hs => ?_,
      fun h l i s run hP hs => ?_, fun h l i s run hP hs => ?_, fun h l i s run hP hs => ?_⟩
    · rw [hf.starts]
      exact ⟨fun ⟨i, s, run, hP, hs⟩ => ⟨i, s, run, .inl hP, hs⟩,
        fun ⟨i, s, run, hP, hs⟩ => ⟨i, s, run, hold hP hs.1, hs⟩⟩
    · rw [hf.byFirst]
      exact ⟨fun ⟨i, s, run, hP, hs⟩ => ⟨i, s, run, .inl hP, hs⟩,
        fun ⟨i, s, run, hP, hs⟩ => ⟨i, s, run, hold hP hs.1, hs⟩⟩
    · rw [hf.byEnd]
      exact ⟨fun ⟨i, s, run, hP, hs⟩ => ⟨i, s, run, .inl hP, hs⟩,
        fun ⟨i, s, run, hP, hs⟩ => ⟨i, s, run, hold hP hs.1, hs⟩⟩
    · rw [OrdMap.get_insert]
      by_cases hk : k = ⟨home, link, index⟩
      · subst hk
        rw [if_pos rfl, Option.some.injEq]
        constructor
        · rintro rfl
          exact ⟨.inr ⟨rfl, rfl, rfl, rfl⟩, hrun⟩
        · rintro ⟨hP | ⟨-, -, -, rfl⟩, -⟩
          · exact absurd hP (hfresh s)
          · rfl
      · rw [if_neg hk, hf.residue]
        refine ⟨fun ⟨hP, hs⟩ => ⟨.inl hP, hs⟩, ?_⟩
        rintro ⟨hP | ⟨rfl, rfl, rfl, rfl⟩, hs⟩
        · exact ⟨hP, hs⟩
        · exact absurd rfl hk
    · exact hf.axes h l i s run (hold hP hs) hs
    · exact hf.levels h l i s run (hold hP hs) hs
    · exact hf.startingHomes h l i s run (hold hP hs) hs
    · exact hf.containingHomes h l i s run (hold hP hs) hs
  | some run =>
    have hnew : ∀ {s run'}, s = span → SiblingRun.of s = some run' → run' = run := by
      rintro s run' rfl hs
      rw [hrun] at hs
      exact (Option.some.inj hs).symm
    simp only [SlotIndex.file, hrun]
    refine ⟨fun e => ?_, fun e => ?_, fun e => ?_, fun k s => ?_, fun h l i s run' hP hs => ?_,
      fun h l i s run' hP hs => ?_, fun h l i s run' hP hs => ?_, fun h l i s run' hP hs => ?_⟩
    · rw [OrdSet.mem_insert, hf.starts]
      constructor
      · rintro (rfl | ⟨i, s, run', hP, hs⟩)
        · exact ⟨index, span, run, .inr ⟨rfl, rfl, rfl, rfl⟩, hrun, rfl⟩
        · exact ⟨i, s, run', .inl hP, hs⟩
      · rintro ⟨i, s, run', hP | ⟨hh, hl, -, rfl⟩, hs, hstart⟩
        · exact .inr ⟨i, s, run', hP, hs, hstart⟩
        · cases e
          simp only at hh hl hstart
          subst hh hl hstart
          exact .inl rfl
    · rw [OrdSet.mem_insert, hf.byFirst]
      constructor
      · rintro (rfl | ⟨i, s, run', hP, hs⟩)
        · exact ⟨index, span, run, .inr ⟨rfl, rfl, rfl, rfl⟩, hrun, rfl, rfl, rfl⟩
        · exact ⟨i, s, run', .inl hP, hs⟩
      · rintro ⟨i, s, run', hP | ⟨hh, hl, -, rfl⟩, hs, haxis, hlevel, hfirst⟩
        · exact .inr ⟨i, s, run', hP, hs, haxis, hlevel, hfirst⟩
        · obtain rfl := hnew rfl hs
          cases e
          simp only at hh hl haxis hlevel hfirst
          subst hh hl haxis hlevel hfirst
          exact .inl rfl
    · have hinsert : e ∈ (if 0 < run.level then
            idx.byEnd.insert ⟨home, run.axis, run.level, run.stop, link⟩ else idx.byEnd) ↔
          (0 < run.level ∧ e = ⟨home, run.axis, run.level, run.stop, link⟩) ∨ e ∈ idx.byEnd := by
        by_cases hlevel : 0 < run.level
        · rw [if_pos hlevel, OrdSet.mem_insert, and_iff_right hlevel]
        · rw [if_neg hlevel]
          exact ⟨.inr, fun h => h.resolve_left fun h => hlevel h.1⟩
      rw [hinsert, hf.byEnd]
      constructor
      · rintro (⟨hpos, rfl⟩ | ⟨i, s, run', hP, hs⟩)
        · exact ⟨index, span, run, .inr ⟨rfl, rfl, rfl, rfl⟩, hrun, rfl, rfl, rfl, hpos⟩
        · exact ⟨i, s, run', .inl hP, hs⟩
      · rintro ⟨i, s, run', hP | ⟨hh, hl, -, rfl⟩, hs, haxis, hlevel, hstop, hpos⟩
        · exact .inr ⟨i, s, run', hP, hs, haxis, hlevel, hstop, hpos⟩
        · obtain rfl := hnew rfl hs
          cases e
          simp only at hh hl haxis hlevel hstop
          subst hh hl haxis hlevel hstop
          exact .inl ⟨hpos, rfl⟩
    · rw [hf.residue]
      refine ⟨fun ⟨hP, hs⟩ => ⟨.inl hP, hs⟩, ?_⟩
      rintro ⟨hP | ⟨-, -, -, rfl⟩, hs⟩
      · exact ⟨hP, hs⟩
      · rw [hrun] at hs
        cases hs
    · rcases hP with hP | ⟨-, -, -, hspan⟩
      · exact OrdSet.mem_insert.2 (.inr (hf.axes h l i s run' hP hs))
      · exact OrdSet.mem_insert.2 (.inl (by rw [hnew hspan hs]))
    · rcases hP with hP | ⟨-, -, -, hspan⟩
      · exact OrdSet.mem_insert.2 (.inr (hf.levels h l i s run' hP hs))
      · exact OrdSet.mem_insert.2 (.inl (by rw [hnew hspan hs]))
    · rcases hP with hP | ⟨rfl, -, -, hspan⟩
      · exact OrdSet.mem_insert.2 (.inr (hf.startingHomes h l i s run' hP hs))
      · exact OrdSet.mem_insert.2 (.inl (by rw [hnew hspan hs]))
    · rcases hP with hP | ⟨rfl, -, -, hspan⟩
      · exact OrdSet.mem_insert.2 (.inr (hf.containingHomes h l i s run' hP hs))
      · exact OrdSet.mem_insert.2 (.inl (by rw [hnew hspan hs]))

/-- Filing the spans of a slot adds them to the family. -/
theorem Files.fileFrom (hf : idx.Files P) (home link : Address) (index : ℕ) (spans : List Span)
    (hfresh : ∀ i s, index ≤ i → ¬ P home link i s) :
    (idx.fileFrom home link index spans).Files fun h l i s =>
      P h l i s ∨ h = home ∧ l = link ∧ index ≤ i ∧ spans[i - index]? = some s := by
  induction spans generalizing idx index P with
  | nil =>
    have hsame : (fun h l i s => P h l i s ∨ h = home ∧ l = link ∧ index ≤ i ∧
        ([] : List Span)[i - index]? = some s) = P := by
      funext h l i s
      simp
    rw [hsame]
    exact hf
  | cons span spans ih =>
    have hrest := ih (hf.file span fun s => hfresh index s le_rfl) (index + 1) (by
      rintro i s hi (hP | ⟨-, -, rfl, -⟩)
      · exact hfresh i s (by omega) hP
      · omega)
    have hsame : (fun h l i s => P h l i s ∨ h = home ∧ l = link ∧ index ≤ i ∧
        (span :: spans)[i - index]? = some s) = fun h l i s =>
          (P h l i s ∨ h = home ∧ l = link ∧ i = index ∧ s = span) ∨
            h = home ∧ l = link ∧ index + 1 ≤ i ∧ spans[i - (index + 1)]? = some s := by
      funext h l i s
      refine propext ?_
      rw [or_assoc, ← and_or_left, ← and_or_left]
      refine or_congr_right (and_congr_right fun _ => and_congr_right fun _ => ?_)
      by_cases hi : i = index
      · subst hi
        simp [eq_comm]
      · by_cases hle : index ≤ i
        · have hsucc : i - index = (i - (index + 1)) + 1 := by omega
          rw [hsucc, List.getElem?_cons_succ]
          simp only [hi, false_and, false_or]
          exact and_congr_left fun _ => by omega
        · simp only [hi, hle, false_and, false_or, show ¬ index + 1 ≤ i by omega]
    rw [hsame]
    exact hrest

end SlotIndex

namespace Spanfilade

/-- Some links, each at its address in its home. -/
abbrev Filed := Address → Address → Link → Prop

/-- The spans of the slot at a position. -/
def spansAt (V : Filed) (position : ℕ) : SlotIndex.Family := fun h l i s =>
  ∃ v e, V h l v ∧ v.slots[position]? = some e ∧ e.spans[i]? = some s

/-- The index of a position. -/
def indexAt (slots : List SlotIndex) (position : ℕ) : SlotIndex := slots[position]?.getD .empty

/-- The spanfilade holds the filings of the links, and their homes. -/
structure Files (sf : Spanfilade) (V : Filed) : Prop where
  homes : ∀ h l v, V h l v → h ∈ sf.homes
  slots : ∀ position, (indexAt sf.slots position).Files (spansAt V position)

theorem files_empty : Spanfilade.empty.Files fun _ _ _ => False := by
  refine ⟨fun h l v hv => hv.elim, fun position => ?_⟩
  have hnone : spansAt (fun _ _ _ => False) position = fun _ _ _ _ => False := by
    funext h l i s
    exact propext ⟨fun ⟨v, e, hv, _⟩ => hv, False.elim⟩
  rw [hnone]
  exact SlotIndex.files_empty

theorem length_fileSlot {slots : List SlotIndex} {home link : Address} {position : ℕ} {endset : Endset}
    (hle : position ≤ slots.length) : position + 1 ≤ (fileSlot slots home link position endset).length := by
  rw [fileSlot, List.length_modify]
  by_cases heq : position = slots.length
  · rw [if_pos heq, List.length_append, List.length_singleton, heq]
  · rw [if_neg heq]
    omega

theorem indexAt_fileSlot {slots : List SlotIndex} {home link : Address} {position : ℕ} {endset : Endset}
    (hle : position ≤ slots.length) (n : ℕ) : indexAt (fileSlot slots home link position endset) n =
      if n = position then (indexAt slots n).fileFrom home link 0 endset.spans else indexAt slots n := by
  have hmade : ∀ m, indexAt (if position = slots.length then slots ++ [.empty] else slots) m =
      indexAt slots m := by
    intro m
    by_cases heq : position = slots.length
    · rw [if_pos heq, indexAt, indexAt]
      by_cases hm : m < slots.length
      · rw [List.getElem?_append_left hm]
      · rw [List.getElem?_append_right (not_lt.1 hm), List.getElem?_eq_none (not_lt.1 hm)]
        cases m - slots.length with
        | zero => rfl
        | succ k => rfl
    · rw [if_neg heq]
  have hpresent : position < (if position = slots.length then slots ++ [.empty] else slots).length := by
    by_cases heq : position = slots.length
    · rw [if_pos heq, List.length_append, List.length_singleton]
      omega
    · rw [if_neg heq]
      omega
  by_cases hn : n = position
  · subst hn
    rw [if_pos rfl, ← hmade, fileSlot, indexAt, indexAt, List.getElem?_modify_eq,
      List.getElem?_eq_getElem hpresent]
    rfl
  · rw [if_neg hn, ← hmade n, fileSlot, indexAt, indexAt, List.getElem?_modify_ne _ _ (Ne.symm hn)]

theorem indexAt_fileSlots {home link : Address} (endsets : List Endset) {slots : List SlotIndex}
    {position : ℕ} (hle : position ≤ slots.length) (n : ℕ) :
    indexAt (fileSlots slots home link position endsets) n =
      match (if position ≤ n then endsets[n - position]? else none) with
      | some endset => (indexAt slots n).fileFrom home link 0 endset.spans
      | none => indexAt slots n := by
  induction endsets generalizing slots position with
  | nil =>
    rw [fileSlots]
    by_cases hn : position ≤ n
    · rw [if_pos hn, List.getElem?_nil]
    · rw [if_neg hn]
  | cons endset rest ih =>
    rw [fileSlots, ih (length_fileSlot hle), indexAt_fileSlot hle]
    rcases lt_trichotomy n position with hn | rfl | hn
    · rw [if_neg hn.ne, if_neg (not_le.2 hn), if_neg (by omega)]
    · rw [if_pos rfl, if_pos le_rfl, if_neg (by omega), Nat.sub_self, List.getElem?_cons_zero]
    · have hsucc : n - position = (n - (position + 1)) + 1 := by omega
      rw [if_neg hn.ne', if_pos hn.le, if_pos (Nat.succ_le_of_lt hn), hsucc, List.getElem?_cons_succ]

theorem Files.file {sf : Spanfilade} {V : Filed} (hf : sf.Files V) (addr home : Address) (value : Link)
    (hfresh : ∀ v, ¬ V home addr v) : (sf.file addr home value).Files fun h l v =>
      V h l v ∨ h = home ∧ l = addr ∧ v = value := by
  refine ⟨?_, fun position => ?_⟩
  · rintro h l v (hv | ⟨rfl, -, -⟩)
    · exact OrdSet.mem_insert.2 (.inr (hf.homes h l v hv))
    · exact OrdSet.mem_insert.2 (.inl rfl)
  · have hold : spansAt (fun h l v => V h l v ∨ h = home ∧ l = addr ∧ v = value) position =
        fun h l i s => spansAt V position h l i s ∨ h = home ∧ l = addr ∧
          ∃ e, value.slots[position]? = some e ∧ e.spans[i]? = some s := by
      funext h l i s
      refine propext ⟨?_, ?_⟩
      · rintro ⟨v, e, hv | ⟨hh, hl, rfl⟩, he, hs⟩
        · exact .inl ⟨v, e, hv, he, hs⟩
        · exact .inr ⟨hh, hl, e, he, hs⟩
      · rintro (⟨v, e, hv, he, hs⟩ | ⟨hh, hl, e, he, hs⟩)
        · exact ⟨v, e, .inl hv, he, hs⟩
        · exact ⟨value, e, .inr ⟨hh, hl, rfl⟩, he, hs⟩
    rw [Spanfilade.file, indexAt_fileSlots _ (Nat.zero_le _), if_pos (Nat.zero_le _), Nat.sub_zero, hold]
    cases hslot : value.slots[position]? with
    | none =>
      have hsame : (fun h l i s => spansAt V position h l i s ∨ h = home ∧ l = addr ∧
          ∃ e, (none : Option Endset) = some e ∧ e.spans[i]? = some s) = spansAt V position := by
        funext h l i s
        simp
      rw [hsame]
      exact hf.slots position
    | some endset =>
      have hfile := (hf.slots position).fileFrom home addr 0 endset.spans (fun i s _ ⟨v, e, hv, _⟩ => hfresh v hv)
      have hsame : (fun h l i s => spansAt V position h l i s ∨ h = home ∧ l = addr ∧
          ∃ e, some endset = some e ∧ e.spans[i]? = some s) = fun h l i s =>
            spansAt V position h l i s ∨ h = home ∧ l = addr ∧ 0 ≤ i ∧ endset.spans[i - 0]? = some s := by
        funext h l i s
        simp
      rw [hsame]
      exact hfile

end Spanfilade

theorem mem_collect {filings : OrdSet Filing} {home : Address} {axis : List ℕ} {level lo hi : ℕ}
    {l : Address} : l ∈ collect filings home axis level lo hi ↔
      ∃ c, lo ≤ c ∧ c < hi ∧ ⟨home, axis, level, c, l⟩ ∈ filings := by
  simp only [collect, List.mem_map, List.mem_filter, OrdSet.mem_elems, decide_eq_true_eq]
  constructor
  · rintro ⟨⟨h, a, v, c, l⟩, ⟨hmem, rfl, rfl, rfl, hlo, hhi⟩, rfl⟩
    exact ⟨c, hlo, hhi, hmem⟩
  · rintro ⟨c, hlo, hhi, hmem⟩
    exact ⟨⟨home, axis, level, c, l⟩, ⟨hmem, rfl, rfl, rfl, hlo, hhi⟩, rfl⟩

namespace SlotIndex

variable {idx : SlotIndex} {P : Family} (hf : idx.Files P) {home l : Address} {q : Span}

include hf

theorem Files.mem_startingInside : l ∈ idx.startingInside home q ↔
    ∃ i s run, P home l i s ∧ SiblingRun.of s = some run ∧ q.start ≤ s.start ∧ s.start < q.reach := by
  simp only [startingInside, List.mem_map, List.mem_filter, OrdSet.mem_elems, decide_eq_true_eq]
  constructor
  · rintro ⟨e, ⟨hmem, rfl, hlo, hhi⟩, rfl⟩
    obtain ⟨i, s, run, hP, hrun, hstart⟩ := (hf.starts e).1 hmem
    exact ⟨i, s, run, hP, hrun, hstart ▸ hlo, hstart ▸ hhi⟩
  · rintro ⟨i, s, run, hP, hrun, hlo, hhi⟩
    exact ⟨⟨home, s.start, l⟩, ⟨(hf.starts _).2 ⟨i, s, run, hP, hrun, rfl⟩, rfl, hlo, hhi⟩, rfl⟩

/-- At a node of an axis, the ends on the coordinate's side say which runs hold it. -/
theorem Files.mem_containingAt {axis : List ℕ} {c level : ℕ} {ownAxis : Bool} :
    l ∈ idx.containingAt home axis c ownAxis level ↔ ∃ i s run, P home l i s ∧
      SiblingRun.of s = some run ∧ run.axis = axis ∧ run.level = level ∧ run.first ≤ c ∧ c < run.stop ∧
        (ownAxis = true → run.first < c) := by
  have hlt : ∀ {s run}, SiblingRun.of s = some run → run.first < run.stop := fun h =>
    (SiblingRun.of_eq_some h).2.2
  rw [containingAt]
  by_cases hzero : level = 0
  · subst hzero
    rw [if_pos rfl]
    have hpoint : ∀ {s run}, SiblingRun.of s = some run → run.level = 0 →
        (run.first ≤ c ∧ c < run.stop ↔ c ≤ run.first ∧ run.first < c + 1) := fun hrun hlevel =>
      Bisection.mem_iff_of_level_zero (hlt hrun) hlevel
    cases ownAxis with
    | true =>
      simp only [if_true, List.not_mem_nil, false_iff]
      rintro ⟨i, s, run, -, hrun, -, hlevel, hle, hstop, hown⟩
      have := (hpoint hrun hlevel).1 ⟨hle, hstop⟩
      have := hown trivial
      omega
    | false =>
      simp only [Bool.false_eq_true, if_false, mem_collect, hf.byFirst, false_implies, and_true]
      constructor
      · rintro ⟨-, hlo, hhi, i, s, run, hP, hrun, haxis, hlevel, rfl⟩
        obtain ⟨hle, hstop⟩ := (hpoint hrun hlevel).2 ⟨hlo, hhi⟩
        exact ⟨i, s, run, hP, hrun, haxis, hlevel, hle, hstop⟩
      · rintro ⟨i, s, run, hP, hrun, haxis, hlevel, hle, hstop⟩
        obtain ⟨hlo, hhi⟩ := (hpoint hrun hlevel).1 ⟨hle, hstop⟩
        exact ⟨run.first, hlo, hhi, i, s, run, hP, hrun, haxis, hlevel, rfl⟩
  · have hpos : 0 < level := Nat.pos_of_ne_zero hzero
    rw [if_neg hzero]
    by_cases hbit : c.testBit (level - 1) = true
    · rw [if_pos hbit, mem_collect]
      simp only [hf.byEnd]
      constructor
      · rintro ⟨-, hlo, hhi, i, s, run, hP, hrun, haxis, hlevel, rfl, -⟩
        obtain ⟨hle, hstop⟩ := (Bisection.mem_iff_of_testBit (hlt hrun) hlevel hpos hbit).2 ⟨hlo, hhi⟩
        refine ⟨i, s, run, hP, hrun, haxis, hlevel, hle, hstop, fun _ => lt_of_le_of_ne hle ?_⟩
        -- a run's start lies in the lower half of its node, the coordinate in the upper
        rintro rfl
        have hlower := (Bisection.testBit_ends (hlt hrun) (by rw [← SiblingRun.level, hlevel]; exact hpos)).1
        rw [← SiblingRun.level, hlevel, hbit] at hlower
        cases hlower
      · rintro ⟨i, s, run, hP, hrun, haxis, hlevel, hle, hstop, -⟩
        obtain ⟨hlo, hhi⟩ := (Bisection.mem_iff_of_testBit (hlt hrun) hlevel hpos hbit).1 ⟨hle, hstop⟩
        exact ⟨run.stop, hlo, hhi, i, s, run, hP, hrun, haxis, hlevel, rfl, hlevel ▸ hpos⟩
    · have hbit' : c.testBit (level - 1) = false := by simpa using hbit
      rw [if_neg hbit, mem_collect]
      simp only [hf.byFirst]
      constructor
      · rintro ⟨-, hlo, hhi, i, s, run, hP, hrun, haxis, hlevel, rfl⟩
        have hfirst : run.first < c + 1 := by
          cases ownAxis <;> simp only [Bool.false_eq_true, if_false, if_true] at hhi <;> omega
        obtain ⟨hle, hstop⟩ :=
          (Bisection.mem_iff_of_not_testBit (hlt hrun) hlevel hpos hbit').2 ⟨hlo, hfirst⟩
        refine ⟨i, s, run, hP, hrun, haxis, hlevel, hle, hstop, ?_⟩
        rintro rfl
        exact hhi
      · rintro ⟨i, s, run, hP, hrun, haxis, hlevel, hle, hstop, hown⟩
        obtain ⟨hlo, hhi⟩ :=
          (Bisection.mem_iff_of_not_testBit (hlt hrun) hlevel hpos hbit').1 ⟨hle, hstop⟩
        refine ⟨run.first, hlo, ?_, i, s, run, hP, hrun, haxis, hlevel, rfl⟩
        cases ownAxis with
        | true => exact hown rfl
        | false => exact hhi

theorem Files.mem_containing {t : Tumbler} : l ∈ idx.containing home t ↔
    ∃ i s run, P home l i s ∧ SiblingRun.of s = some run ∧ s.start < t ∧ t < s.reach := by
  simp only [containing, List.mem_flatMap, Prod.exists, List.mem_zipIdx_iff_getElem?]
  constructor
  · rintro ⟨c, depth, hc, hl⟩
    by_cases haxes : t.comps.take depth ∈ idx.axes
    · rw [if_pos haxes] at hl
      obtain ⟨level, -, hl⟩ := List.mem_flatMap.1 hl
      obtain ⟨i, s, run, hP, hrun, haxis, -, hle, hstop, hown⟩ := hf.mem_containingAt.1 hl
      obtain ⟨hlt, hget⟩ := List.getElem?_eq_some_iff.1 hc
      refine ⟨i, s, run, hP, hrun, (SiblingRun.containing_iff hrun).2
        ⟨c, t.comps.drop (depth + 1), ?_, hle, hstop, fun hrest => hown ?_⟩⟩
      · rw [haxis, ← hget, ← List.drop_eq_getElem_cons hlt, List.take_append_drop]
      · rw [List.drop_eq_nil_iff] at hrest
        exact decide_eq_true (le_antisymm hlt hrest)
    · rw [if_neg haxes] at hl
      cases hl
  · rintro ⟨i, s, run, hP, hrun, hlo, hhi⟩
    obtain ⟨c, rest, hcomps, hle, hstop, hne⟩ := (SiblingRun.containing_iff hrun).1 ⟨hlo, hhi⟩
    have htake : t.comps.take run.axis.length = run.axis := by rw [hcomps, List.take_left]
    refine ⟨c, run.axis.length, ?_, ?_⟩
    · rw [hcomps, List.getElem?_append_right le_rfl, Nat.sub_self, List.getElem?_cons_zero]
    · rw [htake, if_pos (hf.axes _ _ _ _ _ hP hrun), List.mem_flatMap]
      refine ⟨run.level, ?_, hf.mem_containingAt.2
        ⟨i, s, run, hP, hrun, rfl, rfl, hle, hstop, fun hown => hne ?_⟩⟩
      · exact List.mem_map.2 ⟨⟨run.axis, run.level⟩,
          List.mem_filter.2 ⟨hf.levels _ _ _ _ _ hP hrun, decide_eq_true rfl⟩, rfl⟩
      · have hlen := of_decide_eq_true hown
        rw [Tumbler.len, hcomps, List.length_append, List.length_cons] at hlen
        exact List.length_eq_zero_iff.1 (by omega)

theorem Files.mem_residueHits : l ∈ idx.residueHits home q ↔
    ∃ i s, P home l i s ∧ SiblingRun.of s = none ∧ overlaps q s = true := by
  simp only [residueHits, List.mem_map, List.mem_filter, Bool.and_eq_true, decide_eq_true_eq, Prod.exists,
    ← OrdMap.get_eq_some_iff, hf.residue]
  constructor
  · rintro ⟨k, s, ⟨⟨hP, hrun⟩, rfl, hq⟩, rfl⟩
    exact ⟨k.index, s, hP, hrun, hq⟩
  · rintro ⟨i, s, hP, hrun, hq⟩
    exact ⟨⟨home, l, i⟩, s, ⟨⟨hP, hrun⟩, rfl, hq⟩, rfl⟩

theorem Files.mem_stabInParts {parts : Parts} : l ∈ idx.stabInParts home q parts ↔
    (parts.starting = true ∧ ∃ i s run, P home l i s ∧ SiblingRun.of s = some run ∧
      q.start ≤ s.start ∧ s.start < q.reach) ∨
    (parts.containing = true ∧ ∃ i s run, P home l i s ∧ SiblingRun.of s = some run ∧
      s.start < q.start ∧ q.start < s.reach) ∨
    (parts.residue = true ∧ ∃ i s, P home l i s ∧ SiblingRun.of s = none ∧ overlaps q s = true) := by
  have hif : ∀ (b : Bool) (hits : List Address), l ∈ (if b then hits else []) ↔ b = true ∧ l ∈ hits := by
    intro b hits
    cases b <;> simp
  rw [stabInParts, List.mem_append, List.mem_append, hif, hif, hif, hf.mem_startingInside,
    hf.mem_containing, hf.mem_residueHits, or_assoc]

/-- A stab answers the links with a span that shares a tumbler with the query's. -/
theorem Files.mem_stabIn : l ∈ idx.stabIn home q ↔ ∃ i s, P home l i s ∧ overlaps q s = true := by
  rw [stabIn, hf.mem_stabInParts]
  constructor
  · rintro (⟨-, i, s, run, hP, -, h⟩ | ⟨-, i, s, run, hP, -, h⟩ | ⟨-, i, s, hP, -, h⟩)
    · exact ⟨i, s, hP, overlaps_iff_starts.2 (.inl h)⟩
    · exact ⟨i, s, hP, overlaps_iff_starts.2 (.inr h)⟩
    · exact ⟨i, s, hP, h⟩
  · rintro ⟨i, s, hP, h⟩
    cases hrun : SiblingRun.of s with
    | none => exact .inr (.inr ⟨rfl, i, s, hP, hrun, h⟩)
    | some run =>
      rcases overlaps_iff_starts.1 h with h | h
      · exact .inl ⟨rfl, i, s, run, hP, hrun, h⟩
      · exact .inr (.inl ⟨rfl, i, s, run, hP, hrun, h⟩)

end SlotIndex
