import Skep.Links.Filed

/-!
# The homes a query span names

The streams of a query span name every home with a link the span hits, each in the way
it hits: a run that starts in the span stands in a block of an axis over the span's
start or between its start and its reach; a run that started before the span stands at
the node of a coordinate of its start. Each stream names its homes in order.
-/

namespace SlotIndex

variable {idx : SlotIndex}

theorem mem_blockHomes {axis : List ℕ} {block : ℕ} {home : Address} :
    home ∈ idx.blockHomes axis block ↔ ⟨axis, block, home⟩ ∈ idx.startingHomes := by
  simp only [blockHomes, List.mem_map, List.mem_filter, OrdSet.mem_elems, decide_eq_true_eq]
  constructor
  · rintro ⟨e, ⟨hmem, rfl, rfl⟩, rfl⟩
    exact hmem
  · intro hmem
    exact ⟨_, ⟨hmem, rfl, rfl⟩, rfl⟩

theorem mem_nodeHomes {axis : List ℕ} {level node : ℕ} {home : Address} :
    home ∈ idx.nodeHomes axis level node ↔ ⟨axis, level, node, home⟩ ∈ idx.containingHomes := by
  simp only [nodeHomes, List.mem_map, List.mem_filter, OrdSet.mem_elems, decide_eq_true_eq]
  constructor
  · rintro ⟨e, ⟨hmem, rfl, rfl, rfl⟩, rfl⟩
    exact hmem
  · intro hmem
    exact ⟨_, ⟨hmem, rfl, rfl, rfl⟩, rfl⟩

theorem InBlock.lt_iff {a b : InBlock} :
    a < b ↔ toLex (toLex (a.axis, a.block), a.home) < toLex (toLex (b.axis, b.block), b.home) := Iff.rfl

theorem AtNode.lt_iff {a b : AtNode} : a < b ↔
    toLex (toLex (a.axis, toLex (a.level, a.node)), a.home) <
      toLex (toLex (b.axis, toLex (b.level, b.node)), b.home) := Iff.rfl

theorem blockHomes_ascending (axis : List ℕ) (block : ℕ) :
    (idx.blockHomes axis block).Pairwise (· ≤ ·) := by
  refine List.pairwise_map.2 (List.Pairwise.imp_of_mem (fun {a b} ha hb hlt => ?_)
    (idx.startingHomes.ascending.filter _))
  obtain ⟨rfl, rfl⟩ := of_decide_eq_true (List.mem_filter.1 ha).2
  obtain ⟨haxis, hblock⟩ := of_decide_eq_true (List.mem_filter.1 hb).2
  rw [InBlock.lt_iff, haxis, hblock, Prod.Lex.toLex_lt_toLex] at hlt
  exact (hlt.resolve_left (lt_irrefl _)).2.le

theorem nodeHomes_ascending (axis : List ℕ) (level node : ℕ) :
    (idx.nodeHomes axis level node).Pairwise (· ≤ ·) := by
  refine List.pairwise_map.2 (List.Pairwise.imp_of_mem (fun {a b} ha hb hlt => ?_)
    (idx.containingHomes.ascending.filter _))
  obtain ⟨rfl, rfl, rfl⟩ := of_decide_eq_true (List.mem_filter.1 ha).2
  obtain ⟨haxis, hlevel, hnode⟩ := of_decide_eq_true (List.mem_filter.1 hb).2
  rw [AtNode.lt_iff, haxis, hlevel, hnode, Prod.Lex.toLex_lt_toLex] at hlt
  exact (hlt.resolve_left (lt_irrefl _)).2.le

/-- The blocks of an axis keep the order of its coordinates. -/
theorem blockOf_mono (axis : List ℕ) {x y : ℕ} (h : x ≤ y) : blockOf axis x ≤ blockOf axis y := by
  rw [blockOf, blockOf]
  by_cases hcontent : [0, contentSubspace].isSuffixOf axis = true
  · rw [if_pos hcontent, if_pos hcontent, Nat.shiftRight_eq_div_pow, Nat.shiftRight_eq_div_pow]
    exact Nat.div_le_div_right h
  · rw [if_neg hcontent, if_neg hcontent]
    exact h

/-- The entries of the directory of blocks from one on. -/
def blocksFrom (idx : SlotIndex) (axis : List ℕ) (block : ℕ) : List InBlock :=
  idx.startingHomes.elems.filter fun e => decide (toLex (axis, block) ≤ toLex (e.axis, e.block))

theorem find_block {axis : List ℕ} {block : ℕ} {e : InBlock}
    (h : idx.startingHomes.elems.find? (fun e => decide (toLex (axis, block) ≤ toLex (e.axis, e.block))) =
      some e) : e ∈ idx.blocksFrom axis block ∧
        ∀ x ∈ idx.blocksFrom axis block, toLex (e.axis, e.block) ≤ toLex (x.axis, x.block) := by
  obtain ⟨hkey, before, after, hsplit, hbefore⟩ := List.find?_eq_some_iff_append.1 h
  have hasc := idx.startingHomes.ascending
  rw [hsplit] at hasc
  refine ⟨List.mem_filter.2 ⟨by rw [hsplit]; simp, hkey⟩, fun x hx => ?_⟩
  obtain ⟨hx, hxkey⟩ := List.mem_filter.1 hx
  rw [hsplit] at hx
  rcases List.mem_append.1 hx with hx | hx
  · have := hbefore x hx
    rw [hxkey] at this
    cases this
  · rcases List.mem_cons.1 hx with rfl | hx
    · exact le_rfl
    · have hlt := List.rel_of_pairwise_cons (List.pairwise_append.1 hasc).2.1 hx
      rw [InBlock.lt_iff, Prod.Lex.toLex_lt_toLex] at hlt
      exact hlt.elim le_of_lt fun h => h.1.le

theorem length_blocksFrom_lt {axis : List ℕ} {block : ℕ} {e : InBlock} (he : e ∈ idx.blocksFrom axis block)
    (haxis : e.axis = axis) :
    (idx.blocksFrom axis (e.block + 1)).length < (idx.blocksFrom axis block).length := by
  have hle : block ≤ e.block := by
    have := of_decide_eq_true (List.mem_filter.1 he).2
    rw [haxis, Prod.Lex.toLex_le_toLex] at this
    exact (this.resolve_left (lt_irrefl _)).2
  have hsub : idx.blocksFrom axis (e.block + 1) = (idx.blocksFrom axis block).filter
      fun x => decide (toLex (axis, e.block + 1) ≤ toLex (x.axis, x.block)) := by
    rw [blocksFrom, blocksFrom, List.filter_filter]
    refine List.filter_congr fun x _ => ?_
    rw [Bool.eq_iff_iff, Bool.and_eq_true, decide_eq_true_eq, decide_eq_true_eq]
    refine ⟨fun h => ⟨h, le_trans ?_ h⟩, And.left⟩
    rw [Prod.Lex.toLex_le_toLex]
    exact .inr ⟨rfl, by omega⟩
  rw [hsub, List.length_filter_lt_length_iff_exists]
  refine ⟨e, he, fun h => ?_⟩
  have := of_decide_eq_true h
  rw [haxis, Prod.Lex.toLex_le_toLex] at this
  have := (this.resolve_left (lt_irrefl _)).2
  omega

theorem exists_mem_blockStreamsFrom {axis : List ℕ} {last : Option ℕ} {pair span turns block b : ℕ}
    {home : Address} (hturns : (idx.blocksFrom axis block).length ≤ turns)
    (hmem : ⟨axis, b, home⟩ ∈ idx.startingHomes) (hlo : block ≤ b) (hlast : ∀ x ∈ last, b ≤ x) :
    ⟨pair, some span, .STARTING, idx.blockHomes axis b⟩ ∈
      idx.blockStreamsFrom axis last pair span turns block := by
  have hentry : ∀ {lo}, lo ≤ b → (⟨axis, b, home⟩ : InBlock) ∈ idx.blocksFrom axis lo := fun hlo =>
    List.mem_filter.2 ⟨hmem, decide_eq_true (Prod.Lex.toLex_le_toLex.2 (.inr ⟨rfl, hlo⟩))⟩
  induction turns generalizing block with
  | zero =>
    have := List.length_pos_of_mem (hentry hlo)
    omega
  | succ turns ih =>
    rw [blockStreamsFrom]
    cases hfind : idx.startingHomes.elems.find?
        fun e => decide (toLex (axis, block) ≤ toLex (e.axis, e.block)) with
    | none =>
      have := List.find?_eq_none.1 hfind _ hmem
      exact absurd (List.mem_filter.1 (hentry hlo)).2 this
    | some e =>
      obtain ⟨he, hleast⟩ := find_block hfind
      have hle := hleast _ (hentry hlo)
      have hge := of_decide_eq_true (List.mem_filter.1 he).2
      -- the next entry stands no later than the block, so on the axis
      have haxis : e.axis = axis := by
        rw [Prod.Lex.toLex_le_toLex] at hle hge
        rcases hge with hge | hge
        · rcases hle with hle | hle
          · exact absurd hle (lt_asymm hge)
          · exact hle.1
        · exact hge.1.symm
      have hblock : e.block ≤ b := by
        rw [haxis, Prod.Lex.toLex_le_toLex] at hle
        exact (hle.resolve_left (lt_irrefl _)).2
      have hgo : ¬ (e.axis ≠ axis ∨ last.any (· < e.block) = true) := by
        rintro (h | h)
        · exact h haxis
        · obtain ⟨x, hx, hlt⟩ := Option.any_eq_true _ _ |>.1 h
          have := hlast x hx
          have := of_decide_eq_true hlt
          omega
      simp only [if_neg hgo, List.mem_cons]
      by_cases heq : e.block = b
      · exact .inl (by rw [heq])
      · refine .inr (ih ?_ (by omega))
        have := length_blocksFrom_lt he haxis
        omega

theorem blockStreamsFrom_ascending {axis : List ℕ} {last : Option ℕ} {pair span turns block : ℕ} :
    ∀ st ∈ idx.blockStreamsFrom axis last pair span turns block,
      st.pair = pair ∧ st.span = some span ∧ st.homes.Pairwise (· ≤ ·) := by
  induction turns generalizing block with
  | zero => exact fun st h => nomatch h
  | succ turns ih =>
    intro st hst
    rw [blockStreamsFrom] at hst
    cases hfind : idx.startingHomes.elems.find?
        fun e => decide (toLex (axis, block) ≤ toLex (e.axis, e.block)) with
    | none =>
      rw [hfind] at hst
      cases hst
    | some e =>
      simp only [hfind] at hst
      by_cases hstop : e.axis ≠ axis ∨ last.any (· < e.block) = true
      · rw [if_pos hstop] at hst
        cases hst
      · rw [if_neg hstop] at hst
        rcases List.mem_cons.1 hst with rfl | hst
        · exact ⟨rfl, rfl, blockHomes_ascending axis e.block⟩
        · exact ih st hst

/-- The blocks that meet the coordinates from the lowest up to a bound name the homes of
the runs that start there. -/
theorem exists_mem_blockStreams {axis : List ℕ} {lowest c : ℕ} {past : Past} {home : Address}
    (pair span : ℕ) (hmem : ⟨axis, blockOf axis c, home⟩ ∈ idx.startingHomes) (hlo : lowest ≤ c)
    (hpast : ∀ x, past = .at x → c < x) :
    ∃ st ∈ idx.blockStreams axis lowest past pair span,
      st.pair = pair ∧ st.span = some span ∧ st.parts = .STARTING ∧ home ∈ st.homes := by
  have hturns : (idx.blocksFrom axis (blockOf axis lowest)).length ≤ idx.startingHomes.elems.length :=
    List.length_filter_le _ _
  cases past with
  | every =>
    exact ⟨_, exists_mem_blockStreamsFrom hturns hmem (blockOf_mono axis hlo) (fun x hx => nomatch hx),
      rfl, rfl, rfl, mem_blockHomes.2 hmem⟩
  | «at» x =>
    have hlt := hpast x rfl
    rw [blockStreams, if_neg (by omega)]
    refine ⟨_, exists_mem_blockStreamsFrom hturns hmem (blockOf_mono axis hlo) (fun y hy => ?_),
      rfl, rfl, rfl, mem_blockHomes.2 hmem⟩
    cases hy
    exact blockOf_mono axis (by omega)

theorem blockStreams_ascending {axis : List ℕ} {lowest pair span : ℕ} {past : Past} :
    ∀ st ∈ idx.blockStreams axis lowest past pair span,
      st.pair = pair ∧ st.span = some span ∧ st.homes.Pairwise (· ≤ ·) := by
  intro st hst
  cases past with
  | every => exact blockStreamsFrom_ascending st hst
  | «at» x =>
    rw [blockStreams] at hst
    by_cases hx : x ≤ lowest
    · rw [if_pos hx] at hst
      cases hst
    · rw [if_neg hx] at hst
      exact blockStreamsFrom_ascending st hst

theorem coordinatesBelow_spec {axis r : List ℕ} {c : ℕ} (h : axis ++ [c] < r) :
    ∃ past, coordinatesBelow axis r = some past ∧ ∀ x, past = .at x → c < x := by
  rw [coordinatesBelow]
  by_cases hpre : axis.isPrefixOf r = true
  · obtain ⟨rest, rfl⟩ := List.isPrefixOf_iff_prefix.1 hpre
    rw [if_pos hpre, List.drop_left]
    cases rest with
    | nil =>
      rw [List.append_nil] at h
      have hlt : axis < axis ++ [c] := Tumbler.comps_lt_iff.2 (.inl ⟨c, [], rfl⟩)
      exact absurd h (lt_asymm hlt)
    | cons x rest =>
      refine ⟨_, rfl, fun y hy => ?_⟩
      cases hy
      by_cases hrest : rest = []
      · subst hrest
        exact Tumbler.snoc_lt_snoc.1 (show Tumbler.snoc axis c < .snoc axis x from h)
      · have hle : c ≤ x := by
          by_contra hlt
          have hgt : axis ++ x :: rest < axis ++ [c] :=
            Tumbler.comps_lt_iff.2 (.inr ⟨axis, x, c, rest, [], rfl, rfl, by omega⟩)
          exact lt_asymm h hgt
        rw [if_neg (by simpa using hrest)]
        omega
  · rw [if_neg hpre]
    have hlt : axis < r := (Tumbler.comps_lt_iff.2 (.inl ⟨c, [], rfl⟩)).trans h
    exact ⟨.every, if_pos hlt, fun x hx => nomatch hx⟩

/-- An axis not over a tumbler has a child no earlier than it only past it. -/
theorem le_axis_of_le_child {axis s : List ℕ} {c : ℕ} (hpre : ∀ x rest, s ≠ axis ++ x :: rest)
    (h : s ≤ axis ++ [c]) : s ≤ axis := by
  by_contra hlt
  rcases Tumbler.comps_lt_iff.1 (lt_of_not_ge hlt) with ⟨x, rest, rfl⟩ | ⟨p, x, y, t, r, rfl, rfl, hxy⟩
  · exact hpre x rest rfl
  · refine absurd h (not_le.2 (Tumbler.comps_lt_iff.2 (.inr ⟨p, x, y, t ++ [c], r, ?_, rfl, hxy⟩)))
    rw [List.append_assoc, List.cons_append]

variable {P : Family} (hf : idx.Files P) {home l : Address} {q s : Span} {run : SiblingRun} {i : ℕ}
  (hP : P home l i s) (hrun : SiblingRun.of s = some run) (pair span : ℕ)

include hf hP hrun

/-- A home with a run that starts in a query span is named by the span. -/
theorem Files.exists_startingStream (hlo : q.start ≤ s.start) (hhi : s.start < q.reach) :
    ∃ st ∈ idx.streams q pair span,
      st.pair = pair ∧ st.span = some span ∧ st.parts = .STARTING ∧ home ∈ st.homes := by
  obtain ⟨hstart, -, -⟩ := SiblingRun.of_eq_some hrun
  have hmem := hf.startingHomes _ _ _ _ _ hP hrun
  have haxis := hf.axes _ _ _ _ _ hP hrun
  have hlo' : q.start.comps ≤ run.axis ++ [run.first] := by
    rw [hstart] at hlo
    exact Tumbler.le_def.1 hlo
  have hhi' : run.axis ++ [run.first] < q.reach.comps := by
    rw [hstart] at hhi
    exact Tumbler.lt_def.1 hhi
  obtain ⟨past, hpast, hbelow⟩ := coordinatesBelow_spec hhi'
  have hleft : ∀ {st}, st ∈ idx.startingStreams q pair span → st ∈ idx.streams q pair span := fun h =>
    List.mem_append.2 (.inl h)
  by_cases hover : ∃ c rest, q.start.comps = run.axis ++ c :: rest
  · obtain ⟨c, rest, hcomps⟩ := hover
    have hlowest : (if run.axis.length + 1 = q.start.len then c else c + 1) ≤ run.first := by
      rw [Tumbler.len, hcomps, List.length_append, List.length_cons]
      by_cases hrest : rest = []
      · subst hrest
        rw [List.length_nil, if_pos rfl]
        rw [hcomps] at hlo'
        exact Tumbler.snoc_le_snoc.1 (show Tumbler.snoc run.axis c ≤ .snoc run.axis run.first from hlo')
      · have hne : ¬ run.axis.length + 1 = run.axis.length + (rest.length + 1) := by
          have := List.length_pos_iff.2 hrest
          omega
        rw [if_neg hne]
        by_contra hlt
        rcases Nat.lt_or_eq_of_le (show run.first ≤ c by omega) with hc | hc
        · refine absurd hlo' (not_le.2 ?_)
          rw [hcomps]
          exact Tumbler.comps_lt_iff.2 (.inr ⟨run.axis, run.first, c, [], rest, rfl, rfl, hc⟩)
        · obtain ⟨x, rest', rfl⟩ := List.exists_cons_of_ne_nil hrest
          refine absurd hlo' (not_le.2 ?_)
          rw [hcomps, hc]
          exact Tumbler.comps_lt_iff.2 (.inl ⟨x, rest', by simp⟩)
    obtain ⟨st, hst, hspec⟩ := exists_mem_blockStreams pair span hmem hlowest hbelow
    refine ⟨st, hleft (List.mem_append.2 (.inl (List.mem_flatMap.2 ⟨(c, run.axis.length), ?_, ?_⟩))), hspec⟩
    · rw [List.mem_zipIdx_iff_getElem?, hcomps, List.getElem?_append_right le_rfl, Nat.sub_self,
        List.getElem?_cons_zero]
    · have htake : q.start.comps.take run.axis.length = run.axis := by rw [hcomps, List.take_left]
      simp only [htake, if_pos haxis, hpast]
      exact hst
  · have hle : q.start.comps ≤ run.axis :=
      le_axis_of_le_child (fun x rest h => hover ⟨x, rest, h⟩) hlo'
    have hlt : run.axis < q.reach.comps :=
      (Tumbler.comps_lt_iff.2 (.inl ⟨run.first, [], rfl⟩)).trans hhi'
    obtain ⟨st, hst, hspec⟩ :=
      exists_mem_blockStreams pair span hmem (Nat.zero_le _) hbelow
    refine ⟨st, hleft (List.mem_append.2 (.inr (List.mem_flatMap.2 ⟨run.axis, ?_, ?_⟩))), hspec⟩
    · exact List.mem_filter.2 ⟨haxis, decide_eq_true ⟨hle, hlt⟩⟩
    · simp only [hpast]
      exact hst

/-- A home with a run that started before a query span and reaches into it is named by the span. -/
theorem Files.exists_containingStream (hlo : s.start < q.start) (hhi : q.start < s.reach) :
    ∃ st ∈ idx.streams q pair span,
      st.pair = pair ∧ st.span = some span ∧ st.parts = .CONTAINING ∧ home ∈ st.homes := by
  obtain ⟨c, rest, hcomps, hle, hstop, hne⟩ := (SiblingRun.containing_iff hrun).1 ⟨hlo, hhi⟩
  have hlt := (SiblingRun.of_eq_some hrun).2.2
  have hnode : c >>> run.level = Bisection.node run.level run.first :=
    Bisection.node_eq_of_mem hle hstop
  have htake : q.start.comps.take run.axis.length = run.axis := by rw [hcomps, List.take_left]
  refine ⟨⟨pair, some span, .CONTAINING, idx.nodeHomes run.axis run.level (c >>> run.level)⟩,
    List.mem_append.2 (.inr (List.mem_flatMap.2 ⟨(c, run.axis.length), ?_, ?_⟩)), rfl, rfl, rfl, ?_⟩
  · rw [List.mem_zipIdx_iff_getElem?, hcomps, List.getElem?_append_right le_rfl, Nat.sub_self,
      List.getElem?_cons_zero]
  · simp only [htake, if_pos (hf.axes _ _ _ _ _ hP hrun)]
    refine List.mem_map.2 ⟨run.level, List.mem_filter.2 ⟨?_, ?_⟩, rfl⟩
    · exact List.mem_map.2 ⟨⟨run.axis, run.level⟩,
        List.mem_filter.2 ⟨hf.levels _ _ _ _ _ hP hrun, decide_eq_true rfl⟩, rfl⟩
    · -- a run of level zero is one point, so the tumbler extends it
      by_contra hown
      simp only [Bool.not_eq_true', Bool.not_eq_false, Bool.and_eq_true, beq_iff_eq] at hown
      obtain ⟨hzero, hlen⟩ := hown
      rw [Tumbler.len, hcomps, List.length_append, List.length_cons] at hlen
      have hfirst := hne (List.length_eq_zero_iff.1 (by omega))
      have := (Bisection.mem_iff_of_level_zero hlt hzero).1 ⟨hle, hstop⟩
      omega
  · rw [mem_nodeHomes, hnode]
    exact hf.containingHomes _ _ _ _ _ hP hrun

omit hf hP hrun

theorem streams_ascending (q : Span) : ∀ st ∈ idx.streams q pair span,
    st.pair = pair ∧ st.span = some span ∧ st.homes.Pairwise (· ≤ ·) := by
  intro st hst
  rcases List.mem_append.1 hst with hst | hst
  · rcases List.mem_append.1 hst with hst | hst
    · obtain ⟨⟨c, depth⟩, -, hst⟩ := List.mem_flatMap.1 hst
      by_cases haxis : q.start.comps.take depth ∈ idx.axes
      · simp only [if_pos haxis] at hst
        cases hbelow : coordinatesBelow (q.start.comps.take depth) q.reach.comps with
        | none =>
          rw [hbelow] at hst
          cases hst
        | some past =>
          rw [hbelow] at hst
          exact blockStreams_ascending st hst
      · simp only [if_neg haxis] at hst
        cases hst
    · obtain ⟨axis, -, hst⟩ := List.mem_flatMap.1 hst
      cases hbelow : coordinatesBelow axis q.reach.comps with
      | none =>
        rw [hbelow] at hst
        cases hst
      | some past =>
        rw [hbelow] at hst
        exact blockStreams_ascending st hst
  · obtain ⟨⟨c, depth⟩, -, hst⟩ := List.mem_flatMap.1 hst
    by_cases haxis : q.start.comps.take depth ∈ idx.axes
    · simp only [if_pos haxis] at hst
      obtain ⟨level, -, rfl⟩ := List.mem_map.1 hst
      exact ⟨rfl, rfl, nodeHomes_ascending _ _ _⟩
    · simp only [if_neg haxis] at hst
      cases hst

end SlotIndex

theorem SlotIndex.Files.exists_residueStream {idx : SlotIndex} {P : SlotIndex.Family} (hf : idx.Files P)
    {home l : Address} {s : Span} {i : ℕ} (hP : P home l i s) (hrun : SiblingRun.of s = none) (pair : ℕ) :
    ∃ st, idx.residueStream pair = some st ∧ st.pair = pair ∧ st.span = none ∧ st.parts = .RESIDUE ∧
      home ∈ st.homes := by
  have hmem : ((⟨home, l, i⟩, s) : Residual × Span) ∈ idx.residue.entries :=
    OrdMap.get_eq_some_iff.1 ((hf.residue ⟨home, l, i⟩ s).2 ⟨hP, hrun⟩)
  have hne : ¬ idx.residue.entries.isEmpty = true := by
    rw [List.isEmpty_iff]
    exact List.ne_nil_of_mem hmem
  rw [residueStream, if_neg hne]
  exact ⟨_, rfl, rfl, rfl, rfl, List.mem_map.2 ⟨_, hmem, rfl⟩⟩

theorem SlotIndex.residueStream_ascending {idx : SlotIndex} {pair : ℕ} {st : HomeStream}
    (h : idx.residueStream pair = some st) :
    st.pair = pair ∧ st.span = none ∧ st.homes.Pairwise (· ≤ ·) := by
  rw [residueStream] at h
  by_cases hempty : idx.residue.entries.isEmpty = true
  · rw [if_pos hempty] at h
    cases h
  · rw [if_neg hempty] at h
    cases h
    refine ⟨rfl, rfl, List.pairwise_map.2 (idx.residue.ascending.imp fun {a b} hlt => ?_)⟩
    have hlt' : toLex (a.1.home, toLex (a.1.link, a.1.index)) <
        toLex (b.1.home, toLex (b.1.link, b.1.index)) := hlt
    rw [Prod.Lex.toLex_lt_toLex] at hlt'
    exact hlt'.elim le_of_lt fun h => h.1.le
