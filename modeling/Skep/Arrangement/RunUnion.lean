import Skep.Arrangement.RunList

/-!
# Unions of runs

The addresses several runs stand for, as runs that neither overlap nor abut.
Two runs are comparable where they stand on one chain: the addresses that
differ in their ordinal alone.

## Main results

- `RunUnion.mem_runs_iff` — the union stands for the runs' addresses
- `RunUnion.nodup_runs` — each once
- `RunUnion.covers_iff` — a run is covered where all its addresses are
-/

namespace Address

/-- What an address shares with its siblings. -/
def chain (a : Address) : List ℕ := a.comps.dropLast

theorem comps_eq_chain (a : Address) : a.comps = a.chain ++ [ordinal a.tumbler] :=
  (List.dropLast_append_getLast a.tumbler.nonempty).symm

theorem eq_iff_chain {a b : Address} :
    a = b ↔ a.chain = b.chain ∧ ordinal a.tumbler = ordinal b.tumbler := by
  constructor
  · rintro rfl
    exact ⟨rfl, rfl⟩
  · rintro ⟨h1, h2⟩
    refine Address.ext ?_
    show a.comps = b.comps
    rw [a.comps_eq_chain, b.comps_eq_chain, h1, h2]

@[simp] theorem chain_advance (a : Address) (k : ℕ) : (a.advance k).chain = a.chain := by
  rw [chain, Run.comps_advance_of_parts a.comps_eq_chain, List.dropLast_concat]

@[simp] theorem ordinal_advance (a : Address) (k : ℕ) :
    ordinal (a.advance k).tumbler = ordinal a.tumbler + k := by
  rw [tumbler_advance, ordinal_shift]

theorem lt_iff_of_chain {a b : Address} (h : a.chain = b.chain) :
    a < b ↔ ordinal a.tumbler < ordinal b.tumbler := by
  have ha : a.tumbler = Tumbler.snoc b.chain (ordinal a.tumbler) :=
    Tumbler.ext (h ▸ a.comps_eq_chain)
  have hb : b.tumbler = Tumbler.snoc b.chain (ordinal b.tumbler) := Tumbler.ext b.comps_eq_chain
  rw [Address.lt_def, ha, hb, Tumbler.snoc_lt_snoc, ordinal_snoc, ordinal_snoc]

theorem le_iff_of_chain {a b : Address} (h : a.chain = b.chain) :
    a ≤ b ↔ ordinal a.tumbler ≤ ordinal b.tumbler := by
  rw [← not_lt, lt_iff_of_chain h.symm, not_lt]

end Address

namespace Run

/-- The ordinal of a run's first address. -/
def firstOrdinal (r : Run) : ℕ := ordinal r.iStart.tumbler

/-- The ordinal past a run's last address. -/
def reachOrdinal (r : Run) : ℕ := r.firstOrdinal + r.width

/-- The run's reach as an address. -/
def reachAddr (r : Run) : Address := r.addrAt r.width

theorem firstOrdinal_lt_reachOrdinal (r : Run) : r.firstOrdinal < r.reachOrdinal :=
  Nat.lt_add_of_pos_right r.pos

/-- A run stands for the addresses of its chain between its ordinals. -/
theorem mem_addrs_iff_ordinal {r : Run} {x : Address} : x ∈ r.addrs ↔
    x.chain = r.iStart.chain ∧ r.firstOrdinal ≤ ordinal x.tumbler ∧
      ordinal x.tumbler < r.reachOrdinal := by
  rw [mem_addrs_iff, reachOrdinal]
  constructor
  · rintro ⟨k, hk, rfl⟩
    have hord : ordinal (r.addrAt k).tumbler = r.firstOrdinal + k :=
      r.iStart.ordinal_advance k
    refine ⟨r.iStart.chain_advance k, ?_, ?_⟩
    · omega
    · omega
  · rintro ⟨hchain, hlo, hhi⟩
    refine ⟨ordinal x.tumbler - r.firstOrdinal, by omega, Address.eq_iff_chain.2 ⟨?_, ?_⟩⟩
    · exact hchain.trans (r.iStart.chain_advance _).symm
    · show ordinal x.tumbler = ordinal (r.iStart.advance _).tumbler
      rw [Address.ordinal_advance]
      show ordinal x.tumbler = r.firstOrdinal + _
      omega

theorem nodup_addrs (r : Run) : r.addrs.Nodup :=
  (List.nodup_range).map fun _ _ h => Address.advance_inj.1 h

/-- Between two addresses of one chain every element position is of that chain. -/
theorem chain_of_between {a b x : Address} (ha : admitsStart a = true) (hx : admitsStart x = true)
    (h : a.chain = b.chain) (hax : a ≤ x) (hxb : x ≤ b) : x.chain = a.chain := by
  have hab := (Address.le_iff_of_chain h).1 (hax.trans hxb)
  let r : Run := ⟨a, ordinal b.tumbler - ordinal a.tumbler + 1, by omega, ha⟩
  have hreach : b < r.reachAddr := by
    have hc : b.chain = r.reachAddr.chain := h.symm.trans (a.chain_advance _).symm
    rw [Address.lt_iff_of_chain hc]
    show _ < ordinal (a.advance _).tumbler
    rw [Address.ordinal_advance]
    show _ < ordinal a.tumbler + (ordinal b.tumbler - ordinal a.tumbler + 1)
    omega
  have hmem : x ∈ r.addrs :=
    (mem_iextent_iff hx).1 (iextent_contains_iff.2 ⟨hax, lt_of_le_of_lt hxb hreach⟩)
  exact (mem_addrs_iff_ordinal.1 hmem).1

end Run

/-- Whether two runs stand on one chain. -/
def sameContentChain (a b : Run) : Bool :=
  a.iStart.tumbler.len == b.iStart.tumbler.len && a.iStart.chain == b.iStart.chain

theorem sameContentChain_iff {a b : Run} :
    sameContentChain a b = true ↔ a.iStart.chain = b.iStart.chain := by
  rw [sameContentChain, Bool.and_eq_true, beq_iff_eq, beq_iff_eq]
  refine ⟨And.right, fun h => ⟨?_, h⟩⟩
  show a.iStart.comps.length = b.iStart.comps.length
  rw [a.iStart.comps_eq_chain, b.iStart.comps_eq_chain, h]
  simp

theorem reach_lt_reach_iff {a b : Run} (h : a.iStart.chain = b.iStart.chain) :
    a.reach < b.reach ↔ a.reachOrdinal < b.reachOrdinal := by
  have hchain : a.reachAddr.chain = b.reachAddr.chain :=
    (a.iStart.chain_advance _).trans (h.trans (b.iStart.chain_advance _).symm)
  have hiff := Address.lt_iff_of_chain hchain
  rwa [show ordinal a.reachAddr.tumbler = a.reachOrdinal from a.iStart.ordinal_advance _,
    show ordinal b.reachAddr.tumbler = b.reachOrdinal from b.iStart.ordinal_advance _] at hiff

theorem iStart_le_reach_iff {a b : Run} (h : a.iStart.chain = b.iStart.chain) :
    a.iStart.tumbler ≤ b.reach ↔ a.firstOrdinal ≤ b.reachOrdinal := by
  have hchain : a.iStart.chain = b.reachAddr.chain := h.trans (b.iStart.chain_advance _).symm
  have hiff := Address.le_iff_of_chain hchain
  rwa [show ordinal b.reachAddr.tumbler = b.reachOrdinal from b.iStart.ordinal_advance _] at hiff

/-- Runs that join: from the start of the first to the reach of the furthest. -/
structure UnionPiece where
  first : Run
  furthest : Run
  chain : first.iStart.chain = furthest.iStart.chain
  lt : first.firstOrdinal < furthest.reachOrdinal

namespace UnionPiece

def reach (p : UnionPiece) : Tumbler := p.furthest.reach

def single (r : Run) : UnionPiece := ⟨r, r, rfl, r.firstOrdinal_lt_reachOrdinal⟩

/-- The piece as one run. -/
def toRun (p : UnionPiece) : Run :=
  ⟨p.first.iStart, p.furthest.reachOrdinal - p.first.firstOrdinal, Nat.sub_pos_of_lt p.lt,
    p.first.full⟩

theorem mem_toRun {p : UnionPiece} {x : Address} : x ∈ p.toRun.addrs ↔
    x.chain = p.first.iStart.chain ∧ p.first.firstOrdinal ≤ ordinal x.tumbler ∧
      ordinal x.tumbler < p.furthest.reachOrdinal := by
  have hreach : p.toRun.reachOrdinal = p.furthest.reachOrdinal :=
    Nat.add_sub_cancel' p.lt.le
  rw [Run.mem_addrs_iff_ordinal, hreach]
  rfl

end UnionPiece

/-- The union of several runs, in start order. -/
structure RunUnion where
  pieces : List UnionPiece

namespace RunUnion

/-- Extend the last piece by a run that starts inside it or at its reach. -/
def extend (pieces : List UnionPiece) (run : Run) : List UnionPiece :=
  match pieces.getLast? with
  | none => pieces ++ [.single run]
  | some piece =>
      if h : sameContentChain piece.first run = true ∧ run.iStart.tumbler ≤ piece.reach then
        if hreach : piece.reach < run.reach then
          pieces.dropLast ++ [⟨piece.first, run, sameContentChain_iff.1 h.1, by
            have hchain := piece.chain.symm.trans (sameContentChain_iff.1 h.1)
            exact piece.lt.trans ((reach_lt_reach_iff hchain).1 hreach)⟩]
        else pieces
      else pieces ++ [.single run]

/-- The union, from the runs in start order. -/
def of (runs : List Run) : RunUnion :=
  ⟨(runs.insertionSort fun a b => a.iStart ≤ b.iStart).foldl extend []⟩

/-- Whether one piece holds the run. -/
def covers (u : RunUnion) (run : Run) : Bool :=
  match (u.pieces.takeWhile fun p => decide (p.first.iStart ≤ run.iStart)).getLast? with
  | none => false
  | some piece => sameContentChain piece.first run && decide (run.reach ≤ piece.reach)

def runs (u : RunUnion) : List Run := u.pieces.map UnionPiece.toRun

/-- Pieces in start order that neither overlap nor abut. -/
def Apart (pieces : List UnionPiece) : Prop :=
  pieces.Pairwise fun p q => p.first.iStart ≤ q.first.iStart ∧
    (p.first.iStart.chain = q.first.iStart.chain → p.furthest.reachOrdinal < q.first.firstOrdinal)

@[simp] theorem mem_single {r : Run} {x : Address} :
    x ∈ (UnionPiece.single r).toRun.addrs ↔ x ∈ r.addrs := by
  rw [UnionPiece.mem_toRun, Run.mem_addrs_iff_ordinal]
  rfl

/-- What a step of the accumulation keeps: the pieces stay apart, and stand for
the run's addresses besides. -/
theorem extend_spec {pieces : List UnionPiece} {run : Run} (h : Apart pieces)
    (hle : ∀ p ∈ pieces, p.first.iStart ≤ run.iStart) :
    Apart (extend pieces run) ∧ (∀ p ∈ extend pieces run, p.first.iStart ≤ run.iStart) ∧
      ∀ x, (∃ p ∈ extend pieces run, x ∈ p.toRun.addrs) ↔
        (∃ p ∈ pieces, x ∈ p.toRun.addrs) ∨ x ∈ run.addrs := by
  rw [extend]
  split
  · next hnone =>
    rw [List.getLast?_eq_none_iff.1 hnone]
    refine ⟨List.pairwise_singleton _ _, ?_, fun x => by simp⟩
    intro p hp
    cases List.mem_singleton.1 hp
    exact le_refl _
  · next last hlast =>
    obtain ⟨front, rfl⟩ := List.getLast?_eq_some_iff.1 hlast
    rw [Apart, List.pairwise_append] at h
    obtain ⟨hfront, -, hcross⟩ := h
    have hlastle := hle last (by simp)
    split
    · next hin =>
      have hchain := sameContentChain_iff.1 hin.1
      have hlo := (Address.le_iff_of_chain hchain).1 hlastle
      have hhi := (iStart_le_reach_iff (hchain.symm.trans last.chain)).1 hin.2
      split
      · next hreach =>
        -- the run reaches past the last piece, which now ends where the run does
        have hgrow := (reach_lt_reach_iff (last.chain.symm.trans hchain)).1 hreach
        rw [List.dropLast_concat]
        refine ⟨?_, ?_, ?_⟩
        · rw [Apart, List.pairwise_append]
          refine ⟨hfront, List.pairwise_singleton _ _, fun p hp q hq => ?_⟩
          cases List.mem_singleton.1 hq
          exact hcross p hp last (by simp)
        · intro p hp
          rcases List.mem_append.1 hp with hp | hp
          · exact hle p (by simp [hp])
          · cases List.mem_singleton.1 hp
            exact hlastle
        · intro x
          simp only [List.mem_append, List.mem_singleton, or_and_right, exists_or, exists_eq_left]
          rw [or_assoc]
          refine or_congr_right ?_
          rw [UnionPiece.mem_toRun, UnionPiece.mem_toRun, Run.mem_addrs_iff_ordinal, ← hchain,
            ← and_or_left]
          refine and_congr_right fun _ => ?_
          have := last.lt
          simp only [Run.firstOrdinal] at hlo hhi this ⊢
          omega
      · next hreach =>
        -- the run lies in the last piece
        have hgrow := mt (reach_lt_reach_iff (last.chain.symm.trans hchain)).2 hreach
        refine ⟨?_, hle, fun x => ?_⟩
        · rw [Apart, List.pairwise_append]
          exact ⟨hfront, List.pairwise_singleton _ _, hcross⟩
        refine ⟨Or.inl, fun hx => hx.elim id fun hx => ⟨last, by simp, ?_⟩⟩
        rw [Run.mem_addrs_iff_ordinal] at hx
        refine UnionPiece.mem_toRun.2 ⟨hx.1.trans hchain.symm, ?_, by omega⟩
        simp only [Run.firstOrdinal] at hlo hx ⊢
        omega
    · next hout =>
      refine ⟨?_, ?_, ?_⟩
      · rw [Apart, List.pairwise_append]
        refine ⟨?_, List.pairwise_singleton _ _, fun p hp q hq => ?_⟩
        · rw [List.pairwise_append]
          exact ⟨hfront, List.pairwise_singleton _ _, hcross⟩
        cases List.mem_singleton.1 hq
        refine ⟨hle p hp, fun hchain => ?_⟩
        have hlastout : last.first.iStart.chain = run.iStart.chain →
            last.furthest.reachOrdinal < run.firstOrdinal := by
          intro hc
          by_contra hcon
          refine hout ⟨sameContentChain_iff.2 hc, ?_⟩
          exact (iStart_le_reach_iff (hc.symm.trans last.chain)).2 (by omega)
        rcases List.mem_append.1 hp with hp | hp
        · -- an earlier piece of the run's chain has the last one between the two
          obtain ⟨hord, hgap⟩ := hcross p hp last (by simp)
          have hc := Run.chain_of_between p.first.full last.first.full hchain hord hlastle
          have hgap := hgap hc.symm
          have hrun := hlastout (hc.trans hchain)
          have := last.lt
          show _ < run.firstOrdinal
          omega
        · cases List.mem_singleton.1 hp
          exact hlastout hchain
      · intro p hp
        rcases List.mem_append.1 hp with hp | hp
        · exact hle p hp
        · cases List.mem_singleton.1 hp
          exact le_refl _
      · intro x
        simp only [List.mem_append, List.mem_singleton, or_and_right, exists_or, exists_eq_left,
          mem_single]

theorem foldl_extend_spec {runs : List Run} {pieces : List UnionPiece} (h : Apart pieces)
    (hle : ∀ p ∈ pieces, ∀ r ∈ runs, p.first.iStart ≤ r.iStart)
    (hruns : runs.Pairwise fun a b => a.iStart ≤ b.iStart) :
    Apart (runs.foldl extend pieces) ∧ ∀ x, (∃ p ∈ runs.foldl extend pieces, x ∈ p.toRun.addrs) ↔
      (∃ p ∈ pieces, x ∈ p.toRun.addrs) ∨ x ∈ denRuns runs := by
  induction runs generalizing pieces with
  | nil => exact ⟨h, fun x => by simp⟩
  | cons run rest ih =>
    obtain ⟨hhead, hrest⟩ := List.pairwise_cons.1 hruns
    obtain ⟨hapart, hlast, hmem⟩ := extend_spec h fun p hp => hle p hp run (by simp)
    obtain ⟨hfinal, hden⟩ := ih hapart (fun p hp r hr => (hlast p hp).trans (hhead r hr)) hrest
    refine ⟨hfinal, fun x => ?_⟩
    rw [List.foldl_cons, hden, hmem, denRuns_cons, List.mem_append, or_assoc]

theorem of_spec (runs : List Run) : Apart (RunUnion.of runs).pieces ∧
    ∀ x, (∃ p ∈ (RunUnion.of runs).pieces, x ∈ p.toRun.addrs) ↔ x ∈ denRuns runs := by
  have hperm := List.perm_insertionSort (fun a b : Run => a.iStart ≤ b.iStart) runs
  have hsorted := List.pairwise_insertionSort (fun a b : Run => a.iStart ≤ b.iStart) runs
  have hnone : Apart [] := List.Pairwise.nil
  obtain ⟨hapart, hmem⟩ := foldl_extend_spec hnone (by simp) hsorted
  refine ⟨hapart, fun x => ?_⟩
  rw [RunUnion.of, hmem, denRuns, denRuns, List.mem_flatMap, List.mem_flatMap]
  simp [hperm.mem_iff]

/-- The union stands for the runs' addresses. -/
theorem mem_runs_iff {runs : List Run} {x : Address} :
    x ∈ denRuns (RunUnion.of runs).runs ↔ x ∈ denRuns runs := by
  rw [← (of_spec runs).2 x, RunUnion.runs, denRuns, List.mem_flatMap]
  simp

/-- The union stands for each address once. -/
theorem nodup_runs (runs : List Run) : (denRuns (RunUnion.of runs).runs).Nodup := by
  rw [denRuns, List.nodup_flatMap]
  refine ⟨fun r _ => r.nodup_addrs, ?_⟩
  rw [RunUnion.runs, List.pairwise_map]
  refine (of_spec runs).1.imp fun {p q} hpq => ?_
  intro x hp hq
  rw [UnionPiece.mem_toRun] at hp hq
  have := hpq.2 (hp.1.symm.trans hq.1)
  omega

/-- Two pieces of one chain that overlap or abut are one piece. -/
theorem Apart.eq_of_touch {pieces : List UnionPiece} (h : Apart pieces) {p q : UnionPiece}
    (hp : p ∈ pieces) (hq : q ∈ pieces) (hchain : p.first.iStart.chain = q.first.iStart.chain)
    (hpq : p.first.firstOrdinal ≤ q.furthest.reachOrdinal)
    (hqp : q.first.firstOrdinal ≤ p.furthest.reachOrdinal) : p = q := by
  by_contra hne
  have hgap : pieces.Pairwise fun p q => p.first.iStart.chain = q.first.iStart.chain →
      p.furthest.reachOrdinal < q.first.firstOrdinal ∨
        q.furthest.reachOrdinal < p.first.firstOrdinal :=
    h.imp fun hab hc => Or.inl (hab.2 hc)
  have hsymm : Std.Symm fun p q : UnionPiece => p.first.iStart.chain = q.first.iStart.chain →
      p.furthest.reachOrdinal < q.first.firstOrdinal ∨
        q.furthest.reachOrdinal < p.first.firstOrdinal :=
    ⟨fun a b hab hc => (hab hc.symm).symm⟩
  have := hgap.forall hp hq hne hchain
  omega

/-- The piece a run's start falls in is the last one that starts at or before it. -/
theorem Apart.last_of_mem {pieces : List UnionPiece} (h : Apart pieces) {p : UnionPiece}
    {a : Address} (hp : p ∈ pieces) (hmem : a ∈ p.toRun.addrs) :
    (pieces.takeWhile fun q => decide (q.first.iStart ≤ a)).getLast? = some p := by
  have hpa : p.first.iStart ≤ a := by
    rw [UnionPiece.mem_toRun] at hmem
    exact (Address.le_iff_of_chain hmem.1.symm).2 hmem.2.1
  obtain ⟨front, back, rfl⟩ := List.append_of_mem hp
  have hsorted := h.imp And.left
  rw [List.pairwise_append] at hsorted
  obtain ⟨-, hback, hcross⟩ := hsorted
  have hfront : ∀ q ∈ front, decide (q.first.iStart ≤ a) = true := fun q hq =>
    decide_eq_true ((hcross q hq p (by simp)).trans hpa)
  have hnext : back.takeWhile (fun q => decide (q.first.iStart ≤ a)) = [] := by
    cases back with
    | nil => rfl
    | cons q back =>
      refine List.takeWhile_cons_of_neg fun hqa => ?_
      -- a later piece at or before `a` would be of the same chain, and past `p`'s reach
      have hqa := of_decide_eq_true hqa
      have hpq := List.rel_of_pairwise_cons (List.pairwise_append.1 h).2.1
        (List.mem_cons_self (a := q) (l := back))
      rw [UnionPiece.mem_toRun] at hmem
      have hchain := Run.chain_of_between p.first.full q.first.full hmem.1.symm hpq.1 hqa
      have hgap := hpq.2 hchain.symm
      have hle := (Address.le_iff_of_chain (hchain.trans hmem.1.symm)).1 hqa
      simp only [Run.firstOrdinal] at hgap
      omega
  rw [List.takeWhile_append_of_pos hfront, List.takeWhile_cons, hnext]
  simp [hpa]

/-- A run is covered where every one of its addresses is. -/
theorem covers_iff {runs : List Run} {run : Run} :
    (RunUnion.of runs).covers run = true ↔ ∀ x ∈ run.addrs, x ∈ denRuns runs := by
  obtain ⟨hapart, hmem⟩ := of_spec runs
  constructor
  · intro h x hx
    rw [covers] at h
    split at h
    · cases h
    · next piece hpiece =>
      rw [Bool.and_eq_true, decide_eq_true_eq, sameContentChain_iff] at h
      have hin := List.mem_of_getLast? hpiece
      have hstart := of_decide_eq_true
        (List.mem_takeWhile_imp (p := fun q : UnionPiece => decide (q.first.iStart ≤ run.iStart)) hin)
      have hlo := (Address.le_iff_of_chain h.1).1 hstart
      have hhi := mt (reach_lt_reach_iff (piece.chain.symm.trans h.1)).2 (not_lt.2 h.2)
      rw [Run.mem_addrs_iff_ordinal] at hx
      refine (hmem x).1 ⟨piece, (List.takeWhile_prefix _).subset hin, UnionPiece.mem_toRun.2 ?_⟩
      refine ⟨hx.1.trans h.1.symm, ?_, by omega⟩
      simp only [Run.firstOrdinal] at hlo hx ⊢
      omega
  · intro h
    have hfirst : run.iStart ∈ run.addrs :=
      Run.mem_addrs_iff_ordinal.2 ⟨rfl, le_refl _, run.firstOrdinal_lt_reachOrdinal⟩
    obtain ⟨piece, hin, hpiece⟩ := (hmem _).2 (h _ hfirst)
    rw [covers, hapart.last_of_mem hin hpiece]
    rw [UnionPiece.mem_toRun] at hpiece
    have hchain := hpiece.1.symm
    simp only [Bool.and_eq_true, decide_eq_true_eq, sameContentChain_iff]
    refine ⟨hchain, ?_⟩
    by_contra hcon
    have hreach := (reach_lt_reach_iff (piece.chain.symm.trans hchain)).1 (not_le.1 hcon)
    -- the address at the piece's reach is the run's, so another piece holds it
    have hord : run.firstOrdinal < piece.furthest.reachOrdinal := hpiece.2.2
    obtain ⟨k, hk⟩ := Nat.exists_eq_add_of_lt hord
    have hnext : ordinal (run.addrAt (k + 1)).tumbler = piece.furthest.reachOrdinal := by
      rw [hk]
      exact run.iStart.ordinal_advance (k + 1)
    have hwidth : k + 1 < run.width := by
      rw [hk, Run.reachOrdinal] at hreach
      omega
    obtain ⟨other, hother, hmem'⟩ := (hmem _).2 (h _ (Run.mem_addrs_iff.2 ⟨k + 1, hwidth, rfl⟩))
    rw [UnionPiece.mem_toRun, hnext] at hmem'
    have hsame : other.first.iStart.chain = piece.first.iStart.chain :=
      hmem'.1.symm.trans ((run.iStart.chain_advance _).trans hchain.symm)
    have := piece.lt
    cases hapart.eq_of_touch hother hin hsame (by omega) (by omega)
    omega

/-- The addresses of a piece stand before those of a later one. -/
theorem lt_of_apart {p q : UnionPiece} (hle : p.first.iStart ≤ q.first.iStart)
    (hgap : p.first.iStart.chain = q.first.iStart.chain →
      p.furthest.reachOrdinal < q.first.firstOrdinal) {x y : Address}
    (hx : x ∈ p.toRun.addrs) (hy : y ∈ q.toRun.addrs) : x < y := by
  rw [UnionPiece.mem_toRun] at hx hy
  have hqy : q.first.iStart ≤ y := (Address.le_iff_of_chain hy.1.symm).2 hy.2.1
  refine lt_of_lt_of_le ?_ hqy
  by_contra hcon
  -- the later start stands between two addresses of the earlier piece's chain
  have hchain := Run.chain_of_between p.first.full q.first.full hx.1.symm hle (not_lt.1 hcon)
  have hord := (Address.le_iff_of_chain (hchain.trans hx.1.symm)).1 (not_lt.1 hcon)
  have := hgap hchain.symm
  simp only [Run.firstOrdinal] at this
  omega

theorem ascending_runs (runs : List Run) : (denRuns (RunUnion.of runs).runs).Pairwise (· < ·) := by
  rw [denRuns, List.pairwise_flatMap]
  refine ⟨fun r _ => ?_, ?_⟩
  · rw [Run.addrs, List.pairwise_map]
    refine List.pairwise_lt_range.imp fun {i j} hij => ?_
    show r.tumblerAt i < r.tumblerAt j
    exact Tumbler.shift_lt_shift.2 hij
  · rw [RunUnion.runs, List.pairwise_map]
    exact (of_spec runs).1.imp fun {p q} hpq x hx y hy => lt_of_apart hpq.1 hpq.2 hx hy

theorem apart_runs (runs : List Run) : (RunUnion.of runs).runs.Pairwise fun a b =>
    sameContentChain a b = true → a.reach < b.iStart.tumbler := by
  rw [RunUnion.runs, List.pairwise_map]
  refine (of_spec runs).1.imp fun {p q} hpq hchain => ?_
  have hchain : p.first.iStart.chain = q.first.iStart.chain := sameContentChain_iff.1 hchain
  have hreach : p.toRun.reachOrdinal = p.furthest.reachOrdinal := Nat.add_sub_cancel' p.lt.le
  by_contra hcon
  have hle := (iStart_le_reach_iff (a := q.toRun) (b := p.toRun) hchain.symm).1 (not_lt.1 hcon)
  rw [hreach] at hle
  exact absurd (hpq.2 hchain) (not_lt.2 hle)

/-- The union of runs is exact: it lists every address some run holds once and in order, in runs
of which no two of one chain abut, and covers a run exactly where every address of it is held. -/
theorem runUnion_exact (family : List Run) :
    (∀ x, x ∈ denRuns (RunUnion.of family).runs ↔ ∃ r ∈ family, x ∈ r.addrs) ∧
      (denRuns (RunUnion.of family).runs).Pairwise (· < ·) ∧
      ((RunUnion.of family).runs.Pairwise fun a b =>
        sameContentChain a b = true → a.reach < b.iStart.tumbler) ∧
      ∀ run, (RunUnion.of family).covers run = true ↔ ∀ x ∈ run.addrs, ∃ r ∈ family, x ∈ r.addrs := by
  have hden : ∀ x, x ∈ denRuns family ↔ ∃ r ∈ family, x ∈ r.addrs := fun x => List.mem_flatMap
  refine ⟨fun x => mem_runs_iff.trans (hden x), ascending_runs family, apart_runs family, fun run => ?_⟩
  rw [covers_iff]
  exact forall₂_congr fun x _ => hden x

end RunUnion
