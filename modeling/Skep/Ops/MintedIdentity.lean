import Skep.Arrangement.Shot

/-!
# What a shot has minted again

A publish shot mints each draft address once. The identities minted so far are
kept chain by chain, as pieces of consecutive ordinals with the fresh addresses
they stand for; a run the shot names is split against them.
-/

/-- A piece of a run a shot names, and the fresh run it was minted as. -/
structure MintedRun where
  fromRun : Run
  toRun : Run
  home : Address
  index : ℕ
  minted : Bool
  deriving DecidableEq

/-- The pieces a shot mints or refers to, in order. -/
abbrev Pairing := List MintedRun

inductive Portion where
  | referenced (fromRun toRun : Run)
  | unminted (piece : Run)

/-- By chain, the pieces minted so far: their first ordinal, width and fresh start. -/
structure MintedIdentity where
  chains : OrdMap (List ℕ) (OrdMap ℕ (ℕ × Address))

namespace MintedIdentity

variable {ε : Type}

def empty : MintedIdentity := ⟨OrdMap.empty⟩

/-- The pieces that meet `[start, reach)`, in order. -/
def meeting (pieces : OrdMap ℕ (ℕ × Address)) (start reach : ℕ) : List (ℕ × ℕ × Address) :=
  ((pieces.entries.filter fun e => decide (e.1 < reach)).reverse.takeWhile fun e =>
    decide (start < e.1 + e.2.1)).reverse

/-- A piece clipped to `[start, reach)`: its bounds, and the fresh address at the lower one. -/
def clipped (start reach : ℕ) (e : ℕ × ℕ × Address) : Outcome ε (ℕ × ℕ × Address) := do
  let lo := if start < e.1 then e.1 else start
  let hi := if e.1 + e.2.1 < reach then e.1 + e.2.1 else reach
  let fresh ← (Run.new e.2.2 e.2.1).expect
  return (lo, hi, fresh.addrAt (lo - e.1))

/-- The part of a run between two ordinals. -/
def pieceOf (run : Run) (lo hi : ℕ) : Outcome ε Run :=
  (Run.new (run.addrAt (lo - run.firstOrdinal)) (hi - lo)).expect

/-- The part of a run between two ordinals, where there is any, as not minted. -/
def gap (run : Run) (lo hi : ℕ) : Outcome ε (List Portion) :=
  if lo < hi then do
    let piece ← pieceOf run lo hi
    return [.unminted piece]
  else return []

/-- The portions of a run from a cursor on. -/
def portionsFrom (run : Run) (cursor : ℕ) : List (ℕ × ℕ × Address) → Outcome ε (List Portion)
  | [] => gap run cursor run.reachOrdinal
  | (lo, hi, fresh) :: covered => do
      let before ← gap run cursor lo
      let fromRun ← pieceOf run lo hi
      let toRun ← (Run.new fresh (hi - lo)).expect
      let after ← portionsFrom run hi covered
      return before ++ .referenced fromRun toRun :: after

/-- A run split against the identities minted so far. -/
def portionsOf (m : MintedIdentity) (run : Run) : Outcome ε (List Portion) := do
  let pieces := (m.chains.get run.iStart.chain).getD OrdMap.empty
  let covered ← (meeting pieces run.firstOrdinal run.reachOrdinal).mapM
    (clipped run.firstOrdinal run.reachOrdinal)
  portionsFrom run run.firstOrdinal covered

/-- Note the fresh runs of a piece from an offset on. -/
def noteFrom (piece : Run) (home : Address) (index : ℕ) :
    List Run → ℕ → OrdMap ℕ (ℕ × Address) → Pairing →
      Outcome ε (OrdMap ℕ (ℕ × Address) × Pairing)
  | [], _, pieces, pairing => return (pieces, pairing)
  | toRun :: fresh, offset, pieces, pairing => do
      let fromRun ← (Run.new (piece.addrAt offset) toRun.width).expect
      noteFrom piece home index fresh (offset + toRun.width)
        (pieces.insert (piece.firstOrdinal + offset) (toRun.width, toRun.iStart))
        (pairing ++ [⟨fromRun, toRun, home, index, true⟩])

/-- Note the fresh runs a piece was minted as. -/
def note (m : MintedIdentity) (piece : Run) (fresh : List Run) (home : Address) (index : ℕ)
    (pairing : Pairing) : Outcome ε (MintedIdentity × Pairing) := do
  let pieces := (m.chains.get piece.iStart.chain).getD OrdMap.empty
  let (pieces, pairing) ← noteFrom piece home index fresh 0 pieces pairing
  return (⟨m.chains.insert piece.iStart.chain pieces⟩, pairing)

end MintedIdentity

/-- A piece at the ordinal `o`, standing there for the address `y`. -/
def CoversOrdinal (pieces : OrdMap ℕ (ℕ × Address)) (o : ℕ) (y : Address) : Prop :=
  ∃ e ∈ pieces.entries, e.1 ≤ o ∧ o < e.1 + e.2.1 ∧ y = e.2.2.advance (o - e.1)

/-- No piece is empty, and none reaches into the next. -/
structure PiecesApart (pieces : OrdMap ℕ (ℕ × Address)) : Prop where
  pos : ∀ e ∈ pieces.entries, 0 < e.2.1
  apart : ∀ a ∈ pieces.entries, ∀ b ∈ pieces.entries, a.1 < b.1 → a.1 + a.2.1 ≤ b.1

theorem piecesApart_empty : PiecesApart OrdMap.empty := ⟨by simp, by simp⟩

theorem PiecesApart.insert {pieces : OrdMap ℕ (ℕ × Address)} (h : PiecesApart pieces)
    (first : ℕ) {width : ℕ} (a : Address) (hpos : 0 < width)
    (hfree : ∀ o, first ≤ o → o < first + width → ¬ ∃ y, CoversOrdinal pieces o y) :
    PiecesApart (pieces.insert first (width, a)) ∧ ∀ o y,
      CoversOrdinal (pieces.insert first (width, a)) o y ↔ CoversOrdinal pieces o y ∨
        (first ≤ o ∧ o < first + width ∧ y = a.advance (o - first)) := by
  -- a piece stands wholly before the new one or wholly past it
  have hout : ∀ e ∈ pieces.entries, e.1 + e.2.1 ≤ first ∨ first + width ≤ e.1 := by
    intro e he
    by_contra hmeet
    rw [not_or, not_le, not_le] at hmeet
    have hpe := h.pos e he
    exact hfree (max e.1 first) (le_max_right _ _) (by omega)
      ⟨_, e, he, le_max_left _ _, by omega, rfl⟩
  have hmem : ∀ e, e ∈ (pieces.insert first (width, a)).entries ↔
      e = (first, width, a) ∨ e ∈ pieces.entries := fun e => by
    rw [OrdMap.mem_insert_iff]
    refine or_congr_right ⟨And.left, fun he => ⟨he, fun heq => ?_⟩⟩
    have := h.pos e he
    have := hout e he
    omega
  refine ⟨⟨fun e he => ?_, fun x hx y hy hlt => ?_⟩, fun o y => ?_⟩
  · rcases (hmem e).1 he with rfl | he
    · exact hpos
    · exact h.pos e he
  · rcases (hmem x).1 hx with rfl | hx
    · rcases (hmem y).1 hy with rfl | hy
      · omega
      · have := h.pos y hy
        have := hout y hy
        simp only at hlt ⊢
        omega
    · rcases (hmem y).1 hy with rfl | hy
      · have := h.pos x hx
        have := hout x hx
        simp only at hlt ⊢
        omega
      · exact h.apart x hx y hy hlt
  · simp only [CoversOrdinal, hmem, or_and_right, exists_or, exists_eq_left]
    rw [or_comm]

/-- A prefix property cuts a list off where it ends. -/
theorem takeWhile_eq_filter {α : Type*} {p : α → Bool} {l : List α}
    (h : l.Pairwise fun a b => p b = true → p a = true) : l.takeWhile p = l.filter p := by
  induction l with
  | nil => rfl
  | cons a l ih =>
    obtain ⟨hhead, htail⟩ := List.pairwise_cons.1 h
    cases ha : p a with
    | true => rw [List.takeWhile_cons_of_pos ha, List.filter_cons_of_pos ha, ih htail]
    | false =>
      rw [List.takeWhile_cons_of_neg (by simp [ha]), List.filter_cons_of_neg (by simp [ha]), eq_comm,
        List.filter_eq_nil_iff]
      intro b hb hpb
      rw [hhead b hb hpb] at ha
      cases ha

/-- The pieces that meet a range are those that overlap it. -/
theorem MintedIdentity.meeting_eq {pieces : OrdMap ℕ (ℕ × Address)} (h : PiecesApart pieces)
    (start reach : ℕ) : meeting pieces start reach =
      pieces.entries.filter fun e => decide (e.1 < reach) && decide (start < e.1 + e.2.1) := by
  have hasc : pieces.entries.Pairwise fun a b => a.1 + a.2.1 ≤ b.1 := by
    refine pieces.ascending.imp_of_mem fun {a b} ha hb hlt => h.apart a ha b hb hlt
  rw [meeting, takeWhile_eq_filter, ← List.filter_reverse, List.reverse_reverse, List.filter_filter]
  · congr 1
    funext e
    rw [Bool.and_comm]
  · -- past the start is a property of the later pieces, which come first
    refine List.pairwise_reverse.2 ((hasc.filter _).imp fun {a b} hle ha => ?_)
    have := of_decide_eq_true ha
    exact decide_eq_true (by omega)

namespace MintedIdentity

def piecesOf (m : MintedIdentity) (chain : List ℕ) : OrdMap ℕ (ℕ × Address) :=
  (m.chains.get chain).getD OrdMap.empty

/-- The fresh address of an address minted before. -/
def Mints (m : MintedIdentity) (x y : Address) : Prop :=
  CoversOrdinal (m.piecesOf x.chain) (ordinal x.tumbler) y

/-- The pieces of every chain stand apart. -/
def Apart (m : MintedIdentity) : Prop := ∀ chain, PiecesApart (m.piecesOf chain)

theorem apart_empty : empty.Apart := fun _ => piecesApart_empty

theorem not_mints_empty {x y : Address} : ¬ empty.Mints x y := by
  rintro ⟨e, he, -⟩
  cases he

end MintedIdentity

namespace Portion

/-- The addresses of a run a portion stands for. -/
def addrs : Portion → List Address
  | referenced fromRun _ => fromRun.addrs
  | unminted piece => piece.addrs

/-- A portion refers to what was minted, and is not minted where nothing was. -/
def Exact (m : MintedIdentity) : Portion → Prop
  | referenced fromRun toRun => toRun.width = fromRun.width ∧
      ∀ k < fromRun.width, m.Mints (fromRun.addrAt k) (toRun.addrAt k)
  | unminted piece => ∀ x ∈ piece.addrs, ∀ y, ¬ m.Mints x y

end Portion

namespace MintedIdentity

variable {ε : Type}

theorem pieceOf_eq_ok {run piece : Run} {lo hi : ℕ} (hlo : run.firstOrdinal ≤ lo)
    (hhi : hi ≤ run.reachOrdinal) (h : (pieceOf run lo hi : Outcome ε Run) = .ok piece) :
    piece.iStart = run.addrAt (lo - run.firstOrdinal) ∧ piece.width = hi - lo ∧
      piece.addrs = (run.addrs.drop (lo - run.firstOrdinal)).take (hi - lo) := by
  rw [pieceOf, Outcome.expect_eq_ok_iff, Run.new_eq_ok_iff] at h
  have hpos := piece.pos
  rw [h.2] at hpos
  have hclip : piece = run.clip (lo - run.firstOrdinal) (hi - lo) hpos := Run.ext h.1 h.2
  refine ⟨h.1, h.2, ?_⟩
  rw [hclip]
  exact Run.addrs_clip hpos (by rw [Run.reachOrdinal] at hhi; omega)

theorem drop_addrs_eq {run : Run} {lo hi : ℕ} (hlo : run.firstOrdinal ≤ lo) (hle : lo ≤ hi) :
    run.addrs.drop (lo - run.firstOrdinal) =
      (run.addrs.drop (lo - run.firstOrdinal)).take (hi - lo) ++
        run.addrs.drop (hi - run.firstOrdinal) := by
  have hsum : hi - run.firstOrdinal = (lo - run.firstOrdinal) + (hi - lo) := by omega
  rw [hsum, ← List.drop_drop, List.take_append_drop]

/-- A gap stands for its addresses, and is not minted where no piece meets it. -/
theorem gap_spec {m : MintedIdentity} {run : Run} {lo hi : ℕ} {portions : List Portion}
    (hlo : run.firstOrdinal ≤ lo) (hle : lo ≤ hi) (hhi : hi ≤ run.reachOrdinal)
    (hfree : ∀ o, lo ≤ o → o < hi → ∀ y, ¬ CoversOrdinal (m.piecesOf run.iStart.chain) o y)
    (h : (gap run lo hi : Outcome ε (List Portion)) = .ok portions) :
    portions.flatMap Portion.addrs = (run.addrs.drop (lo - run.firstOrdinal)).take (hi - lo) ∧
      ∀ p ∈ portions, p.Exact m := by
  rw [gap] at h
  split at h
  · simp only [Outcome.bind_eq_ok_iff, Outcome.pure_eq, Outcome.ok.injEq] at h
    obtain ⟨piece, hpiece, rfl⟩ := h
    obtain ⟨hstart, hwidth, haddrs⟩ := pieceOf_eq_ok hlo hhi hpiece
    refine ⟨by simpa [Portion.addrs] using haddrs, ?_⟩
    simp only [List.mem_singleton, forall_eq, Portion.Exact]
    intro x hx y
    obtain ⟨k, hk, rfl⟩ := Run.mem_addrs_iff.1 hx
    have hchain : (piece.addrAt k).chain = run.iStart.chain := by
      simp [Run.addrAt, hstart]
    have hord : ordinal (piece.addrAt k).tumbler = lo + k := by
      simp only [Run.addrAt, hstart, Address.ordinal_advance]
      rw [← Run.firstOrdinal]
      omega
    rw [Mints, hchain, hord]
    exact hfree _ (Nat.le_add_right _ _) (by omega) y
  · cases h
    rw [show hi - lo = 0 by omega]
    simp

/-- A clipped piece, and the fresh addresses it stands for. -/
theorem clipped_eq_ok {start reach lo hi : ℕ} {e : ℕ × ℕ × Address} {fresh : Address}
    (h : (clipped start reach e : Outcome ε (ℕ × ℕ × Address)) = .ok (lo, hi, fresh)) :
    lo = max e.1 start ∧ hi = min (e.1 + e.2.1) reach ∧ fresh = e.2.2.advance (lo - e.1) := by
  simp only [clipped, Outcome.bind_eq_ok_iff, Outcome.expect_eq_ok_iff, Outcome.pure_eq,
    Outcome.ok.injEq, Prod.mk.injEq, Run.new_eq_ok_iff] at h
  obtain ⟨run, ⟨hstart, -⟩, rfl, rfl, rfl⟩ := h
  refine ⟨?_, ?_, ?_⟩
  · split <;> omega
  · split <;> omega
  · rw [Run.addrAt, hstart]

/-- What stands between a cursor and the reach of a run, by the pieces that meet it. -/
structure Meets (m : MintedIdentity) (run : Run) (cursor : ℕ) (met : List (ℕ × ℕ × Address)) :
    Prop where
  first : run.firstOrdinal ≤ cursor
  reach : cursor ≤ run.reachOrdinal
  sub : ∀ e ∈ met, e ∈ (m.piecesOf run.iStart.chain).entries ∧ e.1 < run.reachOrdinal ∧
    run.firstOrdinal < e.1 + e.2.1 ∧ 0 < e.2.1
  apart : met.Pairwise fun a b => a.1 + a.2.1 ≤ b.1
  ahead : ∀ e ∈ met, cursor ≤ max e.1 run.firstOrdinal
  all : ∀ o, cursor ≤ o → o < run.reachOrdinal → ∀ y,
    CoversOrdinal (m.piecesOf run.iStart.chain) o y → ∃ e ∈ met, e.1 ≤ o ∧ o < e.1 + e.2.1

/-- The first piece met ends the gap before it and starts what is past it. -/
theorem Meets.step {m : MintedIdentity} {run : Run} {cursor : ℕ} {e : ℕ × ℕ × Address}
    {met : List (ℕ × ℕ × Address)} (h : m.Meets run cursor (e :: met)) :
    (∀ o, cursor ≤ o → o < max e.1 run.firstOrdinal → ∀ y,
      ¬ CoversOrdinal (m.piecesOf run.iStart.chain) o y) ∧
    m.Meets run (min (e.1 + e.2.1) run.reachOrdinal) met := by
  obtain ⟨-, hreach, hstart, hpos⟩ := h.sub e List.mem_cons_self
  obtain ⟨hnext, hrest⟩ := List.pairwise_cons.1 h.apart
  have hfirst := run.firstOrdinal_lt_reachOrdinal
  have hcur := h.first
  refine ⟨fun o hlo hhi y hy => ?_, ⟨by omega, min_le_right _ _, ?_, hrest, ?_, ?_⟩⟩
  · obtain ⟨x, hx, hle, hlt⟩ := h.all o hlo (by omega) y hy
    rcases List.mem_cons.1 hx with rfl | hx
    · omega
    · have := hnext x hx
      omega
  · exact fun x hx => h.sub x (List.mem_cons_of_mem _ hx)
  · intro x hx
    have := hnext x hx
    omega
  · intro o hlo hhi y hy
    have hahead := h.ahead e List.mem_cons_self
    obtain ⟨x, hx, hle, hlt⟩ := h.all o (by omega) hhi y hy
    rcases List.mem_cons.1 hx with rfl | hx
    · omega
    · exact ⟨x, hx, hle, hlt⟩

/-- The portions past a cursor tile the run, each of them exact. -/
theorem portionsFrom_spec {m : MintedIdentity} {run : Run} {cursor : ℕ}
    {met covered : List (ℕ × ℕ × Address)} {portions : List Portion}
    (hmet : m.Meets run cursor met)
    (hclip : (met.mapM (clipped run.firstOrdinal run.reachOrdinal) :
      Outcome ε (List (ℕ × ℕ × Address))) = .ok covered)
    (h : (portionsFrom run cursor covered : Outcome ε (List Portion)) = .ok portions) :
    portions.flatMap Portion.addrs = run.addrs.drop (cursor - run.firstOrdinal) ∧
      ∀ p ∈ portions, p.Exact m := by
  induction met generalizing cursor covered portions with
  | nil =>
    cases hclip
    have hfree : ∀ o, cursor ≤ o → o < run.reachOrdinal → ∀ y,
        ¬ CoversOrdinal (m.piecesOf run.iStart.chain) o y := fun o hlo hhi y hy => by
      simpa using hmet.all o hlo hhi y hy
    obtain ⟨haddrs, hexact⟩ := gap_spec hmet.first hmet.reach le_rfl hfree h
    refine ⟨?_, hexact⟩
    rw [haddrs, List.take_of_length_le]
    rw [List.length_drop, Run.length_addrs, Run.reachOrdinal]
    omega
  | cons e met ih =>
    obtain ⟨hgap, hnext⟩ := hmet.step
    obtain ⟨hentry, hlt, hstart, hpos⟩ := hmet.sub e List.mem_cons_self
    have hahead := hmet.ahead e List.mem_cons_self
    have hcur := hmet.first
    rw [List.mapM_cons] at hclip
    simp only [Outcome.bind_eq_ok_iff, Outcome.pure_eq, Outcome.ok.injEq] at hclip
    obtain ⟨⟨lo, hi, fresh⟩, hhead, covered, htail, rfl⟩ := hclip
    obtain ⟨rfl, rfl, rfl⟩ := clipped_eq_ok hhead
    simp only [portionsFrom, Outcome.bind_eq_ok_iff, Outcome.expect_eq_ok_iff, Outcome.pure_eq,
      Outcome.ok.injEq, Run.new_eq_ok_iff] at h
    obtain ⟨before, hbefore, fromRun, hfrom, toRun, ⟨htoStart, htoWidth⟩, after, hafter, rfl⟩ := h
    have hfirst := run.firstOrdinal_lt_reachOrdinal
    obtain ⟨hbeforeAddrs, hbeforeExact⟩ := gap_spec hcur hahead (by omega) hgap hbefore
    obtain ⟨hfromStart, hfromWidth, hfromAddrs⟩ := pieceOf_eq_ok (by omega) (min_le_right _ _) hfrom
    obtain ⟨hafterAddrs, hafterExact⟩ := ih hnext htail hafter
    constructor
    · have hlohi : max e.1 run.firstOrdinal ≤ min (e.1 + e.2.1) run.reachOrdinal := by omega
      have hsplit := drop_addrs_eq hcur hahead
      rw [drop_addrs_eq (le_max_right _ _) hlohi] at hsplit
      rw [List.flatMap_append, List.flatMap_cons, hbeforeAddrs, hafterAddrs, Portion.addrs, hfromAddrs]
      exact hsplit.symm
    · intro p hp
      rcases List.mem_append.1 hp with hp | hp
      · exact hbeforeExact p hp
      rcases List.mem_cons.1 hp with rfl | hp
      · refine ⟨by rw [htoWidth, hfromWidth], fun k hk => ?_⟩
        rw [hfromWidth] at hk
        have hchain : (fromRun.addrAt k).chain = run.iStart.chain := by
          simp [Run.addrAt, hfromStart]
        have hord : ordinal (fromRun.addrAt k).tumbler = max e.1 run.firstOrdinal + k := by
          simp only [Run.addrAt, hfromStart, Address.ordinal_advance]
          rw [← Run.firstOrdinal]
          omega
        rw [Mints, hchain, hord]
        refine ⟨e, hentry, by omega, by omega, ?_⟩
        rw [Run.addrAt, htoStart, Address.advance_advance]
        congr 1
        omega
      · exact hafterExact p hp

/-- The portions of a run tile it, and refer to what was minted before. -/
theorem portionsOf_spec {m : MintedIdentity} {run : Run} {portions : List Portion} (hm : m.Apart)
    (h : (m.portionsOf run : Outcome ε (List Portion)) = .ok portions) :
    portions.flatMap Portion.addrs = run.addrs ∧ ∀ p ∈ portions, p.Exact m := by
  rw [portionsOf, Outcome.bind_eq_ok_iff] at h
  obtain ⟨covered, hcovered, hportions⟩ := h
  rw [← piecesOf, meeting_eq (hm run.iStart.chain)] at hcovered
  have hapart : (m.piecesOf run.iStart.chain).entries.Pairwise fun a b => a.1 + a.2.1 ≤ b.1 :=
    (m.piecesOf run.iStart.chain).ascending.imp_of_mem fun {a b} ha hb hlt =>
      (hm run.iStart.chain).apart a ha b hb hlt
  have hmeets : m.Meets run run.firstOrdinal
      ((m.piecesOf run.iStart.chain).entries.filter fun e =>
        decide (e.1 < run.reachOrdinal) && decide (run.firstOrdinal < e.1 + e.2.1)) := by
    refine ⟨le_rfl, run.firstOrdinal_lt_reachOrdinal.le, fun e he => ?_, hapart.filter _,
      fun _ _ => le_max_right _ _, fun o hlo hhi y hy => ?_⟩
    · rw [List.mem_filter, Bool.and_eq_true, decide_eq_true_eq, decide_eq_true_eq] at he
      exact ⟨he.1, he.2.1, he.2.2, (hm _).pos e he.1⟩
    · obtain ⟨e, he, hle, hlt, -⟩ := hy
      refine ⟨e, List.mem_filter.2 ⟨he, ?_⟩, hle, hlt⟩
      rw [Bool.and_eq_true, decide_eq_true_eq, decide_eq_true_eq]
      omega
  obtain ⟨haddrs, hexact⟩ := portionsFrom_spec hmeets hcovered hportions
  rw [Nat.sub_self, List.drop_zero] at haddrs
  exact ⟨haddrs, hexact⟩

end MintedIdentity

/-- A group of the pairing: it tiles `xs` by its sources and `ys` by its fresh
runs, and marks as minted the pieces not seen before. -/
structure Paired (home : Address) (index : ℕ) (seen : Address → Prop) (group : Pairing)
    (xs ys : List Address) : Prop where
  sources : group.flatMap (fun r => r.fromRun.addrs) = xs
  fresh : group.flatMap (fun r => r.toRun.addrs) = ys
  each : ∀ r ∈ group, r.fromRun.width = r.toRun.width ∧ r.home = home ∧ r.index = index ∧
    ∀ x ∈ r.fromRun.addrs, r.minted = true ↔ ¬ seen x

namespace Paired

variable {home : Address} {index : ℕ} {seen : Address → Prop}

theorem nil : Paired home index seen [] [] [] := ⟨rfl, rfl, by simp⟩

theorem append {group group' : Pairing} {xs ys xs' ys' : List Address}
    (h : Paired home index seen group xs ys) (h' : Paired home index seen group' xs' ys') :
    Paired home index seen (group ++ group') (xs ++ xs') (ys ++ ys') := by
  refine ⟨?_, ?_, fun r hr => (List.mem_append.1 hr).elim (h.each r) (h'.each r)⟩
  · rw [List.flatMap_append, h.sources, h'.sources]
  · rw [List.flatMap_append, h.fresh, h'.fresh]

theorem single {fromRun toRun : Run} {minted : Bool} (hwidth : fromRun.width = toRun.width)
    (hseen : ∀ x ∈ fromRun.addrs, minted = true ↔ ¬ seen x) :
    Paired home index seen [⟨fromRun, toRun, home, index, minted⟩] fromRun.addrs toRun.addrs := by
  refine ⟨by simp, by simp, fun r hr => ?_⟩
  rw [List.mem_singleton.1 hr]
  exact ⟨hwidth, rfl, rfl, hseen⟩

end Paired

namespace MintedIdentity

variable {ε : Type}

theorem noteFrom_spec {piece : Run} {home : Address} {index offset : ℕ} {fresh : List Run}
    {pieces pieces' : OrdMap ℕ (ℕ × Address)} {pairing pairing' : Pairing} {seen : Address → Prop}
    (hpieces : PiecesApart pieces) (hwidth : offset + (denRuns fresh).length ≤ piece.width)
    (hfree : ∀ o, piece.firstOrdinal + offset ≤ o →
      o < piece.firstOrdinal + offset + (denRuns fresh).length → ¬ ∃ y, CoversOrdinal pieces o y)
    (hseen : ∀ x ∈ piece.addrs, ¬ seen x)
    (h : (noteFrom piece home index fresh offset pieces pairing :
      Outcome ε (OrdMap ℕ (ℕ × Address) × Pairing)) = .ok (pieces', pairing')) :
    PiecesApart pieces' ∧
      (∀ o y, CoversOrdinal pieces' o y ↔ CoversOrdinal pieces o y ∨
        ∃ k, o = piece.firstOrdinal + offset + k ∧ (denRuns fresh)[k]? = some y) ∧
      ∃ group, pairing' = pairing ++ group ∧ Paired home index seen group
        ((piece.addrs.drop offset).take (denRuns fresh).length) (denRuns fresh) := by
  induction fresh generalizing offset pieces pairing with
  | nil =>
    cases h
    exact ⟨hpieces, by simp, [], by simp, by simpa using Paired.nil⟩
  | cons toRun fresh ih =>
    simp only [noteFrom, Outcome.bind_eq_ok_iff, Outcome.expect_eq_ok_iff, Run.new_eq_ok_iff] at h
    obtain ⟨fromRun, ⟨hstart, hfromWidth⟩, h⟩ := h
    have hlen : (denRuns (toRun :: fresh)).length = toRun.width + (denRuns fresh).length := by simp
    rw [hlen] at hwidth hfree
    obtain ⟨hapart, hcovers⟩ := hpieces.insert (piece.firstOrdinal + offset) toRun.iStart toRun.pos
      fun o hlo hhi => hfree o hlo (by omega)
    have hnext : ∀ o, piece.firstOrdinal + (offset + toRun.width) ≤ o →
        o < piece.firstOrdinal + (offset + toRun.width) + (denRuns fresh).length →
        ¬ ∃ y, CoversOrdinal (pieces.insert (piece.firstOrdinal + offset)
          (toRun.width, toRun.iStart)) o y := by
      rintro o hlo hhi ⟨y, hy⟩
      rcases (hcovers o y).1 hy with hy | ⟨-, hlt, -⟩
      · exact hfree o (by omega) (by omega) ⟨y, hy⟩
      · omega
    obtain ⟨hapart', hcovers', group, rfl, hpaired⟩ := ih hapart (by omega) hnext h
    have hclip : fromRun.addrs = (piece.addrs.drop offset).take toRun.width := by
      rw [show fromRun = piece.clip offset toRun.width toRun.pos from Run.ext hstart hfromWidth]
      exact Run.addrs_clip toRun.pos (by omega)
    refine ⟨hapart', fun o y => ?_, ⟨fromRun, toRun, home, index, true⟩ :: group, by simp, ?_⟩
    · rw [hcovers', hcovers, or_assoc, denRuns_cons]
      refine or_congr_right ⟨?_, ?_⟩
      · rintro (⟨hlo, hhi, rfl⟩ | ⟨k, rfl, hk⟩)
        · refine ⟨o - (piece.firstOrdinal + offset), by omega, ?_⟩
          rw [List.getElem?_append_left (by rw [Run.length_addrs]; omega),
            Run.getElem?_addrs (by omega), Run.addrAt]
        · refine ⟨toRun.width + k, by omega, ?_⟩
          rw [List.getElem?_append_right (by rw [Run.length_addrs]; omega), Run.length_addrs,
            Nat.add_sub_cancel_left]
          exact hk
      · rintro ⟨k, rfl, hk⟩
        by_cases hlt : k < toRun.width
        · rw [List.getElem?_append_left (by rw [Run.length_addrs]; omega), Run.getElem?_addrs hlt,
            Option.some.injEq] at hk
          refine .inl ⟨by omega, by omega, ?_⟩
          rw [← hk, Run.addrAt]
          congr 1
          omega
        · rw [List.getElem?_append_right (by rw [Run.length_addrs]; omega), Run.length_addrs] at hk
          exact .inr ⟨k - toRun.width, by omega, hk⟩
    · have hsingle : Paired home index seen [⟨fromRun, toRun, home, index, true⟩] fromRun.addrs
          toRun.addrs := .single hfromWidth fun x hx => by
        rw [hclip] at hx
        simpa using hseen x (List.mem_of_mem_drop (List.mem_of_mem_take hx))
      have happend := hsingle.append hpaired
      rw [hclip, ← List.drop_drop, ← List.take_add] at happend
      rwa [hlen, denRuns_cons]

/-- A piece noted: each of its addresses is minted as the fresh one at its place. -/
theorem note_spec {m m' : MintedIdentity} {piece : Run} {home : Address} {index : ℕ}
    {fresh : List Run} {pairing pairing' : Pairing} {seen : Address → Prop} (hm : m.Apart)
    (hwidth : (denRuns fresh).length = piece.width)
    (hfree : ∀ x ∈ piece.addrs, ∀ y, ¬ m.Mints x y) (hseen : ∀ x ∈ piece.addrs, ¬ seen x)
    (h : (m.note piece fresh home index pairing : Outcome ε (MintedIdentity × Pairing)) =
      .ok (m', pairing')) :
    m'.Apart ∧ (∀ x y, m'.Mints x y ↔ m.Mints x y ∨ (x, y) ∈ piece.addrs.zip (denRuns fresh)) ∧
      ∃ group, pairing' = pairing ++ group ∧
        Paired home index seen group piece.addrs (denRuns fresh) := by
  simp only [note, Outcome.bind_eq_ok_iff, Outcome.pure_eq, Outcome.ok.injEq, Prod.exists,
    Prod.mk.injEq] at h
  obtain ⟨pieces, _, hnote, rfl, rfl⟩ := h
  have haddr : ∀ k < piece.width, (piece.addrAt k).chain = piece.iStart.chain ∧
      ordinal (piece.addrAt k).tumbler = piece.firstOrdinal + k := fun k _ =>
    ⟨piece.iStart.chain_advance k, piece.iStart.ordinal_advance k⟩
  have hnone : ∀ o, piece.firstOrdinal + 0 ≤ o →
      o < piece.firstOrdinal + 0 + (denRuns fresh).length →
      ¬ ∃ y, CoversOrdinal (m.piecesOf piece.iStart.chain) o y := by
    rintro o hlo hhi ⟨y, hy⟩
    have hk : o - piece.firstOrdinal < piece.width := by omega
    refine hfree _ (Run.mem_addrs_iff.2 ⟨_, hk, rfl⟩) y ?_
    rw [Mints, (haddr _ hk).1, (haddr _ hk).2, show piece.firstOrdinal + (o - piece.firstOrdinal) = o
      by omega]
    exact hy
  obtain ⟨hapart, hcovers, group, rfl, hpaired⟩ :=
    noteFrom_spec (hm piece.iStart.chain) (by omega) hnone hseen hnote
  have hpieces : ∀ chain, (⟨m.chains.insert piece.iStart.chain pieces⟩ : MintedIdentity).piecesOf
      chain = if chain = piece.iStart.chain then pieces else m.piecesOf chain := fun chain => by
    rw [piecesOf, OrdMap.get_insert]
    split <;> rfl
  refine ⟨fun chain => ?_, fun x y => ?_, group, rfl, ?_⟩
  · rw [hpieces]
    split
    · exact hapart
    · exact hm chain
  · rw [Mints, Mints, hpieces]
    have hzip : (x, y) ∈ piece.addrs.zip (denRuns fresh) ↔ ∃ k < piece.width,
        x = piece.addrAt k ∧ (denRuns fresh)[k]? = some y := by
      rw [List.mem_iff_getElem?]
      refine exists_congr fun k => ?_
      rw [List.getElem?_zip_eq_some]
      constructor
      · rintro ⟨hx, hy⟩
        have hk : k < piece.width := by
          rw [← Run.length_addrs]
          exact (List.getElem?_eq_some_iff.1 hx).1
        rw [Run.getElem?_addrs hk, Option.some.injEq] at hx
        exact ⟨hk, hx.symm, hy⟩
      · rintro ⟨hk, rfl, hy⟩
        exact ⟨Run.getElem?_addrs hk, hy⟩
    rw [hzip]
    split
    · next hchain =>
      rw [hcovers, hchain]
      refine or_congr_right ⟨?_, ?_⟩
      · rintro ⟨k, hk, hy⟩
        have hlt : k < piece.width := by
          rw [← hwidth]
          exact (List.getElem?_eq_some_iff.1 hy).1
        refine ⟨k, hlt, Address.eq_iff_chain.2 ⟨hchain.trans (haddr k hlt).1.symm, ?_⟩, hy⟩
        rw [(haddr k hlt).2, hk, Nat.add_zero]
      · rintro ⟨k, hk, rfl, hy⟩
        exact ⟨k, by rw [(haddr k hk).2, Nat.add_zero], hy⟩
    · next hchain =>
      refine ⟨.inl, fun hor => hor.resolve_right ?_⟩
      rintro ⟨k, hk, rfl, -⟩
      exact hchain (haddr k hk).1
  · rwa [List.drop_zero, List.take_of_length_le (by rw [Run.length_addrs]; omega)] at hpaired

end MintedIdentity
