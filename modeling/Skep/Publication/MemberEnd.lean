import Skep.Arrangement.Shot
import Skep.Links.Endset

/-!
# Member-position ends

An end of an accepted link may name positions of the version that a publication mints.
Over an image, the runs those positions hold, such an end is stored as the I-spans at its
positions, and spelled canonically at the lowest positions that hold each value.
-/

namespace Publication

/-- Some positions of the member, counted from 1. -/
structure MemberSpan where
  ordinal : ℕ
  width : ℕ
  deriving DecidableEq

/-- A number within the range of positions. -/
def inRange (n : ℕ) : Option ℕ := if n < 2 ^ 64 then some n else none

/-- A run of an image, by its content chain, and the position its first address holds. -/
structure Row where
  chain : List ℕ
  first : ℕ
  width : ℕ
  position : ℕ

/-- Some addresses of a content chain, in a row. -/
structure Piece where
  chain : List ℕ
  first : ℕ
  width : ℕ

/-- The positions of the member as the request states them. A draft's run stands for itself. -/
def requestImage (shot : Shot) : List Run := shot.runs.map ShotRun.run

/-- The chain and the ordinal of a content address. -/
def splitChain (t : Tumbler) : Option (List ℕ × ℕ) :=
  (inRange (ordinal t)).map fun first => (t.comps.dropLast, first)

def rowsFrom : ℕ → List Run → Option (List Row)
  | _, [] => some []
  | position, run :: image => do
      let (chain, first) ← splitChain run.iStart.tumbler
      let width ← inRange run.width
      let next ← inRange (position + width)
      let rows ← rowsFrom next image
      return ⟨chain, first, width, position⟩ :: rows

/-- The runs of an image, their positions tiling from 1. -/
def rowsOf (image : List Run) : Option (List Row) := rowsFrom 1 image

/-- Put a piece after others, merged where it adjoins the last. -/
def pushPiece (pieces : List Piece) (piece : Piece) : List Piece :=
  match pieces.getLast? with
  | some last =>
      if last.chain = piece.chain ∧ last.first + last.width = piece.first then
        pieces.dropLast ++ [{ last with width := last.width + piece.width }]
      else pieces ++ [piece]
  | none => [piece]

/-- Put what a row holds at the positions. -/
def overRow (ordinal reach : ℕ) (pieces : List Piece) (row : Row) : List Piece :=
  let lo := max ordinal row.position
  let hi := min reach (row.position + row.width)
  if hi ≤ lo then pieces
  else pushPiece pieces ⟨row.chain, row.first + (lo - row.position), hi - lo⟩

/-- Put what the rows hold at the positions of a span, none where it lies outside them. -/
def overSpan (rows : List Row) (pieces : List Piece) (span : MemberSpan) : Option (List Piece) := do
  if span.width = 0 ∨ span.ordinal = 0 then none
  else
    let reach ← inRange (span.ordinal + span.width)
    if (rows.map Row.width).sum < reach - 1 then none
    else return rows.foldl (overRow span.ordinal reach) pieces

/-- The I-span of a piece. -/
def Piece.span {ε : Type} (piece : Piece) : Outcome ε Span :=
  (Span.fromEndpoints (.snoc piece.chain piece.first) (.snoc piece.chain (piece.first + piece.width))).expect

/-- Where the addresses of a piece are cut by the rows that hold some of it. -/
def breakpoints (holding : List Row) (first reach : ℕ) : List ℕ :=
  (OrdSet.ofList (first :: reach :: (holding.flatMap fun row => [row.first, row.first + row.width]).filter
    fun c => decide (first < c ∧ c < reach))).elems

/-- Put positions after others, merged where they adjoin the last. -/
def pushPositions (out : List MemberSpan) (span : MemberSpan) : List MemberSpan :=
  match out.getLast? with
  | some last =>
      if last.ordinal + last.width = span.ordinal then
        out.dropLast ++ [{ last with width := last.width + span.width }]
      else out ++ [span]
  | none => [span]

/-- The lowest position that holds an address, among the rows that do. -/
def lowestAt (holding : List Row) (x : ℕ) : Option ℕ :=
  ((holding.filter fun row => decide (row.first ≤ x ∧ x < row.first + row.width)).map fun row =>
    row.position + (x - row.first)).min?

/-- Put the lowest positions of a piece. -/
def overPiece (rows : List Row) (out : List MemberSpan) (piece : Piece) : Option (List MemberSpan) :=
  let reach := piece.first + piece.width
  let holding := rows.filter fun row =>
    decide (row.chain = piece.chain ∧ row.first < reach ∧ piece.first < row.first + row.width)
  let cuts := breakpoints holding piece.first reach
  (cuts.zip cuts.tail).foldlM (fun out pair =>
    (lowestAt holding pair.1).map fun ordinal => pushPositions out ⟨ordinal, pair.2 - pair.1⟩) out

/-- The canonical spelling of pieces over rows. -/
def canonicalOver (rows : List Row) (pieces : List Piece) : Option (List MemberSpan) :=
  pieces.foldlM (overPiece rows) []

/-- A member-position end as it is spelled and as it is stored. -/
structure MemberEnd where
  canonical : List MemberSpan
  stored : Endset
  deriving DecidableEq

/-- A member-position end over an image, none where it lies outside it. -/
def memberEnd {ε : Type} (image : List Run) (spans : List MemberSpan) : Outcome ε (Option MemberEnd) :=
  match (rowsOf image).bind fun rows => (spans.foldlM (overSpan rows) []).map fun pieces => (rows, pieces) with
  | none => return none
  | some (rows, pieces) => do
      let stored ← pieces.mapM Piece.span
      return (canonicalOver rows pieces).map fun canonical => ⟨canonical, ⟨stored⟩⟩

/-- No piece is empty. -/
def AllPos (pieces : List Piece) : Prop := ∀ piece ∈ pieces, 0 < piece.width

theorem AllPos.push {pieces : List Piece} (h : AllPos pieces) {piece : Piece} (hpos : 0 < piece.width) :
    AllPos (pushPiece pieces piece) := by
  intro p hp
  rw [pushPiece] at hp
  cases hlast : pieces.getLast? with
  | none =>
    rw [hlast] at hp
    rw [List.mem_singleton.1 hp]
    exact hpos
  | some last =>
    rw [hlast] at hp
    dsimp only at hp
    by_cases hadjoins : last.chain = piece.chain ∧ last.first + last.width = piece.first
    · rw [if_pos hadjoins, List.mem_append, List.mem_singleton] at hp
      cases hp with
      | inl hp => exact h p (List.dropLast_subset _ hp)
      | inr hp =>
        rw [hp]
        exact Nat.add_pos_right _ hpos
    · rw [if_neg hadjoins, List.mem_append, List.mem_singleton] at hp
      cases hp with
      | inl hp => exact h p hp
      | inr hp =>
        rw [hp]
        exact hpos

theorem AllPos.overRow {pieces : List Piece} (h : AllPos pieces) (ordinal reach : ℕ) (row : Row) :
    AllPos (overRow ordinal reach pieces row) := by
  rw [Publication.overRow]
  by_cases hout : min reach (row.position + row.width) ≤ max ordinal row.position
  · rw [if_pos hout]
    exact h
  · rw [if_neg hout]
    exact h.push (Nat.sub_pos_of_lt (not_le.1 hout))

theorem AllPos.overSpan {rows : List Row} {pieces pieces' : List Piece} {span : MemberSpan} (h : AllPos pieces)
    (heq : overSpan rows pieces span = some pieces') : AllPos pieces' := by
  rw [Publication.overSpan] at heq
  by_cases hempty : span.width = 0 ∨ span.ordinal = 0
  · rw [if_pos hempty] at heq
    cases heq
  · rw [if_neg hempty] at heq
    obtain ⟨reach, -, heq⟩ := Option.bind_eq_some_iff.1 heq
    by_cases hout : (rows.map Row.width).sum < reach - 1
    · rw [if_pos hout] at heq
      cases heq
    · rw [if_neg hout] at heq
      cases heq
      exact List.foldlRecOn rows _ h fun pieces hpieces row _ => hpieces.overRow span.ordinal reach row

theorem AllPos.overSpans {rows : List Row} {spans : List MemberSpan} {pieces pieces' : List Piece}
    (h : AllPos pieces) (heq : spans.foldlM (Publication.overSpan rows) pieces = some pieces') : AllPos pieces' := by
  induction spans generalizing pieces with
  | nil =>
    cases heq
    exact h
  | cons span spans ih =>
    rw [List.foldlM_cons] at heq
    obtain ⟨next, hnext, heq⟩ := Option.bind_eq_some_iff.1 heq
    exact ih (h.overSpan hnext) heq

theorem Piece.exists_span {ε : Type} {piece : Piece} (h : 0 < piece.width) :
    ∃ s, (piece.span : Outcome ε Span) = .ok s := by
  obtain ⟨s, hs, -⟩ := Span.fromEndpoints_spec (s := .snoc piece.chain piece.first)
    (r := .snoc piece.chain (piece.first + piece.width)) (by simp [Tumbler.len])
    (Tumbler.snoc_lt_snoc.2 (Nat.lt_add_of_pos_right h))
  exact ⟨s, by rw [Piece.span, hs]; rfl⟩

theorem memberEnd_ne_fault {ε : Type} (image : List Run) (spans : List MemberSpan) :
    ∃ stated, (memberEnd image spans : Outcome ε (Option MemberEnd)) = .ok stated := by
  rw [memberEnd]
  cases heq : (rowsOf image).bind fun rows =>
    (spans.foldlM (overSpan rows) []).map fun pieces => (rows, pieces) with
  | none => exact ⟨none, rfl⟩
  | some parts =>
    obtain ⟨rows, pieces⟩ := parts
    obtain ⟨rows', -, hpieces⟩ := Option.bind_eq_some_iff.1 heq
    obtain ⟨pieces', hpieces, hparts⟩ := Option.map_eq_some_iff.1 hpieces
    cases hparts
    have hpos : AllPos pieces := AllPos.overSpans (fun p hp => absurd hp List.not_mem_nil) hpieces
    obtain ⟨stored, hstored, -⟩ := Outcome.exists_mapM (f := (Piece.span : Piece → Outcome ε Span))
      (R := fun _ _ => True) fun piece hpiece => by
        obtain ⟨s, hs⟩ := Piece.exists_span (ε := ε) (hpos piece hpiece)
        exact ⟨s, hs, trivial⟩
    refine ⟨(canonicalOver rows pieces).map fun canonical => ⟨canonical, ⟨stored⟩⟩, ?_⟩
    dsimp only
    rw [hstored]
    rfl

end Publication
