import Skep.Identity.EntryCodes

/-!
# The bytes of a `publish` body

What the builder's bytes are: the count of the positions, the pieces as segments and the
base group. A body built under a budget is refused exactly where those bytes pass the
budget or the count passes its field.
-/

namespace Identity

/-- A stretch of values, at least one, or a window. -/
inductive Segment where
  | stretch (first : List UInt8) (rest : List (List UInt8))
  | window (start : Address) (width : NonZeroU64)

namespace Segment

def positions : Segment → ℕ
  | stretch _ rest => rest.length + 1
  | window _ width => width.1.toNat

theorem positions_pos (seg : Segment) : 0 < seg.positions := by
  cases seg with
  | stretch first rest => exact Nat.succ_pos _
  | window start width =>
    refine Nat.pos_of_ne_zero fun h => width.2 ?_
    exact UInt64.toNat_inj.1 h

def pieces : Segment → List ShotSegmentPiece
  | stretch first rest => (first :: rest).map ShotSegmentPiece.value
  | window start width => [.window start width]

/-- What a segment is spelled by. -/
def parts : Segment → List (List UInt8) ⊕ Address × NonZeroU64
  | stretch first rest => .inl (first :: rest)
  | window start width => .inr (start, width)

theorem parts_injective : Function.Injective parts := by
  intro a b h
  cases a with
  | stretch first rest =>
    cases b with
    | stretch first' rest' =>
      obtain ⟨rfl, rfl⟩ := List.cons.inj (Sum.inl.inj h)
      rfl
    | window start width => cases h
  | window start width =>
    cases b with
    | stretch first rest => cases h
    | window start' width' =>
      obtain ⟨rfl, rfl⟩ := Prod.mk.inj (Sum.inr.inj h)
      rfl

end Segment

def windowCode : RowCode (Address × NonZeroU64) :=
  addressCode.prod (numberCode.comap Subtype.val Subtype.val_injective)

def segmentCode : RowCode Segment :=
  (PrefixCode.either (.marked segmentValueStretch valuesCode) (.marked segmentWindow windowCode)
    (PrefixCode.ne_of_marks (by decide))).comap Segment.parts Segment.parts_injective

/-- The parts a base is spelled by. -/
def baseParts (base : ShotBase) : Address × UInt64 := (base.member, base.extent)

theorem baseParts_injective : Function.Injective baseParts := by
  rintro ⟨member, extent⟩ ⟨member', extent'⟩ h
  obtain ⟨rfl, rfl⟩ := Prod.mk.inj h
  rfl

def presentBaseCode : RowCode ShotBase := (oneAddressCode.prod numberCode).comap baseParts baseParts_injective

def baseCode : RowCode (Option ShotBase) :=
  .groupOption 4 rows_le_four_bytes presentBaseCode fun _ h => List.cons_ne_nil _ _ (List.append_eq_nil_iff.1 h).1

/-- Segments that are closed, and the values of the stretch that is open. -/
structure Segmented where
  closed : List Segment
  current : List (List UInt8)

namespace Segmented

def empty : Segmented := ⟨[], []⟩

/-- The open stretch as a segment. -/
def openSegments : List (List UInt8) → List Segment
  | [] => []
  | first :: rest => [.stretch first rest]

def all (s : Segmented) : List Segment := s.closed ++ openSegments s.current

def take (s : Segmented) : ShotSegmentPiece → Segmented
  | .value bs => ⟨s.closed, s.current ++ [bs]⟩
  | .window start width => ⟨s.all ++ [.window start width], []⟩

def positions (s : Segmented) : ℕ := (s.all.map Segment.positions).sum

/-- The segments' bytes. -/
def bytes (s : Segmented) : List UInt8 := s.all.flatMap segmentCode.encode

/-- The length of the body that is finished here. -/
def len (s : Segmented) (base : Option ShotBase) : ℕ := 8 + s.bytes.length + (baseCode.encode base).length

theorem openSegments_concat (current : List (List UInt8)) (bs : List UInt8) :
    ∃ first rest, openSegments (current ++ [bs]) = [.stretch first rest] ∧ first :: rest = current ++ [bs] := by
  cases current with
  | nil => exact ⟨bs, [], rfl, rfl⟩
  | cons first rest => exact ⟨first, rest ++ [bs], rfl, rfl⟩

theorem pieces_openSegments (current : List (List UInt8)) :
    (openSegments current).flatMap Segment.pieces = current.map ShotSegmentPiece.value := by
  cases current with
  | nil => rfl
  | cons first rest => simp [openSegments, Segment.pieces]

theorem pieces_take (s : Segmented) (p : ShotSegmentPiece) :
    (s.take p).all.flatMap Segment.pieces = s.all.flatMap Segment.pieces ++ [p] := by
  cases p with
  | value bs =>
    simp only [take, all, List.flatMap_append, pieces_openSegments, List.map_append, List.map_cons, List.map_nil,
      List.append_assoc]
  | window start width =>
    simp only [take, all, List.flatMap_append, openSegments, List.flatMap_nil, List.append_nil,
      List.flatMap_cons, Segment.pieces]

theorem pieces_foldl_take (s : Segmented) (ps : List ShotSegmentPiece) :
    (ps.foldl take s).all.flatMap Segment.pieces = s.all.flatMap Segment.pieces ++ ps := by
  induction ps generalizing s with
  | nil => simp
  | cons p ps ih =>
    rw [List.foldl_cons, ih, pieces_take, List.append_assoc]
    rfl

end Segmented

/-- The segments of a list of pieces. -/
def segmentsOf (pieces : List ShotSegmentPiece) : Segmented := pieces.foldl Segmented.take Segmented.empty

theorem segmentsOf_injective {pieces pieces' : List ShotSegmentPiece}
    (h : (segmentsOf pieces).all = (segmentsOf pieces').all) : pieces = pieces' := by
  have hpieces := Segmented.pieces_foldl_take Segmented.empty pieces
  have hpieces' := Segmented.pieces_foldl_take Segmented.empty pieces'
  rw [segmentsOf, segmentsOf] at h
  rw [h] at hpieces
  exact hpieces.symm.trans hpieces'

/-- The bytes of a body of the segments. -/
def Segmented.body (s : Segmented) (base : Option ShotBase) : List UInt8 :=
  beBytes 8 s.positions ++ s.bytes ++ baseCode.encode base

def publishBytes (pieces : List ShotSegmentPiece) (base : Option ShotBase) : List UInt8 :=
  (segmentsOf pieces).body base

theorem Segmented.length_body (s : Segmented) (base : Option ShotBase) :
    (s.body base).length = s.len base := by
  rw [Segmented.body, Segmented.len, List.length_append, List.length_append, length_beBytes]

/-- The stretch that is open as its bytes stand, its count held. -/
def heldStretch : List (List UInt8) → List UInt8
  | [] => []
  | current => segmentValueStretch :: beBytes 8 0 ++ current.flatMap elementCode.encode

/-- Where the count of the open stretch is held, and what it has counted. -/
def heldRow (front : ℕ) : List (List UInt8) → Option ValueSequence
  | [] => none
  | current => some ⟨front + 1, current.length⟩

/-- A body under way holds the pieces its segments are of. -/
structure Holds (body : PublishBody) (s : Segmented) (base : Option ShotBase) : Prop where
  placed : body.placed = s.positions
  bytes : body.bytes = beBytes 8 0 ++ s.closed.flatMap segmentCode.encode ++ heldStretch s.current
  stretch : body.stretch = heldRow (8 + (s.closed.flatMap segmentCode.encode).length) s.current
  base : body.baseGroup = baseCode.encode base

/-- Four bytes count the spelling of the piece. -/
def ShotSegmentPiece.Fits : ShotSegmentPiece → Prop
  | .value bs => bs.length < 2 ^ 32
  | .window start _ => (addressBytes start).length < 2 ^ 32

/-- Whether the count passes its field or the finished body the budget. A length is
counted to the greatest `usize`, which no body reaches. -/
def Over (budget : ℕ) (s : Segmented) (base : Option ShotBase) : Prop :=
  wordMax < s.positions ∨ budget < min (s.len base) wordMax

theorem encode_stretch (first : List UInt8) (rest : List (List UInt8)) :
    segmentCode.encode (.stretch first rest) =
      segmentValueStretch :: beBytes 8 (rest.length + 1) ++ (first :: rest).flatMap elementCode.encode :=
  rfl

theorem encode_window (start : Address) (width : NonZeroU64) :
    segmentCode.encode (.window start width) =
      segmentWindow :: (delimited (addressBytes start) ++ beBytes 8 width.1.toNat) :=
  rfl

theorem length_elementCode (bs : List UInt8) : (elementCode.encode bs).length = 4 + bs.length := by
  rw [elementCode, PrefixCode.delimited, List.length_append, length_beBytes]

theorem length_heldStretch (current : List (List UInt8)) : (heldStretch current).length =
    ((Segmented.openSegments current).flatMap segmentCode.encode).length := by
  cases current with
  | nil => rfl
  | cons first rest =>
    simp [heldStretch, Segmented.openSegments, encode_stretch, length_beBytes]

theorem Holds.finishedLen {body : PublishBody} {s : Segmented} {base : Option ShotBase}
    (h : Holds body s base) : body.finishedLen = s.len base := by
  rw [PublishBody.finishedLen, h.bytes, h.base, Segmented.len, Segmented.bytes, Segmented.all]
  simp only [List.length_append, length_beBytes, length_heldStretch, List.flatMap_append, Nat.add_assoc]

/-- The count of the open stretch is written where it is held. -/
theorem Holds.closeStretch {ε : Type} {body : PublishBody} {s : Segmented} {base : Option ShotBase}
    (h : Holds body s base) : body.closeStretch = (.ok (beBytes 8 0 ++ s.bytes) : Outcome ε _) := by
  rw [PublishBody.closeStretch, h.stretch, h.bytes, Segmented.bytes, Segmented.all]
  cases hcurrent : s.current with
  | nil => simp [heldRow, heldStretch, Segmented.openSegments]
  | cons first rest =>
    have hfront : 8 + (s.closed.flatMap segmentCode.encode).length + 1 =
        (beBytes 8 0 ++ s.closed.flatMap segmentCode.encode ++ [segmentValueStretch]).length := by
      simp [length_beBytes, Nat.add_assoc]
    have hheld : beBytes 8 0 ++ s.closed.flatMap segmentCode.encode ++ heldStretch (first :: rest) =
        beBytes 8 0 ++ s.closed.flatMap segmentCode.encode ++ [segmentValueStretch] ++
          (beBytes 8 0 ++ (first :: rest).flatMap elementCode.encode) := by
      simp [heldStretch]
    have hlen : (beBytes 8 0).length = (beBytes 8 (first :: rest).length).length := by
      rw [length_beBytes, length_beBytes]
    simp only [heldRow, ValueSequence.close]
    rw [hfront, hheld, overwrite_held _ _ _ _ hlen]
    simp [Segmented.openSegments, encode_stretch]

theorem Holds.finish {ε : Type} {body : PublishBody} {s : Segmented} {base : Option ShotBase}
    (h : Holds body s base) : body.finish = (.ok ⟨.publish, s.body base⟩ : Outcome ε _) := by
  have hlen : (beBytes 8 0).length = (beBytes 8 body.placed).length := by
    rw [length_beBytes, length_beBytes]
  have hwritten := overwrite_held (ε := ε) [] (beBytes 8 0) s.bytes (beBytes 8 body.placed) hlen
  rw [List.nil_append, List.nil_append, List.length_nil] at hwritten
  rw [PublishBody.finish, h.closeStretch, Outcome.ok_bind, hwritten, Outcome.ok_bind, h.placed, h.base]
  rfl

theorem openStretch_held (s : Segmented) {body : PublishBody} {base : Option ShotBase}
    (h : Holds body s base) : body.openStretch.1.count = s.current.length ∧
      body.openStretch.1.start = 8 + (s.closed.flatMap segmentCode.encode).length + 1 ∧
      body.openStretch.2 = beBytes 8 0 ++ s.closed.flatMap segmentCode.encode ++
        (segmentValueStretch :: beBytes 8 0 ++ s.current.flatMap elementCode.encode) := by
  rw [PublishBody.openStretch, h.stretch, h.bytes]
  cases s.current with
  | nil => simp [heldRow, heldStretch, ValueSequence.hold, length_beBytes, Nat.add_assoc]
  | cons first rest => simp [heldRow, heldStretch]

theorem positions_take (s : Segmented) (bs : List UInt8) :
    (s.take (.value bs)).positions = s.positions + 1 := by
  obtain ⟨first, rest, hopen, hsame⟩ := Segmented.openSegments_concat s.current bs
  have hlen := congrArg List.length hsame
  simp only [List.length_cons, List.length_append, List.length_nil] at hlen
  cases hcurrent : s.current with
  | nil =>
    simp [Segmented.positions, Segmented.all, Segmented.take, hcurrent, Segmented.openSegments,
      Segment.positions]
  | cons first' rest' =>
    simp [Segmented.positions, Segmented.all, Segmented.take, hcurrent, Segmented.openSegments,
      Segment.positions, Nat.add_assoc]

theorem len_take_value (s : Segmented) (bs : List UInt8) (base : Option ShotBase) :
    (s.take (.value bs)).len base =
      s.len base + (if s.current = [] then 9 else 0) + (4 + bs.length) := by
  rw [Segmented.len, Segmented.len, Segmented.bytes, Segmented.bytes, Segmented.all, Segmented.all]
  cases hcurrent : s.current with
  | nil =>
    simp [Segmented.take, hcurrent, Segmented.openSegments, encode_stretch, length_beBytes, length_elementCode]
    omega
  | cons first rest =>
    simp [Segmented.take, hcurrent, Segmented.openSegments, encode_stretch, length_beBytes, length_elementCode]
    omega

theorem positions_take_window (s : Segmented) (start : Address) (width : NonZeroU64) :
    (s.take (.window start width)).positions = s.positions + width.1.toNat := by
  simp [Segmented.positions, Segmented.all, Segmented.take, Segmented.openSegments, Segment.positions,
    Nat.add_assoc]

theorem len_take_window (s : Segmented) (start : Address) (width : NonZeroU64) (base : Option ShotBase) :
    (s.take (.window start width)).len base = s.len base + (1 + (4 + (addressBytes start).length) + 8) := by
  rw [Segmented.len, Segmented.len, Segmented.bytes, Segmented.bytes]
  simp [Segmented.all, Segmented.take, Segmented.openSegments, encode_window, length_beBytes, delimited]
  omega

theorem lt_saturatingAdd_iff (budget : ℕ) {len cost total : ℕ} (htotal : total = len + cost) :
    budget < saturatingAdd len (min cost wordMax) ↔ budget < min total wordMax := by
  rw [saturatingAdd, htotal]
  omega

/-- What becomes of a piece: it is refused for the count, else for the budget; it is a
fault where four bytes do not count its spelling; else the body goes on. -/
def Taken (body : PublishBody) (s : Segmented) (base : Option ShotBase) (p : ShotSegmentPiece)
    (result : Outcome PublishRefusal PublishBody) : Prop :=
  (wordMax < (s.take p).positions ∧ result = .err .unspellable) ∨
  (¬ wordMax < (s.take p).positions ∧ body.budget < min ((s.take p).len base) wordMax ∧
    result = .err .pastBudget) ∨
  (¬ Over body.budget (s.take p) base ∧ ¬ p.Fits ∧ result = .fault) ∨
  (¬ Over body.budget (s.take p) base ∧ p.Fits ∧ ∃ body', result = .ok body' ∧
    Holds body' (s.take p) base ∧ body'.budget = body.budget)

theorem Holds.push {body : PublishBody} {s : Segmented} {base : Option ShotBase} (h : Holds body s base)
    (bs : List UInt8) : Taken body s base (.value bs) (body.push bs) := by
  have hcost : saturatingAdd (if body.stretch.isSome then 0 else 1 + 8) (delimitedLen bs.length) =
      min ((if s.current = [] then 9 else 0) + (4 + bs.length)) wordMax := by
    rw [h.stretch, delimitedLen, saturatingAdd, saturatingAdd]
    cases s.current with
    | nil => simp only [heldRow, Option.isSome_none, Bool.false_eq_true, if_false, if_true]; omega
    | cons first rest => simp [heldRow]; omega
  have hpast := lt_saturatingAdd_iff body.budget
    (len_take_value s bs base |>.trans (Nat.add_assoc _ _ _))
  simp only [PublishBody.push]
  rw [hcost, h.finishedLen, h.placed, ← positions_take s bs]
  by_cases hcount : wordMax < (s.take (.value bs)).positions
  · exact .inl ⟨hcount, by simp [Outcome.refuseIf, hcount]⟩
  · by_cases hbudget : body.budget < min ((s.take (.value bs)).len base) wordMax
    · refine .inr (.inl ⟨hcount, hbudget, ?_⟩)
      simp [Outcome.refuseIf, hcount, hpast.2 hbudget]
    · have hover : ¬ Over body.budget (s.take (.value bs)) base := not_or.2 ⟨hcount, hbudget⟩
      have hnot := mt hpast.1 hbudget
      obtain ⟨hopenCount, hopenStart, hopenBytes⟩ := openStretch_held s h
      by_cases hfits : bs.length < 2 ^ 32
      · refine .inr (.inr (.inr ⟨hover, hfits, ?_⟩))
        simp only [Outcome.refuseIf, hcount, hnot, if_false, Outcome.ok_bind, ValueSequence.push,
          pushDelimited, Outcome.require, hfits, if_true, Outcome.pure_eq]
        refine ⟨_, rfl, ⟨rfl, ?_, ?_, h.base⟩, rfl⟩
        · simp only [hopenBytes, Segmented.take]
          cases s.current with
          | nil => simp [heldStretch, elementCode, PrefixCode.delimited, delimited]
          | cons first rest => simp [heldStretch, elementCode, PrefixCode.delimited, delimited]
        · simp only [hopenCount, hopenStart, Segmented.take]
          cases s.current with
          | nil => simp [heldRow]
          | cons first rest => simp [heldRow]
      · refine .inr (.inr (.inl ⟨hover, hfits, ?_⟩))
        simp only [Outcome.refuseIf, hcount, hnot, if_false, Outcome.ok_bind, ValueSequence.push,
          pushDelimited, Outcome.require, hfits]
        rfl

theorem Holds.window {body : PublishBody} {s : Segmented} {base : Option ShotBase} (h : Holds body s base)
    (start : Address) (width : NonZeroU64) : Taken body s base (.window start width) (body.window start width) := by
  have hcost : saturatingAdd (saturatingAdd 1 (delimitedLen (addressBytes start).length)) 8 =
      min (1 + (4 + (addressBytes start).length) + 8) wordMax := by
    rw [delimitedLen, saturatingAdd, saturatingAdd, saturatingAdd]
    omega
  have hpast := lt_saturatingAdd_iff body.budget (len_take_window s start width base)
  simp only [PublishBody.window]
  rw [hcost, h.finishedLen, h.placed, ← positions_take_window s start width]
  by_cases hcount : wordMax < (s.take (.window start width)).positions
  · exact .inl ⟨hcount, by simp [Outcome.refuseIf, hcount]⟩
  · by_cases hbudget : body.budget < min ((s.take (.window start width)).len base) wordMax
    · refine .inr (.inl ⟨hcount, hbudget, ?_⟩)
      simp [Outcome.refuseIf, hcount, hpast.2 hbudget]
    · have hover : ¬ Over body.budget (s.take (.window start width)) base := not_or.2 ⟨hcount, hbudget⟩
      have hnot := mt hpast.1 hbudget
      by_cases hfits : (addressBytes start).length < 2 ^ 32
      · refine .inr (.inr (.inr ⟨hover, hfits, ?_⟩))
        simp only [Outcome.refuseIf, hcount, hnot, if_false, Outcome.ok_bind, h.closeStretch, pushWindow,
          pushDelimited, Outcome.require, hfits, if_true, Outcome.pure_eq]
        refine ⟨_, rfl, ⟨rfl, ?_, rfl, h.base⟩, rfl⟩
        simp [Segmented.bytes, Segmented.take, heldStretch, encode_window]
      · refine .inr (.inr (.inl ⟨hover, hfits, ?_⟩))
        simp only [Outcome.refuseIf, hcount, hnot, if_false, Outcome.ok_bind, h.closeStretch, pushWindow,
          pushDelimited, Outcome.require, hfits]
        rfl

theorem Holds.take {body : PublishBody} {s : Segmented} {base : Option ShotBase} (h : Holds body s base)
    (p : ShotSegmentPiece) : Taken body s base p (body.take p) := by
  cases p with
  | value bs => exact h.push bs
  | window start width => exact h.window start width

theorem Over.take {budget : ℕ} {s : Segmented} {base : Option ShotBase} (h : Over budget s base)
    (p : ShotSegmentPiece) : Over budget (s.take p) base := by
  cases p with
  | value bs =>
    have hpositions := positions_take s bs
    have hlen := len_take_value s bs base
    exact h.imp (fun h => by omega) (fun h => by omega)
  | window start width =>
    have hpositions := positions_take_window s start width
    have hlen := len_take_window s start width base
    exact h.imp (fun h => by omega) (fun h => by omega)

theorem Over.foldl {budget : ℕ} {s : Segmented} {base : Option ShotBase} (h : Over budget s base)
    (pieces : List ShotSegmentPiece) : Over budget (pieces.foldl Segmented.take s) base := by
  induction pieces generalizing s with
  | nil => exact h
  | cons p pieces ih => exact ih (h.take p)

/-- A piece four bytes do not count passes every budget that they count. -/
theorem fits_of_not_over {budget : ℕ} {s : Segmented} {base : Option ShotBase} {p : ShotSegmentPiece}
    (hbudget : budget < 2 ^ 32) (h : ¬ Over budget (s.take p) base) : p.Fits := by
  obtain ⟨-, hlen⟩ := not_or.1 h
  have hword : wordMax = 2 ^ 64 - 1 := rfl
  cases p with
  | value bs =>
    rw [len_take_value] at hlen
    change bs.length < 2 ^ 32
    omega
  | window start width =>
    rw [len_take_window] at hlen
    change (addressBytes start).length < 2 ^ 32
    omega

/-- Nor does a body hold such a piece within a budget they count. -/
theorem fits_of_small_budget {budget : ℕ} {base : Option ShotBase} (hbudget : budget < 2 ^ 32)
    {s : Segmented} {pieces : List ShotSegmentPiece} (h : ¬ Over budget (pieces.foldl Segmented.take s) base) :
    ∀ p ∈ pieces, p.Fits := by
  induction pieces generalizing s with
  | nil =>
    intro p hp
    cases hp
  | cons p pieces ih =>
    intro q hq
    rcases List.mem_cons.1 hq with rfl | hq
    · exact fits_of_not_over hbudget fun hover => h (hover.foldl pieces)
    · exact ih h q hq

/-- What becomes of the pieces that follow: one is refused, unless an earlier one that four
bytes do not count is a fault; or the body holds them all. -/
theorem Holds.takeAll {body : PublishBody} {s : Segmented} {base : Option ShotBase} (h : Holds body s base)
    (hstart : ¬ Over body.budget s base) (pieces : List ShotSegmentPiece) :
    (Over body.budget (pieces.foldl Segmented.take s) base ∧
      ((∃ e, pieces.foldlM PublishBody.take body = .err e) ∨
        pieces.foldlM PublishBody.take body = .fault ∧ ¬ (body.budget < 2 ^ 32 ∨ ∀ p ∈ pieces, p.Fits))) ∨
    (¬ Over body.budget (pieces.foldl Segmented.take s) base ∧ (∀ p ∈ pieces, p.Fits) ∧
      ∃ body', pieces.foldlM PublishBody.take body = .ok body' ∧ Holds body' (pieces.foldl Segmented.take s) base) ∨
    (¬ Over body.budget (pieces.foldl Segmented.take s) base ∧ (¬ ∀ p ∈ pieces, p.Fits) ∧
      pieces.foldlM PublishBody.take body = .fault) := by
  induction pieces generalizing body s with
  | nil => exact .inr (.inl ⟨hstart, fun p hp => (by cases hp), body, rfl, h⟩)
  | cons p pieces ih =>
    rw [List.foldlM_cons, List.foldl_cons]
    rcases h.take p with ⟨hcount, herr⟩ | ⟨-, hbudget, herr⟩ | ⟨hover, hunfit, hfault⟩ |
      ⟨hover, hfit, body', hok, hholds, hsame⟩
    · rw [herr]
      exact .inl ⟨Over.foldl (.inl hcount) pieces, .inl ⟨.unspellable, rfl⟩⟩
    · rw [herr]
      exact .inl ⟨Over.foldl (.inr hbudget) pieces, .inl ⟨.pastBudget, rfl⟩⟩
    · have hnot : ¬ ∀ q ∈ p :: pieces, q.Fits := fun hfits => hunfit (hfits p List.mem_cons_self)
      rw [hfault]
      by_cases hlast : Over body.budget (pieces.foldl Segmented.take (s.take p)) base
      · refine .inl ⟨hlast, .inr ⟨rfl, ?_⟩⟩
        rintro (hbudget | hfits)
        · exact hunfit (fits_of_not_over hbudget hover)
        · exact hnot hfits
      · exact .inr (.inr ⟨hlast, hnot, rfl⟩)
    · have hcons : (∀ q ∈ p :: pieces, q.Fits) ↔ ∀ q ∈ pieces, q.Fits := by
        rw [List.forall_mem_cons]
        exact and_iff_right hfit
      have hrest := ih hholds (hsame ▸ hover)
      rw [hsame] at hrest
      rw [hok, Outcome.ok_bind, hcons]
      exact hrest

/-- Four bytes count the base group. -/
def BaseFits : Option ShotBase → Prop
  | none => True
  | some base => (presentBaseCode.encode base).length < 2 ^ 32

theorem encode_present (base : ShotBase) : presentBaseCode.encode base =
    addressListForm :: (beBytes 8 1 ++ delimited (addressBytes base.member)) ++ beBytes 8 base.extent.toNat := by
  simp [presentBaseCode, PrefixCode.comap, PrefixCode.prod, baseParts, oneAddressCode, addressListCode,
    PrefixCode.marked, PrefixCode.counted, addressCode, tumblerCode, elementCode, PrefixCode.delimited,
    numberCode, PrefixCode.ofLength, delimited, addressBytes]

theorem pushDelimited_eq {ε : Type} (out bs : List UInt8) : pushDelimited out bs =
    (if bs.length < 2 ^ 32 then .ok (out ++ delimited bs) else .fault : Outcome ε _) := by
  rw [pushDelimited, Outcome.require]
  split <;> rfl

theorem baseGroupOf_eq {ε : Type} (base : ShotBase) : baseGroupOf (some base) =
    (if (addressBytes base.member).length < 2 ^ 32 then .ok (presentBaseCode.encode base) else .fault :
      Outcome ε _) := by
  rw [baseGroupOf, pushAddressList, List.foldlM_cons, pushDelimited_eq, encode_present]
  split
  · simp
  · rfl

theorem pushBase_of_fits {ε : Type} {base : Option ShotBase} (h : BaseFits base) :
    pushBase [] base = (.ok (baseCode.encode base) : Outcome ε _) := by
  cases base with
  | none => rfl
  | some base =>
    have hlen : (presentBaseCode.encode base).length < 2 ^ 32 := h
    have hmember : (addressBytes base.member).length < 2 ^ 32 := by
      rw [encode_present] at hlen
      simp only [List.length_append, List.length_cons, delimited] at hlen
      omega
    rw [pushBase, baseGroupOf_eq, if_pos hmember, Outcome.ok_bind, pushDelimited_eq, if_pos hlen]
    rfl

theorem pushBase_of_not_fits {ε : Type} {base : Option ShotBase} (h : ¬ BaseFits base) :
    pushBase [] base = (.fault : Outcome ε _) := by
  cases base with
  | none => exact absurd trivial h
  | some base =>
    have hlen : ¬ (presentBaseCode.encode base).length < 2 ^ 32 := h
    rw [pushBase, baseGroupOf_eq]
    split
    · rw [Outcome.ok_bind, pushDelimited_eq, if_neg hlen]
    · rfl

theorem within_of_fits (budget : ℕ) {base : Option ShotBase} (h : BaseFits base) :
    (Over budget Segmented.empty base ∧ PublishBody.within budget base = .err .pastBudget) ∨
    (¬ Over budget Segmented.empty base ∧ ∃ body, PublishBody.within budget base = .ok body ∧
      Holds body Segmented.empty base ∧ body.budget = budget) := by
  have hshort : (baseCode.encode base).length < 4 + 2 ^ 32 := by
    cases base with
    | none => simp [baseCode, PrefixCode.groupOption, PrefixCode.delimited, length_beBytes]
    | some base =>
      have hlen : (presentBaseCode.encode base).length < 2 ^ 32 := h
      simp only [baseCode, PrefixCode.groupOption, PrefixCode.group, PrefixCode.delimited, List.length_append,
        length_beBytes]
      omega
  have hover : Over budget Segmented.empty base ↔ budget < 8 + (baseCode.encode base).length := by
    have hword : wordMax = 2 ^ 64 - 1 := rfl
    have hlen : Segmented.empty.len base = 8 + (baseCode.encode base).length := rfl
    have hpositions : Segmented.empty.positions = 0 := rfl
    rw [Over, hlen, hpositions]
    omega
  rw [PublishBody.within, pushBase_of_fits h, Outcome.ok_bind, hover, length_beBytes]
  by_cases hbudget : budget < 8 + (baseCode.encode base).length
  · exact .inl ⟨hbudget, by simp [Outcome.refuseIf, hbudget]⟩
  · refine .inr ⟨hbudget, ⟨beBytes 8 0, none, 0, baseCode.encode base, budget⟩, ?_, ⟨rfl, ?_, rfl, rfl⟩, rfl⟩
    · simp [Outcome.refuseIf, hbudget]
    · simp [Segmented.empty, heldStretch]

theorem within_of_not_fits {budget : ℕ} {base : Option ShotBase} (h : ¬ BaseFits base) :
    PublishBody.within budget base = .fault := by
  rw [PublishBody.within, pushBase_of_not_fits h]
  rfl

/-- What becomes of a body that is built under a budget. -/
theorem budgetedBody_cases (budget : ℕ) (pieces : List ShotSegmentPiece) (base : Option ShotBase) :
    (Over budget (segmentsOf pieces) base ∧ ((∃ e, budgetedBody budget pieces base = .err e) ∨
      budgetedBody budget pieces base = .fault ∧
        ¬ (BaseFits base ∧ (budget < 2 ^ 32 ∨ ∀ p ∈ pieces, p.Fits)))) ∨
    (¬ Over budget (segmentsOf pieces) base ∧ BaseFits base ∧ (∀ p ∈ pieces, p.Fits) ∧
      budgetedBody budget pieces base = .ok ⟨.publish, publishBytes pieces base⟩) ∨
    (¬ Over budget (segmentsOf pieces) base ∧ ¬ (BaseFits base ∧ ∀ p ∈ pieces, p.Fits) ∧
      budgetedBody budget pieces base = .fault) := by
  rw [budgetedBody]
  by_cases hbase : BaseFits base
  · rcases within_of_fits budget hbase with ⟨hover, herr⟩ | ⟨hnot, body, hok, hholds, rfl⟩
    · rw [herr]
      exact .inl ⟨hover.foldl pieces, .inl ⟨.pastBudget, rfl⟩⟩
    · rw [hok, Outcome.ok_bind]
      rcases hholds.takeAll hnot pieces with ⟨hover, ⟨e, he⟩ | ⟨hfault, hunfit⟩⟩ | ⟨hover, hfits, body', hok', hholds'⟩ |
        ⟨hover, hunfit, hfault⟩
      · rw [he]
        exact .inl ⟨hover, .inl ⟨e, rfl⟩⟩
      · rw [hfault]
        exact .inl ⟨hover, .inr ⟨rfl, fun h => hunfit h.2⟩⟩
      · rw [hok', Outcome.ok_bind, hholds'.finish]
        exact .inr (.inl ⟨hover, hbase, hfits, rfl⟩)
      · rw [hfault]
        exact .inr (.inr ⟨hover, fun h => hunfit h.2, rfl⟩)
  · rw [within_of_not_fits hbase]
    by_cases hover : Over budget (segmentsOf pieces) base
    · exact .inl ⟨hover, .inr ⟨rfl, fun h => hbase h.1⟩⟩
    · exact .inr (.inr ⟨hover, fun h => hbase h.1, rfl⟩)

/-- The positions a piece covers. -/
def ShotSegmentPiece.positions : ShotSegmentPiece → ℕ
  | .value _ => 1
  | .window _ width => width.1.toNat

theorem positions_segmentsOf (pieces : List ShotSegmentPiece) :
    (segmentsOf pieces).positions = (pieces.map ShotSegmentPiece.positions).sum := by
  have htake : ∀ (s : Segmented) (p : ShotSegmentPiece), (s.take p).positions = s.positions + p.positions := by
    intro s p
    cases p with
    | value bs => exact positions_take s bs
    | window start width => exact positions_take_window s start width
  have hfold : ∀ s : Segmented, (pieces.foldl Segmented.take s).positions =
      s.positions + (pieces.map ShotSegmentPiece.positions).sum := by
    induction pieces with
    | nil => exact fun s => rfl
    | cons p pieces ih =>
      intro s
      rw [List.foldl_cons, ih, htake, List.map_cons, List.sum_cons, Nat.add_assoc]
  rw [segmentsOf, hfold]
  exact Nat.zero_add _

/-- Whether a body's count passes its field or the body its budget. -/
def Refusable (budget : ℕ) (pieces : List ShotSegmentPiece) (base : Option ShotBase) : Prop :=
  wordMax < (pieces.map ShotSegmentPiece.positions).sum ∨
    budget < min (publishBytes pieces base).length wordMax

theorem refusable_iff {budget : ℕ} {pieces : List ShotSegmentPiece} {base : Option ShotBase} :
    Refusable budget pieces base ↔ Over budget (segmentsOf pieces) base := by
  rw [Refusable, Over, positions_segmentsOf, publishBytes, Segmented.length_body]

/-- What a body's builder panics at: a spelling or a base group that four bytes do not
count, but for a piece that a budget they count refuses first. -/
def Spellable (budget : ℕ) (pieces : List ShotSegmentPiece) (base : Option ShotBase) : Prop :=
  BaseFits base ∧ (budget < 2 ^ 32 ∨ ∀ p ∈ pieces, p.Fits)

theorem budgetedBody_eq_ok {budget : ℕ} {pieces : List ShotSegmentPiece} {base : Option ShotBase}
    {body : EntryBody} (h : budgetedBody budget pieces base = .ok body) :
    body = ⟨.publish, publishBytes pieces base⟩ ∧ (pieces.map ShotSegmentPiece.positions).sum ≤ wordMax := by
  rcases budgetedBody_cases budget pieces base with ⟨-, ⟨e, he⟩ | ⟨hfault, -⟩⟩ | ⟨hover, -, -, hok⟩ |
    ⟨-, -, hfault⟩
  · rw [he] at h
    cases h
  · rw [hfault] at h
    cases h
  · obtain ⟨hpositions, -⟩ := not_or.1 hover
    rw [positions_segmentsOf] at hpositions
    rw [hok] at h
    exact ⟨(Outcome.ok.inj h).symm, not_lt.1 hpositions⟩
  · rw [hfault] at h
    cases h

/-- Within the budget the body is the one built under no budget. -/
theorem budgetedBody_of_not_refusable {budget : ℕ} {pieces : List ShotSegmentPiece} {base : Option ShotBase}
    (h : ¬ Refusable budget pieces base) :
    budgetedBody budget pieces base = entryBodyPublish pieces base := by
  have hover := mt refusable_iff.2 h
  have hword : ¬ Over wordMax (segmentsOf pieces) base := by
    obtain ⟨hpositions, -⟩ := not_or.1 hover
    exact not_or.2 ⟨hpositions, not_lt.2 (min_le_right _ _)⟩
  rw [entryBodyPublish]
  rcases budgetedBody_cases budget pieces base with ⟨hyes, -⟩ | ⟨-, hbase, hfits, hok⟩ | ⟨-, hunfit, hfault⟩
  · exact absurd hyes hover
  · rcases budgetedBody_cases wordMax pieces base with ⟨hyes, -⟩ | ⟨-, -, -, hok'⟩ | ⟨-, hunfit, -⟩
    · exact absurd hyes hword
    · rw [hok, hok']
      rfl
    · exact absurd ⟨hbase, hfits⟩ hunfit
  · rcases budgetedBody_cases wordMax pieces base with ⟨hyes, -⟩ | ⟨-, hbase, hfits, -⟩ | ⟨-, -, hfault'⟩
    · exact absurd hyes hword
    · exact absurd ⟨hbase, hfits⟩ hunfit
    · rw [hfault, hfault']
      rfl

theorem refusable_of_err {budget : ℕ} {pieces : List ShotSegmentPiece} {base : Option ShotBase}
    {e : PublishRefusal} (h : budgetedBody budget pieces base = .err e) : Refusable budget pieces base := by
  rcases budgetedBody_cases budget pieces base with ⟨hover, -⟩ | ⟨-, -, -, hok⟩ | ⟨-, -, hfault⟩
  · exact refusable_iff.2 hover
  · rw [hok] at h
    cases h
  · rw [hfault] at h
    cases h

theorem budgetedBody_refused {budget : ℕ} {pieces : List ShotSegmentPiece} {base : Option ShotBase}
    (h : Refusable budget pieces base) (hspellable : Spellable budget pieces base) :
    ∃ e, budgetedBody budget pieces base = .err e := by
  rcases budgetedBody_cases budget pieces base with ⟨-, herr | ⟨-, hunfit⟩⟩ | ⟨hover, -⟩ | ⟨hover, -⟩
  · exact herr
  · exact absurd hspellable hunfit
  · exact absurd (refusable_iff.1 h) hover
  · exact absurd (refusable_iff.1 h) hover

/-- The body of a shot whose every spelling is counted. -/
theorem budgetedBody_built {budget : ℕ} {pieces : List ShotSegmentPiece} {base : Option ShotBase}
    (h : ¬ Refusable budget pieces base) (hspellable : Spellable budget pieces base) :
    budgetedBody budget pieces base = .ok ⟨.publish, publishBytes pieces base⟩ := by
  rcases budgetedBody_cases budget pieces base with ⟨hover, -⟩ | ⟨-, -, -, hok⟩ | ⟨hover, hunfit, -⟩
  · exact absurd (refusable_iff.2 hover) h
  · exact hok
  · refine absurd ⟨hspellable.1, ?_⟩ hunfit
    rcases hspellable.2 with hbudget | hfits
    · exact fits_of_small_budget hbudget hover
    · exact hfits

/-- One value in the birth shape. -/
example : (entryBodyPublish [.value [113]] none : Outcome Empty EntryBody) = .ok ⟨.publish,
    [0, 0, 0, 0, 0, 0, 0, 1, 2, 0, 0, 0, 0, 0, 0, 0, 1, 0, 0, 0, 1, 113, 0, 0, 0, 0]⟩ := by
  decide +kernel

end Identity
