import Mathlib.Data.List.Sort
import Skep.Search.Unit

/-!
# Snippets

A snippet is a window of the unit's text around a passage: from the nearest paragraph break or
240 positions before it to the nearest break or 240 positions after it, each bound moved inward
to a character boundary. Gaps and bytes that are not UTF-8 are cut out of the text and marked
where they stood, and the passage and each matched token are marked where they fall.

The walk to the first bound stays inside one item, and indexes past it where every byte up to
the item's end goes on with a character.
-/

namespace Search

/-- The positions a window reaches either side of the passage. -/
def snippetBound : ℕ := 240

/-- A passage: a start ordinal and a width. -/
structure Span where
  start : ℕ
  width : ℕ
  deriving DecidableEq

inductive MarkKind where
  | span
  | term (spelling : String)
  | gap (width : ℕ)
  deriving DecidableEq

/-- A byte range inside a snippet's text. -/
structure Mark where
  offset : ℕ
  len : ℕ
  kind : MarkKind
  deriving DecidableEq

structure Snippet where
  text : List UInt8
  start : ℕ
  marks : List Mark
  deriving DecidableEq

/-- A token to mark: its range from the unit's start, and the term it matched. -/
structure Marked where
  offset : ℕ
  len : ℕ
  term : String

def MarkKind.rank : MarkKind → ℕ × String
  | .gap _ => (0, "")
  | .span => (1, "")
  | .term spelling => (2, spelling)

/-- By offset, then kind, then length and spelling. -/
def markOrder : Mark → Mark → Ordering :=
  compareLex (compareOn Mark.offset) (compareLex (compareOn fun m => m.kind.rank.1)
    (compareLex (compareOn Mark.len) (compareOn fun m => m.kind.rank.2)))

/-- A slice, a fault where its ends are out of order or past the bytes. -/
def sliceOf (bytes : List UInt8) (a b : ℕ) : Outcome Empty (List UInt8) :=
  if a ≤ b ∧ b ≤ bytes.length then return (bytes.take b).drop a else .fault

def isHorizontal (byte : UInt8) : Bool := byte == 0x20 || byte == 0x09 || byte == 0x0D

/-- The paragraph breaks, each from its start up to its end, of bytes that stand at `i` and whose
first `skip` belong to a break. -/
def breaksFrom : ℕ → ℕ → List UInt8 → List (ℕ × ℕ)
  | _, _, [] => []
  | skip + 1, i, _ :: rest => breaksFrom skip (i + 1) rest
  | 0, i, byte :: rest =>
      if byte = 0x0A then
        let blank := (rest.takeWhile isHorizontal).length
        if rest[blank]? = some 0x0A then (i, i + blank + 2) :: breaksFrom (blank + 1) (i + 1) rest
        else breaksFrom 0 (i + 1) rest
      else if byte = 0xE2 ∧ rest[0]? = some 0x80 ∧ rest[1]? = some 0xA9 then
        (i, i + 3) :: breaksFrom 2 (i + 1) rest
      else breaksFrom 0 (i + 1) rest

/-- A blank line, or the paragraph separator. -/
def breaks (bytes : List UInt8) : List (ℕ × ℕ) := breaksFrom 0 0 bytes

/-- The part of an item of text that overlaps `[lo, hi)`: its start offset and its bytes. -/
def textPart (base lo hi : ℕ) : Item → Outcome Empty (Option (ℕ × List UInt8))
  | .text start bytes =>
      let first := start - base
      let past := first + bytes.length
      if past ≤ lo ∨ hi ≤ first then return none
      else do
        let a := max first lo
        let b := min past hi
        let part ← sliceOf bytes (a - first) (b - first)
        return some (a, part)
  | .gap _ _ _ => return none

def textWithin (u : Unit) (lo hi : ℕ) : Outcome Empty (List (ℕ × List UInt8)) := do
  let parts ← u.items.mapM (textPart u.start lo hi)
  return parts.reduceOption

/-- The offset after the last paragraph break inside `[lo, until)`. -/
def lastBreakBefore (u : Unit) (lo limit : ℕ) : Outcome Empty (Option ℕ) := do
  let texts ← textWithin u lo limit
  return texts.foldl (fun found part => match (breaks part.2).getLast? with
    | some (_, past) => some (part.1 + past)
    | none => found) none

/-- The offset of the first paragraph break inside `[from, hi)`. -/
def firstBreakAfter (u : Unit) (first hi : ℕ) : Outcome Empty (Option ℕ) := do
  let texts ← textWithin u first hi
  return texts.findSome? fun part => (breaks part.2).head?.map fun b => part.1 + b.1

/-- The walk forward over an item of text that stands at `first`, at most `n` bytes. -/
def walkForward (first : ℕ) (bytes : List UInt8) : ℕ → ℕ → Outcome Empty ℕ
  | 0, lo => return lo
  | n + 1, lo =>
      if first < lo then do
        let byte ← Outcome.expectSome bytes[lo - first]?
        if Utf8.isContinuation byte then walkForward first bytes n (lo + 1) else return lo
      else return lo

/-- The offset moved forward to a character boundary, never past `limit`. -/
def boundaryForward (u : Unit) (lo limit : ℕ) : Outcome Empty ℕ :=
  match u.textAt lo with
  | some (first, bytes) => walkForward first bytes (limit - lo) lo
  | none => return lo

/-- The walk back over an item of text that stands at `first`, at most `n` bytes. -/
def walkBack (first : ℕ) (bytes : List UInt8) : ℕ → ℕ → Outcome Empty ℕ
  | 0, hi => return hi
  | n + 1, hi =>
      if first < hi then do
        let byte ← Outcome.expectSome bytes[hi - first]?
        if Utf8.isContinuation byte then walkBack first bytes n (hi - 1) else return hi
      else return hi

/-- The offset moved back to a character boundary, never below `limit`. -/
def boundaryBack (u : Unit) (hi limit : ℕ) : Outcome Empty ℕ :=
  match u.textAt hi with
  | some (first, bytes) => walkBack first bytes (hi - limit) hi
  | none => return hi

/-- What is rendered: the text, the marks of what was cut out of it, and each valid stretch from
its first offset up to its last, with the text offset it landed at. -/
structure Cut where
  text : List UInt8
  marks : List Mark
  stretches : List (ℕ × ℕ × ℕ)

/-- A chunk that stands at `s.2`. -/
def cutChunk (s : Cut × ℕ) (chunk : Utf8.Chunk) : Cut × ℕ :=
  let (cut, pos) := if chunk.valid = [] then s else
    (⟨s.1.text ++ chunk.valid, s.1.marks,
      s.1.stretches ++ [(s.2, s.2 + chunk.valid.length, s.1.text.length)]⟩, s.2 + chunk.valid.length)
  ({ cut with marks := cut.marks ++ chunk.invalid.map fun _ => ⟨cut.text.length, 0, .gap 1⟩ },
    pos + chunk.invalid.length)

def cutItem (base lo hi : ℕ) (cut : Cut) (item : Item) : Outcome Empty Cut :=
  let first := item.start - base
  let past := first + item.width
  if past ≤ lo ∨ hi ≤ first then return cut
  else
    let a := max first lo
    let b := min past hi
    match item with
    | .gap _ _ _ => return { cut with marks := cut.marks ++ [⟨cut.text.length, 0, .gap (b - a)⟩] }
    | .text _ bytes => do
        let slice ← sliceOf bytes (a - first) (b - first)
        return ((Utf8.chunks slice).foldl cutChunk (cut, a)).1

/-- The text offset a position lands at, of a text of `len` bytes. -/
def toText : List (ℕ × ℕ × ℕ) → ℕ → ℕ → ℕ
  | [], len, _ => len
  | (first, past, pos) :: rest, len, position =>
      if position < first then pos
      else if position ≤ past then pos + (position - first)
      else toText rest len position

/-- A value kept between two bounds, a fault where they are out of order. -/
def clamp (x lo hi : ℕ) : Outcome Empty ℕ := if lo ≤ hi then return max lo (min x hi) else .fault

def termMark (cut : Cut) (lo hi : ℕ) (token : Marked) : Outcome Empty (Option Mark) :=
  let s := token.offset
  let e := token.offset + token.len
  if e ≤ lo ∨ hi ≤ s then return none
  else
    let a := toText cut.stretches cut.text.length (max s lo)
    let b := toText cut.stretches cut.text.length (min e hi)
    return if a < b then some ⟨a, b - a, .term token.term⟩ else none

/-- Where the window stands: around the span, or around the focus where the span is wider than
the bound. -/
def centre (span : Span) (spanLo : ℕ) (focus : ℕ × ℕ) : ℕ × ℕ :=
  if snippetBound < span.width then focus else (spanLo, spanLo + span.width)

/-- The window's first bound, before it is moved to a character boundary. -/
def firstBound (u : Unit) (centreLo : ℕ) : Outcome Empty ℕ := do
  let lo := centreLo - snippetBound
  let after ← lastBreakBefore u lo centreLo
  return after.getD lo

/-- The window's last bound, before it is moved to a character boundary. -/
def lastBound (u : Unit) (centreHi : ℕ) : Outcome Empty ℕ := do
  let hi := min (centreHi + snippetBound) u.positions
  let pos ← firstBreakAfter u centreHi hi
  return pos.getD hi

/-- The text of a window and its marks. -/
def renderWindow (u : Unit) (lo hi spanLo spanHi : ℕ) (marked : List Marked) : Outcome Empty Snippet := do
  let cut ← u.items.foldlM (cutItem u.start lo hi) ⟨[], [], []⟩
  let a := toText cut.stretches cut.text.length (← clamp spanLo lo hi)
  let b := toText cut.stretches cut.text.length (← clamp spanHi lo hi)
  let len ← Outcome.natSub b a
  let terms ← marked.mapM (termMark cut lo hi)
  let marks := cut.marks ++ [⟨a, len, .span⟩] ++ terms.reduceOption
  return ⟨cut.text, u.start + lo, marks.insertionSort fun a b => (markOrder a b).isLE = true⟩

def snippet (u : Unit) (span : Span) (focus : ℕ × ℕ) (marked : List Marked) : Outcome Empty Snippet := do
  let spanLo ← Outcome.natSub span.start u.start
  let (centreLo, centreHi) := centre span spanLo focus
  let lo ← firstBound u centreLo
  let hi ← lastBound u centreHi
  let lo ← boundaryForward u lo centreLo
  let hi ← boundaryBack u hi centreHi
  renderWindow u lo hi spanLo (spanLo + span.width) marked

/-- The byte of a cell that belongs to a character. -/
def Cell.byte? : Cell → Option UInt8
  | .text .stray _ => none
  | .text _ byte => some byte
  | .gap => none

/-- The bytes that belong to characters. -/
def readable (cells : List Cell) : List UInt8 := cells.filterMap Cell.byte?

@[simp] theorem readable_nil : readable [] = [] := rfl

@[simp] theorem readable_append (l l' : List Cell) : readable (l ++ l') = readable l ++ readable l' :=
  List.filterMap_append

namespace Unit

variable (u : Unit)

/-- What the positions from one offset up to another hold. -/
def slice (a b : ℕ) : List Cell := (u.cells.take b).drop a

/-- The readable bytes from one offset up to another. -/
def text (a b : ℕ) : List UInt8 := readable (u.slice a b)

/-- The offset stands inside a character. -/
def Inner (p : ℕ) : Prop := ∃ byte, u.cells[p]? = some (.text .inner byte)

instance (p : ℕ) : Decidable (u.Inner p) :=
  match h : u.cells[p]? with
  | some (.text .inner byte) => isTrue ⟨byte, h⟩
  | some (.text .lead _) | some (.text .stray _) | some .gap | none => isFalse (by simp [Inner, h])

/-- A range of whole characters: where a token, or a phrase of tokens without a break, stands. -/
structure IsTokenRange (s e : ℕ) : Prop where
  le : s ≤ e
  inside : e ≤ u.positions
  readable : ∀ p, s ≤ p → p < e → ∃ c, u.cells[p]? = some c ∧ c.byte?.isSome
  start : ¬ u.Inner s
  stop : ¬ u.Inner e

variable {u}

theorem slice_append {a b c : ℕ} (hab : a ≤ b) (hbc : b ≤ c) : u.slice a c = u.slice a b ++ u.slice b c := by
  unfold slice
  have hsplit : u.cells.take c = u.cells.take b ++ (u.cells.take c).drop b := by
    conv_lhs => rw [← List.take_append_drop b (u.cells.take c), List.take_take, min_eq_left hbc]
  by_cases hlen : b ≤ u.cells.length
  · conv_lhs => rw [hsplit]
    rw [List.drop_append_of_le_length]
    rw [List.length_take, min_eq_left hlen]
    exact hab
  · have hall : ∀ n, b ≤ n → u.cells.take n = u.cells := fun n hn =>
      List.take_of_length_le (le_trans (not_le.1 hlen).le hn)
    rw [hall c hbc, hall b le_rfl, List.drop_eq_nil_of_le (not_le.1 hlen).le, List.append_nil]

theorem text_append {a b c : ℕ} (hab : a ≤ b) (hbc : b ≤ c) : u.text a c = u.text a b ++ u.text b c := by
  rw [text, slice_append hab hbc, readable_append]
  rfl

@[simp] theorem slice_self (a : ℕ) : u.slice a a = [] := by
  simp [slice]

@[simp] theorem text_self (a : ℕ) : u.text a a = [] := by
  simp [text]

theorem length_slice {a b : ℕ} (h : b ≤ u.positions) : (u.slice a b).length = b - a := by
  rw [slice, List.length_drop, List.length_take, u.length_cells, min_eq_left h]

theorem slice_succ {p : ℕ} {c : Cell} (h : u.cells[p]? = some c) : u.slice p (p + 1) = [c] := by
  obtain ⟨hlt, rfl⟩ := List.getElem?_eq_some_iff.1 h
  rw [slice, List.take_succ_eq_append_getElem hlt, List.drop_left']
  rw [List.length_take, min_eq_left hlt.le]

/-- The part of an item between two offsets inside it. -/
theorem slice_of_split {pre post : List Item} {item : Item} {a b : ℕ} (h : u.items = pre ++ item :: post)
    (ha : widths pre ≤ a) (hb : b ≤ widths pre + item.width) :
    u.slice a b = (item.cells.take (b - widths pre)).drop (a - widths pre) := by
  have hpre := length_flatMap_cells pre
  by_cases hab : a ≤ b
  · rw [slice, cells_split h, List.take_append_of_le_length, List.take_append, hpre,
      List.take_of_length_le (by rw [hpre]; omega), List.drop_append, hpre,
      List.drop_eq_nil_of_le (by rw [hpre]; omega), List.nil_append]
    rw [List.length_append, hpre, Item.length_cells]
    exact hb
  · rw [slice, List.drop_eq_nil_of_le, List.drop_eq_nil_of_le]
    · rw [List.length_take]
      omega
    · rw [List.length_take]
      omega

end Unit

/-- The cells of text. -/
def textCells (k : ℕ) (bytes : List UInt8) : List Cell := List.zipWith Cell.text (Utf8.roles k bytes) bytes

theorem Unit.exists_item {u : Unit} {p : ℕ} {c : Cell} (h : u.cells[p]? = some c) :
    ∃ pre item post, u.items = pre ++ item :: post ∧ widths pre ≤ p ∧ p < widths pre + item.width ∧
      item.cells[p - widths pre]? = some c := by
  have hlt : p < u.positions := by
    rw [← u.length_cells]
    exact (List.getElem?_eq_some_iff.1 h).1
  obtain ⟨pre, item, post, heq, h1, h2⟩ := exists_split u.items hlt
  refine ⟨pre, item, post, heq, h1, h2, ?_⟩
  rw [← Unit.cells_getElem?_of_split heq (by omega), Nat.add_sub_cancel' h1, h]

/-- A cell of an item of text is one of its bytes, in its role. -/
theorem text_getElem? {start i : ℕ} {bytes : List UInt8} {c : Cell} :
    (Item.text start bytes).cells[i]? = some c ↔
      ∃ role byte, (Utf8.roles 0 bytes)[i]? = some role ∧ bytes[i]? = some byte ∧ c = .text role byte := by
  rw [Item.cells, List.getElem?_zipWith_eq_some]
  constructor
  · rintro ⟨role, byte, h1, h2, rfl⟩
    exact ⟨role, byte, h1, h2, rfl⟩
  · rintro ⟨role, byte, h1, h2, rfl⟩
    exact ⟨role, byte, h1, h2, rfl⟩

theorem gap_getElem? {start width i : ℕ} {kind : GapKind} {c : Cell}
    (h : (Item.gap start width kind).cells[i]? = some c) : c = .gap := by
  rw [Item.cells, List.getElem?_replicate] at h
  by_cases hi : i < width
  · rw [if_pos hi] at h
    exact (Option.some.inj h).symm
  · rw [if_neg hi] at h
    cases h

theorem Unit.continuation_of_inner {u : Unit} {p : ℕ} {byte : UInt8}
    (h : u.cells[p]? = some (.text .inner byte)) : Utf8.isContinuation byte = true := by
  obtain ⟨pre, item, post, -, -, -, hc⟩ := Unit.exists_item h
  cases item with
  | gap start width kind => exact absurd (gap_getElem? hc) (by simp)
  | text start bytes =>
    obtain ⟨role, b, h1, h2, heq⟩ := text_getElem?.1 hc
    obtain ⟨rfl, rfl⟩ := Cell.text.inj heq
    exact Utf8.continuation_of_inner (fun j hj => absurd hj (Nat.not_lt_zero j)) h1 h2

/-- The first byte of a character goes on with none. -/
theorem Unit.not_continuation_of_lead {u : Unit} {p : ℕ} {byte : UInt8}
    (h : u.cells[p]? = some (.text .lead byte)) : Utf8.isContinuation byte = false := by
  obtain ⟨pre, item, post, -, -, -, hc⟩ := Unit.exists_item h
  cases item with
  | gap start width kind => exact absurd (gap_getElem? hc) (by simp)
  | text start bytes =>
    obtain ⟨role, b, h1, h2, heq⟩ := text_getElem?.1 hc
    obtain ⟨rfl, rfl⟩ := Cell.text.inj heq
    refine Bool.eq_false_iff.2 fun hcont => ?_
    exact Utf8.not_lead_of_continuation h2 hcont h1

theorem Unit.not_inner_of_split {u : Unit} {pre post : List Item} (h : u.items = pre ++ post) :
    ¬ u.Inner (widths pre) := by
  rintro ⟨byte, hb⟩
  obtain ⟨pre', item, post', heq, h1, h2, hc⟩ := Unit.exists_item hb
  -- the item that holds the position starts there
  have hstart : widths pre' = widths pre := by
    rw [h, List.append_eq_append_iff] at heq
    obtain ⟨l, rfl, hl⟩ | ⟨l, rfl, hl⟩ := heq
    · rw [widths_append] at h1 ⊢
      omega
    · cases l with
      | nil => simp
      | cons a l =>
        obtain ⟨rfl, -⟩ := List.cons.inj hl
        rw [widths_append, widths_cons] at h2
        omega
  rw [hstart, Nat.sub_self] at hc
  cases item with
  | gap start width kind => exact absurd (gap_getElem? hc) (by simp)
  | text start bytes =>
    obtain ⟨role, b, h3, -, heq⟩ := text_getElem?.1 hc
    obtain ⟨rfl, -⟩ := Cell.text.inj heq
    exact Utf8.head_roles_zero bytes h3

/-- No character goes on after a position that belongs to none. -/
theorem Unit.not_inner_succ {u : Unit} {p : ℕ} {c : Cell} (h : u.cells[p]? = some c) (hc : c.byte? = none) :
    ¬ u.Inner (p + 1) := by
  obtain ⟨pre, item, post, heq, h1, h2, hcell⟩ := Unit.exists_item h
  by_cases hlast : p + 1 = widths pre + item.width
  · rw [hlast]
    have hsplit : u.items = (pre ++ [item]) ++ post := by simp [heq]
    simpa using Unit.not_inner_of_split hsplit
  · rintro ⟨byte, hb⟩
    have hb' : item.cells[p - widths pre + 1]? = some (.text .inner byte) := by
      rw [← Unit.cells_getElem?_of_split heq (by omega), ← hb]
      congr 1
      omega
    cases item with
    | gap start width kind => exact absurd (gap_getElem? hb') (by simp)
    | text start bytes =>
      obtain ⟨role, b, h3, -, rfl⟩ := text_getElem?.1 hcell
      obtain ⟨role', b', h4, -, heq'⟩ := text_getElem?.1 hb'
      obtain ⟨rfl, -⟩ := Cell.text.inj heq'
      cases role with
      | lead => simp [Cell.byte?] at hc
      | inner => simp [Cell.byte?] at hc
      | stray => exact Utf8.stray_not_before_inner h3 h4

/-- A break stands inside the bytes, and is not empty. -/
theorem breaksFrom_inside {skip i : ℕ} {bytes : List UInt8} {b : ℕ × ℕ} (h : b ∈ breaksFrom skip i bytes) :
    i ≤ b.1 ∧ b.1 < b.2 ∧ b.2 ≤ i + bytes.length := by
  induction bytes generalizing skip i with
  | nil => cases skip <;> simp [breaksFrom] at h
  | cons byte rest ih =>
    have hrec : ∀ {k}, b ∈ breaksFrom k (i + 1) rest → i ≤ b.1 ∧ b.1 < b.2 ∧ b.2 ≤ i + (byte :: rest).length := by
      intro k hk
      have := ih hk
      rw [List.length_cons]
      omega
    cases skip with
    | succ skip => exact hrec h
    | zero =>
      rw [breaksFrom] at h
      dsimp only at h
      split_ifs at h with h1 h2 h3
      · have hlt := (List.getElem?_eq_some_iff.1 h2).1
        rcases List.mem_cons.1 h with rfl | h
        · rw [List.length_cons]
          dsimp only
          omega
        · exact hrec h
      · exact hrec h
      · have hlt := (List.getElem?_eq_some_iff.1 h3.2.2).1
        rcases List.mem_cons.1 h with rfl | h
        · rw [List.length_cons]
          dsimp only
          omega
        · exact hrec h
      · exact hrec h

theorem breaks_inside {bytes : List UInt8} {b : ℕ × ℕ} (h : b ∈ breaks bytes) :
    b.1 < b.2 ∧ b.2 ≤ bytes.length := by
  have := breaksFrom_inside h
  omega

theorem sliceOf_eq_ok {bytes : List UInt8} {a b : ℕ} (hab : a ≤ b) (hb : b ≤ bytes.length) :
    sliceOf bytes a b = .ok ((bytes.take b).drop a) := if_pos ⟨hab, hb⟩

/-- The part of an item that overlaps a window stands inside it. -/
theorem textPart_spec {lo hi : ℕ} (h : lo ≤ hi) (base : ℕ) (item : Item) :
    ∃ part, textPart base lo hi item = .ok part ∧
      ∀ p, part = some p → lo ≤ p.1 ∧ p.1 + p.2.length ≤ hi := by
  cases item with
  | gap start width kind => exact ⟨none, rfl, by simp⟩
  | text start bytes =>
    rw [textPart]
    generalize start - base = first
    by_cases hout : first + bytes.length ≤ lo ∨ hi ≤ first
    · exact ⟨none, if_pos hout, by simp⟩
    · have hslice : sliceOf bytes (max first lo - first) (min (first + bytes.length) hi - first) = .ok _ :=
        sliceOf_eq_ok (by omega) (by omega)
      dsimp only
      rw [if_neg hout, hslice]
      refine ⟨_, rfl, ?_⟩
      rintro p ⟨⟩
      dsimp only
      rw [List.length_drop, List.length_take]
      omega

theorem exists_textWithin {u : Unit} {lo hi : ℕ} (h : lo ≤ hi) : ∃ texts, textWithin u lo hi = .ok texts ∧
    ∀ p ∈ texts, lo ≤ p.1 ∧ p.1 + p.2.length ≤ hi := by
  obtain ⟨parts, hparts, hall, -⟩ := Outcome.exists_mapM_mem (f := textPart u.start lo hi)
    (R := fun _ part => ∀ p, part = some p → lo ≤ p.1 ∧ p.1 + p.2.length ≤ hi) (l := u.items)
    (fun item _ => textPart_spec h u.start item)
  refine ⟨parts.reduceOption, by rw [textWithin, hparts]; rfl, fun p hp => ?_⟩
  have hmem : some p ∈ parts := List.reduceOption_mem_iff.1 hp
  obtain ⟨item, -, hitem⟩ := hall _ hmem
  exact hitem p rfl

theorem lastBreakBefore_spec {u : Unit} {lo limit : ℕ} (h : lo ≤ limit) :
    ∃ found, lastBreakBefore u lo limit = .ok found ∧ ∀ p, found = some p → lo ≤ p ∧ p ≤ limit := by
  obtain ⟨texts, htexts, hall⟩ := exists_textWithin (u := u) h
  refine ⟨_, by rw [lastBreakBefore, htexts]; rfl, ?_⟩
  -- on the texts seen so far
  refine List.foldlRecOn texts _ (motive := fun found => ∀ p, found = some p → lo ≤ p ∧ p ≤ limit)
    (by simp) fun found hfound part hpart => ?_
  cases hb : (breaks part.2).getLast? with
  | none => simpa [hb] using hfound
  | some b =>
    have hin := breaks_inside (List.mem_of_getLast? hb)
    have hpos := hall part hpart
    rintro p ⟨⟩
    omega

theorem firstBreakAfter_spec {u : Unit} {first hi : ℕ} (h : first ≤ hi) :
    ∃ found, firstBreakAfter u first hi = .ok found ∧ ∀ p, found = some p → first ≤ p ∧ p ≤ hi := by
  obtain ⟨texts, htexts, hall⟩ := exists_textWithin (u := u) h
  refine ⟨_, by rw [firstBreakAfter, htexts]; rfl, fun p hp => ?_⟩
  obtain ⟨part, hpart, hb⟩ := List.exists_of_findSome?_eq_some hp
  cases hh : (breaks part.2).head? with
  | none => simp [hh] at hb
  | some b =>
    obtain rfl : part.1 + b.1 = p := by simpa [hh] using hb
    have hin := breaks_inside (List.mem_of_head? hh)
    have hpos := hall part hpart
    omega

theorem firstBound_spec (u : Unit) (centreLo : ℕ) : ∃ lo, firstBound u centreLo = .ok lo ∧
    lo ≤ centreLo ∧ centreLo ≤ lo + snippetBound := by
  have hle : centreLo - snippetBound ≤ centreLo := Nat.sub_le _ _
  obtain ⟨found, hfound, hall⟩ := lastBreakBefore_spec (u := u) hle
  refine ⟨found.getD (centreLo - snippetBound), by rw [firstBound]; simp [hfound], ?_⟩
  cases found with
  | none =>
    rw [Option.getD_none]
    omega
  | some p =>
    have := hall p rfl
    rw [Option.getD_some]
    omega

theorem lastBound_spec {u : Unit} {centreHi : ℕ} (h : centreHi ≤ u.positions) :
    ∃ hi, lastBound u centreHi = .ok hi ∧ centreHi ≤ hi ∧ hi ≤ centreHi + snippetBound ∧
      hi ≤ u.positions := by
  have hle : centreHi ≤ min (centreHi + snippetBound) u.positions := le_min (Nat.le_add_right _ _) h
  obtain ⟨found, hfound, hall⟩ := firstBreakAfter_spec (u := u) hle
  refine ⟨found.getD (min (centreHi + snippetBound) u.positions), by rw [lastBound]; simp [hfound], ?_⟩
  cases found with
  | none =>
    rw [Option.getD_none]
    omega
  | some p =>
    have := hall p rfl
    rw [Option.getD_some]
    omega

/-- Every byte from the offset to its item's end goes on with a character, and the limit lies
past the end: the walk forward indexes past the item. -/
def Unit.RunsOff (u : Unit) (lo limit : ℕ) : Prop := ∃ first bytes, u.textAt lo = some (first, bytes) ∧
  first < lo ∧ (∀ b ∈ bytes.drop (lo - first), Utf8.isContinuation b = true) ∧
  first + bytes.length < limit

/-- The walk faults where it runs off the item, and else stops at its limit, at the item's start
or at a byte that goes on with no character. -/
theorem walkForward_spec {first n lo : ℕ} {bytes : List UInt8} (hlo : lo ≤ first + bytes.length) :
    (walkForward first bytes n lo = .fault ↔ first < lo ∧
      (∀ b ∈ bytes.drop (lo - first), Utf8.isContinuation b = true) ∧ first + bytes.length < lo + n) ∧
    ∀ lo', walkForward first bytes n lo = .ok lo' → lo ≤ lo' ∧ lo' ≤ lo + n ∧
      (lo' = lo + n ∨ lo' ≤ first ∨
        ∃ b, bytes[lo' - first]? = some b ∧ Utf8.isContinuation b = false) := by
  induction n generalizing lo with
  | zero =>
    refine ⟨⟨fun h => (by cases h), fun h => by omega⟩, ?_⟩
    rintro lo' ⟨⟩
    simp
  | succ n ih =>
    rw [walkForward]
    by_cases hfirst : first < lo
    · rw [if_pos hfirst]
      cases hb : bytes[lo - first]? with
      | none =>
        have hlen := List.getElem?_eq_none_iff.1 hb
        refine ⟨⟨fun _ => ⟨hfirst, ?_, by omega⟩, fun _ => rfl⟩, fun lo' h => (by cases h)⟩
        rw [List.drop_eq_nil_of_le hlen]
        simp
      | some byte =>
        obtain ⟨hlt, rfl⟩ := List.getElem?_eq_some_iff.1 hb
        simp only [Outcome.expectSome, Outcome.ok_bind]
        have hdrop := List.drop_eq_getElem_cons hlt
        by_cases hc : Utf8.isContinuation bytes[lo - first] = true
        · rw [if_pos hc]
          have hnext : lo + 1 ≤ first + bytes.length := by omega
          obtain ⟨h1, h2⟩ := ih hnext
          constructor
          · rw [h1, hdrop, show lo + 1 - first = lo - first + 1 by omega]
            simp only [List.mem_cons, forall_eq_or_imp, hc, true_and]
            constructor
            · rintro ⟨-, h3, h4⟩
              exact ⟨hfirst, h3, by omega⟩
            · rintro ⟨-, h3, h4⟩
              exact ⟨by omega, h3, by omega⟩
          · intro lo' h
            obtain ⟨h3, h4, h5⟩ := h2 lo' h
            refine ⟨by omega, by omega, ?_⟩
            obtain h5 | h5 := h5
            · exact .inl (by omega)
            · exact .inr h5
        · rw [if_neg hc]
          constructor
          · refine ⟨fun h => (by cases h), fun h => ?_⟩
            rw [hdrop] at h
            exact absurd (h.2.1 _ List.mem_cons_self) hc
          · rintro lo' ⟨⟩
            exact ⟨le_rfl, by omega, .inr (.inr ⟨_, hb, Bool.eq_false_iff.2 hc⟩)⟩
    · rw [if_neg hfirst]
      refine ⟨⟨fun h => (by cases h), fun h => absurd h.1 hfirst⟩, ?_⟩
      rintro lo' ⟨⟩
      exact ⟨le_rfl, by omega, .inr (.inl (not_lt.1 hfirst))⟩

/-- The walk stops at its limit, at the item's start or at a byte that goes on with no character. -/
theorem walkBack_spec {first n hi : ℕ} {bytes : List UInt8} (hfirst : first ≤ hi)
    (hhi : hi < first + bytes.length) : ∃ hi', walkBack first bytes n hi = .ok hi' ∧ hi' ≤ hi ∧
      hi ≤ hi' + n ∧ first ≤ hi' ∧ (hi' + n = hi ∨ hi' = first ∨
        ∃ b, bytes[hi' - first]? = some b ∧ Utf8.isContinuation b = false) := by
  induction n generalizing hi with
  | zero => exact ⟨hi, rfl, le_rfl, le_rfl, hfirst, .inl rfl⟩
  | succ n ih =>
    rw [walkBack]
    by_cases hlt : first < hi
    · have hin : hi - first < bytes.length := by omega
      rw [if_pos hlt, List.getElem?_eq_getElem hin]
      simp only [Outcome.expectSome, Outcome.ok_bind]
      by_cases hc : Utf8.isContinuation bytes[hi - first] = true
      · rw [if_pos hc]
        have hprev : first ≤ hi - 1 := by omega
        obtain ⟨hi', h1, h2, h3, h4, h5⟩ := ih hprev (by omega)
        refine ⟨hi', h1, by omega, by omega, h4, ?_⟩
        obtain h5 | h5 := h5
        · exact .inl (by omega)
        · exact .inr h5
      · rw [if_neg hc]
        exact ⟨hi, rfl, le_rfl, by omega, hfirst,
          .inr (.inr ⟨_, List.getElem?_eq_getElem hin, Bool.eq_false_iff.2 hc⟩)⟩
    · rw [if_neg hlt]
      exact ⟨hi, rfl, le_rfl, by omega, hfirst, .inr (.inl (by omega))⟩

/-- A byte that goes on with no character stands inside none. -/
theorem Unit.not_inner_of_byte {u : Unit} {pre post : List Item} {s p : ℕ} {bytes : List UInt8} {b : UInt8}
    (h : u.items = pre ++ .text s bytes :: post) (hp : widths pre ≤ p)
    (hb : bytes[p - widths pre]? = some b) (hc : Utf8.isContinuation b = false) : ¬ u.Inner p := by
  rintro ⟨byte, hbyte⟩
  have hlt : p - widths pre < (Item.text s bytes).width := (List.getElem?_eq_some_iff.1 hb).1
  have hcell := Unit.cells_getElem?_of_split h hlt
  rw [Nat.add_sub_cancel' hp, hbyte] at hcell
  obtain ⟨role, b', h1, h2, heq⟩ := text_getElem?.1 hcell.symm
  obtain ⟨rfl, rfl⟩ := Cell.text.inj heq
  obtain rfl : byte = b := Option.some.inj (h2.symm.trans hb)
  rw [Unit.continuation_of_inner hbyte] at hc
  cases hc

/-- An offset inside no item of text stands inside no character. -/
theorem Unit.not_inner_of_textAt_none {u : Unit} {p : ℕ} (h : u.textAt p = none) : ¬ u.Inner p := by
  rintro ⟨byte, hbyte⟩
  obtain ⟨pre, item, post, heq, h1, h2, hcell⟩ := Unit.exists_item hbyte
  cases item with
  | gap start width kind => exact absurd (gap_getElem? hcell) (by simp)
  | text start bytes =>
    have : u.textAt p = some (widths pre, bytes) :=
      Unit.textAt_eq_some_iff.2 ⟨pre, start, post, heq, rfl, h1, h2⟩
    rw [h] at this
    cases this

/-- The first bound faults where the walk runs off its item, and else stands outside every
character. -/
theorem boundaryForward_spec {u : Unit} {lo limit : ℕ} (hle : lo ≤ limit) (hlimit : ¬ u.Inner limit) :
    (boundaryForward u lo limit = .fault ↔ u.RunsOff lo limit) ∧
    ∀ lo', boundaryForward u lo limit = .ok lo' → lo ≤ lo' ∧ lo' ≤ limit ∧ ¬ u.Inner lo' := by
  rw [boundaryForward, Unit.RunsOff]
  cases ht : u.textAt lo with
  | none =>
    refine ⟨⟨fun h => (nomatch h), fun ⟨_, _, h, _⟩ => (nomatch h)⟩, ?_⟩
    rintro lo' ⟨⟩
    exact ⟨le_rfl, hle, Unit.not_inner_of_textAt_none ht⟩
  | some found =>
    obtain ⟨first, bytes⟩ := found
    obtain ⟨pre, s, post, heq, rfl, h1, h2⟩ := Unit.textAt_eq_some_iff.1 ht
    obtain ⟨h3, h4⟩ := walkForward_spec (n := limit - lo) h2.le
    rw [show lo + (limit - lo) = limit by omega] at h3 h4
    refine ⟨?_, fun lo' h => ?_⟩
    · rw [h3]
      constructor
      · rintro ⟨h5, h6, h7⟩
        exact ⟨_, _, rfl, h5, h6, h7⟩
      · rintro ⟨_, _, heq', h5, h6, h7⟩
        obtain ⟨rfl, rfl⟩ := Prod.mk.inj (Option.some.inj heq')
        exact ⟨h5, h6, h7⟩
    · obtain ⟨h5, h6, h7⟩ := h4 lo' h
      refine ⟨h5, h6, ?_⟩
      obtain rfl | h7 | ⟨b, hb, hc⟩ := h7
      · exact hlimit
      · obtain rfl : lo' = widths pre := by omega
        exact Unit.not_inner_of_split heq
      · exact Unit.not_inner_of_byte heq (le_trans h1 h5) hb hc

theorem boundaryBack_spec {u : Unit} {hi limit : ℕ} (hle : limit ≤ hi) (hlimit : ¬ u.Inner limit) :
    ∃ hi', boundaryBack u hi limit = .ok hi' ∧ limit ≤ hi' ∧ hi' ≤ hi ∧ ¬ u.Inner hi' := by
  rw [boundaryBack]
  cases ht : u.textAt hi with
  | none => exact ⟨hi, rfl, hle, le_rfl, Unit.not_inner_of_textAt_none ht⟩
  | some found =>
    obtain ⟨first, bytes⟩ := found
    obtain ⟨pre, s, post, heq, rfl, h1, h2⟩ := Unit.textAt_eq_some_iff.1 ht
    obtain ⟨hi', h3, h4, h5, h6, h7⟩ := walkBack_spec (n := hi - limit) h1 h2
    refine ⟨hi', h3, by omega, h4, ?_⟩
    obtain h7 | rfl | ⟨b, hb, hc⟩ := h7
    · obtain rfl : hi' = limit := by omega
      exact hlimit
    · exact Unit.not_inner_of_split heq
    · exact Unit.not_inner_of_byte heq h6 hb hc

end Search
