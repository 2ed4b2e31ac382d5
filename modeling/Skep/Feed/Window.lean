import Skep.Library.Json
import Skep.Library.Outcome

/-!
# The reads below the resident window

A feed file is lines in the order of their positions. A cursor is placed at the first line
above a fence by a binary search over the file's bytes, and read forward from there a whole
line at a time. A last line that no newline ends is torn: the search takes it to lie above
every fence, and no read answers it.

## Main results

- `Feed.lineStartAtOrAfter_spec` — what a probe finds
- `Feed.search_eq` — where the search places the cursor
- `Feed.nextLines_eq` — what the reads answer
- `Feed.lineBefore_startOf` — the line before a boundary
- `Feed.window_exact` — the three together
-/

namespace Feed

def newline : UInt8 := 10

-- Reads of a file

/-- The bytes through the first newline, or all of them. -/
def readUntil : List UInt8 → List UInt8
  | [] => []
  | b :: rest => if b = newline then [b] else b :: readUntil rest

/-- The byte the first line that begins at `pos` or after starts at. -/
def lineStartAtOrAfter (file : List UInt8) (pos : ℕ) : ℕ :=
  let skipped := readUntil (file.drop (pos - 1))
  if skipped.getLast? = some newline then pos - 1 + skipped.length else file.length

/-- The whole line that begins at `start`, and the byte after it. -/
def readLineAt (file : List UInt8) (start : ℕ) : Option (List UInt8 × ℕ) :=
  let line := readUntil (file.drop start)
  if line = [] ∨ line.getLast? ≠ some newline then none else some (line.dropLast, start + line.length)

/-- A number that is a non-negative integer of 64 bits. -/
def asU64 : Json → Option ℕ
  | .number text =>
      if text.all Json.isDigit then
        let n := text.foldl (fun n c => 10 * n + (c.toNat - '0'.toNat)) 0
        if n < 2 ^ 64 then some n else none
      else none
  | _ => none

variable (fromSlice : List UInt8 → Option Json)

/-- The position a line names. -/
def positionOf (line : List UInt8) : Option ℕ := do
  let v ← fromSlice line
  let m ← v.asObject
  ["at", "covered", "min_since", "floor"].findSome? fun key => do
    let value ← Json.getMember m key
    asU64 value

-- The cursor

theorem le_of_readLineAt {file : List UInt8} {start : ℕ} {r : List UInt8 × ℕ} (h : readLineAt file start = some r) :
    start < r.2 ∧ start < file.length := by
  rw [readLineAt] at h
  split at h
  · cases h
  · next hwhole =>
    cases h
    rw [not_or] at hwhole
    have hlen := List.length_pos_iff.2 hwhole.1
    refine ⟨by dsimp only; omega, ?_⟩
    by_contra hle
    rw [List.drop_eq_nil_of_le (Nat.le_of_not_lt hle), readUntil] at hwhole
    exact hwhole.1 rfl

theorem le_lineStartAtOrAfter {file : List UInt8} {pos : ℕ} (h : lineStartAtOrAfter file pos < file.length) :
    pos ≤ lineStartAtOrAfter file pos := by
  rw [lineStartAtOrAfter] at *
  split at h
  · next hlast =>
    rw [if_pos hlast]
    have hlen : 0 < (readUntil (file.drop (pos - 1))).length := by
      rw [List.length_pos_iff]
      intro hnil
      rw [hnil] at hlast
      cases hlast
    omega
  · exact absurd h (lt_irrefl _)

/-- The line start that a probe halfway finds. -/
def probe (file : List UInt8) (lo mid : ℕ) : ℕ := if mid = lo then lo else lineStartAtOrAfter file mid

theorem le_probe {file : List UInt8} {lo mid : ℕ} (h : lo ≤ mid) (hlt : probe file lo mid < file.length) :
    lo ≤ probe file lo mid := by
  rw [probe] at *
  split at hlt
  · next heq => rw [if_pos heq]
  · next hne =>
    rw [if_neg hne]
    exact h.trans (le_lineStartAtOrAfter hlt)

/-- The search: `lo` is a line's start, and `hi` bounds the answer from above. -/
def search (file : List UInt8) (since lo hi answer : ℕ) : ℕ :=
  if hlt : lo < hi then
    let mid := lo + (hi - lo) / 2
    let start := probe file lo mid
    if hi ≤ start then search file since lo mid answer
    else
      match h : readLineAt file start with
      -- a whole line at or below the fence: the answer lies past it
      | some (line, next) =>
          if (positionOf fromSlice line).any (· ≤ since) then search file since next hi answer
          else search file since lo mid start
      | none => search file since lo mid start
  else answer
termination_by hi - lo
decreasing_by
  all_goals try omega
  have hnext := le_of_readLineAt h
  have hstart : lo ≤ probe file lo (lo + (hi - lo) / 2) := le_probe (Nat.le_add_right _ _) hnext.2
  simp only [start, mid] at *
  omega

/-- A file read forward a whole line at a time. -/
structure Cursor where
  reader : List UInt8
  next : ℕ
  done : Bool

/-- What the operating system refuses of a file that it reads. -/
inductive IoError where
  | unexpectedEof
  deriving DecidableEq

def chunkSize : ℕ := 64 * 1024

/-- The index of the last newline. -/
def rposition (bytes : List UInt8) : Option ℕ :=
  (bytes.reverse.findIdx? (· == newline)).map fun i => bytes.length - 1 - i

/-- The start of the line that ends before an offset: bytes are read backwards from `pos`, a chunk at
a time, until a newline before the line's own is in hand. -/
def lineStartBefore (file : List UInt8) (pos : ℕ) (held : List UInt8) :
    Outcome IoError (Option (ℕ × ℕ × List UInt8)) :=
  if _hchunk : min pos chunkSize = 0 then return some (0, pos, held)
  else
    let chunk := min pos chunkSize
    let pos' := pos - chunk
    if file.length < pos' + chunk then .err .unexpectedEof
    else
      let held := (file.drop pos').take chunk ++ held
      if held.getLast? ≠ some newline then return none
      else
        match rposition held.dropLast with
        | some nl => return some (pos' + nl + 1, pos', held)
        | none => lineStartBefore file pos' held
termination_by pos
decreasing_by
  have := Nat.min_le_left pos chunkSize
  omega

namespace Cursor

def openAbove (file : List UInt8) (since : ℕ) : Cursor :=
  let answer := search fromSlice file since 0 file.length file.length
  ⟨file.drop answer, answer, decide (file.length ≤ answer)⟩

/-- The next whole line, and the byte it begins at. -/
def nextLine (c : Cursor) : Option (ℕ × List UInt8) × Cursor :=
  if c.done then (none, c)
  else
    let line := readUntil c.reader
    let c' := { c with reader := c.reader.drop line.length }
    if line.length = 0 ∨ line.getLast? ≠ some newline then (none, { c' with done := true })
    else (some (c.next, line.dropLast), { c' with next := c.next + line.length })

/-- What so many reads answer, in order. -/
def nextLines : ℕ → Cursor → List (Option (ℕ × List UInt8))
  | 0, _ => []
  | n + 1, c => c.nextLine.1 :: nextLines n c.nextLine.2

/-- The whole line that ends before an offset. -/
def lineBefore (file : List UInt8) (offset : ℕ) : Outcome IoError (Option (List UInt8)) :=
  if offset = 0 then return none
  else do
    match ← lineStartBefore file offset [] with
    | none => return none
    | some (start, pos, held) => return some (held.dropLast.drop (start - pos))

end Cursor

-- The bytes of lines

/-- Lines, each ended by a newline, and a torn tail. -/
def laid (lines : List (List UInt8)) (tail : List UInt8) : List UInt8 :=
  lines.flatMap (fun line => line ++ [newline]) ++ tail

/-- The byte a line begins at, or the tail. -/
def startOf (lines : List (List UInt8)) (k : ℕ) : ℕ := (laid (lines.take k) []).length

section

variable {lines : List (List UInt8)} {tail : List UInt8}

theorem laid_nil (tail : List UInt8) : laid [] tail = tail := rfl

theorem laid_cons (line : List UInt8) (lines : List (List UInt8)) (tail : List UInt8) :
    laid (line :: lines) tail = line ++ newline :: laid lines tail := by
  simp [laid]

theorem laid_append (lines lines' : List (List UInt8)) (tail : List UInt8) :
    laid (lines ++ lines') tail = laid lines [] ++ laid lines' tail := by
  simp [laid]

theorem laid_concat (lines : List (List UInt8)) (line : List UInt8) :
    laid (lines ++ [line]) [] = (laid lines [] ++ line) ++ [newline] := by
  rw [laid_append, laid_cons, laid_nil, List.append_assoc]

theorem drop_laid_concat {lines : List (List UInt8)} {line : List UInt8} {pos : ℕ}
    (h : pos ≤ (laid lines [] ++ line).length) :
    (laid (lines ++ [line]) []).drop pos = (laid lines [] ++ line).drop pos ++ [newline] := by
  rw [laid_concat, List.drop_append_of_le_length h]

theorem length_laid (lines : List (List UInt8)) (tail : List UInt8) :
    (laid lines tail).length = startOf lines lines.length + tail.length := by
  simp [laid, startOf]

@[simp] theorem startOf_zero (lines : List (List UInt8)) : startOf lines 0 = 0 := rfl

theorem startOf_cons (line : List UInt8) (lines : List (List UInt8)) (k : ℕ) :
    startOf (line :: lines) (k + 1) = line.length + 1 + startOf lines k := by
  rw [startOf, List.take_succ_cons, laid_cons, List.length_append, List.length_cons, startOf]
  omega

theorem startOf_succ {k : ℕ} {line : List UInt8} (h : lines[k]? = some line) :
    startOf lines (k + 1) = startOf lines k + line.length + 1 := by
  induction lines generalizing k with
  | nil => simp at h
  | cons line' lines ih =>
    cases k with
    | zero =>
      obtain rfl : line' = line := by simpa using h
      rw [startOf_cons, startOf_zero, startOf_zero]
      omega
    | succ k =>
      rw [startOf_cons, startOf_cons, ih (by simpa using h)]
      omega

theorem startOf_lt {j k : ℕ} (hjk : j < k) (hk : k ≤ lines.length) : startOf lines j < startOf lines k := by
  induction k with
  | zero => omega
  | succ k ih =>
    have hstep := startOf_succ (List.getElem?_eq_getElem (show k < lines.length by omega))
    by_cases hj : j = k
    · rw [hj]
      omega
    · have := ih (by omega) (by omega)
      omega

theorem startOf_le {j k : ℕ} (hjk : j ≤ k) (hk : k ≤ lines.length) : startOf lines j ≤ startOf lines k := by
  by_cases h : j = k
  · rw [h]
  · exact (startOf_lt (by omega) hk).le

/-- From a line's start stand the line and what follows. -/
theorem drop_startOf (k : ℕ) : (laid lines tail).drop (startOf lines k) = laid (lines.drop k) tail := by
  have hsplit : laid lines tail = laid (lines.take k) [] ++ laid (lines.drop k) tail := by
    rw [← laid_append, List.take_append_drop]
  rw [hsplit, startOf, List.drop_left]

theorem readUntil_line {line : List UInt8} (h : newline ∉ line) (rest : List UInt8) :
    readUntil (line ++ newline :: rest) = line ++ [newline] := by
  induction line with
  | nil => rfl
  | cons b line ih =>
    obtain ⟨hb, hline⟩ := not_or.1 (mt List.mem_cons.2 h)
    rw [List.cons_append, readUntil, if_neg (Ne.symm hb), ih hline, List.cons_append]

theorem readUntil_torn (h : newline ∉ tail) : readUntil tail = tail := by
  induction tail with
  | nil => rfl
  | cons b tail ih =>
    obtain ⟨hb, htail⟩ := not_or.1 (mt List.mem_cons.2 h)
    rw [readUntil, if_neg (Ne.symm hb), ih htail]

theorem getLast?_torn (h : newline ∉ tail) : tail.getLast? ≠ some newline := fun hlast =>
  h (List.mem_of_getLast? hlast)

variable (hlines : ∀ line ∈ lines, newline ∉ line) (htail : newline ∉ tail)

include htail

/-- What a probe finds: the first line start at the byte or after, or the file's length. -/
theorem lineStartAtOrAfter_spec (hlines : ∀ line ∈ lines, newline ∉ line) {pos : ℕ} (hpos : 0 < pos) :
    (∃ k ≤ lines.length, lineStartAtOrAfter (laid lines tail) pos = startOf lines k ∧ pos ≤ startOf lines k ∧
      ∀ j ≤ lines.length, pos ≤ startOf lines j → startOf lines k ≤ startOf lines j) ∨
    (lineStartAtOrAfter (laid lines tail) pos = (laid lines tail).length ∧
      ∀ j ≤ lines.length, startOf lines j < pos) := by
  induction lines generalizing pos with
  | nil =>
    right
    have htorn : newline ∉ tail.drop (pos - 1) := fun h => htail (List.mem_of_mem_drop h)
    refine ⟨?_, fun j hj => ?_⟩
    · rw [laid_nil, lineStartAtOrAfter, readUntil_torn htorn, if_neg (getLast?_torn htorn)]
    · rw [List.length_nil, Nat.le_zero] at hj
      rw [hj]
      exact hpos
  | cons line lines ih =>
    obtain ⟨hline, hrest⟩ := List.forall_mem_cons.1 hlines
    by_cases hin : pos ≤ line.length + 1
    · left
      refine ⟨1, by simp, ?_, ?_, fun j hj hle => ?_⟩
      · have hdrop : (laid (line :: lines) tail).drop (pos - 1) =
            line.drop (pos - 1) ++ newline :: laid lines tail := by
          rw [laid_cons, List.drop_append_of_le_length (by omega)]
        have htorn : newline ∉ line.drop (pos - 1) := fun h => hline (List.mem_of_mem_drop h)
        rw [lineStartAtOrAfter, hdrop, readUntil_line htorn, if_pos (by simp), startOf_cons, startOf_zero]
        simp only [List.length_append, List.length_drop, List.length_singleton]
        omega
      · rw [startOf_cons, startOf_zero]
        omega
      · cases j with
        | zero =>
          rw [startOf_zero] at hle
          omega
        | succ j =>
          rw [startOf_cons, startOf_cons, startOf_zero]
          omega
    · have hdrop : (laid (line :: lines) tail).drop (pos - 1) =
          (laid lines tail).drop (pos - (line.length + 1) - 1) := by
        have hshift : pos - 1 = (line ++ [newline]).length + (pos - (line.length + 1) - 1) := by
          simp only [List.length_append, List.length_singleton]
          omega
        rw [laid_cons, List.append_cons, hshift, List.drop_append, Nat.add_sub_cancel_left,
          List.drop_eq_nil_of_le (Nat.le_add_right _ _), List.nil_append]
      have hfound : lineStartAtOrAfter (laid (line :: lines) tail) pos =
          line.length + 1 + lineStartAtOrAfter (laid lines tail) (pos - (line.length + 1)) := by
        rw [lineStartAtOrAfter, lineStartAtOrAfter, hdrop]
        split
        · omega
        · rw [laid_cons, List.length_append, List.length_cons]
          omega
      rw [hfound]
      obtain ⟨k, hk, heq, hle, hleast⟩ | ⟨heq, hall⟩ := @ih hrest (pos - (line.length + 1)) (by omega)
      · left
        refine ⟨k + 1, by simpa using hk, by rw [heq, startOf_cons], ?_, fun j hj hjle => ?_⟩
        · rw [startOf_cons]
          omega
        · cases j with
          | zero =>
            rw [startOf_zero] at hjle
            omega
          | succ j =>
            rw [startOf_cons] at hjle
            rw [startOf_cons, startOf_cons]
            have := hleast j (by simpa using hj) (by omega)
            omega
      · right
        refine ⟨?_, fun j hj => ?_⟩
        · rw [heq, laid_cons, List.length_append, List.length_cons]
          omega
        · cases j with
          | zero => exact hpos
          | succ j =>
            have := hall j (by simpa using hj)
            rw [startOf_cons]
            omega

omit htail in
theorem readLineAt_line (hlines : ∀ line ∈ lines, newline ∉ line) {k : ℕ} {line : List UInt8}
    (h : lines[k]? = some line) :
    readLineAt (laid lines tail) (startOf lines k) = some (line, startOf lines (k + 1)) := by
  have hk : k < lines.length := (List.getElem?_eq_some_iff.1 h).1
  have hdrop : lines.drop k = line :: lines.drop (k + 1) := by
    rw [List.drop_eq_getElem_cons hk, (List.getElem?_eq_some_iff.1 h).2]
  have hline := hlines line (List.mem_of_getElem? h)
  rw [readLineAt, drop_startOf, hdrop, laid_cons, readUntil_line hline, if_neg (by simp), startOf_succ h]
  simp only [List.dropLast_concat, List.length_append, List.length_singleton, Nat.add_assoc]

theorem readLineAt_tail : readLineAt (laid lines tail) (startOf lines lines.length) = none := by
  rw [readLineAt, drop_startOf, List.drop_length, laid_nil, readUntil_torn htail, if_pos (.inr (getLast?_torn htail))]

end

-- The search

section

variable {fromSlice : List UInt8 → Option Json}

variable (fromSlice) in
/-- Every line names a position, and the positions never decrease. -/
def Ordered (lines : List (List UInt8)) : Prop :=
  ∃ positions : List ℕ, lines.map (positionOf fromSlice) = positions.map some ∧ positions.Pairwise (· ≤ ·)

variable (fromSlice) in
def atOrBelow (since : ℕ) (line : List UInt8) : Bool := (positionOf fromSlice line).any (· ≤ since)

variable (fromSlice) in
/-- How many lines lie at or below a fence. -/
def fence (lines : List (List UInt8)) (since : ℕ) : ℕ := (lines.takeWhile (atOrBelow fromSlice since)).length

theorem fence_le (lines : List (List UInt8)) (since : ℕ) : fence fromSlice lines since ≤ lines.length :=
  (List.takeWhile_prefix _).length_le

/-- The lines at or below a fence are those before it. -/
theorem atOrBelow_iff {lines : List (List UInt8)} (h : Ordered fromSlice lines) {since k : ℕ} {line : List UInt8}
    (hk : lines[k]? = some line) : atOrBelow fromSlice since line = true ↔ k < fence fromSlice lines since := by
  obtain ⟨positions, hpositions, hsorted⟩ := h
  induction lines generalizing k positions with
  | nil => simp at hk
  | cons line' lines ih =>
    cases positions with
    | nil => simp at hpositions
    | cons p positions =>
      rw [List.map_cons, List.map_cons, List.cons.injEq] at hpositions
      obtain ⟨hp, hpositions⟩ := hpositions
      obtain ⟨hle, hsorted⟩ := List.pairwise_cons.1 hsorted
      have hhead : atOrBelow fromSlice since line' = decide (p ≤ since) := by rw [atOrBelow, hp, Option.any_some]
      by_cases hbelow : p ≤ since
      · have hfence : fence fromSlice (line' :: lines) since = fence fromSlice lines since + 1 := by
          rw [fence, List.takeWhile_cons_of_pos (by simpa [hhead] using hbelow), List.length_cons, fence]
        cases k with
        | zero =>
          obtain rfl : line' = line := by simpa using hk
          rw [hhead, hfence]
          simp [hbelow]
        | succ k =>
          rw [hfence, ih (by simpa using hk) positions hpositions hsorted]
          omega
      · have hfence : fence fromSlice (line' :: lines) since = 0 := by
          rw [fence, List.takeWhile_cons_of_neg (by simpa [hhead] using hbelow), List.length_nil]
        rw [hfence]
        refine iff_of_false (fun habove => ?_) (Nat.not_lt_zero k)
        cases k with
        | zero =>
          obtain rfl : line' = line := by simpa using hk
          rw [hhead, decide_eq_true_eq] at habove
          exact hbelow habove
        | succ k =>
          -- a later line lies no lower
          have hmem : positionOf fromSlice line ∈ positions.map some := by
            rw [← hpositions]
            exact List.mem_map_of_mem (List.mem_of_getElem? (by simpa using hk))
          obtain ⟨q, hq, hqline⟩ := List.mem_map.1 hmem
          rw [atOrBelow, ← hqline, Option.any_some, decide_eq_true_eq] at habove
          exact hbelow ((hle q hq).trans habove)

/-- The search places the cursor at the first line above the fence. -/
theorem search_eq {lines : List (List UInt8)} {tail : List UInt8} (hlines : ∀ line ∈ lines, newline ∉ line)
    (htail : newline ∉ tail) (hordered : Ordered fromSlice lines) (since : ℕ) {lo hi answer k : ℕ}
    (hlo : lo = startOf lines k) (hk : k ≤ fence fromSlice lines since) (hhi : hi ≤ (laid lines tail).length)
    (hanswer : startOf lines (fence fromSlice lines since) = answer ∨ startOf lines (fence fromSlice lines since) < hi) :
    search fromSlice (laid lines tail) since lo hi answer = startOf lines (fence fromSlice lines since) := by
  have hfence : fence fromSlice lines since ≤ lines.length := fence_le lines since
  have hlen : ∀ j ≤ lines.length, startOf lines j ≤ (laid lines tail).length := by
    intro j hj
    rw [length_laid]
    exact (startOf_le hj le_rfl).trans (Nat.le_add_right _ _)
  induction hn : hi - lo using Nat.strong_induction_on generalizing lo hi answer k with
  | _ n ih =>
    have hlow : lo ≤ startOf lines (fence fromSlice lines since) := hlo ▸ startOf_le hk hfence
    rw [search]
    by_cases hlt : lo < hi
    · rw [dif_pos hlt]
      have hmid : lo ≤ lo + (hi - lo) / 2 ∧ lo + (hi - lo) / 2 < hi := by omega
      generalize lo + (hi - lo) / 2 = mid at hmid
      -- what the probe finds, and that no line starts between it and the middle
      obtain ⟨hlast, hnone⟩ | ⟨j, hj, hprobe, hfirst⟩ :
          ((laid lines tail).length ≤ probe (laid lines tail) lo mid ∧
            ∀ j ≤ lines.length, lo ≤ startOf lines j → startOf lines j < mid) ∨
          ∃ j ≤ lines.length, probe (laid lines tail) lo mid = startOf lines j ∧
            ∀ i ≤ lines.length, lo ≤ startOf lines i → startOf lines i < startOf lines j → startOf lines i < mid := by
        by_cases heq : mid = lo
        · right
          refine ⟨k, hk.trans hfence, by rw [probe, if_pos heq, hlo], fun i _ hle hlt => ?_⟩
          omega
        · rw [probe, if_neg heq]
          refine (@lineStartAtOrAfter_spec _ _ htail hlines mid (by omega)).symm.imp ?_ ?_
          · rintro ⟨hfound, hall⟩
            exact ⟨hfound.ge, fun j hj _ => hall j hj⟩
          · rintro ⟨j, hj, hfound, hle, hleast⟩
            refine ⟨j, hj, hfound, fun i hi _ hlt => ?_⟩
            by_contra hge
            have := hleast i hi (by omega)
            omega
      · dsimp only
        rw [if_pos (hhi.trans hlast)]
        refine ih _ (by omega) hlo hk (hmid.2.le.trans hhi) ?_ rfl
        exact .inr (hnone _ hfence hlow)
      · dsimp only
        rw [hprobe]
        by_cases hpast : hi ≤ startOf lines j
        · rw [if_pos hpast]
          refine ih _ (by omega) hlo hk (hmid.2.le.trans hhi) ?_ rfl
          exact hanswer.imp id fun h => hfirst _ hfence hlow (by omega)
        · rw [if_neg hpast]
          -- a line above the fence, or the torn tail, bounds the answer
          have habove : fence fromSlice lines since ≤ j →
              search fromSlice (laid lines tail) since lo mid (startOf lines j) =
                startOf lines (fence fromSlice lines since) := by
            intro hle
            refine ih _ (by omega) hlo hk (hmid.2.le.trans hhi) ?_ rfl
            by_cases heq : fence fromSlice lines since = j
            · exact .inl (by rw [heq])
            · exact .inr (hfirst _ hfence hlow (startOf_lt (by omega) hj))
          split
          · next line next hread =>
            have hjlt : j < lines.length := by
              by_contra hge
              obtain rfl : j = lines.length := by omega
              rw [readLineAt_tail htail] at hread
              cases hread
            have hget := List.getElem?_eq_getElem hjlt
            rw [readLineAt_line hlines hget, Option.some.injEq, Prod.mk.injEq] at hread
            obtain ⟨rfl, rfl⟩ := hread
            have hiff : atOrBelow fromSlice since lines[j] = true ↔ _ := atOrBelow_iff hordered hget
            rw [atOrBelow] at hiff
            by_cases hbelow : j < fence fromSlice lines since
            · rw [if_pos (hiff.2 hbelow)]
              have hstep : startOf lines j < startOf lines (j + 1) := startOf_lt (by omega) (by omega)
              refine ih _ ?_ rfl (show j + 1 ≤ _ by omega) hhi hanswer rfl
              have hlj : lo ≤ startOf lines j := by
                rw [← hprobe]
                refine le_probe hmid.1 ?_
                rw [hprobe]
                omega
              omega
            · rw [if_neg (fun h => hbelow (hiff.1 h))]
              exact habove (by omega)
          · next hread =>
            refine habove ?_
            have hjeq : ¬ j < lines.length := by
              intro hjlt
              rw [readLineAt_line hlines (List.getElem?_eq_getElem hjlt)] at hread
              cases hread
            omega
    · rw [dif_neg hlt]
      omega

-- The reads

/-- A cursor at a line's start, which it may know to be the file's end. -/
structure Cursor.At (lines : List (List UInt8)) (tail : List UInt8) (k : ℕ) (c : Cursor) : Prop where
  reader : c.reader = (laid lines tail).drop (startOf lines k)
  next : c.next = startOf lines k
  done : c.done = true → (laid lines tail).length ≤ startOf lines k

theorem Cursor.At.nextLine_line {lines : List (List UInt8)} {tail : List UInt8} {k : ℕ} {c : Cursor}
    (hlines : ∀ line ∈ lines, newline ∉ line) (hc : c.At lines tail k) {line : List UInt8} (h : lines[k]? = some line) :
    c.nextLine.1 = some (startOf lines k, line) ∧ c.nextLine.2.At lines tail (k + 1) := by
  have hk : k < lines.length := (List.getElem?_eq_some_iff.1 h).1
  have hdrop : lines.drop k = line :: lines.drop (k + 1) := by
    rw [List.drop_eq_getElem_cons hk, (List.getElem?_eq_some_iff.1 h).2]
  have hstart := startOf_lt (Nat.lt_succ_self k) hk
  have hend := startOf_le hk le_rfl
  have hlen := length_laid lines tail
  have hdone : ¬ c.done = true := by
    intro hd
    have hle := hc.done hd
    rw [Nat.succ_eq_add_one] at *
    omega
  have hread : readUntil c.reader = line ++ [newline] := by
    rw [hc.reader, drop_startOf, hdrop, laid_cons, readUntil_line (hlines line (List.mem_of_getElem? h))]
  rw [Cursor.nextLine, if_neg hdone, hread]
  simp only [List.length_append, List.length_singleton, Nat.add_eq_zero_iff, one_ne_zero, and_false,
    List.getLast?_concat, ne_eq, not_true_eq_false, or_self, if_false, List.dropLast_concat, hc.next]
  refine ⟨trivial, ?_, ?_, fun hd => absurd hd hdone⟩
  · dsimp only
    rw [hc.reader, List.drop_drop, startOf_succ h, Nat.add_assoc]
  · dsimp only
    rw [startOf_succ h, Nat.add_assoc]

/-- Past the last whole line a cursor answers nothing, for good. -/
theorem Cursor.At.nextLines_end {lines : List (List UInt8)} {tail : List UInt8} {c : Cursor} (htail : newline ∉ tail)
    (hc : c.done = true ∨ c.At lines tail lines.length) (n : ℕ) : c.nextLines n = List.replicate n none := by
  induction n generalizing c with
  | zero => rfl
  | succ n ih =>
    rw [Cursor.nextLines, List.replicate_succ]
    have hstep : c.nextLine.1 = none ∧ c.nextLine.2.done = true := by
      by_cases hd : c.done = true
      · rw [Cursor.nextLine, if_pos hd]
        exact ⟨rfl, hd⟩
      · have hread : readUntil c.reader = tail := by
          rw [(hc.resolve_left hd).reader, drop_startOf, List.drop_length, laid_nil, readUntil_torn htail]
        rw [Cursor.nextLine, if_neg hd, hread, if_pos (.inr (getLast?_torn htail))]
        exact ⟨rfl, rfl⟩
    rw [hstep.1, ih (.inl hstep.2)]

/-- What the reads answer: the lines from there in order with their bytes, then nothing. -/
theorem nextLines_eq {lines : List (List UInt8)} {tail : List UInt8} (hlines : ∀ line ∈ lines, newline ∉ line)
    (htail : newline ∉ tail) {k : ℕ} {c : Cursor} (hk : k ≤ lines.length) (hc : c.At lines tail k) (n : ℕ) :
    c.nextLines n = (List.range n).map fun i => (lines[k + i]?).map fun line => (startOf lines (k + i), line) := by
  induction n generalizing k c with
  | zero => rfl
  | succ n ih =>
    cases hget : lines[k]? with
    | none =>
      obtain rfl : k = lines.length := le_antisymm hk (List.getElem?_eq_none_iff.1 hget)
      have hnone : (fun i => (lines[lines.length + i]?).map fun line => (startOf lines (lines.length + i), line)) =
          fun _ => none := by
        funext i
        rw [List.getElem?_eq_none (Nat.le_add_right _ _), Option.map_none]
      rw [Cursor.At.nextLines_end htail (.inr hc), hnone, List.map_const', List.length_range]
    | some line =>
      obtain ⟨hline, hnext⟩ := hc.nextLine_line hlines hget
      rw [Cursor.nextLines, hline, ih (List.getElem?_eq_some_iff.1 hget).1 hnext, List.range_succ_eq_map, List.map_cons,
        List.map_map, Nat.add_zero, hget]
      refine congrArg _ (List.map_congr_left fun i _ => ?_)
      rw [Function.comp_apply, Nat.succ_eq_add_one, Nat.add_right_comm, Nat.add_assoc]

-- The line before a boundary

theorem rposition_eq_some {front line : List UInt8} (h : newline ∉ line) :
    rposition (front ++ newline :: line) = some front.length := by
  have hfind : (line.reverse ++ newline :: front.reverse).findIdx? (· == newline) = some line.length := by
    rw [List.findIdx?_append, List.findIdx?_eq_none_iff.2 fun b hb => ?_, Option.none_or, List.findIdx?_cons]
    · simp
    · rw [beq_eq_false_iff_ne]
      rintro rfl
      exact h (List.mem_reverse.1 hb)
  have hreverse : (front ++ newline :: line).reverse = line.reverse ++ newline :: front.reverse := by simp
  rw [rposition, hreverse, hfind, Option.map_some, List.length_append, List.length_cons]
  congr 1
  omega

theorem rposition_eq_none {bytes : List UInt8} (h : newline ∉ bytes) : rposition bytes = none := by
  rw [rposition, List.findIdx?_eq_none_iff.2 fun b hb => ?_, Option.map_none]
  rw [beq_eq_false_iff_ne]
  rintro rfl
  exact h (List.mem_reverse.1 hb)

/-- The backward read finds where the last line of some whole lines begins. -/
theorem lineStartBefore_eq {lines : List (List UInt8)} {line rest : List UInt8} (hline : newline ∉ line) {pos : ℕ}
    {held : List UInt8} (hheld : held = (laid (lines ++ [line]) []).drop pos)
    (hpos : pos ≤ (laid (lines ++ [line]) []).length)
    (hsome : pos = (laid (lines ++ [line]) []).length ∨ (laid lines []).length ≤ pos) :
    ∃ pos', lineStartBefore (laid (lines ++ [line]) [] ++ rest) pos held =
        .ok (some ((laid lines []).length, pos', (laid (lines ++ [line]) []).drop pos')) ∧
      pos' ≤ (laid lines []).length := by
  have hlength : (laid (lines ++ [line]) []).length = (laid lines []).length + line.length + 1 := by
    rw [laid_concat]
    simp only [List.length_append, List.length_singleton]
  induction hn : pos using Nat.strong_induction_on generalizing pos held with
  | _ n ih =>
    subst hn
    rw [lineStartBefore]
    have hchunk : 0 < chunkSize := by decide
    by_cases hzero : min pos chunkSize = 0
    · obtain rfl : pos = 0 := by omega
      rw [dif_pos hzero]
      have hnil : (laid lines []).length = 0 := by omega
      exact ⟨0, by rw [hnil, hheld]; rfl, Nat.zero_le _⟩
    · rw [dif_neg hzero]
      have hmin : min pos chunkSize ≤ pos := Nat.min_le_left _ _
      generalize min pos chunkSize = chunk at hmin hzero
      obtain ⟨pos', rfl⟩ := Nat.exists_eq_add_of_le' hmin
      have hdrop : (laid (lines ++ [line]) []).drop pos' = (laid lines [] ++ line).drop pos' ++ [newline] := by
        refine drop_laid_concat ?_
        rw [List.length_append]
        omega
      have hread : ((laid (lines ++ [line]) [] ++ rest).drop pos').take chunk ++ held =
          (laid lines [] ++ line).drop pos' ++ [newline] := by
        have hwithin : chunk ≤ ((laid (lines ++ [line]) []).drop pos').length := by
          rw [List.length_drop]
          omega
        rw [List.drop_append_of_le_length (by omega), List.take_append_of_le_length hwithin, hheld, ← List.drop_drop,
          List.take_append_drop, hdrop]
      have hfile : ¬ (laid (lines ++ [line]) [] ++ rest).length < pos' + chunk := by
        rw [List.length_append]
        omega
      simp only [Nat.add_sub_cancel]
      rw [if_neg hfile, hread, if_neg (by simp), List.dropLast_concat]
      by_cases hbefore : pos' < (laid lines []).length
      · -- the newline of the line before is in hand
        obtain rfl | ⟨lines', last, rfl⟩ := List.eq_nil_or_concat' lines
        · exact absurd hbefore (Nat.not_lt_zero _)
        · have hlast := laid_concat lines' last
          have hlastlen : (laid (lines' ++ [last]) []).length = (laid lines' [] ++ last).length + 1 := by
            rw [hlast, List.length_append, List.length_singleton]
          have hle : pos' ≤ (laid lines' [] ++ last).length := by omega
          have hsplit : (laid (lines' ++ [last]) [] ++ line).drop pos' =
              (laid lines' [] ++ last).drop pos' ++ newline :: line := by
            rw [hlast, List.append_assoc, List.drop_append_of_le_length hle]
            rfl
          rw [hsplit, rposition_eq_some hline, ← hsplit, ← hdrop]
          refine ⟨pos', ?_, hbefore.le⟩
          have hstart : pos' + ((laid lines' [] ++ last).drop pos').length + 1 = (laid (lines' ++ [last]) []).length := by
            rw [List.length_drop]
            omega
          dsimp only
          rw [hstart]
          rfl
      · have hinside : (laid lines [] ++ line).drop pos' = line.drop (pos' - (laid lines []).length) := by
          rw [List.drop_append, List.drop_eq_nil_of_le (Nat.le_of_not_lt hbefore), List.nil_append]
        have hnone : newline ∉ (laid lines [] ++ line).drop pos' := by
          rw [hinside]
          exact fun h => hline (List.mem_of_mem_drop h)
        rw [rposition_eq_none hnone, ← hdrop]
        exact ih pos' (by omega) rfl (by omega) (.inr (Nat.le_of_not_lt hbefore)) rfl

/-- The line before a boundary is the whole line that ends there. -/
theorem lineBefore_startOf {lines : List (List UInt8)} {tail : List UInt8} (hlines : ∀ line ∈ lines, newline ∉ line)
    {k : ℕ} (hk : k < lines.length) :
    Cursor.lineBefore (laid lines tail) (startOf lines (k + 1)) = .ok lines[k]? := by
  have hget := List.getElem?_eq_getElem hk
  have htake : lines.take (k + 1) = lines.take k ++ [lines[k]] := List.take_succ_eq_append_getElem hk
  have hfile : laid lines tail = laid (lines.take k ++ [lines[k]]) [] ++ laid (lines.drop (k + 1)) tail := by
    rw [← htake, ← laid_append, List.take_append_drop]
  have hoffset : startOf lines (k + 1) = (laid (lines.take k ++ [lines[k]]) []).length := by rw [startOf, htake]
  have hpos : ¬ startOf lines (k + 1) = 0 := by
    rw [startOf_succ hget]
    omega
  obtain ⟨pos', hrun, hle⟩ := @lineStartBefore_eq (lines.take k) _ (laid (lines.drop (k + 1)) tail)
    (hlines lines[k] (List.getElem_mem hk)) _ [] (List.drop_length ..).symm le_rfl (.inl rfl)
  have hheld : (laid (lines.take k ++ [lines[k]]) []).drop pos' =
      (laid (lines.take k) [] ++ lines[k]).drop pos' ++ [newline] := by
    refine drop_laid_concat (hle.trans ?_)
    rw [List.length_append]
    omega
  have hline : ((laid (lines.take k) [] ++ lines[k]).drop pos').drop ((laid (lines.take k) []).length - pos') =
      lines[k] := by
    rw [List.drop_drop, Nat.add_sub_cancel' hle, List.drop_left]
  rw [Cursor.lineBefore, if_neg hpos, hfile, hoffset, hrun, Outcome.ok_bind, hget]
  dsimp only
  rw [hheld, List.dropLast_concat, hline]
  rfl

/-- A cursor opened above a fence stands where the first line above it begins, or past every
whole line: at the torn tail or the file's end. Its reads answer the whole lines from there,
in order and with their bytes, and then nothing for good. The line before a boundary is the
whole line that ends there, however long. -/
theorem window_exact (lines : List (List UInt8)) (tail : List UInt8) (hlines : ∀ line ∈ lines, newline ∉ line)
    (htail : newline ∉ tail) (hordered : Ordered fromSlice lines) (since : ℕ) :
    let file := laid lines tail
    let first := fence fromSlice lines since
    (∀ k line, lines[k]? = some line →
      (k < first ↔ ∃ p, positionOf fromSlice line = some p ∧ p ≤ since)) ∧
    startOf lines lines.length + tail.length = file.length ∧
    (Cursor.openAbove fromSlice file since).next = startOf lines first ∧
    (∀ n, (Cursor.openAbove fromSlice file since).nextLines n =
      (List.range n).map fun i => (lines[first + i]?).map fun line => (startOf lines (first + i), line)) ∧
    ∀ k ≤ lines.length, Cursor.lineBefore file (startOf lines k) = .ok (if k = 0 then none else lines[k - 1]?) := by
  intro file first
  have hanswer : search fromSlice file since 0 file.length file.length = startOf lines first := by
    refine search_eq hlines htail hordered since (k := 0) rfl (Nat.zero_le _) le_rfl ?_
    have hle : startOf lines (fence fromSlice lines since) ≤ startOf lines lines.length := startOf_le (fence_le lines since) le_rfl
    have hlen : file.length = _ := length_laid lines tail
    omega
  refine ⟨fun k line hk => ?_, (length_laid lines tail).symm, hanswer, fun n => ?_, fun k hk => ?_⟩
  · rw [← atOrBelow_iff hordered hk, atOrBelow, Option.any_eq_true]
    simp only [decide_eq_true_eq]
  · refine nextLines_eq hlines htail (fence_le lines since) ⟨?_, hanswer, fun hd => ?_⟩ n
    · rw [Cursor.openAbove, hanswer]
    · rw [Cursor.openAbove, hanswer] at hd
      exact of_decide_eq_true hd
  · cases k with
    | zero => rfl
    | succ k => rw [lineBefore_startOf hlines hk, if_neg (Nat.succ_ne_zero k), Nat.add_sub_cancel]

end

/-- Three lines and a torn one, the fence between the first and the others. -/
theorem window_exact_torn :
    let bytes := fun text : String => text.toList.map fun c => UInt8.ofNat c.toNat
    let fromSlice := fun line : List UInt8 => Json.ofText (String.ofList (line.map fun b => Char.ofNat b.toNat))
    let lines := [bytes "\x7b\"at\":3\x7d", bytes "\x7b\"covered\":9\x7d", bytes "\x7b\"at\":9\x7d"]
    (Cursor.openAbove fromSlice (laid lines (bytes "\x7b\"at")) 3).nextLines 3 =
      [some (9, bytes "\x7b\"covered\":9\x7d"), some (23, bytes "\x7b\"at\":9\x7d"), none] := by
  intro bytes fromSlice lines
  obtain ⟨-, -, -, hread, -⟩ := @window_exact fromSlice lines (bytes "\x7b\"at") (by decide +kernel)
    (by decide +kernel) ⟨[3, 9, 9], by decide +kernel, by decide⟩ 3
  exact (hread 3).trans (by decide +kernel)

end Feed
