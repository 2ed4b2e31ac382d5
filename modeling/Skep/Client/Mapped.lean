import Skep.Client.AddressText
import Skep.Library.Stretches

/-!
# A state mapped through correspondence records

A record names a span of a draft's own words and the published span it became. A past state is
written back with every position a record covers mapped onto what it became, run by run, and
what adjoins joined. The end of a run is held in 64 bits and saturates, so no run holds the
greatest ordinal.

## Main results

- `Client.piece_spec` — a piece is the image of what it was cut from
- `Client.mapped_exact` — the runs sent are the image of the state, joined, and are a function
  of the state's addresses where the records cover none twice
-/

namespace Client

open Registry (render)

/-- The greatest ordinal. -/
def u64Max : ℕ := 2 ^ 64 - 1

/-- Unsigned addition, a fault where it overflows. -/
def addU64 (a b : ℕ) : Outcome Empty ℕ := if a + b ≤ u64Max then .ok (a + b) else .fault

/-- A run of permanent content addresses: positions of a document from an ordinal. -/
abbrev Run := Stretch Address

/-- The ordinal one past the last position. -/
def Run.reach (r : Run) : ℕ := min (r.start + r.width) u64Max

/-- The content chain of a document. -/
def contentChain (origin : Address) : String := render origin ++ ".0.1"

/-- A stored span: its content chain, its first ordinal and its positions. -/
structure ISpan where
  chain : String
  first : ℕ
  width : ℕ

namespace ISpan

def reach (s : ISpan) : ℕ := min (s.first + s.width) u64Max

/-- The document the chain lies in. -/
def document (s : ISpan) : Option String := documentOfText (s.chain ++ "." ++ Nat.repr s.first)

/-- The overlap with `[first, reach)` on a chain. -/
def overlap (s : ISpan) (chain : String) (first reach : ℕ) : Option (ℕ × ℕ) :=
  if s.chain ≠ chain then none
  else
    let lo := max s.first first
    let hi := min s.reach reach
    if lo < hi then some (lo, hi) else none

end ISpan

/-- A correspondence record: the draft-native span and the published span it became. -/
structure Record where
  fromSpan : ISpan
  toSpan : ISpan

/-- `[first, reach)` of the `from` chain, mapped onto the `to` span at the same offset. -/
def Record.map (r : Record) (chain : String) (first reach : ℕ) : Outcome Empty (Option ISpan) :=
  match r.fromSpan.overlap chain first reach with
  | none => return none
  | some (lo, hi) => do
      let offset ← Outcome.natSub lo r.fromSpan.first
      let first ← addU64 r.toSpan.first offset
      let width ← Outcome.natSub hi lo
      return some ⟨r.toSpan.chain, first, width⟩

/-- One more run, joined to the last where it begins at its end. -/
def push (out : List Run) (run : Run) : Outcome Empty (List Run) :=
  match out.getLast? with
  | some last =>
      if last.origin = run.origin ∧ Run.reach last = run.start then do
        let width ← addU64 last.width run.width
        return out.dropLast ++ [{ last with width }]
      else return out ++ [run]
  | none => return out ++ [run]

/-- The first record that covers an ordinal of a chain. -/
def covering (records : List Record) (chain : String) (cursor : ℕ) : Option Record :=
  records.find? fun r => (r.fromSpan.overlap chain cursor (cursor + 1)).isSome

/-- Where the records of a chain begin past an ordinal. -/
def firstsPast (records : List Record) (chain : String) (cursor : ℕ) : List ℕ :=
  records.filterMap fun r =>
    if r.fromSpan.chain = chain ∧ cursor < r.fromSpan.first then some r.fromSpan.first else none

/-- Where the piece of a run that begins at an ordinal ends. -/
def pieceEnd (records : List Record) (run : Run) (cursor : ℕ) : ℕ :=
  match covering records (contentChain run.origin) cursor with
  | some r => min r.fromSpan.reach (Run.reach run)
  | none =>
      min ((firstsPast records (contentChain run.origin) cursor).min?.getD (Run.reach run)) (Run.reach run)

/-- The piece of a run that begins at an ordinal, mapped where a record covers it. -/
def piece (records : List Record) (run : Run) (cursor : ℕ) : Outcome Empty Run := do
  let stop := pieceEnd records run cursor
  let width ← Outcome.natSub stop cursor
  let became ←
    match covering records (contentChain run.origin) cursor with
    | some r => r.map (contentChain run.origin) cursor stop
    | none => pure none
  let mapped : Option Run := do
    let span ← became
    let document ← span.document
    let origin ← parseAddress document
    return ⟨origin, span.first, width⟩
  return mapped.getD ⟨run.origin, cursor, width⟩

section

variable {records : List Record} {run : Run} {chain : String} {cursor : ℕ}

theorem overlap_isSome_iff {s : ISpan} {first reach : ℕ} :
    (s.overlap chain first reach).isSome = true ↔ s.chain = chain ∧ max s.first first < min s.reach reach := by
  rw [ISpan.overlap]
  by_cases hchain : s.chain = chain
  · rw [if_neg (not_not.2 hchain)]
    show Option.isSome (if _ < _ then _ else _) = true ↔ _
    split <;> simp_all
  · simp [hchain]

theorem covering_eq_some {r : Record} (h : covering records chain cursor = some r) :
    r ∈ records ∧ r.fromSpan.chain = chain ∧ r.fromSpan.first ≤ cursor ∧ cursor < r.fromSpan.reach := by
  have hfound := List.find?_some h
  obtain ⟨hchain, hlt⟩ := overlap_isSome_iff.1 hfound
  refine ⟨List.mem_of_find?_eq_some h, hchain, ?_, ?_⟩ <;> omega

theorem mem_firstsPast {n : ℕ} : n ∈ firstsPast records chain cursor ↔
    ∃ r ∈ records, r.fromSpan.chain = chain ∧ cursor < r.fromSpan.first ∧ r.fromSpan.first = n := by
  simp [firstsPast, List.mem_filterMap, and_assoc]

theorem lt_pieceEnd (h : cursor < Run.reach run) : cursor < pieceEnd records run cursor := by
  rw [pieceEnd]
  split
  · next r hr =>
    have := (covering_eq_some hr).2.2.2
    omega
  · next hr =>
    cases hmin : (firstsPast records (contentChain run.origin) cursor).min? with
    | none => simpa using h
    | some n =>
      obtain ⟨r, -, -, hlt, rfl⟩ := mem_firstsPast.1 (List.min?_mem hmin)
      rw [Option.getD_some]
      omega

end

/-- A run walked from an ordinal, its pieces pushed one after another. -/
def walk (records : List Record) (run : Run) (cursor : ℕ) (out : List Run) : Outcome Empty (List Run) :=
  if _h : cursor < Run.reach run then do
    let piece ← piece records run cursor
    let out ← push out piece
    walk records run (pieceEnd records run cursor) out
  else return out
termination_by Run.reach run - cursor
decreasing_by
  have hlt : cursor < pieceEnd records run cursor := lt_pieceEnd _h
  omega

/-- A state mapped through some records: the runs a write of it sends. -/
def mapped (state : List Run) (records : List Record) : Outcome Empty (List Run) :=
  state.foldlM (fun out run => walk records run run.start out) []

/-- The chain goes on from the spelling of a document whose trunk is `d`. -/
def ISpan.Under (s : ISpan) (d : Address) : Prop :=
  ∃ doc, doc.level = .document ∧ (∃ rest, s.chain = render doc ++ "." ++ rest) ∧ d = trunkOf doc

namespace Record

/-- The `from` span holds an address. -/
def Covers (r : Record) (p : Address × ℕ) : Prop :=
  r.fromSpan.chain = contentChain p.1 ∧ r.fromSpan.first ≤ p.2 ∧ p.2 < r.fromSpan.first + r.fromSpan.width

/-- The document of the `to` span has 64-bit components. -/
def Spelled (r : Record) : Prop := ∃ d, r.toSpan.Under d ∧ ∀ n ∈ d.comps, n < 2 ^ 64

/-- The ordinal an ordinal of the `from` span became. -/
def image (r : Record) (n : ℕ) : ℕ := r.toSpan.first + (n - r.fromSpan.first)

end Record

/-- What an address is mapped to: what a record that covers it made of it, or itself. -/
inductive Image (records : List Record) (p : Address × ℕ) : Address × ℕ → Prop
  | mapped {r : Record} {d : Address} (hr : r ∈ records) (hcovers : r.Covers p) (hunder : r.toSpan.Under d) :
      Image records p (d, r.image p.2)
  | kept (hnone : ∀ r ∈ records, ¬ r.Covers p) : Image records p p

theorem image_iff {records : List Record} {p q : Address × ℕ} : Image records p q ↔
    (∃ r ∈ records, r.Covers p ∧ r.toSpan.Under q.1 ∧ q.2 = r.image p.2) ∨ (∀ r ∈ records, ¬ r.Covers p) ∧ q = p := by
  constructor
  · rintro (⟨hr, hcovers, hunder⟩ | hnone)
    · exact .inl ⟨_, hr, hcovers, hunder, rfl⟩
    · exact .inr ⟨hnone, rfl⟩
  · obtain ⟨d, n⟩ := q
    rintro (⟨r, hr, hcovers, hunder, rfl⟩ | ⟨hnone, rfl⟩)
    · exact .mapped hr hcovers hunder
    · exact .kept hnone

/-- No address is covered twice. -/
def Apart (records : List Record) : Prop := records.Pairwise fun r r' => ∀ p, r.Covers p → ¬ r'.Covers p

/-- No run ends past the greatest ordinal. -/
def Within (l : List Run) : Prop := ∀ s ∈ l, s.start + s.width ≤ u64Max

section

variable {records : List Record} {run : Run} {cursor : ℕ} {out : List Run}

theorem ISpan.Under.document {s : ISpan} {d : Address} (h : s.Under d) : s.document = some (render d) := by
  obtain ⟨doc, hdoc, ⟨rest, hrest⟩, rfl⟩ := h
  have hgoes : s.chain ++ "." ++ Nat.repr s.first = render doc ++ "." ++ (rest ++ "." ++ Nat.repr s.first) := by
    rw [hrest]
    simp only [String.append_assoc]
  rw [ISpan.document, hgoes]
  exact documentOfText_under hdoc _

theorem ISpan.Under.unique {s : ISpan} {d d' : Address} (h : s.Under d) (h' : s.Under d') : d = d' := by
  have htext : render d = render d' := Option.some_inj.1 (h.document.symm.trans h'.document)
  exact Address.ext (Identity.dotted_injective d.tumbler.nonempty d'.tumbler.nonempty (String.ofList_injective htext))

theorem image_unique (h : Apart records) {p q q' : Address × ℕ} (hq : Image records p q) (hq' : Image records p q') :
    q = q' := by
  cases hq with
  | @mapped r d hr hcovers hunder =>
    cases hq' with
    | @mapped r' d' hr' hcovers' hunder' =>
      have hsame : r = r' := by
        by_contra hne
        have : Std.Symm fun r r' : Record => ∀ p, r.Covers p → ¬ r'.Covers p := ⟨fun _ _ h p hp hp' => h p hp' hp⟩
        exact h.forall hr hr' hne p hcovers hcovers'
      subst hsame
      rw [hunder.unique hunder']
    | kept hnone => exact absurd hcovers (hnone r hr)
  | kept hnone =>
    cases hq' with
    | mapped hr' hcovers' _ => exact absurd hcovers' (hnone _ hr')
    | kept _ => rfl

theorem Image.perm {records' : List Record} (h : records'.Perm records) {p q : Address × ℕ} (hq : Image records p q) :
    Image records' p q := by
  cases hq with
  | mapped hr hcovers hunder => exact .mapped (h.mem_iff.2 hr) hcovers hunder
  | kept hnone => exact .kept fun r hr => hnone r (h.mem_iff.1 hr)

theorem pieceEnd_le (records : List Record) (run : Run) (cursor : ℕ) : pieceEnd records run cursor ≤ Run.reach run := by
  rw [pieceEnd]
  split <;> exact min_le_right ..

/-- What covers a piece's first position covers all of it. -/
theorem covers_piece {r : Record} (h : covering records (contentChain run.origin) cursor = some r) {n : ℕ}
    (hn : cursor ≤ n) (hend : n < pieceEnd records run cursor) : r.Covers (run.origin, n) := by
  obtain ⟨-, hchain, hfirst, -⟩ := covering_eq_some h
  rw [pieceEnd, h] at hend
  have hreach : n < r.fromSpan.reach := hend.trans_le (min_le_left ..)
  exact ⟨hchain, hfirst.trans hn, hreach.trans_le (min_le_left ..)⟩

/-- Where nothing covers a piece's first position nothing covers any of it. -/
theorem not_covers_piece (h : covering records (contentChain run.origin) cursor = none) {n : ℕ} (hn : cursor ≤ n)
    (hend : n < pieceEnd records run cursor) : ∀ r ∈ records, ¬ r.Covers (run.origin, n) := by
  intro r hr ⟨hchain, hfirst, hlast⟩
  have hmax : n < u64Max := (hend.trans_le (pieceEnd_le ..)).trans_le (min_le_right ..)
  by_cases hpast : cursor < r.fromSpan.first
  · -- the record begins past the cursor, and the piece ends there at the latest
    have hmem : r.fromSpan.first ∈ firstsPast records (contentChain run.origin) cursor :=
      mem_firstsPast.2 ⟨r, hr, hchain, hpast, rfl⟩
    rw [pieceEnd, h] at hend
    cases hmin : (firstsPast records (contentChain run.origin) cursor).min? with
    | none =>
      rw [List.min?_eq_none_iff.1 hmin] at hmem
      exact absurd hmem List.not_mem_nil
    | some m =>
      have hle : m ≤ r.fromSpan.first := (List.min?_eq_some_iff.1 hmin).2 _ hmem
      simp only [hmin, Option.getD_some] at hend
      omega
  · have hnone := List.find?_eq_none.1 h r hr
    apply hnone
    rw [overlap_isSome_iff]
    refine ⟨hchain, ?_⟩
    have hreach : cursor < r.fromSpan.reach := by
      rw [ISpan.reach]
      omega
    omega

/-- A piece is the image of what it was cut from. -/
theorem piece_spec (hspelled : ∀ r ∈ records, r.Spelled) (h : cursor < Run.reach run)
    (himage : ∀ n, cursor ≤ n → n < pieceEnd records run cursor → ∀ q, Image records (run.origin, n) q → q.2 < u64Max) :
    ∃ p, piece records run cursor = .ok p ∧ p.width = pieceEnd records run cursor - cursor ∧
      p.start + p.width ≤ u64Max ∧
      List.Forall₂ (Image records) (Stretch.numbers ⟨run.origin, cursor, p.width⟩) p.numbers := by
  have hlt : cursor < pieceEnd records run cursor := lt_pieceEnd h
  cases hcovering : covering records (contentChain run.origin) cursor with
  | none =>
    refine ⟨⟨run.origin, cursor, pieceEnd records run cursor - cursor⟩, ?_, rfl, ?_, ?_⟩
    · rw [piece, hcovering, Outcome.natSub_of_le hlt.le]
      rfl
    · have hle := (pieceEnd_le records run cursor).trans (min_le_right ..)
      show cursor + (pieceEnd records run cursor - cursor) ≤ u64Max
      omega
    · refine Stretch.forall₂_numbers fun k hk => ?_
      change k < pieceEnd records run cursor - cursor at hk
      exact .kept (not_covers_piece hcovering (Nat.le_add_right ..) (by omega))
  | some r =>
    obtain ⟨hr, hchain, hfirst, hreach⟩ := covering_eq_some hcovering
    obtain ⟨d, hd, hfits⟩ := hspelled r hr
    have hcovers : ∀ n, cursor ≤ n → n < pieceEnd records run cursor → r.Covers (run.origin, n) := fun n hn hend =>
      covers_piece hcovering hn hend
    -- the greatest position's image bounds the others
    have hlast : r.image (pieceEnd records run cursor - 1) < u64Max := by
      have hle : cursor ≤ pieceEnd records run cursor - 1 := by omega
      have hend : pieceEnd records run cursor - 1 < pieceEnd records run cursor := by omega
      exact himage _ hle hend _ (.mapped hr (hcovers _ hle hend) hd)
    have hoverlap : r.fromSpan.overlap (contentChain run.origin) cursor (pieceEnd records run cursor) =
        some (cursor, pieceEnd records run cursor) := by
      have hend : pieceEnd records run cursor ≤ r.fromSpan.reach := by
        rw [pieceEnd, hcovering]
        exact min_le_left ..
      rw [ISpan.overlap, if_neg (not_not.2 hchain)]
      show (if max _ _ < min _ _ then _ else _) = _
      rw [max_eq_right hfirst, min_eq_right hend, if_pos hlt]
    refine ⟨⟨d, r.image cursor, pieceEnd records run cursor - cursor⟩, ?_, rfl, ?_, ?_⟩
    · have hadd : addU64 r.toSpan.first (cursor - r.fromSpan.first) = .ok (r.image cursor) := by
        rw [addU64, if_pos]
        · rfl
        · simp only [Record.image] at hlast
          omega
      have hmap : r.map (contentChain run.origin) cursor (pieceEnd records run cursor) =
          .ok (some ⟨r.toSpan.chain, r.image cursor, pieceEnd records run cursor - cursor⟩) := by
        rw [Record.map, hoverlap]
        simp only [Outcome.natSub_of_le hfirst, Outcome.natSub_of_le hlt.le, hadd, Outcome.ok_bind, Outcome.pure_eq]
      have htext : (⟨r.toSpan.chain, r.image cursor, pieceEnd records run cursor - cursor⟩ : ISpan).document =
          some (render d) := ISpan.Under.document hd
      have hparse : parseAddress (render d) = some d := parseAddress_render hfits
      rw [piece, hcovering, Outcome.natSub_of_le hlt.le, Outcome.ok_bind]
      simp only [hmap, Outcome.ok_bind, Option.bind_eq_bind, Option.bind_some, htext, hparse]
      rfl
    · simp only [Record.image] at hlast ⊢
      omega
    · refine Stretch.forall₂_numbers fun k hk => ?_
      change k < pieceEnd records run cursor - cursor at hk
      have hk' : r.image cursor + k = r.image (cursor + k) := by
        simp only [Record.image]
        omega
      rw [hk']
      exact .mapped hr (hcovers _ (Nat.le_add_right ..) (by omega)) hd

theorem Within.join (h : Within out) (hrun : run.start + run.width ≤ u64Max) : Within (Stretch.join out run) := by
  obtain rfl | ⟨front, last, rfl⟩ := List.eq_nil_or_concat' out
  · simpa [Within] using hrun
  · by_cases hadj : last.Adjoins run
    · rw [Stretch.join_concat_of_adjoins hadj]
      intro s hs
      rcases List.mem_append.1 hs with hs | hs
      · exact h s (List.mem_append_left _ hs)
      · rw [List.mem_singleton.1 hs]
        show last.start + (last.width + run.width) ≤ u64Max
        rw [← Nat.add_assoc, hadj.2]
        exact hrun
    · rw [Stretch.join_concat_of_not_adjoins hadj, List.append_cons]
      intro s hs
      rcases List.mem_append.1 hs with hs | hs
      · exact h s hs
      · rw [List.mem_singleton.1 hs]
        exact hrun

/-- Within the range a run is pushed as a stretch is joined. -/
theorem push_eq (h : Within out) (hrun : run.start + run.width ≤ u64Max) : push out run = .ok (Stretch.join out run) := by
  obtain rfl | ⟨front, last, rfl⟩ := List.eq_nil_or_concat' out
  · rfl
  · have hlast : last.start + last.width ≤ u64Max := h last (by simp)
    have hreach : Run.reach last = last.start + last.width := min_eq_left hlast
    rw [push, Stretch.join, List.getLast?_concat]
    by_cases hadj : last.Adjoins run
    · have hwidth : last.width + run.width ≤ u64Max := by
        have := hadj.2
        omega
      have hcond : last.origin = run.origin ∧ Run.reach last = run.start := ⟨hadj.1, hreach.trans hadj.2⟩
      simp only [if_pos hadj, if_pos hcond, addU64, if_pos hwidth, Outcome.ok_bind, Outcome.pure_eq]
      rfl
    · have hcond : ¬ (last.origin = run.origin ∧ Run.reach last = run.start) := fun hcond =>
        hadj ⟨hcond.1, hreach.symm.trans hcond.2⟩
      simp only [if_neg hadj, if_neg hcond, Outcome.pure_eq]

/-- Some pieces, none empty and none past the greatest ordinal, that are the image of some addresses. -/
structure Pieces (records : List Record) (ps : List (Address × ℕ)) (pieces : List Run) : Prop where
  pos : ∀ s ∈ pieces, 0 < s.width
  within : Within pieces
  image : List.Forall₂ (Image records) ps (Stretch.positions pieces)

namespace Pieces

theorem nil (records : List Record) : Pieces records [] [] :=
  ⟨fun _ h => absurd h List.not_mem_nil, fun _ h => absurd h List.not_mem_nil, .nil⟩

theorem append {ps ps' : List (Address × ℕ)} {l l' : List Run} (h : Pieces records ps l) (h' : Pieces records ps' l') :
    Pieces records (ps ++ ps') (l ++ l') := by
  refine ⟨fun s hs => ?_, fun s hs => ?_, ?_⟩
  · exact (List.mem_append.1 hs).elim (h.pos s) (h'.pos s)
  · exact (List.mem_append.1 hs).elim (h.within s) (h'.within s)
  · rw [Stretch.positions_append]
    exact List.rel_append h.image h'.image

theorem within_join {ps : List (Address × ℕ)} {l : List Run} (h : Pieces records ps l) (hout : Within out) :
    Within (l.foldl Stretch.join out) := by
  have hall := h.within
  clear h
  induction l generalizing out with
  | nil => exact hout
  | cons s l ih =>
    rw [List.foldl_cons]
    exact ih (hout.join (hall s List.mem_cons_self)) fun s' hs' => hall s' (List.mem_cons_of_mem _ hs')

end Pieces

/-- The numbers of a run from a cursor, cut at another. -/
theorem numbers_cut {origin : Address} {a b c : ℕ} (hab : a ≤ b) (hbc : b ≤ c) :
    Stretch.numbers ⟨origin, a, c - a⟩ = Stretch.numbers ⟨origin, a, b - a⟩ ++ Stretch.numbers ⟨origin, b, c - b⟩ := by
  have hcut := Stretch.numbers_append ⟨origin, a, b - a⟩ (c - b)
  have hb : a + (b - a) = b := by omega
  have hc : b - a + (c - b) = c - a := by omega
  simpa only [Stretch.widen, hb, hc] using hcut

/-- A run walked from a cursor pushes pieces that are the image of the rest of it. -/
theorem walk_spec (hspelled : ∀ r ∈ records, r.Spelled) (hcursor : run.start ≤ cursor)
    (himage : ∀ n, run.start ≤ n → n < Run.reach run → ∀ q, Image records (run.origin, n) q → q.2 < u64Max)
    (hout : Within out) :
    ∃ pieces, walk records run cursor out = .ok (pieces.foldl Stretch.join out) ∧
      Pieces records (Stretch.numbers ⟨run.origin, cursor, Run.reach run - cursor⟩) pieces := by
  -- by strong induction on what is left of the run
  induction hleft : Run.reach run - cursor using Nat.strong_induction_on generalizing cursor out with
  | _ left ih =>
    subst hleft
    by_cases h : cursor < Run.reach run
    · have hlt : cursor < pieceEnd records run cursor := lt_pieceEnd h
      have hle : pieceEnd records run cursor ≤ Run.reach run := pieceEnd_le ..
      obtain ⟨p, hp, hwidth, hwithin, hnumbers⟩ := piece_spec hspelled h fun n hn hend =>
        himage n (hcursor.trans hn) (hend.trans_le hle)
      have hone : Pieces records (Stretch.numbers ⟨run.origin, cursor, pieceEnd records run cursor - cursor⟩) [p] := by
        refine ⟨fun s hs => ?_, fun s hs => ?_, ?_⟩
        · rw [List.mem_singleton.1 hs]
          omega
        · rw [List.mem_singleton.1 hs]
          exact hwithin
        · rw [Stretch.positions_cons, Stretch.positions_nil, List.append_nil, ← hwidth]
          exact hnumbers
      obtain ⟨pieces, hwalk, hpieces⟩ := ih (Run.reach run - pieceEnd records run cursor) (by omega)
        (hcursor.trans hlt.le) (hout.join hwithin) rfl
      refine ⟨p :: pieces, ?_, ?_⟩
      · rw [walk, dif_pos h, hp, Outcome.ok_bind, push_eq hout hwithin, Outcome.ok_bind, hwalk]
        rfl
      · rw [numbers_cut hlt.le hle]
        exact hone.append hpieces
    · have hempty : Run.reach run - cursor = 0 := by omega
      refine ⟨[], ?_, ?_⟩
      · rw [walk, dif_neg h]
        rfl
      · rw [hempty]
        exact .nil records

/-- A state's runs are walked into pieces that are the image of its addresses. -/
theorem mapped_spec {state : List Run} (hspelled : ∀ r ∈ records, r.Spelled)
    (hstate : ∀ p ∈ Stretch.positions state, p.2 < u64Max)
    (himage : ∀ p ∈ Stretch.positions state, ∀ q, Image records p q → q.2 < u64Max) (hout : Within out) :
    ∃ pieces, state.foldlM (fun out run => walk records run run.start out) out = .ok (pieces.foldl Stretch.join out) ∧
      Pieces records (Stretch.positions state) pieces := by
  induction state generalizing out with
  | nil => exact ⟨[], rfl, .nil records⟩
  | cons run state ih =>
    simp only [Stretch.positions_cons, List.forall_mem_append] at hstate himage
    have hreach : Run.reach run - run.start = run.width := by
      rw [Run.reach]
      by_cases hwidth : run.width = 0
      · omega
      · have hlast := hstate.1 (run.origin, run.start + run.width - 1) (Stretch.mem_numbers.2 ⟨rfl, by omega, by omega⟩)
        have hlast' : run.start + run.width - 1 < u64Max := hlast
        omega
    have hrun : ∀ n, run.start ≤ n → n < Run.reach run → ∀ q, Image records (run.origin, n) q → q.2 < u64Max := by
      intro n hn hend
      have hle : Run.reach run ≤ run.start + run.width := min_le_left ..
      exact himage.1 (run.origin, n) (Stretch.mem_numbers.2 ⟨rfl, hn, hend.trans_le hle⟩)
    obtain ⟨front, hfront, hpieces⟩ := walk_spec hspelled (le_refl run.start) hrun hout
    obtain ⟨back, hback, hpieces'⟩ := ih hstate.2 himage.2 (hpieces.within_join hout)
    refine ⟨front ++ back, ?_, ?_⟩
    · rw [List.foldlM_cons, hfront, Outcome.ok_bind, hback, List.foldl_append]
    · rw [hreach] at hpieces
      exact hpieces.append hpieces'

/-- **A write through correspondence records maps every position once.** -/
theorem mapped_exact {state : List Run} {records : List Record} (hspelled : ∀ r ∈ records, r.Spelled)
    (hstate : ∀ p ∈ Stretch.positions state, p.2 < u64Max)
    (himage : ∀ p ∈ Stretch.positions state, ∀ q, Image records p q → q.2 < u64Max) :
    ∃ out, mapped state records = .ok out ∧
      List.Forall₂ (Image records) (Stretch.positions state) (Stretch.positions out) ∧
      (out.map Stretch.width).sum = (state.map Stretch.width).sum ∧ Stretch.Parted out ∧
      (Apart records → ∀ state' records', records'.Perm records → Stretch.positions state' = Stretch.positions state →
        mapped state' records' = .ok out) := by
  have hnil : Within [] := fun _ h => absurd h List.not_mem_nil
  obtain ⟨pieces, hmapped, hpieces⟩ := mapped_spec hspelled hstate himage hnil
  have hpositions : Stretch.positions (pieces.foldl Stretch.join []) = Stretch.positions pieces :=
    Stretch.positions_foldl_join pieces []
  refine ⟨pieces.foldl Stretch.join [], hmapped, ?_, ?_, ?_, ?_⟩
  · rw [hpositions]
    exact hpieces.image
  · rw [← Stretch.length_positions, ← Stretch.length_positions, hpositions, hpieces.image.length_eq]
  · exact Stretch.parted_foldl_join pieces List.isChain_nil
  · intro hapart state' records' hperm hsame
    have hspelled' : ∀ r ∈ records', r.Spelled := fun r hr => hspelled r (hperm.mem_iff.1 hr)
    have hbounded : ∀ p ∈ Stretch.positions state', ∀ q, Image records' p q → q.2 < u64Max :=
      fun p hp q hq => himage p (hsame ▸ hp) q (hq.perm hperm.symm)
    obtain ⟨pieces', hmapped', hpieces'⟩ := mapped_spec hspelled' (hsame ▸ hstate) hbounded hnil
    have himage' : List.Forall₂ (Image records) (Stretch.positions state) (Stretch.positions pieces') := by
      rw [← hsame]
      exact hpieces'.image.imp fun _ _ hq => hq.perm hperm.symm
    have hunique : Relator.RightUnique (Image records) := fun _ _ _ hq hq' => image_unique hapart hq hq'
    have heq : Stretch.positions pieces' = Stretch.positions pieces := hunique.forall₂ himage' hpieces.image
    rw [mapped, hmapped', Stretch.foldl_join_nil hpieces'.pos, heq, Stretch.foldl_join_nil hpieces.pos]

end

section

def wordsOne : Address := ⟨⟨[1, 0, 1, 0, 1], by decide⟩, .document, by decide⟩

def wordsTwo : Address := ⟨⟨[1, 0, 1, 0, 2], by decide⟩, .document, by decide⟩

/-- A document no 64-bit component spells. -/
def wordsFar : Address := ⟨⟨[1, 0, 1, 0, 2 ^ 64], by decide⟩, .document, by decide⟩

/-- One position of the first document's, and what it became. -/
def became (n : ℕ) (document : Address) (m : ℕ) : Record :=
  ⟨⟨contentChain wordsOne, n, 1⟩, ⟨contentChain document, m, 1⟩⟩

theorem mapped_exact_became : ∃ out, mapped [⟨wordsOne, 1, 3⟩] [became 2 wordsTwo 5] = .ok out ∧
    List.Forall₂ (Image [became 2 wordsTwo 5]) (Stretch.positions [⟨wordsOne, 1, 3⟩]) (Stretch.positions out) ∧
    (out.map Stretch.width).sum = 3 ∧ Stretch.Parted out := by
  have hspelled : ∀ r ∈ [became 2 wordsTwo 5], r.Spelled := by
    intro r hr
    rw [List.mem_singleton.1 hr]
    exact ⟨wordsTwo, ⟨wordsTwo, rfl, ⟨"0.1", rfl⟩, rfl⟩, by decide⟩
  have hstate : ∀ p ∈ Stretch.positions [(⟨wordsOne, 1, 3⟩ : Run)], p.2 < u64Max := by decide
  have himage : ∀ p ∈ Stretch.positions [(⟨wordsOne, 1, 3⟩ : Run)], ∀ q,
      Image [became 2 wordsTwo 5] p q → q.2 < u64Max := by
    intro p hp q hq
    cases hq with
    | @mapped r d hr hcovers hunder =>
      rw [List.mem_singleton.1 hr] at hcovers ⊢
      have hlast : p.2 < 2 + 1 := hcovers.2.2
      show 5 + (p.2 - 2) < 2 ^ 64 - 1
      omega
    | kept _ => exact hstate p hp
  obtain ⟨out, hmapped, hpositions, hwidth, hparted, -⟩ := mapped_exact hspelled hstate himage
  exact ⟨out, hmapped, hpositions, hwidth, hparted⟩

/-- The position at the greatest ordinal is dropped, two images there are counted on past it, and what became
of a document the client cannot spell is kept as it was. -/
theorem mapped_not_exact :
    (mapped [⟨wordsOne, u64Max, 1⟩] [] = .ok [] ∧
      ¬ List.Forall₂ (Image []) (Stretch.positions [⟨wordsOne, u64Max, 1⟩]) (Stretch.positions [])) ∧
    (mapped [⟨wordsOne, 1, 2⟩] [became 1 wordsTwo u64Max, became 2 wordsTwo u64Max] = .ok [⟨wordsTwo, u64Max, 2⟩] ∧
      ¬ List.Forall₂ (Image [became 1 wordsTwo u64Max, became 2 wordsTwo u64Max])
        (Stretch.positions [⟨wordsOne, 1, 2⟩]) (Stretch.positions [⟨wordsTwo, u64Max, 2⟩])) ∧
    (mapped [⟨wordsOne, 1, 1⟩] [became 1 wordsFar 1] = .ok [⟨wordsOne, 1, 1⟩] ∧
      ¬ List.Forall₂ (Image [became 1 wordsFar 1]) (Stretch.positions [⟨wordsOne, 1, 1⟩])
        (Stretch.positions [⟨wordsOne, 1, 1⟩])) := by
  refine ⟨⟨?_, ?_⟩, ⟨?_, ?_⟩, ?_, ?_⟩
  · show walk [] ⟨wordsOne, u64Max, 1⟩ u64Max [] >>= _ = _
    rw [walk, dif_neg (by decide)]
    rfl
  · intro h
    cases h
  · have hfirst : piece [became 1 wordsTwo u64Max, became 2 wordsTwo u64Max] ⟨wordsOne, 1, 2⟩ 1 =
        .ok ⟨wordsTwo, u64Max, 1⟩ := rfl
    have hsecond : piece [became 1 wordsTwo u64Max, became 2 wordsTwo u64Max] ⟨wordsOne, 1, 2⟩ 2 =
        .ok ⟨wordsTwo, u64Max, 1⟩ := rfl
    have hcut : pieceEnd [became 1 wordsTwo u64Max, became 2 wordsTwo u64Max] ⟨wordsOne, 1, 2⟩ 1 = 2 := rfl
    have hstop : pieceEnd [became 1 wordsTwo u64Max, became 2 wordsTwo u64Max] ⟨wordsOne, 1, 2⟩ 2 = 3 := rfl
    have hpush : push [⟨wordsTwo, u64Max, 1⟩] ⟨wordsTwo, u64Max, 1⟩ = .ok [⟨wordsTwo, u64Max, 2⟩] := rfl
    show walk _ ⟨wordsOne, 1, 2⟩ 1 [] >>= _ = _
    rw [walk, dif_pos (by decide), hfirst, hcut]
    show walk _ ⟨wordsOne, 1, 2⟩ 2 [⟨wordsTwo, u64Max, 1⟩] >>= _ = _
    rw [walk, dif_pos (by decide), hsecond, hstop, Outcome.ok_bind, hpush, Outcome.ok_bind, walk, dif_neg (by decide)]
    rfl
  · intro h
    cases h with
    | cons _ h =>
      cases h with
      | cons h _ =>
        rcases image_iff.1 h with ⟨r, hr, hcovers, -, hordinal⟩ | ⟨-, hkept⟩
        · rcases List.mem_pair.1 hr with rfl | rfl
          · exact absurd hcovers.2.2 (by decide)
          · exact absurd hordinal (by decide)
        · exact absurd hkept (by decide)
  · have hpiece : piece [became 1 wordsFar 1] ⟨wordsOne, 1, 1⟩ 1 = .ok ⟨wordsOne, 1, 1⟩ := rfl
    have hcut : pieceEnd [became 1 wordsFar 1] ⟨wordsOne, 1, 1⟩ 1 = 2 := rfl
    show walk _ ⟨wordsOne, 1, 1⟩ 1 [] >>= _ = _
    rw [walk, dif_pos (by decide), hpiece, hcut]
    show walk _ ⟨wordsOne, 1, 1⟩ 2 [⟨wordsOne, 1, 1⟩] >>= _ = _
    rw [walk, dif_neg (by decide)]
    rfl
  · intro h
    cases h with
    | cons h _ =>
      rcases image_iff.1 h with ⟨r, hr, -, hunder, -⟩ | ⟨hnone, -⟩
      · rw [List.mem_singleton.1 hr] at hunder
        exact absurd hunder.document (by decide)
      · exact hnone _ List.mem_cons_self ⟨rfl, by decide, by decide⟩

end

end Client
