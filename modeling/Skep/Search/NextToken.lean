import Skep.Search.Token

/-!
# The token that follows a phrase

A phrase prefix reads the token after each occurrence of its fixed words off the stored text. It
cuts a window of the text there and takes the first segment the tokenizer's rule keeps; the window
is widened while the segment found reaches its edge, and a segment that stops short of the edge is
taken for whole. The segmenter looks further than that: an apostrophe at the edge ends the word
before it, and goes on with it where a letter follows.

## Main results

- `Search.cutLoop_spec`, `Search.cutLoop_ne` — what the loop returns
- `Search.next_of_tokenize` — what stands at the ordinal after a token
- `Search.reads_iff` — the cut reads the token exactly where no edge divides it
-/

namespace Search

-- The cut

/-- The lookahead the cut starts with. -/
def lookahead : ℕ := 256

/-- The token cut: its range from the unit's start, and its term. -/
structure Next where
  offset : ℕ
  len : ℕ
  term : String
  deriving DecidableEq

variable (T : Tables)

/-- The cut of the text after `past`, in a window of `look` bytes and then in wider ones. -/
def cutLoop (rest : List UInt8) (past : ℕ) : ℕ → ℕ → Outcome Empty (Option Next)
  | 0, _ => .fault
  | fuel + 1, look =>
      let window := rest.take look
      match (Utf8.chunks window).head? with
      | none => return none
      | some chunk =>
          match (segments T chunk.valid).head? with
          | none => return none
          | some segment =>
              if chunk.valid.length ≤ segment.offset + segment.len ∧ window.length < rest.length ∧
                  window.length ≤ chunk.valid.length + 4 then cutLoop rest past fuel (look * 2)
              else do
                Outcome.require (segment.len < 2 ^ 32)
                return some ⟨past + segment.offset, segment.len, segment.term⟩

/-- The token after a fixed occurrence that ends at `past`. -/
def nextToken (u : Unit) (past : ℕ) : Outcome Empty (Option Next) :=
  if past = 0 then return none
  else
    match u.itemAt (past - 1) with
    | none => return none
    | some index =>
        match u.items[index]? with
        | some (.text start bytes) => do
            Outcome.require (past - (start - u.start) ≤ bytes.length)
            let rest := bytes.drop (past - (start - u.start))
            cutLoop T rest past (rest.length + 1) lookahead
        | _ => return none

-- The claim

/-- The last boundary of a character in the `k`th window over a text. -/
def edge (text : List UInt8) (k : ℕ) : ℕ := Utf8.validLen (text.take (lookahead * 2 ^ k))

/-- What the segmenter does on one stretch: its words are ranges of whole characters, in order; a
word's end is a boundary, where it may start afresh; and a cut changes no word that ends before it. -/
structure Segmenter (text : List UInt8) : Prop where
  word : ∀ w ∈ T.wordIndices text, w.2 ≠ [] ∧ IsCharBoundary text w.1 ∧ IsCharBoundary text (wordEnd w)
  ordered : (T.wordIndices text).Pairwise fun x y => wordEnd x ≤ y.1
  restart : ∀ pre w post, T.wordIndices text = pre ++ w :: post →
    T.wordIndices (text.drop (wordEnd w)) = post.map fun x => (x.1 - wordEnd w, x.2)
  cut : ∀ w ∈ T.wordIndices text, ∀ k,
    CutStable T (text.drop (wordEnd w)) (edge (text.drop (wordEnd w)) k)

/-- The valid stretches of a unit. -/
def Unit.stretches (u : Unit) : List (List UInt8) := u.items.flatMap fun item => match item with
  | .text _ bytes => (Utf8.chunks bytes).map Utf8.Chunk.valid
  | .gap _ _ _ => []

/-- What is left of the stretch that a token ends in. -/
def Unit.stretchAfter (u : Unit) (past : ℕ) : List UInt8 :=
  match u.textAt (past - 1) with
  | some (first, bytes) =>
      (bytes.drop (past - first)).take (Utf8.validLen (bytes.drop (past - first)))
  | none => []

/-- Two tokens stand in one stretch of one item, with no gap and no invalid byte between. -/
def SameStretch (u : Unit) (t t' : Token) : Prop :=
  (∃ pre start bytes post, u.items = pre ++ .text start bytes :: post ∧ widths pre ≤ t.offset ∧
    t'.offset + t'.len ≤ widths pre + bytes.length) ∧
  ∀ p, t.offset ≤ p → p < t'.offset + t'.len → ∃ c, u.cells[p]? = some c ∧ c.byte?.isSome

def Token.next (t : Token) : Next := ⟨t.offset, t.len, t.term⟩

/-- The cut after a token is none, or the token at the next ordinal; it is that token where it
begins in the same stretch inside the lookahead; and it is none where a break comes before any
further token. -/
structure Reads (u : Unit) (tokens : List Token) (t : Token) : Prop where
  reads : ∃ next, nextToken T u (t.offset + t.len) = .ok next ∧
    (∀ n, next = some n → ∃ t' ∈ tokens, t'.ordinal = t.ordinal + 1 ∧ n = t'.next) ∧
    (∀ t' ∈ tokens, t'.ordinal = t.ordinal + 1 → SameStretch u t t' →
      t'.offset < t.offset + t.len + lookahead → next = some t'.next) ∧
    ((∀ t' ∈ tokens, t.offset + t.len ≤ t'.offset → ¬ SameStretch u t t') → next = none)

/-- No edge of the lookahead divides the first segment kept, where it begins inside the first: cut
at any edge before the segment's end, the text keeps a segment that reaches the edge. -/
def CutsWhole (text : List UInt8) : Prop :=
  ∀ s, (segments T text).head? = some s → s.offset < lookahead → ∀ k, edge text k < s.offset + s.len →
    ∃ s', (segments T (text.take (edge text k))).head? = some s' ∧ edge text k ≤ s'.offset + s'.len

-- The loop

/-- A text and what follows it: no character goes on after it. -/
structure Stretch (text rest : List UInt8) : Prop where
  valid : Utf8.Valid text
  rest_eq : ∃ more, rest = text ++ more ∧ ∀ r, (Utf8.roles 0 more).head? = some r → r = .stray

/-- The valid part of a window is the text up to the window's edge. -/
theorem Stretch.validLen_take {text rest : List UInt8} (h : Stretch text rest) (n : ℕ) :
    Utf8.validLen (rest.take n) = Utf8.validLen (text.take n) := by
  obtain ⟨more, rfl, hmore⟩ := h.rest_eq
  by_cases hn : n ≤ text.length
  · rw [List.take_append_of_le_length hn]
  · have hle := (not_le.1 hn).le
    rw [List.take_append, List.take_of_length_le hle, h.valid.validLen_append (Utf8.stray_head_take hmore _),
      h.valid.validLen_eq]

theorem edge_le (text : List UInt8) (n : ℕ) :
    Utf8.validLen (text.take n) ≤ n ∧ Utf8.validLen (text.take n) ≤ text.length := by
  have := Utf8.validLen_le (text.take n)
  rw [List.length_take] at this
  omega

/-- One turn of the loop, where there is anything to read. -/
theorem cutLoop_succ {text rest : List UInt8} (h : Stretch text rest) (hrest : rest ≠ []) {past fuel look : ℕ}
    (hlook : 0 < look) : cutLoop T rest past (fuel + 1) look =
      match (segments T (text.take (Utf8.validLen (text.take look)))).head? with
      | none => .ok none
      | some segment =>
          if Utf8.validLen (text.take look) ≤ segment.offset + segment.len ∧ look < rest.length ∧
              look ≤ Utf8.validLen (text.take look) + 4 then cutLoop T rest past fuel (look * 2)
          else do
            Outcome.require (segment.len < 2 ^ 32)
            return some ⟨past + segment.offset, segment.len, segment.term⟩ := by
  obtain ⟨c, hc⟩ : ∃ c, c = Utf8.validLen (text.take look) := ⟨_, rfl⟩
  have hle := edge_le text look
  rw [← hc] at hle ⊢
  have hwindow : rest.take look ≠ [] := by
    intro hnil
    rcases List.take_eq_nil_iff.1 hnil with h' | h'
    · omega
    · exact hrest h'
  obtain ⟨chunk, hchunk, hvalid⟩ := Utf8.head_chunks hwindow
  have hval : chunk.valid = text.take c := by
    obtain ⟨more, hmore, -⟩ := h.rest_eq
    rw [hvalid, h.validLen_take, ← hc, List.take_take, min_eq_left hle.1, hmore,
      List.take_append_of_le_length hle.2]
  have hlen : chunk.valid.length = c := by
    rw [hval, List.length_take, min_eq_left hle.2]
  rw [cutLoop, hchunk]
  dsimp only
  rw [hlen, hval]
  cases (segments T (text.take c)).head? with
  | none => rfl
  | some segment =>
    have hiff : (c ≤ segment.offset + segment.len ∧ (rest.take look).length < rest.length ∧
        (rest.take look).length ≤ c + 4) ↔
        (c ≤ segment.offset + segment.len ∧ look < rest.length ∧ look ≤ c + 4) := by
      rw [List.length_take]
      omega
    dsimp only
    simp only [hiff]

theorem cutLoop_nil {past fuel look : ℕ} : cutLoop T [] past (fuel + 1) look = .ok none := by
  rw [cutLoop, List.take_nil]
  rfl

/-- What the segmenter does on what is left of a stretch after a word. -/
structure Rest (text : List UInt8) : Prop where
  nonempty : ∀ w ∈ T.wordIndices text, w.2 ≠ []
  inside : ∀ w ∈ T.wordIndices text, wordEnd w ≤ text.length
  ordered : (T.wordIndices text).Pairwise fun x y => wordEnd x ≤ y.1
  cut : ∀ k, CutStable T text (edge text k)

variable {T}

theorem Rest.end_le {text : List UInt8} (h : Rest T text) {s : Segment}
    (hs : (segments T text).head? = some s) : s.offset + s.len ≤ text.length ∧ 0 < s.len := by
  obtain ⟨pre, w, post, heq, -, hw⟩ := head_segments_eq_some.1 hs
  obtain ⟨h1, h2⟩ := keep_eq_some hw
  have hmem : w ∈ T.wordIndices text := by simp [heq]
  have := List.length_pos_iff.2 (h.nonempty w hmem)
  have := h.inside w hmem
  rw [wordEnd] at this
  omega

/-- A window that does not hold all of the text leaves at most three bytes behind its edge. -/
theorem Stretch.le_edge {text rest : List UInt8} (h : Stretch text rest) {k : ℕ}
    (hk : edge text k < text.length) : lookahead * 2 ^ k ≤ edge text k + 3 := by
  by_cases hn : lookahead * 2 ^ k ≤ text.length
  · exact h.valid.le_validLen_take hn
  · rw [edge, List.take_of_length_le (not_le.1 hn).le, h.valid.validLen_eq] at hk
    exact absurd hk (lt_irrefl _)

theorem Stretch.edge_mono {text rest : List UInt8} (h : Stretch text rest) {j k : ℕ} (hjk : j ≤ k)
    (hk : edge text k < text.length) : edge text j ≤ edge text k := by
  rcases Nat.eq_or_lt_of_le hjk with rfl | hlt
  · exact le_rfl
  · have hle := h.le_edge hk
    have hj := (edge_le text (lookahead * 2 ^ j)).1
    have hpow : lookahead * 2 ^ j * 2 ≤ lookahead * 2 ^ k := by
      rw [Nat.mul_assoc, ← Nat.pow_succ]
      exact Nat.mul_le_mul_left _ (Nat.pow_le_pow_right (by decide) hlt)
    have hpos : 2 ^ j ≥ 1 := Nat.one_le_two_pow
    rw [edge]
    rw [lookahead] at *
    omega

theorem le_length_of_stretch {text rest : List UInt8} (h : Stretch text rest) : text.length ≤ rest.length := by
  obtain ⟨more, rfl, -⟩ := h.rest_eq
  simp

theorem Stretch.rest_ne_nil {text rest : List UInt8} (h : Stretch text rest) {n : ℕ} (hn : n < text.length) :
    rest ≠ [] :=
  List.ne_nil_of_length_pos (lt_of_le_of_lt (Nat.zero_le n) (hn.trans_le (le_length_of_stretch h)))

theorem require_short {s : Segment} (h : s.len < 2 ^ 32) {past : ℕ} : (do
    Outcome.require (s.len < 2 ^ 32)
    return some ⟨past + s.offset, s.len, s.term⟩ : Outcome Empty (Option Next)) =
      .ok (some ⟨past + s.offset, s.len, s.term⟩) := by
  rw [Outcome.require, if_pos h]
  rfl

/-- A segment that reaches an edge the text goes past widens the window. -/
theorem cutLoop_widens {text rest : List UInt8} (h : Stretch text rest) {past fuel k : ℕ}
    (hk : edge text k < text.length) {s : Segment} (hs : (segments T (text.take (edge text k))).head? = some s)
    (hreach : edge text k ≤ s.offset + s.len) :
    cutLoop T rest past (fuel + 1) (lookahead * 2 ^ k) = cutLoop T rest past fuel (lookahead * 2 ^ (k + 1)) := by
  have hlen := le_length_of_stretch h
  have hle := h.le_edge hk
  have hrest := h.rest_ne_nil hk
  have hlook : lookahead * 2 ^ k < text.length := by
    by_contra hn
    rw [edge, List.take_of_length_le (not_lt.1 hn), h.valid.validLen_eq] at hk
    exact lt_irrefl _ hk
  have hpos : 0 < lookahead * 2 ^ k := Nat.mul_pos (by decide) (Nat.two_pow_pos k)
  rw [cutLoop_succ T h hrest hpos]
  rw [edge] at hs hreach hle
  rw [hs]
  dsimp only
  rw [if_pos ⟨hreach, by omega, by omega⟩, Nat.mul_assoc, ← Nat.pow_succ]

/-- Where no edge divides the first segment kept, the loop returns it. -/
theorem cutLoop_whole {text rest : List UInt8} (h : Stretch text rest) (hr : Rest T text) {s : Segment}
    (hs : (segments T text).head? = some s) (hshort : s.len < 2 ^ 32)
    (hwhole : ∀ k, edge text k < s.offset + s.len →
      ∃ s', (segments T (text.take (edge text k))).head? = some s' ∧ edge text k ≤ s'.offset + s'.len)
    {past fuel k : ℕ} (hfuel : rest.length ≤ lookahead * 2 ^ k * 2 ^ fuel) :
    cutLoop T rest past (fuel + 1) (lookahead * 2 ^ k) = .ok (some ⟨past + s.offset, s.len, s.term⟩) := by
  obtain ⟨hend, hpos⟩ := hr.end_le hs
  have hlen := le_length_of_stretch h
  have hrest := h.rest_ne_nil (show s.offset < text.length by omega)
  induction fuel generalizing k with
  | zero =>
    have hall : edge text k = text.length := by
      rw [edge, List.take_of_length_le, h.valid.validLen_eq]
      omega
    have hlook : 0 < lookahead * 2 ^ k := Nat.mul_pos (by decide) (Nat.two_pow_pos k)
    rw [edge] at hall
    rw [cutLoop_succ T h hrest hlook, hall, List.take_length, hs]
    dsimp only
    rw [if_neg (by omega), require_short hshort]
  | succ fuel ih =>
    have hnext : rest.length ≤ lookahead * 2 ^ (k + 1) * 2 ^ fuel := by
      rw [Nat.pow_succ] at hfuel ⊢
      rw [show lookahead * (2 ^ k * 2) * 2 ^ fuel = lookahead * 2 ^ k * (2 ^ fuel * 2) by ring]
      exact hfuel
    by_cases hk : edge text k < s.offset + s.len
    · obtain ⟨s', hs', hreach⟩ := hwhole k hk
      rw [cutLoop_widens h (lt_of_lt_of_le hk hend) hs' hreach]
      exact ih hnext
    · have hcut := head_segments_cut (hr.cut k) hr.ordered hs (not_lt.1 hk)
      have hlook : 0 < lookahead * 2 ^ k := Nat.mul_pos (by decide) (Nat.two_pow_pos k)
      rw [edge] at hcut
      rw [cutLoop_succ T h hrest hlook, hcut]
      dsimp only
      split_ifs with hwide
      · rw [Nat.mul_assoc, ← Nat.pow_succ]
        exact ih hnext
      · exact require_short hshort

/-- Where an edge divides the first segment kept, the loop does not return it. -/
theorem cutLoop_ne {text rest : List UInt8} (h : Stretch text rest) (hr : Rest T text) {s : Segment}
    (hs : (segments T text).head? = some s) {past fuel j k : ℕ} (hjk : j ≤ k)
    (hk : edge text k < s.offset + s.len)
    (hdiv : ∀ s', (segments T (text.take (edge text k))).head? = some s' → s'.offset + s'.len < edge text k) :
    cutLoop T rest past fuel (lookahead * 2 ^ j) ≠ .ok (some ⟨past + s.offset, s.len, s.term⟩) := by
  obtain ⟨hend, hpos⟩ := hr.end_le hs
  have hlen := le_length_of_stretch h
  have hrest := h.rest_ne_nil (show s.offset < text.length by omega)
  induction fuel generalizing j with
  | zero => exact fun h' => nomatch h'
  | succ fuel ih =>
    have hmono := h.edge_mono hjk (lt_of_lt_of_le hk hend)
    have hlook : 0 < lookahead * 2 ^ j := Nat.mul_pos (by decide) (Nat.two_pow_pos j)
    cases hseg : (segments T (text.take (edge text j))).head? with
    | none =>
      rw [edge] at hseg
      rw [cutLoop_succ T h hrest hlook, hseg]
      simp
    | some s' =>
      by_cases hreach : edge text j ≤ s'.offset + s'.len
      · rw [cutLoop_widens h (by omega) hseg hreach]
        apply ih
        rcases Nat.eq_or_lt_of_le hjk with rfl | hlt
        · exact absurd (hdiv s' hseg) (not_lt.2 hreach)
        · exact hlt
      · -- the segment stops short of the edge, and so of the first segment's end
        rw [edge] at hseg hreach hmono
        rw [cutLoop_succ T h hrest hlook, hseg]
        dsimp only
        rw [if_neg fun h' => hreach h'.1]
        intro heq
        obtain ⟨_, -, heq⟩ := Outcome.bind_eq_ok_iff.1 heq
        simp only [Outcome.pure_eq, Outcome.ok.injEq, Option.some.injEq, Next.mk.injEq] at heq
        omega

/-- Where the text keeps no segment, or none that begins inside the first window, the loop returns
none. -/
theorem cutLoop_none (hT : Folds T) {text rest : List UInt8} (h : Stretch text rest) (hr : Rest T text)
    (hs : ∀ s, (segments T text).head? = some s → lookahead ≤ s.offset) {past fuel : ℕ} :
    cutLoop T rest past (fuel + 1) lookahead = .ok none := by
  by_cases hrest : rest = []
  · rw [hrest, cutLoop_nil]
  · have hcut := head_segments_cut_none hT (hr.cut 0) hr.nonempty hr.ordered fun s hs' => by
      have := (edge_le text (lookahead * 2 ^ 0)).1
      have := hs s hs'
      rw [edge]
      omega
    rw [edge, pow_zero, Nat.mul_one] at hcut
    rw [cutLoop_succ T h hrest (by decide), hcut]

-- What follows a token

/-- A segment of a stretch is a word of it, and those after it are the words kept after it. -/
theorem exists_word {text : List UInt8} {j : ℕ} {s : Segment} (h : (segments T text)[j]? = some s) :
    ∃ pre w post, T.wordIndices text = pre ++ w :: post ∧ keep T w = some s ∧
      (segments T text)[j + 1]? = (post.filterMap (keep T)).head? := by
  obtain ⟨hlt, rfl⟩ := List.getElem?_eq_some_iff.1 h
  have hsplit : segments T text = (segments T text).take j ++ (segments T text)[j] ::
      (segments T text).drop (j + 1) := by
    rw [← List.drop_eq_getElem_cons hlt, List.take_append_drop]
  obtain ⟨l, l', heq, hl, hl'⟩ := List.filterMap_eq_append_iff.1 hsplit
  obtain ⟨l₁, w, post, rfl, -, hw, hpost⟩ := List.filterMap_eq_cons_iff.1 hl'
  refine ⟨l ++ l₁, w, post, by rw [heq, List.append_assoc], hw, ?_⟩
  rw [hpost, List.head?_drop]

/-- The segments kept of what is left after a word are those kept after it. -/
theorem head_segments_drop {text : List UInt8} (h : Segmenter T text) {pre post : List (ℕ × List UInt8)}
    {w : ℕ × List UInt8} (heq : T.wordIndices text = pre ++ w :: post) :
    (segments T (text.drop (wordEnd w))).head? =
      (post.filterMap (keep T)).head?.map fun s => { s with offset := s.offset - wordEnd w } := by
  rw [segments, h.restart pre w post heq, List.filterMap_map, ← List.head?_map, List.map_filterMap]
  congr 2
  funext x
  simp only [Function.comp_apply, keep]
  split_ifs <;> rfl

theorem rest_of_segmenter {text : List UInt8} (h : Segmenter T text) {pre post : List (ℕ × List UInt8)}
    {w : ℕ × List UInt8} (heq : T.wordIndices text = pre ++ w :: post) : Rest T (text.drop (wordEnd w)) := by
  have hordered := h.ordered
  rw [heq] at hordered
  have hpost := (List.pairwise_append.1 hordered).2.1
  have hafter : ∀ x ∈ post, wordEnd w ≤ x.1 := (List.pairwise_cons.1 hpost).1
  have hmem : ∀ x ∈ post, x ∈ T.wordIndices text := fun x hx => by simp [heq, hx]
  constructor
  · intro y hy
    rw [h.restart pre w post heq] at hy
    obtain ⟨x, hx, rfl⟩ := List.mem_map.1 hy
    exact (h.word x (hmem x hx)).1
  · intro y hy
    rw [h.restart pre w post heq] at hy
    obtain ⟨x, hx, rfl⟩ := List.mem_map.1 hy
    have h1 := (h.word x (hmem x hx)).2.2.1
    have h2 := hafter x hx
    rw [List.length_drop]
    rw [wordEnd] at h1 ⊢
    dsimp only
    omega
  · rw [h.restart pre w post heq, List.pairwise_map]
    refine (List.pairwise_cons.1 hpost).2.imp_of_mem ?_
    intro x y hx hy hxy
    have h1 := hafter x hx
    have h2 := hafter y hy
    rw [wordEnd] at hxy ⊢
    dsimp only
    omega
  · exact h.cut w (by simp [heq])

theorem length_chunks_flatten (cs : List Utf8.Chunk) :
    ((cs.map fun c => c.valid ++ c.invalid).flatten).length = chunksLen cs := by
  induction cs with
  | nil => rfl
  | cons c rest ih => simp [chunksLen] at ih ⊢; omega

theorem length_roles_flatten (cs : List Utf8.Chunk) :
    ((cs.map Utf8.Chunk.roles).flatten).length = chunksLen cs := by
  induction cs with
  | nil => rfl
  | cons c rest ih => simp [chunksLen, Utf8.Chunk.roles] at ih ⊢; omega

theorem bytes_of_chunk {bytes : List UInt8} {cpre cpost : List Utf8.Chunk} {chunk : Utf8.Chunk}
    (h : Utf8.chunks bytes = cpre ++ chunk :: cpost) : ∃ before more,
    bytes = before ++ (chunk.valid ++ more) ∧ before.length = chunksLen cpre ∧ Utf8.Valid chunk.valid ∧
      (∀ i, i < chunk.valid.length → (Utf8.roles 0 bytes)[chunksLen cpre + i]? = (Utf8.roles 0 chunk.valid)[i]?) ∧
      ∀ r, (Utf8.roles 0 more).head? = some r → r = .stray := by
  have hcuts := Utf8.roles_chunks bytes
  rw [h] at hcuts
  have hbytes := hcuts.bytes_eq
  have hroles := hcuts.roles_eq
  rw [List.map_append, List.flatten_append, List.map_cons, List.flatten_cons] at hbytes hroles
  have hvalid := hcuts.valid chunk (by simp)
  refine ⟨_, chunk.invalid ++ (cpost.map fun c => c.valid ++ c.invalid).flatten, ?_,
    length_chunks_flatten cpre, hvalid, fun i hi => ?_, ?_⟩
  · rw [← hbytes, List.append_assoc]
  · rw [hroles, List.getElem?_append_right (by rw [length_roles_flatten]; omega), length_roles_flatten,
      Nat.add_sub_cancel_left, Utf8.Chunk.roles, List.append_assoc,
      List.getElem?_append_left (by rwa [Utf8.length_roles])]
  · intro r hr
    cases hinv : chunk.invalid with
    | nil =>
      have hlast : cpost = [] := by
        by_contra hne
        exact Utf8.chunks_invalid_ne_nil h hne hinv
      rw [hinv, hlast] at hr
      simp at hr
    | cons b rest =>
      -- the first byte after the stretch belongs to no character
      have hlen : (cpre.map fun c => c.valid ++ c.invalid).flatten.length + chunk.valid.length ≤ bytes.length := by
        rw [← hbytes]
        simp only [List.length_append]
        omega
      have hat : (Utf8.roles 0 bytes)[chunksLen cpre + chunk.valid.length]? = some .stray := by
        rw [hroles, List.getElem?_append_right (by rw [length_roles_flatten]; omega), length_roles_flatten,
          Nat.add_sub_cancel_left, Utf8.Chunk.roles, List.append_assoc,
          List.getElem?_append_right (by rw [Utf8.length_roles]), Utf8.length_roles, Nat.sub_self, hinv]
        simp [List.replicate_succ]
      have hne : (Utf8.roles 0 bytes)[chunksLen cpre + chunk.valid.length]? ≠ some .inner := by
        rw [hat]
        simp
      have hdrop := Utf8.roles_drop hne (Nat.zero_le _) (by rw [← length_chunks_flatten]; exact hlen)
      have hmore : bytes.drop (chunksLen cpre + chunk.valid.length) =
          chunk.invalid ++ (cpost.map fun c => c.valid ++ c.invalid).flatten := by
        rw [← hbytes, ← List.drop_drop, ← length_chunks_flatten, List.drop_left, List.append_assoc,
          List.drop_left]
      rw [hmore] at hdrop
      rw [hdrop, List.head?_drop, hat] at hr
      exact (Option.some.inj hr).symm

/-- What stands after a token: the rest of its stretch, and the token at the next ordinal. -/
structure Follows (T : Tables) (u : Unit) (tokens : List Token) (t : Token) (text rest : List UInt8) : Prop where
  stretch : Stretch text rest
  words : Rest T text
  after : u.stretchAfter (t.offset + t.len) = text
  cut : nextToken T u (t.offset + t.len) = cutLoop T rest (t.offset + t.len) (rest.length + 1) lookahead
  next : ∀ t', t' ∈ tokens ∧ t'.ordinal = t.ordinal + 1 ↔ ∃ s, (segments T text).head? = some s ∧
    t' = ⟨s.term, t.ordinal + 1, t.offset + t.len + s.offset, s.len⟩
  same : ∀ t', t' ∈ tokens → t'.ordinal = t.ordinal + 1 → SameStretch u t t' ∧ t.offset + t.len ≤ t'.offset

/-- A word kept after another starts where it ends, or later. -/
theorem le_offset_of_head {text : List UInt8} (h : Segmenter T text) {pre post : List (ℕ × List UInt8)}
    {w : ℕ × List UInt8} (heq : T.wordIndices text = pre ++ w :: post) {s : Segment}
    (hs : (post.filterMap (keep T)).head? = some s) : wordEnd w ≤ s.offset := by
  obtain ⟨rest, hrest⟩ := List.head?_eq_some_iff.1 hs
  have hmem : s ∈ post.filterMap (keep T) := by simp [hrest]
  obtain ⟨x, hx, hkx⟩ := List.mem_filterMap.1 hmem
  have hordered := h.ordered
  rw [heq] at hordered
  rw [(keep_eq_some hkx).1]
  exact (List.pairwise_cons.1 (List.pairwise_append.1 hordered).2.1).1 x hx

/-- The entry after a segment's is the next segment's of its stretch, or a break. -/
theorem Stands.next_entry {u : Unit} {pre post : List Item} {start : ℕ} {bytes : List UInt8}
    {cpre cpost : List Utf8.Chunk} {chunk : Utf8.Chunk} {before after : List Entry}
    (h : Stands T u pre start bytes post cpre chunk cpost before after) {j : ℕ}
    (hj : j < (segments T chunk.valid).length) {x : String × ℕ × ℕ} :
    (Search.entries T u)[before.length + j + 1]? = some (some x) ↔ ∃ s, (segments T chunk.valid)[j + 1]? = some s ∧
      x = (s.term, widths pre + chunksLen cpre + s.offset, s.len) := by
  rw [h.entries, List.append_assoc, List.getElem?_append_right (by omega),
    show before.length + j + 1 - before.length = j + 1 by omega]
  by_cases hlt : j + 1 < (segments T chunk.valid).length
  · rw [List.getElem?_append_left (by rwa [List.length_map]), List.getElem?_map, List.getElem?_eq_getElem hlt]
    simp only [Option.map_some, entryOf, Option.some.injEq, exists_eq_left']
    exact eq_comm
  · have hlast : j + 1 = (segments T chunk.valid).length := by omega
    rw [List.getElem?_append_right (by rw [List.length_map]; omega), List.length_map, ← hlast, Nat.sub_self,
      ← List.head?_eq_getElem?, List.getElem?_eq_none (by omega)]
    constructor
    · intro h'
      cases h.breaks _ h'
    · rintro ⟨s, h', -⟩
      cases h'

theorem Stands.readable {u : Unit} {pre post : List Item} {start : ℕ} {bytes : List UInt8}
    {cpre cpost : List Utf8.Chunk} {chunk : Utf8.Chunk} {before after : List Entry}
    (h : Stands T u pre start bytes post cpre chunk cpost before after) {i : ℕ} (hi : i < chunk.valid.length) :
    ∃ c, u.cells[widths pre + (chunksLen cpre + i)]? = some c ∧ c.byte?.isSome := by
  obtain ⟨skipped, more, hbytes, hskip, hvalid, hroles, -⟩ := bytes_of_chunk h.chunks
  have hlt : chunksLen cpre + i < bytes.length := by
    rw [hbytes, List.length_append, List.length_append, hskip]
    omega
  have hrole : i < (Utf8.roles 0 chunk.valid).length := by rwa [Utf8.length_roles]
  have hne := hvalid _ (List.getElem_mem hrole)
  refine ⟨.text (Utf8.roles 0 chunk.valid)[i] bytes[chunksLen cpre + i], ?_, ?_⟩
  · rw [Unit.cells_getElem?_of_split h.items hlt, text_getElem?]
    exact ⟨_, _, by rw [hroles i hi, List.getElem?_eq_getElem hrole], List.getElem?_eq_getElem hlt, rfl⟩
  · cases hr : (Utf8.roles 0 chunk.valid)[i] with
    | lead => rfl
    | inner => rfl
    | stray => exact absurd hr hne

/-- A word's end is a boundary of its stretch's characters. -/
theorem roles_ne_inner_of_boundary {text : List UInt8} {e : ℕ} (h : IsCharBoundary text e) :
    (Utf8.roles 0 text)[e]? ≠ some .inner := by
  intro hr
  have hlt : e < text.length := by
    have := (List.getElem?_eq_some_iff.1 hr).1
    rwa [Utf8.length_roles] at this
  have hb := List.getElem?_eq_getElem hlt
  have := h.2 _ hb
  rw [Utf8.continuation_of_inner (fun j hj => absurd hj (Nat.not_lt_zero j)) hr hb] at this
  cases this

/-- What stands at the ordinal after a token. -/
theorem next_of_tokenize {u : Unit} (hseg : ∀ text ∈ u.stretches, Segmenter T text) {tokens : List Token}
    (htokens : tokenize T u = .ok tokens) {t : Token} (ht : t ∈ tokens) :
    ∃ text rest, Follows T u tokens t text rest := by
  obtain ⟨pre, start, bytes, post, cpre, chunk, cpost, before, after, j, segment, hstands, hord, hsegment, hx⟩ :=
    exists_segment ((mem_tokenize_iff htokens).1 ht)
  obtain ⟨hterm, hoffset, hlen⟩ : t.term = segment.term ∧
      t.offset = widths pre + chunksLen cpre + segment.offset ∧ t.len = segment.len := by simpa using hx
  have hmem : chunk.valid ∈ u.stretches := by
    refine List.mem_flatMap.2 ⟨.text start bytes, by simp [hstands.items], ?_⟩
    refine List.mem_map.2 ⟨chunk, ?_, rfl⟩
    simp [hstands.chunks]
  have hs := hseg _ hmem
  obtain ⟨wpre, w, wpost, hwords, hkeep, hnext⟩ := exists_word hsegment
  obtain ⟨hw1, hw2⟩ := keep_eq_some hkeep
  obtain ⟨hne, -, hbound⟩ := hs.word w (by simp [hwords])
  have hwlen := List.length_pos_iff.2 hne
  obtain ⟨skipped, more, hbytes, hskip, hvalid, -, hmore⟩ := bytes_of_chunk hstands.chunks
  have hwe : wordEnd w = w.1 + w.2.length := rfl
  have hinner := roles_ne_inner_of_boundary hbound
  have hle : wordEnd w ≤ chunk.valid.length := hbound.1
  obtain ⟨e, he⟩ : ∃ e, e = wordEnd w := ⟨_, rfl⟩
  rw [← he] at hwe hle hinner
  have hpast : t.offset + t.len = widths pre + (chunksLen cpre + e) := by omega
  have htotal : bytes.length = chunksLen cpre + (chunk.valid.length + more.length) := by
    rw [hbytes, List.length_append, List.length_append, hskip]
  have hrest : bytes.drop (chunksLen cpre + e) = chunk.valid.drop e ++ more := by
    rw [hbytes, ← List.drop_drop, ← hskip, List.drop_left, List.drop_append_of_le_length hle]
  have hstretch : Stretch (chunk.valid.drop e) (bytes.drop (chunksLen cpre + e)) :=
    ⟨hvalid.drop hinner hle, more, hrest, hmore⟩
  have hwordsRest : Rest T (chunk.valid.drop e) := he ▸ rest_of_segmenter hs hwords
  have hhead := head_segments_drop hs hwords
  rw [← he] at hhead
  have hiff : ∀ t', t' ∈ tokens ∧ t'.ordinal = t.ordinal + 1 ↔
      ∃ s, (segments T (chunk.valid.drop e)).head? = some s ∧
        t' = ⟨s.term, t.ordinal + 1, t.offset + t.len + s.offset, s.len⟩ := by
    intro t'
    have hentry := hstands.next_entry (x := (t'.term, t'.offset, t'.len)) (List.getElem?_eq_some_iff.1 hsegment).1
    rw [mem_tokenize_iff htokens, hhead]
    rw [hnext, ← hord] at hentry
    constructor
    · rintro ⟨h1, h2⟩
      rw [h2] at h1
      obtain ⟨s, h3, h4⟩ := hentry.1 h1
      have hafter := le_offset_of_head hs hwords h3
      obtain ⟨h5, h6, h7⟩ := (Prod.mk.injEq .. ▸ Prod.mk.injEq .. ▸ h4 : _ ∧ _ ∧ _)
      refine ⟨{ s with offset := s.offset - e }, by rw [h3]; rfl, ?_⟩
      obtain ⟨term', ordinal', offset', len'⟩ := t'
      dsimp only at h2 h5 h6 h7
      rw [Token.mk.injEq]
      exact ⟨h5, h2, by dsimp only; omega, h7⟩
    · rintro ⟨s', h1, rfl⟩
      obtain ⟨s, h3, rfl⟩ := Option.map_eq_some_iff.1 h1
      have hafter := le_offset_of_head hs hwords h3
      refine ⟨hentry.2 ⟨s, h3, ?_⟩, rfl⟩
      simp only [Prod.mk.injEq, true_and, and_true]
      omega
  refine ⟨chunk.valid.drop e, bytes.drop (chunksLen cpre + e), hstretch, hwordsRest, ?_, ?_, hiff, ?_⟩
  · have hitem : u.textAt (t.offset + t.len - 1) = some (widths pre, bytes) :=
      Unit.textAt_eq_some_iff.2 ⟨pre, start, post, hstands.items, rfl, by omega, by omega⟩
    have hlenS := hstretch.validLen_take (bytes.drop (chunksLen cpre + e)).length
    rw [List.take_length, List.take_of_length_le (le_length_of_stretch hstretch), hstretch.valid.validLen_eq] at hlenS
    rw [Unit.stretchAfter, hitem]
    dsimp only
    rw [hpast, Nat.add_sub_cancel_left, hlenS, hrest, List.take_left]
  · have hindex : u.itemAt (t.offset + t.len - 1) = some pre.length :=
      Unit.itemAt_of_split hstands.items (by omega) (by dsimp only [Item.width]; omega)
    have hstart : start - u.start = widths pre := by
      have := start_of_split (hstands.items ▸ u.laid)
      rw [show start = u.start + widths pre from this, Nat.add_sub_cancel_left]
    rw [nextToken, if_neg (by omega), hindex]
    dsimp only
    rw [hstands.items, List.getElem?_append_right le_rfl, Nat.sub_self, List.getElem?_cons_zero]
    dsimp only
    rw [hstart, hpast, Nat.add_sub_cancel_left, Outcome.require, if_pos (by omega)]
    rfl
  · intro t' h1 h2
    obtain ⟨s, hs', rfl⟩ := (hiff t').1 ⟨h1, h2⟩
    have hend := (hwordsRest.end_le hs').1
    rw [List.length_drop] at hend
    refine ⟨⟨⟨pre, start, bytes, post, hstands.items, by omega, by dsimp only; omega⟩, fun p h3 h4 => ?_⟩,
      Nat.le_add_right _ _⟩
    dsimp only at h4
    have := hstands.readable (i := p - (widths pre + chunksLen cpre)) (by omega)
    rwa [show widths pre + (chunksLen cpre + (p - (widths pre + chunksLen cpre))) = p by omega] at this

/-- The cut after a token reads the token the index holds exactly where no edge of the lookahead
divides it. -/
theorem reads_iff (hT : Folds T) {u : Unit} (hseg : ∀ text ∈ u.stretches, Segmenter T text) {tokens : List Token}
    (htokens : tokenize T u = .ok tokens) {t : Token} (ht : t ∈ tokens) :
    Reads T u tokens t ↔ CutsWhole T (u.stretchAfter (t.offset + t.len)) := by
  obtain ⟨text, rest, h⟩ := next_of_tokenize hseg htokens ht
  rw [h.after]
  constructor
  · rintro ⟨next, hnext, -, hreads, -⟩ s hs hoffset k hk
    obtain ⟨hmem, hord⟩ := (h.next _).2 ⟨s, hs, rfl⟩
    have hsome := hreads _ hmem hord (h.same _ hmem hord).1 (by dsimp only; omega)
    by_contra hnot
    have hdiv : ∀ s', (segments T (text.take (edge text k))).head? = some s' →
        s'.offset + s'.len < edge text k := fun s' hs' => not_le.1 fun hle => hnot ⟨s', hs', hle⟩
    have hne : cutLoop T rest (t.offset + t.len) (rest.length + 1) (lookahead * 2 ^ 0) ≠
        .ok (some ⟨t.offset + t.len + s.offset, s.len, s.term⟩) :=
      cutLoop_ne h.stretch h.words hs (Nat.zero_le k) hk hdiv
    rw [pow_zero, Nat.mul_one, ← h.cut, hnext, hsome] at hne
    exact hne rfl
  · intro hwhole
    by_cases hnone : ∀ s, (segments T text).head? = some s → lookahead ≤ s.offset
    · refine ⟨none, by rw [h.cut, cutLoop_none hT h.stretch h.words hnone], by simp, ?_, fun _ => rfl⟩
      intro t' h1 h2 _ h4
      obtain ⟨s, hs, rfl⟩ := (h.next t').1 ⟨h1, h2⟩
      have := hnone s hs
      dsimp only at h4
      omega
    · simp only [not_forall, not_le] at hnone
      obtain ⟨s, hs, hoffset⟩ := hnone
      obtain ⟨hmem, hord⟩ := (h.next _).2 ⟨s, hs, rfl⟩
      have hshort := len_of_mem_tokenize htokens hmem
      have hfuel : rest.length ≤ lookahead * 2 ^ 0 * 2 ^ rest.length := by
        have := (Nat.lt_two_pow_self (n := rest.length)).le
        rw [pow_zero, Nat.mul_one, lookahead]
        omega
      have hcut : cutLoop T rest (t.offset + t.len) (rest.length + 1) (lookahead * 2 ^ 0) =
          .ok (some ⟨t.offset + t.len + s.offset, s.len, s.term⟩) :=
        cutLoop_whole h.stretch h.words hs hshort (hwhole s hs hoffset) hfuel
      rw [pow_zero, Nat.mul_one, ← h.cut] at hcut
      refine ⟨_, hcut, ?_, ?_, ?_⟩
      · rintro n ⟨⟩
        exact ⟨_, hmem, hord, rfl⟩
      · intro t' h1 h2 _ _
        obtain ⟨s', hs', rfl⟩ := (h.next t').1 ⟨h1, h2⟩
        obtain rfl : s = s' := Option.some.inj (hs.symm.trans hs')
        rfl
      · intro hbreak
        obtain ⟨hsame, hle⟩ := h.same _ hmem hord
        exact absurd hsame (hbreak _ hmem hle)

-- ASCII texts

def isLetter (b : UInt8) : Bool := 0x41 ≤ b && b ≤ 0x5A || 0x61 ≤ b && b ≤ 0x7A

def isDigit (b : UInt8) : Bool := 0x30 ≤ b && b ≤ 0x39

/-- An apostrophe, a full stop or a colon: between two letters it joins them. -/
def isMidLetter (b : UInt8) : Bool := b == 0x27 || b == 0x2E || b == 0x3A

/-- An apostrophe, a full stop, a comma or a semicolon: between two digits it joins them. -/
def isMidNum (b : UInt8) : Bool := b == 0x27 || b == 0x2E || b == 0x2C || b == 0x3B

/-- Whether two neighbours of an ASCII text stand in one segment, by the byte before them and the
byte after them. -/
def joins (before : Option UInt8) (a b : UInt8) (after : Option UInt8) : Bool :=
  (a == 0x0D && b == 0x0A) || (a == 0x20 && b == 0x20) ||
  ((isLetter a || isDigit a) && (isLetter b || isDigit b)) ||
  (isLetter a && isMidLetter b && after.any isLetter) || (before.any isLetter && isMidLetter a && isLetter b) ||
  (isDigit a && isMidNum b && after.any isDigit) || (before.any isDigit && isMidNum a && isDigit b) ||
  ((isLetter a || isDigit a || a == 0x5F) && b == 0x5F) || (a == 0x5F && (isLetter b || isDigit b))

/-- The segments of an ASCII text, the one begun at `start` held in reverse. -/
def asciiSplit : ℕ → List UInt8 → List UInt8 → List (ℕ × List UInt8)
  | start, held, [] => if held = [] then [] else [(start, held.reverse)]
  | start, [], b :: rest => asciiSplit start [b] rest
  | start, a :: held, b :: rest =>
      if joins held.head? a b rest.head? then asciiSplit start (b :: a :: held) rest
      else (start, (a :: held).reverse) :: asciiSplit (start + held.length + 1) [b] rest

/-- The tables, of ASCII texts. -/
def asciiTables : Tables where
  wordIndices text := (asciiSplit 0 [] text).filter fun w => w.2.any fun b => isLetter b || isDigit b
  nfd segment := segment.map fun b => Char.ofNat b.toNat
  toLowercase := List.map Char.toLower
  isAlphanumeric := Char.isAlphanum

theorem isAlphanum_toLower (c : Char) : c.toLower.isAlphanum = c.isAlphanum := by
  by_cases h : c.isUpper
  · have h1 : c.toLower.isAlpha := by simp [Char.isAlpha, h]
    have h2 : c.isAlpha := by simpa using h1
    simp only [Char.isAlphanum, h1, h2, Bool.true_or]
  · rw [Char.toLower_eq_of_not_isUpper h]

theorem folds_ascii : Folds asciiTables := by
  constructor
  · intro w w' h c hc
    obtain ⟨b, hb, rfl⟩ := List.mem_map.1 hc
    exact List.mem_map.2 ⟨b, h.subset hb, rfl⟩
  · intro l
    show (l.map Char.toLower).any Char.isAlphanum = l.any Char.isAlphanum
    rw [List.any_map]
    congr 1
    funext c
    exact isAlphanum_toLower c

theorem isCharBoundary_ascii {text : List UInt8} (h : text.all (fun b => !Utf8.isContinuation b) = true) {i : ℕ}
    (hi : i ≤ text.length) : IsCharBoundary text i := by
  refine ⟨hi, fun b hb => ?_⟩
  have := List.all_eq_true.1 h b (List.mem_of_getElem? hb)
  simpa using this

theorem cutStable_of_le {text : List UInt8} {c : ℕ} (hc : text.length ≤ c)
    (h : ∀ w ∈ T.wordIndices text, wordEnd w ≤ text.length) : CutStable T text c := by
  refine ⟨[], ?_, by simp⟩
  rw [List.take_of_length_le hc, List.append_nil]
  refine (List.takeWhile_eq_self_iff.2 fun w hw => ?_).symm
  simpa using (h w hw).trans hc

/-- A window as wide as the text has its edge at the text's end. -/
theorem edge_of_le {text : List UInt8} (hvalid : Utf8.validLen text = text.length) {k : ℕ}
    (hk : text.length ≤ lookahead * 2 ^ k) : edge text k = text.length := by
  rw [edge, List.take_of_length_le hk, hvalid]

theorem edge_succ_of_le {text : List UInt8} (hvalid : Utf8.validLen text = text.length)
    (hlen : text.length ≤ lookahead * 2) (k : ℕ) : edge text (k + 1) = text.length := by
  apply edge_of_le hvalid
  calc
    text.length ≤ lookahead * 2 := hlen
    _ ≤ lookahead * 2 ^ (k + 1) := Nat.mul_le_mul_left lookahead (Nat.le_self_pow (Nat.succ_ne_zero k) 2)

theorem segmenter_of_two {text : List UInt8} {a b : ℕ × List UInt8} (hwords : T.wordIndices text = [a, b])
    (hascii : text.all (fun b => !Utf8.isContinuation b) = true) (ha : a.2 ≠ []) (hb : b.2 ≠ [])
    (hab : wordEnd a ≤ b.1) (hend : wordEnd b ≤ text.length)
    (hafter : T.wordIndices (text.drop (wordEnd a)) = [(b.1 - wordEnd a, b.2)])
    (hlast : T.wordIndices (text.drop (wordEnd b)) = [])
    (hcut : ∀ k, CutStable T (text.drop (wordEnd a)) (edge (text.drop (wordEnd a)) k))
    (hcut' : ∀ k, CutStable T (text.drop (wordEnd b)) (edge (text.drop (wordEnd b)) k)) : Segmenter T text := by
  have hba : b.1 ≤ wordEnd b := Nat.le_add_right _ _
  have haa : a.1 ≤ wordEnd a := Nat.le_add_right _ _
  constructor
  · intro w hw
    rw [hwords] at hw
    simp only [List.mem_cons, List.not_mem_nil, or_false] at hw
    obtain rfl | rfl := hw
    · exact ⟨ha, isCharBoundary_ascii hascii (by omega), isCharBoundary_ascii hascii (by omega)⟩
    · exact ⟨hb, isCharBoundary_ascii hascii (by omega), isCharBoundary_ascii hascii hend⟩
  · rw [hwords]
    simpa using hab
  · intro pre w post heq
    rw [hwords] at heq
    cases pre with
    | nil =>
      obtain ⟨rfl, rfl⟩ := List.cons.inj heq
      exact hafter
    | cons x pre =>
      obtain ⟨-, heq⟩ := List.cons.inj heq
      cases pre with
      | nil =>
        obtain ⟨rfl, rfl⟩ := List.cons.inj heq
        exact hlast
      | cons y pre => simp at heq
  · intro w hw
    rw [hwords] at hw
    simp only [List.mem_cons, List.not_mem_nil, or_false] at hw
    obtain rfl | rfl := hw
    · exact hcut
    · exact hcut'

/-- A letter, `n` spaces and a word with an apostrophe. -/
def spacedText (n : ℕ) : List UInt8 := 0x78 :: List.replicate n 0x20 ++ [0x63, 0x61, 0x6E, 0x27, 0x74]

/-- The first edge divides the word after its apostrophe, or before its third letter. -/
theorem segmenter_spaced {n : ℕ} (hn : n = 252 ∨ n = 254) : Segmenter asciiTables (spacedText n) := by
  have hwords : asciiTables.wordIndices (spacedText n) = [(0, [0x78]), (n + 1, [0x63, 0x61, 0x6E, 0x27, 0x74])] := by
    rcases hn with rfl | rfl <;> decide +kernel
  have hafter : asciiTables.wordIndices ((spacedText n).drop 1) = [(n, [0x63, 0x61, 0x6E, 0x27, 0x74])] := by
    rcases hn with rfl | rfl <;> decide +kernel
  have hlast : (spacedText n).drop (n + 6) = [] := by
    rcases hn with rfl | rfl <;> decide +kernel
  have hedge : edge ((spacedText n).drop 1) 0 = 256 := by
    rcases hn with rfl | rfl <;> decide +kernel
  have hcut : asciiTables.wordIndices (((spacedText n).drop 1).take 256) = [(n, [0x63, 0x61, 0x6E].take (256 - n))] := by
    rcases hn with rfl | rfl <;> decide +kernel
  have hlen : ((spacedText n).drop 1).length ≤ lookahead * 2 := by
    rcases hn with rfl | rfl <;> decide +kernel
  refine segmenter_of_two hwords (by rcases hn with rfl | rfl <;> decide +kernel) (by simp) (by simp) (by simp [wordEnd])
    (by rcases hn with rfl | rfl <;> decide +kernel) hafter (by rw [show wordEnd _ = n + 6 from rfl, hlast]; rfl) (fun k => ?_) (fun k => ?_)
  · cases k with
    | zero =>
      show CutStable asciiTables ((spacedText n).drop 1) (edge ((spacedText n).drop 1) 0)
      rw [hedge]
      refine ⟨[(n, [0x63, 0x61, 0x6E].take (256 - n))], ?_, fun x hx => ?_⟩
      · rw [hcut, hafter]
        rcases hn with rfl | rfl <;> rfl
      · obtain rfl := List.mem_singleton.1 hx
        refine ⟨?_, ?_, (n, [0x63, 0x61, 0x6E, 0x27, 0x74]), hafter ▸ List.mem_singleton_self _, le_rfl, ?_, ?_⟩
        all_goals rcases hn with rfl | rfl <;> decide
    | succ k =>
      apply cutStable_of_le (edge_succ_of_le ?_ hlen k).ge
      all_goals rcases hn with rfl | rfl <;> decide +kernel
  · rw [show wordEnd _ = n + 6 from rfl, hlast]
    exact cutStable_of_le (Nat.zero_le _) (List.forall_mem_nil _)

theorem segmenter_of_stretches {u : Unit} {text : List UInt8} (h : u.stretches = [text])
    (hseg : Segmenter asciiTables text) : ∀ text ∈ u.stretches, Segmenter asciiTables text := by
  rw [h]
  exact List.forall_mem_singleton.2 hseg

/-- A letter, 254 spaces and a word whose second letter the first edge follows. -/
def reachedUnit : Unit := unitOf [.text 1 (spacedText 254)] ⟨rfl, trivial⟩ (by simp) (by decide +kernel)

/-- The word's part before the edge reaches it, so the window is widened and the word is read. -/
theorem reads_iff_reached :
    Reads asciiTables reachedUnit [⟨"x", 0, 0, 1⟩, ⟨"can't", 1, 255, 5⟩] ⟨"x", 0, 0, 1⟩ := by
  have hstretches : reachedUnit.stretches = [spacedText 254] := by decide +kernel
  have htokens : tokenize asciiTables reachedUnit = .ok [⟨"x", 0, 0, 1⟩, ⟨"can't", 1, 255, 5⟩] := by decide +kernel
  refine (reads_iff folds_ascii (segmenter_of_stretches hstretches (segmenter_spaced (.inr rfl))) htokens
    List.mem_cons_self).2 ?_
  have hafter : reachedUnit.stretchAfter 1 = (spacedText 254).drop 1 := by decide +kernel
  show CutsWhole asciiTables (reachedUnit.stretchAfter 1)
  rw [hafter]
  intro s hs _ k hk
  cases k with
  | zero =>
    have hcut : edge ((spacedText 254).drop 1) 0 = 256 := by decide +kernel
    rw [hcut]
    exact ⟨⟨"ca", 254, 2⟩, by decide +kernel, by decide⟩
  | succ k =>
    have hhead : (segments asciiTables ((spacedText 254).drop 1)).head? = some ⟨"can't", 254, 5⟩ := by decide +kernel
    obtain rfl := Option.some.inj (hhead.symm.trans hs)
    have hlen : ((spacedText 254).drop 1).length ≤ lookahead * 2 := by decide +kernel
    rw [edge_succ_of_le (by decide +kernel) hlen] at hk
    exact absurd hk (by decide +kernel)

/-- A letter, 252 spaces and a word that the first edge divides after its apostrophe. -/
def dividedUnit : Unit := unitOf [.text 1 (spacedText 252)] ⟨rfl, trivial⟩ (by simp) (by decide +kernel)

/-- The index holds the whole word at the next ordinal, and the cut reads the part of it before its
apostrophe. -/
theorem next_divided : Folds asciiTables ∧ (∀ text ∈ dividedUnit.stretches, Segmenter asciiTables text) ∧
    tokenize asciiTables dividedUnit = .ok [⟨"x", 0, 0, 1⟩, ⟨"can't", 1, 253, 5⟩] ∧
    nextToken asciiTables dividedUnit 1 = .ok (some ⟨253, 3, "can"⟩) ∧
    ¬ Reads asciiTables dividedUnit [⟨"x", 0, 0, 1⟩, ⟨"can't", 1, 253, 5⟩] ⟨"x", 0, 0, 1⟩ := by
  have hnext : nextToken asciiTables dividedUnit 1 = .ok (some ⟨253, 3, "can"⟩) := by decide +kernel
  have hstretches : dividedUnit.stretches = [spacedText 252] := by decide +kernel
  refine ⟨folds_ascii, segmenter_of_stretches hstretches (segmenter_spaced (.inl rfl)), by decide +kernel, hnext, ?_⟩
  rintro ⟨next, h, hreads, -⟩
  obtain rfl : some ⟨253, 3, "can"⟩ = next := Outcome.ok.inj (hnext.symm.trans h)
  obtain ⟨t', ht', -, heq⟩ := hreads _ rfl
  simp only [List.mem_cons, List.not_mem_nil, or_false] at ht'
  obtain rfl | rfl := ht' <;> revert heq <;> decide

end Search
