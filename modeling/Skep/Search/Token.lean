import Skep.Search.Rendering

/-!
# Tokens

The tokenizer cuts every valid stretch of every item of text at the boundaries of words, folds
each word to its term, and keeps those whose term holds a letter or a digit. Ordinals run across
the unit, and a gap and an invalid byte each take one. The segmenter, the decomposition, the
lowercasing and the class of letters and digits are those of the Unicode tables.
-/

namespace Search

/-- The words of a text, each with its byte offset, the canonical decomposition, and the class and
the case of characters. -/
structure Tables where
  wordIndices : List UInt8 → List (ℕ × List UInt8)
  nfd : List UInt8 → List Char
  toLowercase : List Char → List Char
  isAlphanumeric : Char → Bool

/-- The marks the fold drops. -/
def droppedMarks : List (ℕ × ℕ) :=
  [(0x0300, 0x036F), (0x0591, 0x05BD), (0x05BF, 0x05BF), (0x05C1, 0x05C2), (0x05C4, 0x05C5),
    (0x05C7, 0x05C7), (0x064B, 0x065F), (0x0670, 0x0670), (0x1AB0, 0x1AFF), (0x1DC0, 0x1DFF),
    (0x20D0, 0x20FF), (0xFE00, 0xFE0F), (0xFE20, 0xFE2F), (0xE0100, 0xE01EF)]

/-- The invisible format controls the fold drops. -/
def droppedFormat : List (ℕ × ℕ) :=
  [(0x00AD, 0x00AD), (0x061C, 0x061C), (0x180E, 0x180E), (0x200B, 0x200F), (0x202A, 0x202E),
    (0x2060, 0x2064), (0x2066, 0x206F), (0xFEFF, 0xFEFF), (0x1BCA0, 0x1BCA3), (0x1D173, 0x1D17A),
    (0xE0001, 0xE0001), (0xE0020, 0xE007F)]

def inRanges (c : Char) (ranges : List (ℕ × ℕ)) : Bool :=
  ranges.any fun r => decide (r.1 ≤ c.toNat) && decide (c.toNat ≤ r.2)

def dropped (c : Char) : Bool := inRanges c droppedMarks || inRanges c droppedFormat

/-- The apostrophe fold. -/
def apostrophe (c : Char) : Char :=
  if c.toNat = 0x2018 ∨ c.toNat = 0x2019 ∨ c.toNat = 0xFF07 then '\'' else c

/-- One segment kept: its term, and its range in the stretch. -/
structure Segment where
  term : String
  offset : ℕ
  len : ℕ
  deriving DecidableEq

/-- One token: its term, its place in the sequence and its range from the unit's start. -/
structure Token where
  term : String
  ordinal : ℕ
  offset : ℕ
  len : ℕ
  deriving DecidableEq

variable (T : Tables)

def fold (segment : List UInt8) : String :=
  String.ofList (T.toLowercase (((T.nfd segment).filter fun c => !dropped c).map apostrophe))

/-- A word whose term holds a letter or a digit. -/
def keep (word : ℕ × List UInt8) : Option Segment :=
  let term := fold T word.2
  if term.toList.any T.isAlphanumeric then some ⟨term, word.1, word.2.length⟩ else none

/-- The segments the rule keeps in one stretch. -/
def segments (text : List UInt8) : List Segment := (T.wordIndices text).filterMap (keep T)

/-- The ordinal after more tokens or breaks, a fault past 32 bits. -/
def nextOrdinal (ordinal steps : ℕ) : Outcome Empty ℕ :=
  if ordinal + steps < 2 ^ 32 then return ordinal + steps else .fault

/-- The tokens so far, and the ordinal of the next. -/
structure Sequenced where
  tokens : List Token
  ordinal : ℕ

/-- The segment of a stretch that stands at `base`. -/
def pushSegment (base : ℕ) (s : Sequenced) (segment : Segment) : Outcome Empty Sequenced := do
  Outcome.require (segment.len < 2 ^ 32)
  let ordinal ← nextOrdinal s.ordinal 1
  return ⟨s.tokens ++ [⟨segment.term, s.ordinal, base + segment.offset, segment.len⟩], ordinal⟩

/-- The chunk of an item that stands at `s.2`. -/
def tokenizeChunk (s : Sequenced × ℕ) (chunk : Utf8.Chunk) : Outcome Empty (Sequenced × ℕ) := do
  let st ← (segments T chunk.valid).foldlM (pushSegment s.2) s.1
  let ordinal ← nextOrdinal st.ordinal chunk.invalid.length
  return (⟨st.tokens, ordinal⟩, s.2 + chunk.valid.length + chunk.invalid.length)

def tokenizeItem (base : ℕ) (s : Sequenced) : Item → Outcome Empty Sequenced
  | .gap _ _ _ => do
      let ordinal ← nextOrdinal s.ordinal 1
      return ⟨s.tokens, ordinal⟩
  | .text start bytes => do
      let (st, _) ← (Utf8.chunks bytes).foldlM (tokenizeChunk T) (s, start - base)
      return st

def tokenize (u : Unit) : Outcome Empty (List Token) := do
  let s ← u.items.foldlM (tokenizeItem T u.start) ⟨[], 0⟩
  return s.tokens

/-- What takes an ordinal: a token, with its term and its range, or a break. -/
abbrev Entry : Type := Option (String × ℕ × ℕ)

def entryOf (base : ℕ) (segment : Segment) : Entry := some (segment.term, base + segment.offset, segment.len)

def entriesOfChunk (base : ℕ) (chunk : Utf8.Chunk) : List Entry :=
  (segments T chunk.valid).map (entryOf base) ++ List.replicate chunk.invalid.length none

def entriesOfChunks : ℕ → List Utf8.Chunk → List Entry
  | _, [] => []
  | base, chunk :: rest => entriesOfChunk T base chunk ++
      entriesOfChunks (base + chunk.valid.length + chunk.invalid.length) rest

def entriesOfItem (base : ℕ) : Item → List Entry
  | .gap _ _ _ => [none]
  | .text start bytes => entriesOfChunks T (start - base) (Utf8.chunks bytes)

/-- What takes each ordinal of the unit. -/
def entries (u : Unit) : List Entry := u.items.flatMap (entriesOfItem T u.start)

/-- The tokens of entries that stand from an ordinal on. -/
def tokensFrom : ℕ → List Entry → List Token
  | _, [] => []
  | n, none :: rest => tokensFrom (n + 1) rest
  | n, some (term, offset, len) :: rest => ⟨term, n, offset, len⟩ :: tokensFrom (n + 1) rest

theorem tokensFrom_append (n : ℕ) (l l' : List Entry) :
    tokensFrom n (l ++ l') = tokensFrom n l ++ tokensFrom (n + l.length) l' := by
  induction l generalizing n with
  | nil => simp [tokensFrom]
  | cons e rest ih =>
    have hn : n + (e :: rest).length = n + 1 + rest.length := by
      rw [List.length_cons]
      omega
    cases e with
    | none => rw [List.cons_append, tokensFrom, ih, tokensFrom, hn]
    | some x => rw [List.cons_append, tokensFrom, ih, tokensFrom, hn, List.cons_append]

theorem tokensFrom_replicate (n k : ℕ) : tokensFrom n (List.replicate k none) = [] := by
  induction k generalizing n with
  | zero => rfl
  | succ k ih => rw [List.replicate_succ, tokensFrom, ih]

theorem mem_tokensFrom {n : ℕ} {l : List Entry} {t : Token} :
    t ∈ tokensFrom n l ↔ ∃ i, l[i]? = some (some (t.term, t.offset, t.len)) ∧ t.ordinal = n + i := by
  induction l generalizing n with
  | nil => simp [tokensFrom]
  | cons e rest ih =>
    have hrec : (∃ i, rest[i]? = some (some (t.term, t.offset, t.len)) ∧ t.ordinal = n + 1 + i) ↔
        ∃ i, (e :: rest)[i + 1]? = some (some (t.term, t.offset, t.len)) ∧ t.ordinal = n + (i + 1) := by
      simp only [List.getElem?_cons_succ, Nat.add_assoc, Nat.add_comm 1]
    have hsplit : (∃ i, (e :: rest)[i]? = some (some (t.term, t.offset, t.len)) ∧ t.ordinal = n + i) ↔
        (e = some (t.term, t.offset, t.len) ∧ t.ordinal = n) ∨
        ∃ i, (e :: rest)[i + 1]? = some (some (t.term, t.offset, t.len)) ∧ t.ordinal = n + (i + 1) := by
      constructor
      · rintro ⟨i, h1, h2⟩
        cases i with
        | zero => exact .inl ⟨by simpa using h1, h2⟩
        | succ i => exact .inr ⟨i, h1, h2⟩
      · rintro (⟨h1, h2⟩ | ⟨i, h1, h2⟩)
        · exact ⟨0, by simpa using h1, h2⟩
        · exact ⟨i + 1, h1, h2⟩
    rw [hsplit, ← hrec, ← ih]
    cases e with
    | none => simp [tokensFrom]
    | some x =>
      obtain ⟨term, offset, len⟩ := x
      rw [tokensFrom, List.mem_cons]
      refine or_congr_left ?_
      constructor
      · rintro rfl
        exact ⟨rfl, rfl⟩
      · rintro ⟨h1, h2⟩
        obtain ⟨rfl, rfl, rfl⟩ : term = t.term ∧ offset = t.offset ∧ len = t.len := by simpa using h1
        rw [← h2]

/-- What a part of the unit adds to the sequence. -/
structure Adds (l : List Entry) (s s' : Sequenced) : Prop where
  tokens : s'.tokens = s.tokens ++ tokensFrom s.ordinal l
  ordinal : s'.ordinal = s.ordinal + l.length
  short : ∀ t ∈ tokensFrom s.ordinal l, t.len < 2 ^ 32

theorem Adds.refl (s : Sequenced) : Adds [] s s := ⟨by simp [tokensFrom], rfl, by simp [tokensFrom]⟩

theorem Adds.trans {l l' : List Entry} {s s' s'' : Sequenced} (h : Adds l s s') (h' : Adds l' s' s'') :
    Adds (l ++ l') s s'' := by
  constructor
  · rw [h'.tokens, h.tokens, h.ordinal, tokensFrom_append, List.append_assoc]
  · rw [h'.ordinal, h.ordinal, List.length_append, Nat.add_assoc]
  · intro t ht
    rw [tokensFrom_append, ← h.ordinal] at ht
    exact (List.mem_append.1 ht).elim (h.short t) (h'.short t)

theorem nextOrdinal_eq_ok {ordinal steps n : ℕ} (h : nextOrdinal ordinal steps = .ok n) :
    n = ordinal + steps := by
  rw [nextOrdinal] at h
  split_ifs at h
  exact (Outcome.ok.inj h).symm

theorem adds_foldlM {α : Type} {f : Sequenced → α → Outcome Empty Sequenced} {g : α → List Entry}
    (hf : ∀ s a s', f s a = .ok s' → Adds (g a) s s') {l : List α} {s s' : Sequenced}
    (h : l.foldlM f s = .ok s') : Adds (l.flatMap g) s s' := by
  induction l generalizing s with
  | nil =>
    obtain rfl : s = s' := Outcome.ok.inj h
    exact .refl s
  | cons a rest ih =>
    obtain ⟨s₁, h1, h2⟩ := Outcome.bind_eq_ok_iff.1 h
    exact (hf s a s₁ h1).trans (ih h2)

theorem adds_pushSegment {base : ℕ} {s s' : Sequenced} {segment : Segment}
    (h : pushSegment base s segment = .ok s') : Adds [entryOf base segment] s s' := by
  obtain ⟨_, hlen, h⟩ := Outcome.bind_eq_ok_iff.1 h
  obtain ⟨n, hn, h⟩ := Outcome.bind_eq_ok_iff.1 h
  obtain rfl := Outcome.ok.inj h
  refine ⟨rfl, nextOrdinal_eq_ok hn, fun t ht => ?_⟩
  obtain rfl := List.mem_singleton.1 ht
  exact Outcome.require_eq_ok_iff.1 hlen

variable {T}

theorem adds_tokenizeChunk {s s' : Sequenced × ℕ} {chunk : Utf8.Chunk} (h : tokenizeChunk T s chunk = .ok s') :
    Adds (entriesOfChunk T s.2 chunk) s.1 s'.1 ∧ s'.2 = s.2 + chunk.valid.length + chunk.invalid.length := by
  obtain ⟨st, hst, h⟩ := Outcome.bind_eq_ok_iff.1 h
  obtain ⟨n, hn, h⟩ := Outcome.bind_eq_ok_iff.1 h
  obtain rfl := Outcome.ok.inj h
  have hsegs := adds_foldlM (fun s a s' hs => adds_pushSegment hs) hst
  have hbreaks : Adds (List.replicate chunk.invalid.length none) st ⟨st.tokens, n⟩ :=
    ⟨by rw [tokensFrom_replicate, List.append_nil], by rw [nextOrdinal_eq_ok hn, List.length_replicate],
      by simp [tokensFrom_replicate]⟩
  refine ⟨?_, rfl⟩
  rw [entriesOfChunk, List.map_eq_flatMap]
  exact hsegs.trans hbreaks

theorem adds_chunks {cs : List Utf8.Chunk} {s s' : Sequenced × ℕ}
    (h : cs.foldlM (tokenizeChunk T) s = .ok s') : Adds (entriesOfChunks T s.2 cs) s.1 s'.1 := by
  induction cs generalizing s with
  | nil =>
    obtain rfl : s = s' := Outcome.ok.inj h
    exact .refl s.1
  | cons c rest ih =>
    obtain ⟨s₁, h1, h2⟩ := Outcome.bind_eq_ok_iff.1 h
    obtain ⟨hadds, hpos⟩ := adds_tokenizeChunk h1
    have := ih h2
    rw [hpos] at this
    exact hadds.trans this

theorem adds_tokenizeItem {base : ℕ} {s s' : Sequenced} {item : Item}
    (h : tokenizeItem T base s item = .ok s') : Adds (entriesOfItem T base item) s s' := by
  cases item with
  | gap start width kind =>
    obtain ⟨n, hn, h⟩ := Outcome.bind_eq_ok_iff.1 h
    obtain rfl := Outcome.ok.inj h
    exact ⟨by simp [entriesOfItem, tokensFrom], nextOrdinal_eq_ok hn, by simp [entriesOfItem, tokensFrom]⟩
  | text start bytes =>
    obtain ⟨s₁, h1, h2⟩ := Outcome.bind_eq_ok_iff.1 h
    obtain rfl := Outcome.ok.inj h2
    exact adds_chunks h1

theorem tokenize_eq {u : Unit} {tokens : List Token} (h : tokenize T u = .ok tokens) :
    tokens = tokensFrom 0 (entries T u) := by
  obtain ⟨s, h1, h2⟩ := Outcome.bind_eq_ok_iff.1 h
  obtain rfl := Outcome.ok.inj h2
  exact (adds_foldlM (fun _ _ _ hs => adds_tokenizeItem hs) h1).tokens

theorem mem_tokenize_iff {u : Unit} {tokens : List Token} (h : tokenize T u = .ok tokens) {t : Token} :
    t ∈ tokens ↔ (entries T u)[t.ordinal]? = some (some (t.term, t.offset, t.len)) := by
  rw [tokenize_eq h, mem_tokensFrom]
  constructor
  · rintro ⟨i, h1, h2⟩
    rwa [h2, Nat.zero_add]
  · intro h1
    exact ⟨t.ordinal, h1, (Nat.zero_add _).symm⟩

theorem len_of_mem_tokenize {u : Unit} {tokens : List Token} (h : tokenize T u = .ok tokens) {t : Token}
    (ht : t ∈ tokens) : t.len < 2 ^ 32 := by
  obtain ⟨s, h1, h2⟩ := Outcome.bind_eq_ok_iff.1 h
  obtain rfl := Outcome.ok.inj h2
  have hadds := adds_foldlM (fun _ _ _ hs => adds_tokenizeItem hs) h1
  rw [hadds.tokens] at ht
  exact hadds.short t (by simpa using ht)

/-- The bytes of chunks. -/
def chunksLen (cs : List Utf8.Chunk) : ℕ := (cs.map fun c => c.valid.length + c.invalid.length).sum

/-- A kept word of one stretch of one item: the `i`th segment of the stretch after `cpre`, the
stretch's entries standing after `before` others. -/
structure Stands (T : Tables) (u : Unit) (pre : List Item) (start : ℕ) (bytes : List UInt8) (post : List Item)
    (cpre : List Utf8.Chunk) (chunk : Utf8.Chunk) (cpost : List Utf8.Chunk) (before after : List Entry) : Prop where
  items : u.items = pre ++ .text start bytes :: post
  chunks : Utf8.chunks bytes = cpre ++ chunk :: cpost
  entries : Search.entries T u = before ++ (segments T chunk.valid).map (entryOf (widths pre + chunksLen cpre)) ++ after
  breaks : ∀ e, after.head? = some e → e = none

theorem entriesOfChunks_append (base : ℕ) (cs cs' : List Utf8.Chunk) : entriesOfChunks T base (cs ++ cs') =
    entriesOfChunks T base cs ++ entriesOfChunks T (base + chunksLen cs) cs' := by
  induction cs generalizing base with
  | nil => simp [entriesOfChunks, chunksLen]
  | cons c rest ih =>
    rw [List.cons_append, entriesOfChunks, entriesOfChunks, ih, List.append_assoc]
    simp [chunksLen, Nat.add_assoc]

/-- A token's entry is a segment of one chunk of one item. -/
theorem exists_chunk {base : ℕ} {cs : List Utf8.Chunk} {i : ℕ} {x : String × ℕ × ℕ}
    (h : (entriesOfChunks T base cs)[i]? = some (some x)) : ∃ cpre chunk cpost j, cs = cpre ++ chunk :: cpost ∧
      i = (entriesOfChunks T base cpre).length + j ∧
      ((segments T chunk.valid).map (entryOf (base + chunksLen cpre)))[j]? = some (some x) := by
  induction cs generalizing base i with
  | nil => simp [entriesOfChunks] at h
  | cons c rest ih =>
    rw [entriesOfChunks] at h
    by_cases hi : i < (entriesOfChunk T base c).length
    · rw [List.getElem?_append_left hi, entriesOfChunk] at h
      refine ⟨[], c, rest, i, rfl, by simp [entriesOfChunks], ?_⟩
      by_cases hj : i < ((segments T c.valid).map (entryOf base)).length
      · rw [List.getElem?_append_left hj] at h
        simpa [chunksLen] using h
      · rw [List.getElem?_append_right (not_lt.1 hj), List.getElem?_replicate] at h
        split_ifs at h
        cases h
    · rw [List.getElem?_append_right (not_lt.1 hi)] at h
      obtain ⟨cpre, chunk, cpost, j, rfl, hj, hx⟩ := ih h
      refine ⟨c :: cpre, chunk, cpost, j, rfl, ?_, ?_⟩
      · rw [entriesOfChunks, List.length_append]
        omega
      · simpa [chunksLen, Nat.add_assoc] using hx

theorem exists_item_of_entry {base i : ℕ} {items : List Item} {x : String × ℕ × ℕ}
    (h : (items.flatMap (entriesOfItem T base))[i]? = some (some x)) : ∃ pre item post j,
      items = pre ++ item :: post ∧ i = (pre.flatMap (entriesOfItem T base)).length + j ∧
      (entriesOfItem T base item)[j]? = some (some x) := by
  induction items generalizing i with
  | nil => simp at h
  | cons a rest ih =>
    rw [List.flatMap_cons] at h
    by_cases hi : i < (entriesOfItem T base a).length
    · rw [List.getElem?_append_left hi] at h
      exact ⟨[], a, rest, i, rfl, by simp, h⟩
    · rw [List.getElem?_append_right (not_lt.1 hi)] at h
      obtain ⟨pre, item, post, j, rfl, hj, hx⟩ := ih h
      refine ⟨a :: pre, item, post, j, rfl, ?_, hx⟩
      rw [List.flatMap_cons, List.length_append]
      omega

theorem Unit.head_of_text {u : Unit} {pre post : List Item} {start : ℕ} {bytes : List UInt8}
    (h : u.items = pre ++ .text start bytes :: post) {e : Entry}
    (he : (post.flatMap (entriesOfItem T u.start)).head? = some e) : e = none := by
  cases post with
  | nil => simp at he
  | cons item rest =>
    have hjoined := u.joined
    rw [h, List.isChain_append, List.isChain_cons_cons] at hjoined
    have hnot := hjoined.2.1.1
    cases item with
    | text start' bytes' => exact absurd ⟨rfl, rfl⟩ hnot
    | gap start' width kind =>
      rw [List.flatMap_cons, entriesOfItem, List.singleton_append, List.head?_cons] at he
      exact (Option.some.inj he).symm

/-- A token is a kept word of one stretch of one item. -/
theorem exists_segment {u : Unit} {i : ℕ} {x : String × ℕ × ℕ} (h : (entries T u)[i]? = some (some x)) :
    ∃ pre start bytes post cpre chunk cpost before after j segment,
      Stands T u pre start bytes post cpre chunk cpost before after ∧ i = before.length + j ∧
      (segments T chunk.valid)[j]? = some segment ∧
      x = (segment.term, widths pre + chunksLen cpre + segment.offset, segment.len) := by
  obtain ⟨pre, item, post, j, heq, hi, hx⟩ := exists_item_of_entry h
  cases item with
  | gap start width kind =>
    cases j with
    | zero => simp [entriesOfItem] at hx
    | succ j => simp [entriesOfItem] at hx
  | text start bytes =>
    have hstart : start - u.start = widths pre := by
      have := start_of_split (heq ▸ u.laid)
      rw [show start = u.start + widths pre from this, Nat.add_sub_cancel_left]
    rw [entriesOfItem, hstart] at hx
    obtain ⟨cpre, chunk, cpost, k, hcs, hj, hk⟩ := exists_chunk hx
    rw [List.getElem?_map] at hk
    obtain ⟨segment, hsegment, hx⟩ := Option.map_eq_some_iff.1 hk
    refine ⟨pre, start, bytes, post, cpre, chunk, cpost,
      pre.flatMap (entriesOfItem T u.start) ++ entriesOfChunks T (widths pre) cpre,
      List.replicate chunk.invalid.length none ++
        (entriesOfChunks T (widths pre + chunksLen cpre + chunk.valid.length + chunk.invalid.length) cpost ++
          post.flatMap (entriesOfItem T u.start)), k, segment, ?_, ?_, hsegment, ?_⟩
    · refine ⟨heq, hcs, ?_, ?_⟩
      · rw [entries, heq, List.flatMap_append, List.flatMap_cons, entriesOfItem, hstart, hcs,
          entriesOfChunks_append, entriesOfChunks, entriesOfChunk]
        simp only [List.append_assoc]
      · intro e he
        cases hinv : chunk.invalid with
        | nil =>
          have hlast : cpost = [] := by
            by_contra hne
            exact Utf8.chunks_invalid_ne_nil hcs hne hinv
          rw [hinv, hlast] at he
          exact Unit.head_of_text heq (by simpa [entriesOfChunks] using he)
        | cons b rest =>
          rw [hinv, List.length_cons, List.replicate_succ, List.cons_append, List.head?_cons] at he
          exact (Option.some.inj he).symm
    · rw [List.length_append, hi, hj, Nat.add_assoc]
    · exact (Option.some.inj hx).symm

/-- Where a word ends. -/
abbrev wordEnd (word : ℕ × List UInt8) : ℕ := word.1 + word.2.length

/-- The words of a text cut at `c`: the words that end there or before, as they were, and whatever
the word the cut falls in leaves. -/
def CutStable (T : Tables) (text : List UInt8) (c : ℕ) : Prop :=
  ∃ more, T.wordIndices (text.take c) = (T.wordIndices text).takeWhile (fun w => wordEnd w ≤ c) ++ more ∧
    ∀ x ∈ more, x.2 ≠ [] ∧ wordEnd x ≤ c ∧
      ∃ y ∈ T.wordIndices text, y.1 ≤ x.1 ∧ c < wordEnd y ∧ x.2 <:+: y.2

/-- What the fold relies on: the decomposition of a part is part of the decomposition, and
lowercasing leaves and makes no letter or digit. -/
structure Folds (T : Tables) : Prop where
  nfd_part : ∀ w w', w <:+: w' → ∀ c ∈ T.nfd w, c ∈ T.nfd w'
  lower : ∀ l, (T.toLowercase l).any T.isAlphanumeric = l.any T.isAlphanumeric

theorem keep_eq_some {w : ℕ × List UInt8} {s : Segment} (h : keep T w = some s) :
    s.offset = w.1 ∧ s.len = w.2.length := by
  rw [keep] at h
  split_ifs at h
  obtain rfl := Option.some.inj h
  exact ⟨rfl, rfl⟩

theorem keep_isSome_iff (hT : Folds T) (w : ℕ × List UInt8) : (keep T w).isSome ↔
    ∃ c ∈ T.nfd w.2, dropped c = false ∧ T.isAlphanumeric (apostrophe c) = true := by
  have hterm : (fold T w.2).toList.any T.isAlphanumeric = true ↔
      ∃ c ∈ T.nfd w.2, dropped c = false ∧ T.isAlphanumeric (apostrophe c) = true := by
    rw [fold, String.toList_ofList, hT.lower, List.any_map, List.any_filter]
    simp [List.any_eq_true]
  rw [← hterm, keep]
  split_ifs with h
  · simp [h]
  · simp [h]

theorem keep_of_part (hT : Folds T) {x y : ℕ × List UInt8} (hxy : x.2 <:+: y.2) (h : (keep T x).isSome) :
    (keep T y).isSome := by
  rw [keep_isSome_iff hT] at h ⊢
  obtain ⟨c, hc, h1, h2⟩ := h
  exact ⟨c, hT.nfd_part _ _ hxy c hc, h1, h2⟩

theorem head_segments_eq_none {text : List UInt8} : (segments T text).head? = none ↔
    ∀ w ∈ T.wordIndices text, keep T w = none := by
  rw [List.head?_eq_none_iff, segments, List.filterMap_eq_nil_iff]

theorem head_segments_eq_some {text : List UInt8} {s : Segment} : (segments T text).head? = some s ↔
    ∃ pre w post, T.wordIndices text = pre ++ w :: post ∧ (∀ x ∈ pre, keep T x = none) ∧ keep T w = some s := by
  constructor
  · intro h
    obtain ⟨rest, hrest⟩ := List.head?_eq_some_iff.1 h
    obtain ⟨pre, w, post, h1, h2, h3, -⟩ := List.filterMap_eq_cons_iff.1 hrest
    exact ⟨pre, w, post, h1, h2, h3⟩
  · rintro ⟨pre, w, post, h1, h2, h3⟩
    rw [segments, h1, List.filterMap_append, List.filterMap_eq_nil_iff.2 h2, List.nil_append,
      List.filterMap_cons_some h3, List.head?_cons]

theorem head_segments_cut {text : List UInt8} {c : ℕ} {s : Segment} (hcut : CutStable T text c)
    (hord : (T.wordIndices text).Pairwise fun x y => wordEnd x ≤ y.1)
    (hs : (segments T text).head? = some s) (hle : s.offset + s.len ≤ c) :
    (segments T (text.take c)).head? = some s := by
  obtain ⟨pre, w, post, heq, hpre, hw⟩ := head_segments_eq_some.1 hs
  obtain ⟨more, hmore, -⟩ := hcut
  obtain ⟨h1, h2⟩ := keep_eq_some hw
  rw [heq] at hord
  have hends : ∀ x ∈ pre ++ [w], wordEnd x ≤ c := by
    intro x hx
    rcases List.mem_append.1 hx with hx | hx
    · have := (List.pairwise_append.1 hord).2.2 x hx w List.mem_cons_self
      omega
    · obtain rfl := List.mem_singleton.1 hx
      rw [wordEnd, ← h1, ← h2]
      exact hle
  refine head_segments_eq_some.2 ⟨pre, w, post.takeWhile (fun w => wordEnd w ≤ c) ++ more, ?_, hpre, hw⟩
  rw [hmore, heq, List.append_cons, List.takeWhile_append_of_pos (by simpa using hends), List.append_assoc,
    List.append_assoc, List.singleton_append]

/-- No segment is kept of a text that keeps none, or is cut before the first it keeps. -/
theorem head_segments_cut_none (hT : Folds T) {text : List UInt8} {c : ℕ} (hcut : CutStable T text c)
    (hne : ∀ w ∈ T.wordIndices text, w.2 ≠ []) (hord : (T.wordIndices text).Pairwise fun x y => wordEnd x ≤ y.1)
    (h : ∀ s, (segments T text).head? = some s → c ≤ s.offset) :
    (segments T (text.take c)).head? = none := by
  obtain ⟨more, hmore, hinside⟩ := hcut
  -- a word kept of the text starts at the cut or after it
  have hlate : ∀ y ∈ T.wordIndices text, (keep T y).isSome → c ≤ y.1 := by
    intro y hy hk
    cases hs : (segments T text).head? with
    | none =>
      rw [head_segments_eq_none.1 hs y hy] at hk
      cases hk
    | some s =>
      obtain ⟨pre, w, post, heq, hpre, hw⟩ := head_segments_eq_some.1 hs
      have hle := h s hs
      rw [(keep_eq_some hw).1] at hle
      rw [heq] at hy hord
      rcases List.mem_append.1 hy with hy | hy
      · rw [hpre y hy] at hk
        cases hk
      · rcases List.mem_cons.1 hy with rfl | hy
        · exact hle
        · have := (List.pairwise_cons.1 (List.pairwise_append.1 hord).2.1).1 y hy
          exact hle.trans ((Nat.le_add_right _ _).trans this)
  rw [head_segments_eq_none, hmore]
  intro x hx
  by_contra hk
  have hk' : (keep T x).isSome := Option.isSome_iff_ne_none.2 hk
  rcases List.mem_append.1 hx with hx | hx
  · -- a word that ends by the cut starts before it
    have hend : wordEnd x ≤ c := by simpa using List.mem_takeWhile_imp hx
    have hmem := (List.takeWhile_sublist _).subset hx
    have hstart := hlate x hmem hk'
    have := List.length_pos_iff.2 (hne x hmem)
    rw [wordEnd] at hend
    omega
  · obtain ⟨hne, hend, y, hy, hle, -, hpart⟩ := hinside x hx
    have := hlate y hy (keep_of_part hT hpart hk')
    have := List.length_pos_iff.2 hne
    rw [wordEnd] at hend
    omega

end Search
