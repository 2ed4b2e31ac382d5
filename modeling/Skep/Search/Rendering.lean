import Skep.Search.Snippet

/-!
# What a snippet holds

The loop over the items renders the window from the left. Up to each offset, the text is the
readable bytes of the window so far, every other position is counted by one mark, and the
stretches place every offset seen at the text before it.

## Main results

- `Search.Rendered.chunks`, `Search.Rendered.item` — one item
- `Search.rendered_items` — the whole loop
- `Search.isCharBoundary_text` — an offset outside every character lands between characters
- `Search.snippet_wellCut` — the cut
-/

namespace Search

variable {u : Unit}

/-- The positions the gap marks stand for. -/
def gapWidths (marks : List Mark) : ℕ :=
  (marks.map fun m => match m.kind with
    | .gap width => width
    | _ => 0).sum

@[simp] theorem gapWidths_nil : gapWidths [] = 0 := rfl

@[simp] theorem gapWidths_append (l l' : List Mark) : gapWidths (l ++ l') = gapWidths l + gapWidths l' := by
  simp [gapWidths]

/-- What the loop has rendered of the window from `lo`, up to `q`. -/
structure Rendered (u : Unit) (lo q : ℕ) (cut : Cut) : Prop where
  le : lo ≤ q
  inside : q ≤ u.positions
  text_eq : cut.text = u.text lo q
  width_eq : gapWidths cut.marks + cut.text.length = q - lo
  valid : Utf8.Valid cut.text
  place : ∀ p, lo ≤ p → p ≤ q → toText cut.stretches cut.text.length p = (u.text lo p).length
  bounded : ∀ s ∈ cut.stretches, s.1 ≤ s.2.1 ∧ s.2.1 ≤ q
  marks : ∀ m ∈ cut.marks, ∃ p w, lo ≤ p ∧ p ≤ q ∧ ¬ u.Inner p ∧ m = ⟨(u.text lo p).length, 0, .gap w⟩

-- Places

/-- An offset past every stretch lands at the end of the text. -/
theorem toText_past {l : List (ℕ × ℕ × ℕ)} {len p : ℕ} (h : ∀ s ∈ l, s.1 ≤ s.2.1 ∧ s.2.1 < p) :
    toText l len p = len := by
  induction l with
  | nil => rfl
  | cons s rest ih =>
    obtain ⟨h1, h2⟩ := h s List.mem_cons_self
    obtain ⟨first, past, pos⟩ := s
    dsimp only at h1 h2
    rw [toText, if_neg (by omega), if_neg (by omega)]
    exact ih fun s hs => h s (List.mem_cons_of_mem _ hs)

theorem toText_concat_of_le {l : List (ℕ × ℕ × ℕ)} {first past pos len p : ℕ} (hle : p ≤ first)
    (hpast : first ≤ past) : toText (l ++ [(first, past, pos)]) len p = toText l pos p := by
  induction l with
  | nil =>
    rw [List.nil_append, toText, toText]
    split_ifs
    · rfl
    · omega
    · omega
  | cons s rest ih =>
    rw [List.cons_append, toText, toText, ih]

/-- An offset inside the last stretch lands as far into its text. -/
theorem toText_concat_of_lt {l : List (ℕ × ℕ × ℕ)} {first past pos len p : ℕ} (hlt : first < p)
    (hpast : p ≤ past) (h : ∀ s ∈ l, s.1 ≤ s.2.1 ∧ s.2.1 ≤ first) :
    toText (l ++ [(first, past, pos)]) len p = pos + (p - first) := by
  induction l with
  | nil => rw [List.nil_append, toText, if_neg (by omega), if_pos hpast]
  | cons s rest ih =>
    obtain ⟨h1, h2⟩ := h s List.mem_cons_self
    obtain ⟨first', past', pos'⟩ := s
    dsimp only at h1 h2
    rw [List.cons_append, toText, if_neg (by omega), if_neg (by omega)]
    exact ih fun s hs => h s (List.mem_cons_of_mem _ hs)

-- Readable bytes

theorem length_readable_le (cells : List Cell) : (readable cells).length ≤ cells.length :=
  List.length_filterMap_le _ _

theorem Unit.length_text_le {a b : ℕ} (h : b ≤ u.positions) : (u.text a b).length ≤ b - a := by
  rw [← Unit.length_slice h]
  exact length_readable_le _

/-- Where a part holds no readable byte, no part of it does. -/
theorem Unit.text_eq_nil_of_le {q p q' : ℕ} (h : u.text q q' = []) (hp : q ≤ p) (hp' : p ≤ q') :
    u.text q p = [] := by
  rw [Unit.text_append hp hp'] at h
  exact (List.append_eq_nil_iff.1 h).1

/-- Where every position of a part is readable, every position of what it begins with is. -/
theorem Unit.length_text_of_le {q p q' : ℕ} (h : (u.text q q').length = q' - q) (hp : q ≤ p) (hp' : p ≤ q')
    (hin : q' ≤ u.positions) : (u.text q p).length = p - q := by
  rw [Unit.text_append hp hp', List.length_append] at h
  have h1 := u.length_text_le (a := q) (b := p) (hp'.trans hin)
  have h2 := u.length_text_le (a := p) hin
  omega

theorem readable_textCells {k : ℕ} {bytes : List UInt8} (h : ∀ r ∈ Utf8.roles k bytes, r ≠ .stray) :
    readable (textCells k bytes) = bytes := by
  induction bytes generalizing k with
  | nil => simp [textCells, readable]
  | cons b rest ih =>
    have hrec : ∀ {k' r}, Utf8.roles k (b :: rest) = r :: Utf8.roles k' rest →
        readable (textCells k (b :: rest)) = b :: rest := by
      intro k' r heq
      rw [heq] at h
      have hr : r ≠ .stray := h r List.mem_cons_self
      have hrest := ih fun r' hr' => h r' (List.mem_cons_of_mem _ hr')
      rw [textCells, heq, List.zipWith_cons_cons, readable, List.filterMap_cons]
      cases r with
      | lead => exact congrArg (b :: ·) hrest
      | inner => exact congrArg (b :: ·) hrest
      | stray => exact absurd rfl hr
    cases k with
    | succ k => exact hrec (Utf8.roles_succ_cons k b rest)
    | zero =>
      by_cases hs : (Utf8.scan (b :: rest)).1 = true
      · exact hrec (by rw [Utf8.roles_zero_cons, if_pos hs])
      · exact hrec (by rw [Utf8.roles_zero_cons, if_neg hs])

-- One step

/-- What holds no readable byte is cut out and marked. -/
theorem Rendered.gap {lo q q' : ℕ} {cut : Cut} (h : Rendered u lo q cut) (hle : q ≤ q')
    (hin : q' ≤ u.positions) (hgap : u.text q q' = []) (hq : ¬ u.Inner q) :
    Rendered u lo q' { cut with marks := cut.marks ++ [⟨cut.text.length, 0, .gap (q' - q)⟩] } := by
  refine ⟨h.le.trans hle, hin, ?_, ?_, h.valid, fun p hp hp' => ?_, fun s hs => ?_, fun m hm => ?_⟩
  · rw [Unit.text_append h.le hle, hgap, List.append_nil]
    exact h.text_eq
  · have := h.width_eq
    have := h.le
    rw [gapWidths_append]
    simp only [gapWidths, List.map_cons, List.map_nil, List.sum_cons, List.sum_nil] at *
    omega
  · by_cases hpq : p ≤ q
    · exact h.place p hp hpq
    · have hqp : q ≤ p := (not_le.1 hpq).le
      rw [Unit.text_append h.le hqp, Unit.text_eq_nil_of_le hgap hqp hp', List.append_nil, ← h.text_eq]
      refine toText_past fun s hs => ?_
      have := h.bounded s hs
      omega
  · have := h.bounded s hs
    omega
  · rcases List.mem_append.1 hm with hm | hm
    · obtain ⟨p, w, h1, h2, h3, h4⟩ := h.marks m hm
      exact ⟨p, w, h1, h2.trans hle, h3, h4⟩
    · refine ⟨q, q' - q, h.le, hle, hq, ?_⟩
      rw [List.mem_singleton.1 hm, h.text_eq]

theorem Rendered.run {lo q : ℕ} {cut : Cut} {bytes : List UInt8} (h : Rendered u lo q cut)
    (hin : q + bytes.length ≤ u.positions) (hrun : u.text q (q + bytes.length) = bytes)
    (hvalid : Utf8.Valid bytes) :
    Rendered u lo (q + bytes.length) ⟨cut.text ++ bytes, cut.marks,
      cut.stretches ++ [(q, q + bytes.length, cut.text.length)]⟩ := by
  have hle : q ≤ q + bytes.length := Nat.le_add_right _ _
  refine ⟨h.le.trans hle, hin, ?_, ?_, h.valid.append hvalid, fun p hp hp' => ?_, fun s hs => ?_,
    fun m hm => ?_⟩
  · dsimp only
    rw [Unit.text_append h.le hle, hrun, h.text_eq]
  · have := h.width_eq
    have := h.le
    rw [List.length_append]
    dsimp only
    omega
  · by_cases hpq : p ≤ q
    · rw [toText_concat_of_le hpq hle]
      exact h.place p hp hpq
    · have hqp : q ≤ p := (not_le.1 hpq).le
      have hall : (u.text q (q + bytes.length)).length = q + bytes.length - q := by
        rw [hrun, Nat.add_sub_cancel_left]
      rw [toText_concat_of_lt (not_le.1 hpq) hp' h.bounded, Unit.text_append h.le hqp, List.length_append,
        ← h.text_eq, Unit.length_text_of_le hall hqp hp' hin]
  · rcases List.mem_append.1 hs with hs | hs
    · have := h.bounded s hs
      omega
    · rw [List.mem_singleton.1 hs]
      exact ⟨hle, le_rfl⟩
  · obtain ⟨p, w, h1, h2, h3, h4⟩ := h.marks m hm
    exact ⟨p, w, h1, h2.trans hle, h3, h4⟩

/-- Bytes of no character are cut out and marked, one by one. -/
theorem Rendered.strays {lo q : ℕ} {cut : Cut} {bytes : List UInt8} (h : Rendered u lo q cut)
    (hslice : u.slice q (q + bytes.length) =
      List.zipWith Cell.text (List.replicate bytes.length .stray) bytes)
    (hin : q + bytes.length ≤ u.positions) :
    Rendered u lo (q + bytes.length)
      { cut with marks := cut.marks ++ bytes.map fun _ => ⟨cut.text.length, 0, .gap 1⟩ } := by
  induction bytes generalizing q cut with
  | nil => simpa using h
  | cons b rest ih =>
    rw [List.length_cons] at hin
    have hsplit := Unit.slice_append (u := u) (a := q) (b := q + 1) (c := q + 1 + rest.length)
      (Nat.le_add_right _ _) (Nat.le_add_right _ _)
    have hlt : q < u.cells.length := by
      rw [u.length_cells]
      omega
    have hone : u.slice q (q + 1) = [u.cells[q]] := Unit.slice_succ (List.getElem?_eq_getElem hlt)
    rw [List.length_cons, List.replicate_succ, List.zipWith_cons_cons,
      show q + (rest.length + 1) = q + 1 + rest.length by omega, hsplit, hone] at hslice
    obtain ⟨hcell, hrest⟩ := List.cons.inj hslice
    have hinner : ¬ u.Inner q := by
      rintro ⟨byte, hb⟩
      rw [List.getElem?_eq_getElem hlt, hcell] at hb
      simp at hb
    have hnil : u.text q (q + 1) = [] := by
      rw [Unit.text, hone, hcell]
      rfl
    have hstep := h.gap (Nat.le_succ q) (by omega) hnil hinner
    rw [Nat.succ_sub (le_refl q), Nat.sub_self] at hstep
    have := ih hstep hrest (by omega)
    rw [List.length_cons, show q + (rest.length + 1) = q + 1 + rest.length by omega]
    simpa using this

-- The loop

def chunkCells (chunk : Utf8.Chunk) : List Cell :=
  textCells 0 chunk.valid ++
    List.zipWith Cell.text (List.replicate chunk.invalid.length .stray) chunk.invalid

@[simp] theorem length_textCells (k : ℕ) (bytes : List UInt8) : (textCells k bytes).length = bytes.length := by
  simp [textCells]

theorem textCells_chunks (bytes : List UInt8) :
    textCells 0 bytes = (Utf8.chunks bytes).flatMap chunkCells := by
  have hcuts := Utf8.roles_chunks bytes
  have key : ∀ cs : List Utf8.Chunk, List.zipWith Cell.text (cs.map Utf8.Chunk.roles).flatten
      (cs.map fun c => c.valid ++ c.invalid).flatten = cs.flatMap chunkCells := by
    intro cs
    induction cs with
    | nil => rfl
    | cons c rest ih =>
      simp only [List.map_cons, List.flatten_cons, List.flatMap_cons, Utf8.Chunk.roles]
      rw [List.zipWith_append (by simp), ih, List.zipWith_append (by simp)]
      rfl
  rw [← key, ← hcuts.roles_eq, hcuts.bytes_eq]
  rfl

/-- A part that two lists make up is split where the first ends. -/
theorem Unit.slice_split {q n : ℕ} {l l' : List Cell} (h : u.slice q (q + (l.length + n)) = l ++ l')
    (hin : q + l.length ≤ u.positions) :
    u.slice q (q + l.length) = l ∧ u.slice (q + l.length) (q + l.length + n) = l' := by
  rw [← Nat.add_assoc, Unit.slice_append (b := q + l.length) (Nat.le_add_right _ _)
    (Nat.le_add_right _ _)] at h
  apply List.append_inj h
  rw [Unit.length_slice hin]
  omega

theorem Rendered.chunk {lo q : ℕ} {cut : Cut} {chunk : Utf8.Chunk} (h : Rendered u lo q cut)
    (hslice : u.slice q (q + (chunkCells chunk).length) = chunkCells chunk)
    (hin : q + (chunkCells chunk).length ≤ u.positions) (hvalid : Utf8.Valid chunk.valid) :
    ∃ cut', cutChunk (cut, q) chunk = (cut', q + (chunkCells chunk).length) ∧
      Rendered u lo (q + (chunkCells chunk).length) cut' := by
  have hlen : (chunkCells chunk).length = (textCells 0 chunk.valid).length + chunk.invalid.length := by
    simp [chunkCells]
  rw [hlen] at hslice hin ⊢
  obtain ⟨h1, h2⟩ := Unit.slice_split hslice (by omega)
  rw [length_textCells] at h1 h2 hin ⊢
  have hrun : ∃ cut₁, (if chunk.valid = [] then (cut, q) else
      (⟨cut.text ++ chunk.valid, cut.marks, cut.stretches ++ [(q, q + chunk.valid.length, cut.text.length)]⟩,
        q + chunk.valid.length)) = (cut₁, q + chunk.valid.length) ∧
      Rendered u lo (q + chunk.valid.length) cut₁ := by
    by_cases hv : chunk.valid = []
    · refine ⟨cut, ?_, ?_⟩
      · rw [if_pos hv, hv, List.length_nil, Nat.add_zero]
      · rwa [hv, List.length_nil, Nat.add_zero]
    · refine ⟨_, if_neg hv, ?_⟩
      apply h.run (by omega) _ hvalid
      rw [Unit.text, h1, readable_textCells hvalid]
  obtain ⟨cut₁, heq, hr⟩ := hrun
  refine ⟨_, ?_, Nat.add_assoc q _ _ ▸ hr.strays h2 (by omega)⟩
  rw [cutChunk, heq, ← Nat.add_assoc]

theorem Rendered.chunks {lo q : ℕ} {cut : Cut} {cs : List Utf8.Chunk} (h : Rendered u lo q cut)
    (hslice : u.slice q (q + (cs.flatMap chunkCells).length) = cs.flatMap chunkCells)
    (hin : q + (cs.flatMap chunkCells).length ≤ u.positions) (hvalid : ∀ c ∈ cs, Utf8.Valid c.valid) :
    Rendered u lo (q + (cs.flatMap chunkCells).length) (cs.foldl cutChunk (cut, q)).1 := by
  induction cs generalizing q cut with
  | nil => simpa using h
  | cons c rest ih =>
    rw [List.flatMap_cons, List.length_append] at hslice hin
    obtain ⟨h1, h2⟩ := Unit.slice_split hslice (by omega)
    obtain ⟨cut', heq, hr⟩ := h.chunk h1 (by omega) (hvalid c List.mem_cons_self)
    have := ih hr h2 (by omega) fun c hc => hvalid c (List.mem_cons_of_mem _ hc)
    rwa [List.foldl_cons, heq, List.flatMap_cons, List.length_append, ← Nat.add_assoc]

/-- A byte outside every character goes on with none of its item. -/
theorem Unit.roles_ne_inner {pre post : List Item} {s i : ℕ} {bytes : List UInt8}
    (h : u.items = pre ++ .text s bytes :: post) (hi : ¬ u.Inner (widths pre + i)) :
    (Utf8.roles 0 bytes)[i]? ≠ some .inner := by
  intro hr
  have hlt : i < bytes.length := by
    have := (List.getElem?_eq_some_iff.1 hr).1
    rwa [Utf8.length_roles] at this
  refine hi ⟨bytes[i], ?_⟩
  rw [Unit.cells_getElem?_of_split h hlt, text_getElem?]
  exact ⟨_, _, hr, List.getElem?_eq_getElem hlt, rfl⟩

/-- The cells of a part of an item of text that is cut between characters. -/
theorem textCells_part {bytes : List UInt8} {i j : ℕ} (hij : i ≤ j)
    (hj : j ≤ bytes.length) (hi : (Utf8.roles 0 bytes)[i]? ≠ some .inner)
    (hj' : (Utf8.roles 0 bytes)[j]? ≠ some .inner) :
    ((textCells 0 bytes).take j).drop i = textCells 0 ((bytes.take j).drop i) := by
  have htake := Utf8.roles_take hj' (Nat.zero_le _)
  have hpart : (Utf8.roles 0 (bytes.take j))[i]? ≠ some .inner := by
    rw [htake, List.getElem?_take]
    split_ifs
    · exact hi
    · simp
  rw [textCells, List.take_zipWith, List.drop_zipWith, textCells,
    Utf8.roles_drop hpart (Nat.zero_le _) (by rw [List.length_take]; omega), htake]

/-- One item renders the part of it that the window holds. -/
theorem Rendered.item {lo hi : ℕ} {pre post : List Item} {item : Item} {cut : Cut}
    (heq : u.items = pre ++ item :: post) (hle : lo ≤ hi) (hin : hi ≤ u.positions) (hlo : ¬ u.Inner lo)
    (hhi : ¬ u.Inner hi) (h : Rendered u lo (max lo (min (widths pre) hi)) cut) :
    ∃ cut', cutItem u.start lo hi cut item = .ok cut' ∧
      Rendered u lo (max lo (min (widths pre + item.width) hi)) cut' := by
  have hfirst : item.start - u.start = widths pre := by
    rw [start_of_split (heq ▸ u.laid), Nat.add_sub_cancel_left]
  have hpos : widths pre + item.width ≤ u.positions := by
    rw [Unit.positions, heq, widths_append, widths_cons]
    omega
  rw [cutItem, hfirst]
  dsimp only
  by_cases hout : widths pre + item.width ≤ lo ∨ hi ≤ widths pre
  · refine ⟨cut, if_pos hout, ?_⟩
    rwa [show max lo (min (widths pre + item.width) hi) = max lo (min (widths pre) hi) by omega]
  · rw [if_neg hout]
    obtain ⟨a, ha⟩ : ∃ a, a = max (widths pre) lo := ⟨_, rfl⟩
    obtain ⟨b, hb⟩ : ∃ b, b = min (widths pre + item.width) hi := ⟨_, rfl⟩
    rw [show max lo (min (widths pre) hi) = a by omega] at h
    rw [show max lo (min (widths pre + item.width) hi) = b by omega, ← ha, ← hb]
    have hstart : ¬ u.Inner a := by
      rcases le_total (widths pre) lo with hle' | hle'
      · rwa [ha, max_eq_right hle']
      · rw [ha, max_eq_left hle']
        exact Unit.not_inner_of_split heq
    have hstop : ¬ u.Inner b := by
      rcases le_total (widths pre + item.width) hi with hle' | hle'
      · have hsplit : u.items = (pre ++ [item]) ++ post := by simp [heq]
        rw [hb, min_eq_left hle']
        simpa using Unit.not_inner_of_split hsplit
      · rwa [hb, min_eq_right hle']
    have hslice := Unit.slice_of_split (a := a) (b := b) heq (by omega) (by omega)
    cases item with
    | gap start width kind =>
      refine ⟨_, rfl, h.gap (by omega) (by omega) ?_ hstart⟩
      rw [Unit.text, hslice, Item.cells, List.take_replicate, List.drop_replicate]
      refine List.filterMap_eq_nil_iff.2 fun c hc => ?_
      rw [(List.mem_replicate.1 hc).2]
      rfl
    | text start bytes =>
      dsimp only [Item.width] at hb hout hpos
      have hpart : u.slice a b = textCells 0 ((bytes.take (b - widths pre)).drop (a - widths pre)) := by
        rw [hslice]
        refine textCells_part (by omega) (by omega) ?_ ?_
        · refine Unit.roles_ne_inner heq ?_
          rwa [show widths pre + (a - widths pre) = a by omega]
        · refine Unit.roles_ne_inner heq ?_
          rwa [show widths pre + (b - widths pre) = b by omega]
      have hs : sliceOf bytes (a - widths pre) (b - widths pre) =
          .ok ((bytes.take (b - widths pre)).drop (a - widths pre)) := sliceOf_eq_ok (by omega) (by omega)
      dsimp only
      rw [hs]
      refine ⟨_, rfl, ?_⟩
      rw [textCells_chunks] at hpart
      have hlen := congrArg List.length hpart
      rw [Unit.length_slice (by omega)] at hlen
      have hb' : a + ((Utf8.chunks ((bytes.take (b - widths pre)).drop (a - widths pre))).flatMap
          chunkCells).length = b := by
        rw [← hlen]
        omega
      obtain ⟨cs, hcs⟩ : ∃ cs, cs = Utf8.chunks ((bytes.take (b - widths pre)).drop (a - widths pre)) := ⟨_, rfl⟩
      rw [← hcs] at hb' hpart ⊢
      have hwhole : u.slice a (a + (cs.flatMap chunkCells).length) = cs.flatMap chunkCells := by
        rw [hb', hpart]
      have := h.chunks hwhole (by omega) (hcs ▸ (Utf8.roles_chunks _).valid)
      rwa [hb'] at this

/-- The loop renders the window. -/
theorem rendered_items {lo hi : ℕ} (hle : lo ≤ hi) (hin : hi ≤ u.positions) (hlo : ¬ u.Inner lo)
    (hhi : ¬ u.Inner hi) : ∃ cut, u.items.foldlM (cutItem u.start lo hi) ⟨[], [], []⟩ = .ok cut ∧
      Rendered u lo hi cut := by
  have run : ∀ (post pre : List Item) (cut : Cut), u.items = pre ++ post →
      Rendered u lo (max lo (min (widths pre) hi)) cut →
      ∃ cut', post.foldlM (cutItem u.start lo hi) cut = .ok cut' ∧
        Rendered u lo (max lo (min (widths (pre ++ post)) hi)) cut' := by
    intro post
    induction post with
    | nil =>
      intro pre cut _ h
      exact ⟨cut, rfl, by rwa [List.append_nil]⟩
    | cons item post ih =>
      intro pre cut heq h
      obtain ⟨cut₁, h1, h2⟩ := h.item heq hle hin hlo hhi
      obtain ⟨cut', h3, h4⟩ := ih (pre ++ [item]) cut₁ (by simp [heq]) (by simpa using h2)
      exact ⟨cut', by rw [List.foldlM_cons, h1, Outcome.ok_bind, h3], by simpa using h4⟩
  have hbase : Rendered u lo lo ⟨[], [], []⟩ := by
    refine ⟨le_rfl, hle.trans hin, ?_, ?_, Utf8.valid_nil, ?_, ?_, ?_⟩
    · rw [Unit.text_self]
    · simp
    · intro p hp hp'
      obtain rfl : p = lo := le_antisymm hp' hp
      rw [Unit.text_self]
      rfl
    · simp
    · simp
  obtain ⟨cut, h1, h2⟩ := run u.items [] ⟨[], [], []⟩ rfl (by simpa using hbase)
  refine ⟨cut, h1, ?_⟩
  have hall : widths ([] ++ u.items) = u.positions := rfl
  rwa [hall, min_eq_right hin, max_eq_right hle] at h2

-- Character boundaries

/-- Where a text may be cut: at its ends, or before the first byte of a character. -/
def IsCharBoundary (text : List UInt8) (i : ℕ) : Prop :=
  i ≤ text.length ∧ ∀ b, text[i]? = some b → Utf8.isContinuation b = false

/-- What is readable from an offset outside every character on begins a character. -/
theorem head_text {p n : ℕ} (hin : p + n ≤ u.positions) (hp : ¬ u.Inner p) {b : UInt8}
    (hb : (u.text p (p + n)).head? = some b) : Utf8.isContinuation b = false := by
  induction n generalizing p with
  | zero => simp at hb
  | succ n ih =>
    have hlt : p < u.cells.length := by
      rw [u.length_cells]
      omega
    have hcell := List.getElem?_eq_getElem hlt
    rw [show p + (n + 1) = p + 1 + n by omega, Unit.text_append (Nat.le_succ p) (by omega), Unit.text,
      Unit.slice_succ hcell, readable, List.filterMap_cons] at hb
    cases hc : (u.cells[p]).byte? with
    | none =>
      rw [hc] at hb
      exact ih (by omega) (Unit.not_inner_succ hcell hc) (by simpa using hb)
    | some byte =>
      rw [hc] at hb
      obtain rfl : byte = b := by simpa using hb
      cases hcase : u.cells[p] with
      | gap =>
        rw [hcase] at hc
        cases hc
      | text role byte' =>
        rw [hcase] at hc hcell
        cases role with
        | stray => cases hc
        | inner => exact absurd ⟨byte', hcell⟩ hp
        | lead =>
          obtain rfl : byte' = byte := Option.some.inj hc
          exact Unit.not_continuation_of_lead hcell

/-- An offset outside every character lands between characters. -/
theorem isCharBoundary_text {lo p hi : ℕ} (hlo : lo ≤ p) (hhi : p ≤ hi) (hin : hi ≤ u.positions)
    (hp : ¬ u.Inner p) : IsCharBoundary (u.text lo hi) (u.text lo p).length := by
  rw [Unit.text_append hlo hhi]
  refine ⟨by simp, fun b hb => ?_⟩
  rw [List.getElem?_append_right le_rfl, Nat.sub_self, ← List.head?_eq_getElem?] at hb
  obtain ⟨n, rfl⟩ := Nat.exists_eq_add_of_le hhi
  exact head_text hin hp hb

/-- What is readable between two offsets, cut from the text of a window around them. -/
theorem text_cut {lo s e hi : ℕ} (h1 : lo ≤ s) (h2 : s ≤ e) (h3 : e ≤ hi) :
    ((u.text lo hi).drop (u.text lo s).length).take (u.text s e).length = u.text s e := by
  rw [Unit.text_append h1 (h2.trans h3), List.drop_left, Unit.text_append h2 h3, List.take_left]

/-- Every position of a range of whole characters is readable. -/
theorem Unit.IsTokenRange.length_text {s e s' e' : ℕ} (h : u.IsTokenRange s e) (hs : s ≤ s') (hle : s' ≤ e')
    (he : e' ≤ e) : (u.text s' e').length = e' - s' := by
  obtain ⟨n, rfl⟩ := Nat.exists_eq_add_of_le hle
  clear hle
  rw [Nat.add_sub_cancel_left]
  induction n with
  | zero => simp
  | succ n ih =>
    obtain ⟨c, hc, hbyte⟩ := h.readable (s' + n) (by omega) (by omega)
    obtain ⟨byte, hbyte⟩ := Option.isSome_iff_exists.1 hbyte
    rw [← Nat.add_assoc, Unit.text_append (Nat.le_add_right s' n) (Nat.le_succ _), List.length_append,
      ih (by omega), Unit.text, Unit.slice_succ hc, Search.readable, List.filterMap_cons, hbyte]
    rfl

-- The cut

/-- A mark covers a token's bytes inside the window. -/
structure Covers (u : Unit) (lo hi : ℕ) (text : List UInt8) (m : Mark) (token : Marked) : Prop where
  offset : m.offset = (u.text lo (max token.offset lo)).length
  len : m.len = min (token.offset + token.len) hi - max token.offset lo
  bytes : (text.drop m.offset).take m.len = u.text (max token.offset lo) (min (token.offset + token.len) hi)

/-- An offset kept inside a window. -/
def within (lo hi x : ℕ) : ℕ := max lo (min x hi)

/-- A snippet of the window from `lo` up to `hi`, around `centre`. -/
structure WellCut (u : Unit) (centre : ℕ × ℕ) (spanLo spanHi : ℕ) (marked : List Marked) (lo hi : ℕ)
    (cut : Snippet) : Prop where
  start_eq : cut.start = u.start + lo
  inside : hi ≤ u.positions
  holds : lo ≤ centre.1 ∧ centre.2 ≤ hi
  near : centre.1 ≤ lo + snippetBound ∧ hi ≤ centre.2 + snippetBound
  text_eq : cut.text = u.text lo hi
  valid : Utf8.Valid cut.text
  tiles : gapWidths cut.marks + cut.text.length = hi - lo
  boundaries : ∀ m ∈ cut.marks,
    IsCharBoundary cut.text m.offset ∧ IsCharBoundary cut.text (m.offset + m.len)
  ordered : cut.marks.Pairwise fun a b => (markOrder a b).isLE = true
  span : ∀ m, m ∈ cut.marks ∧ m.kind = .span ↔
    m = ⟨(u.text lo (within lo hi spanLo)).length,
      (u.text (within lo hi spanLo) (within lo hi spanHi)).length, .span⟩
  terms : ∀ m ∈ cut.marks, ∀ t, m.kind = .term t →
    ∃ token ∈ marked, t = token.term ∧ Covers u lo hi cut.text m token
  tokens : ∀ token ∈ marked, max token.offset lo < min (token.offset + token.len) hi →
    ∃ m ∈ cut.marks, m.kind = .term token.term ∧ Covers u lo hi cut.text m token

instance : Std.TransCmp markOrder := by
  unfold markOrder
  infer_instance

instance : Std.Total fun a b : Mark => (markOrder a b).isLE = true where
  total a b := by
    have hswap : markOrder a b = (markOrder b a).swap := Std.OrientedCmp.eq_swap
    rw [hswap]
    cases markOrder b a with
    | lt => exact .inr rfl
    | eq => exact .inl rfl
    | gt => exact .inl rfl

instance : IsTrans Mark fun a b => (markOrder a b).isLE = true where
  trans _ _ _ hab hbc := Std.TransCmp.isLE_trans hab hbc

/-- The passage and what is marked stand in the extent, each between characters. -/
structure Placed (u : Unit) (span : Span) (focus : ℕ × ℕ) (marked : List Marked) : Prop where
  after : u.start ≤ span.start
  inside : span.start + span.width ≤ u.start + u.positions
  start : ¬ u.Inner (span.start - u.start)
  stop : ¬ u.Inner (span.start - u.start + span.width)
  focus_le : focus.1 ≤ focus.2
  focus_inside : focus.2 ≤ u.positions
  focus_start : ¬ u.Inner focus.1
  focus_stop : ¬ u.Inner focus.2
  tokens : ∀ token ∈ marked, u.IsTokenRange token.offset (token.offset + token.len)

theorem Placed.centre {span : Span} {focus : ℕ × ℕ} {marked : List Marked} (h : Placed u span focus marked)
    {c : ℕ × ℕ} (hc : c = centre span (span.start - u.start) focus) :
    c.1 ≤ c.2 ∧ c.2 ≤ u.positions ∧ ¬ u.Inner c.1 ∧ ¬ u.Inner c.2 := by
  subst hc
  unfold Search.centre
  split_ifs
  · exact ⟨h.focus_le, h.focus_inside, h.focus_start, h.focus_stop⟩
  · have := h.after
    have := h.inside
    exact ⟨Nat.le_add_right _ _, by dsimp only; omega, h.start, h.stop⟩

theorem not_inner_within {lo hi x : ℕ} (hlo : ¬ u.Inner lo) (hhi : ¬ u.Inner hi) (hx : ¬ u.Inner x) :
    ¬ u.Inner (within lo hi x) := by
  unfold within
  rcases max_choice lo (min x hi) with h | h
  · rwa [h]
  · rw [h]
    rcases min_choice x hi with h | h <;> rwa [h]

theorem Rendered.toText_eq {lo hi p : ℕ} {cut : Cut} (h : Rendered u lo hi cut) (hlo : lo ≤ p) (hhi : p ≤ hi) :
    toText cut.stretches cut.text.length p = (u.text lo p).length := h.place p hlo hhi

/-- A token is marked where it holds bytes of the window. -/
theorem Rendered.termMark_spec {lo hi : ℕ} {cut : Cut} {token : Marked} (h : Rendered u lo hi cut)
    (ht : u.IsTokenRange token.offset (token.offset + token.len)) :
    ∃ m, termMark cut lo hi token = .ok m ∧
      (∀ m', m = some m' → m'.kind = .term token.term ∧ Covers u lo hi cut.text m' token ∧
        max token.offset lo ≤ min (token.offset + token.len) hi) ∧
      (max token.offset lo < min (token.offset + token.len) hi → m.isSome) := by
  have hle := h.le
  rw [termMark]
  dsimp only
  by_cases hout : token.offset + token.len ≤ lo ∨ hi ≤ token.offset
  · exact ⟨none, if_pos hout, by simp, fun hlt => by omega⟩
  · rw [if_neg hout]
    obtain ⟨s, hs⟩ : ∃ s, s = max token.offset lo := ⟨_, rfl⟩
    obtain ⟨e, he⟩ : ∃ e, e = min (token.offset + token.len) hi := ⟨_, rfl⟩
    rw [← hs, ← he]
    have hse : s ≤ e := by omega
    have hlen : (u.text s e).length = e - s := ht.length_text (by omega) hse (by omega)
    rw [h.toText_eq (by omega) (by omega), h.toText_eq (by omega) (by omega),
      Unit.text_append (b := s) (c := e) (by omega) hse, List.length_append, hlen, Nat.add_sub_cancel_left]
    refine ⟨_, rfl, ?_, ?_⟩
    · intro m' hm'
      split_ifs at hm' with hlt
      obtain rfl := Option.some.inj hm'
      refine ⟨rfl, ⟨by rw [← hs], by rw [← hs, ← he], ?_⟩, hse⟩
      rw [← hs, ← he, h.text_eq]
      dsimp only
      rw [← hlen]
      exact text_cut (by omega) hse (by omega)
    · intro hlt
      rw [if_pos (by omega)]
      rfl

theorem gapWidths_perm {l l' : List Mark} (h : l.Perm l') : gapWidths l = gapWidths l' :=
  (h.map _).sum_eq

theorem gapWidths_eq_zero {l : List Mark} (h : ∀ m ∈ l, ∀ w, m.kind ≠ .gap w) : gapWidths l = 0 := by
  refine List.sum_eq_zero fun w hw => ?_
  obtain ⟨m, hm, rfl⟩ := List.mem_map.1 hw
  cases hk : m.kind with
  | gap width => exact absurd hk (h m hm width)
  | span => rfl
  | term spelling => rfl

/-- What covers a token inside the window stands between characters. -/
theorem Covers.boundaries {lo hi : ℕ} {text : List UInt8} {m : Mark} {token : Marked}
    (h : Covers u lo hi text m token) (ht : u.IsTokenRange token.offset (token.offset + token.len))
    (hin : hi ≤ u.positions) (hlo : ¬ u.Inner lo) (hhi : ¬ u.Inner hi)
    (hle : max token.offset lo ≤ min (token.offset + token.len) hi) :
    IsCharBoundary (u.text lo hi) m.offset ∧ IsCharBoundary (u.text lo hi) (m.offset + m.len) := by
  have hs : ¬ u.Inner (max token.offset lo) := by
    rcases max_choice token.offset lo with h | h
    · rw [h]
      exact ht.start
    · rwa [h]
  have he : ¬ u.Inner (min (token.offset + token.len) hi) := by
    rcases min_choice (token.offset + token.len) hi with h | h
    · rw [h]
      exact ht.stop
    · rwa [h]
  have hlen := ht.length_text (le_max_left _ lo) hle (min_le_left _ hi)
  rw [h.offset, h.len, ← hlen, ← List.length_append, ← Unit.text_append (le_max_right _ _) hle]
  exact ⟨isCharBoundary_text (le_max_right _ _) (hle.trans (min_le_right _ _)) hin hs,
    isCharBoundary_text ((le_max_right _ _).trans hle) (min_le_right _ _) hin he⟩

/-- The marks of a window, before they are sorted: of what was cut out, of the span, of tokens. -/
theorem renderWindow_wellCut {lo hi : ℕ} {span : Span} {focus : ℕ × ℕ} {marked : List Marked}
    (hp : Placed u span focus marked) {c : ℕ × ℕ} (hle : lo ≤ hi) (hin : hi ≤ u.positions)
    (hlo : ¬ u.Inner lo) (hhi : ¬ u.Inner hi) (hholds : lo ≤ c.1 ∧ c.2 ≤ hi)
    (hnear : c.1 ≤ lo + snippetBound ∧ hi ≤ c.2 + snippetBound) :
    ∃ cut, renderWindow u lo hi (span.start - u.start) (span.start - u.start + span.width) marked = .ok cut ∧
      WellCut u c (span.start - u.start) (span.start - u.start + span.width) marked lo hi cut := by
  obtain ⟨cut, hcut, hr⟩ := rendered_items hle hin hlo hhi
  obtain ⟨spanLo, hspanLo⟩ : ∃ x, x = span.start - u.start := ⟨_, rfl⟩
  obtain ⟨spanHi, hspanHi⟩ : ∃ x, x = span.start - u.start + span.width := ⟨_, rfl⟩
  have hstart := hp.start
  have hstop := hp.stop
  rw [← hspanHi] at hstop
  rw [← hspanHi, ← hspanLo]
  rw [← hspanLo] at hstart
  obtain ⟨a, ha⟩ : ∃ a, a = within lo hi spanLo := ⟨_, rfl⟩
  obtain ⟨b, hb⟩ : ∃ b, b = within lo hi spanHi := ⟨_, rfl⟩
  have hab : lo ≤ a ∧ a ≤ b ∧ b ≤ hi := by
    rw [ha, hb, within, within]
    omega
  have ha' : ¬ u.Inner a := ha ▸ not_inner_within hlo hhi hstart
  have hb' : ¬ u.Inner b := hb ▸ not_inner_within hlo hhi hstop
  obtain ⟨terms, hterms, hof, hall⟩ := Outcome.exists_mapM_mem (f := termMark cut lo hi) (l := marked)
    (R := fun token m => (∀ m', m = some m' → m'.kind = .term token.term ∧ Covers u lo hi cut.text m' token ∧
        max token.offset lo ≤ min (token.offset + token.len) hi) ∧
      (max token.offset lo < min (token.offset + token.len) hi → m.isSome))
    (fun token ht => hr.termMark_spec (hp.tokens token ht))
  obtain ⟨spanMark, hspanMark⟩ : ∃ m : Mark, m = ⟨(u.text lo a).length, (u.text a b).length, .span⟩ := ⟨_, rfl⟩
  obtain ⟨marks, hmarks⟩ : ∃ l, l = cut.marks ++ [spanMark] ++ terms.reduceOption := ⟨_, rfl⟩
  have hmem : ∀ m, m ∈ marks ↔ m ∈ cut.marks ∨ m = spanMark ∨ some m ∈ terms := by
    intro m
    rw [hmarks, List.mem_append, List.mem_append, List.mem_singleton, List.reduceOption_mem_iff, or_assoc]
  refine ⟨⟨cut.text, u.start + lo, marks.insertionSort fun a b => (markOrder a b).isLE = true⟩, ?_, ?_⟩
  · rw [renderWindow, hcut]
    simp only [Outcome.ok_bind, clamp, if_pos hle, Outcome.pure_eq, hterms]
    rw [show max lo (min spanLo hi) = a from ha.symm, show max lo (min spanHi hi) = b from hb.symm,
      hr.toText_eq hab.1 (hab.2.1.trans hab.2.2), hr.toText_eq (hab.1.trans hab.2.1) hab.2.2,
      Unit.text_append (b := a) (c := b) hab.1 hab.2.1, List.length_append, Outcome.natSub_add_left,
      Outcome.ok_bind, ← hspanMark, ← hmarks]
  · have hperm : (marks.insertionSort fun a b => (markOrder a b).isLE = true).Perm marks :=
      List.perm_insertionSort _ marks
    have hterm : ∀ m, some m ∈ terms → ∃ token ∈ marked, m.kind = .term token.term ∧
        Covers u lo hi cut.text m token ∧ max token.offset lo ≤ min (token.offset + token.len) hi := by
      intro m hm
      obtain ⟨token, htoken, hspec, -⟩ := hof (some m) hm
      exact ⟨token, htoken, hspec m rfl⟩
    have hcutmark : ∀ m ∈ cut.marks, ∃ p w, lo ≤ p ∧ p ≤ hi ∧ ¬ u.Inner p ∧
        m = ⟨(u.text lo p).length, 0, .gap w⟩ := hr.marks
    constructor
    · rfl
    · exact hin
    · exact hholds
    · exact hnear
    · exact hr.text_eq
    · exact hr.valid
    · have hzero : gapWidths terms.reduceOption = 0 := gapWidths_eq_zero fun m hm w => by
        obtain ⟨token, -, hk, -⟩ := hterm m (List.reduceOption_mem_iff.1 hm)
        rw [hk]
        simp
      have hspan : gapWidths [spanMark] = 0 := gapWidths_eq_zero fun m hm w => by
        rw [List.mem_singleton.1 hm, hspanMark]
        simp
      dsimp only
      rw [gapWidths_perm hperm, hmarks, gapWidths_append, gapWidths_append, hzero, hspan]
      exact hr.width_eq
    · intro m hm
      dsimp only
      rw [hr.text_eq]
      obtain hm | rfl | hm := (hmem m).1 (hperm.mem_iff.1 hm)
      · obtain ⟨p, w, h1, h2, h3, rfl⟩ := hcutmark m hm
        have := isCharBoundary_text h1 h2 hin h3
        exact ⟨this, this⟩
      · rw [hspanMark]
        dsimp only
        rw [← List.length_append, ← Unit.text_append hab.1 hab.2.1]
        exact ⟨isCharBoundary_text hab.1 (hab.2.1.trans hab.2.2) hin ha',
          isCharBoundary_text (hab.1.trans hab.2.1) hab.2.2 hin hb'⟩
      · obtain ⟨token, htoken, -, hcovers, hse⟩ := hterm m hm
        exact hcovers.boundaries (hp.tokens token htoken) hin hlo hhi hse
    · exact List.pairwise_insertionSort _ marks
    · intro m
      rw [show within lo hi spanLo = a from ha.symm, show within lo hi spanHi = b from hb.symm, ← hspanMark]
      constructor
      · rintro ⟨hm, hkind⟩
        obtain hm | rfl | hm := (hmem m).1 (hperm.mem_iff.1 hm)
        · obtain ⟨p, w, -, -, -, rfl⟩ := hcutmark m hm
          cases hkind
        · rfl
        · obtain ⟨token, -, hk, -⟩ := hterm m hm
          rw [hk] at hkind
          cases hkind
      · intro hm
        refine ⟨hperm.mem_iff.2 ((hmem m).2 (.inr (.inl hm))), ?_⟩
        rw [hm, hspanMark]
    · intro m hm t hkind
      obtain hm | hm | hm := (hmem m).1 (hperm.mem_iff.1 hm)
      · obtain ⟨p, w, -, -, -, rfl⟩ := hcutmark m hm
        cases hkind
      · rw [hm, hspanMark] at hkind
        cases hkind
      · obtain ⟨token, htoken, hk, hcovers, -⟩ := hterm m hm
        rw [hk] at hkind
        exact ⟨token, htoken, (MarkKind.term.inj hkind).symm, hcovers⟩
    · intro token htoken hlt
      obtain ⟨m?, hm, hspec, hsome⟩ := hall token htoken
      obtain ⟨m, rfl⟩ := Option.isSome_iff_exists.1 (hsome hlt)
      obtain ⟨hk, hcovers, -⟩ := hspec m rfl
      exact ⟨m, hperm.mem_iff.2 ((hmem m).2 (.inr (.inr hm))), hk, hcovers⟩

/-- The cut where the walk to its first bound stays on its item. -/
theorem snippet_of_bound {span : Span} {focus : ℕ × ℕ} {marked : List Marked} (hp : Placed u span focus marked)
    {c : ℕ × ℕ} (hc : c = centre span (span.start - u.start) focus) {lo₀ : ℕ}
    (hfirst : firstBound u c.1 = .ok lo₀) :
    (boundaryForward u lo₀ c.1 = .fault → snippet u span focus marked = .fault) ∧
    ∀ lo, boundaryForward u lo₀ c.1 = .ok lo → ∃ cut hi, snippet u span focus marked = .ok cut ∧
      WellCut u c (span.start - u.start) (span.start - u.start + span.width) marked lo hi cut := by
  obtain ⟨hcle, hcin, hcs, hce⟩ := hp.centre hc
  obtain ⟨lo', hlo', h1, h2⟩ := firstBound_spec u c.1
  obtain rfl : lo' = lo₀ := Outcome.ok.inj (hlo'.symm.trans hfirst)
  obtain ⟨hi₀, hlast, h3, h4, h5⟩ := lastBound_spec hcin
  have hsub : (Outcome.natSub span.start u.start : Outcome Empty ℕ) = .ok (span.start - u.start) :=
    if_neg (not_lt.2 hp.after)
  have heq : snippet u span focus marked = (do
      let lo ← boundaryForward u lo' c.1
      let hi ← boundaryBack u hi₀ c.2
      renderWindow u lo hi (span.start - u.start) (span.start - u.start + span.width) marked) := by
    rw [snippet, hsub, Outcome.ok_bind, ← hc]
    dsimp only
    rw [hfirst, Outcome.ok_bind, hlast, Outcome.ok_bind]
  rw [heq]
  refine ⟨fun h => by rw [h]; rfl, fun lo hlo => ?_⟩
  obtain ⟨h6, h7, h8⟩ := (boundaryForward_spec h1 hcs).2 lo hlo
  obtain ⟨hi, hhi, h9, h10, h11⟩ := boundaryBack_spec h3 hce
  have hnear : c.1 ≤ lo + snippetBound ∧ hi ≤ c.2 + snippetBound := by omega
  obtain ⟨cut, hcut, hwell⟩ := renderWindow_wellCut hp (h7.trans (hcle.trans h9)) (h10.trans h5) h8 h11
    ⟨h7, h9⟩ hnear
  exact ⟨cut, hi, by rw [hlo, Outcome.ok_bind, hhi, Outcome.ok_bind, hcut], hwell⟩

/-- The cut faults exactly where the walk to its first bound runs off an item. -/
theorem snippet_eq_fault_iff {span : Span} {focus : ℕ × ℕ} {marked : List Marked}
    (hp : Placed u span focus marked) : snippet u span focus marked = .fault ↔
      ∃ lo, firstBound u (centre span (span.start - u.start) focus).1 = .ok lo ∧
        u.RunsOff lo (centre span (span.start - u.start) focus).1 := by
  obtain ⟨lo, hlo, hle, -⟩ := firstBound_spec u (centre span (span.start - u.start) focus).1
  obtain ⟨hfault, hok⟩ := snippet_of_bound hp rfl hlo
  obtain ⟨-, -, hcs, -⟩ := hp.centre rfl
  have hruns := (boundaryForward_spec hle hcs).1
  constructor
  · intro h
    refine ⟨lo, hlo, hruns.1 ?_⟩
    cases hwalk : boundaryForward u lo (centre span (span.start - u.start) focus).1 with
    | fault => rfl
    | err e => exact e.elim
    | ok lo' =>
      obtain ⟨cut, -, hcut, -⟩ := hok lo' hwalk
      rw [hcut] at h
      cases h
  · rintro ⟨lo', hlo', h⟩
    obtain rfl : lo = lo' := Outcome.ok.inj (hlo.symm.trans hlo')
    exact hfault (hruns.2 h)

/-- Where the walk to its first bound stays on its item, the cut returns a snippet of the window's
text, well marked. -/
theorem snippet_wellCut {span : Span} {focus : ℕ × ℕ} {marked : List Marked}
    (hp : Placed u span focus marked)
    (hstays : ∀ lo, firstBound u (centre span (span.start - u.start) focus).1 = .ok lo →
      ¬ u.RunsOff lo (centre span (span.start - u.start) focus).1) :
    ∃ cut lo hi, snippet u span focus marked = .ok cut ∧
      WellCut u (centre span (span.start - u.start) focus) (span.start - u.start)
        (span.start - u.start + span.width) marked lo hi cut := by
  obtain ⟨lo, hlo, hle, -⟩ := firstBound_spec u (centre span (span.start - u.start) focus).1
  obtain ⟨-, hok⟩ := snippet_of_bound hp rfl hlo
  obtain ⟨-, -, hcs, -⟩ := hp.centre rfl
  cases hwalk : boundaryForward u lo (centre span (span.start - u.start) focus).1 with
  | fault => exact absurd ((boundaryForward_spec hle hcs).1.1 hwalk) (hstays lo hlo)
  | err e => exact e.elim
  | ok lo' =>
    obtain ⟨cut, hi, hcut, hwell⟩ := hok lo' hwalk
    exact ⟨cut, lo', hi, hcut, hwell⟩

/-- A unit of these items, from ordinal 1. -/
def unitOf (items : List Item) (hlaid : Laid 1 items)
    (hjoined : items.IsChain fun a b => ¬ (a.isText = true ∧ b.isText = true))
    (hfits : 1 + widths items < 2 ^ 64) : Unit :=
  ⟨⟨⟨[1, 0, 3, 0, 1], by simp⟩, .document, by decide⟩, none, .edition, .guest, 1, 1, items, 0, hlaid, hjoined,
    hfits⟩

/-- A letter, a withheld run, and a text with a byte of no character in it. -/
def holedUnit : Unit :=
  unitOf [.text 1 [0x61, 0x20], .gap 3 2 .unknown, .text 5 [0x62, 0xFF, 0x63]] ⟨rfl, rfl, rfl, trivial⟩
    (by simp [Item.isText]) (by decide)

theorem snippet_wellCut_holed : ∃ cut lo hi, snippet holedUnit ⟨5, 3⟩ (4, 5) [⟨4, 1, "b"⟩] = .ok cut ∧
    WellCut holedUnit (4, 7) 4 7 [⟨4, 1, "b"⟩] lo hi cut := by
  apply snippet_wellCut
  · refine ⟨by decide, by decide, by decide, by decide, by decide, by decide, by decide, by decide, ?_⟩
    intro token ht
    obtain rfl := List.mem_singleton.1 ht
    refine ⟨by decide, by decide, fun p h1 h2 => ?_, by decide, by decide⟩
    obtain rfl : p = 4 := by
      dsimp only at h1 h2
      omega
    exact ⟨_, rfl, rfl⟩
  · intro lo hlo
    obtain rfl : 0 = lo := Outcome.ok.inj ((show firstBound holedUnit 4 = .ok 0 by decide).symm.trans hlo)
    rintro ⟨first, bytes, -, h, -⟩
    exact Nat.not_lt_zero _ h

/-- The byte before a withheld run goes on with a character, 240 positions before the passage. -/
def tailUnit : Unit :=
  unitOf [.text 1 [0x61, 0x80], .gap 3 239 .unknown, .text 242 [0x62]] ⟨rfl, rfl, rfl, trivial⟩
    (by simp [Item.isText]) (by decide)

/-- A short passage, its first letter far from its second. -/
def wideUnit : Unit :=
  unitOf [.text 1 [0x61], .gap 2 238 .unknown, .text 240 [0x62], .gap 241 250 .unknown]
    ⟨rfl, rfl, rfl, rfl, trivial⟩ (by simp [Item.isText]) (by decide)

/-- The walk runs off an item, and no snippet is returned. And a window around a passage no wider
than the bound reaches further past the focus, its first match, than the bound. -/
theorem snippet_runs_off_and_past_focus :
    (Placed tailUnit ⟨242, 1⟩ (241, 242) [] ∧ snippet tailUnit ⟨242, 1⟩ (241, 242) [] = .fault) ∧
    Placed wideUnit ⟨1, 240⟩ (0, 1) [] ∧ ∃ cut, snippet wideUnit ⟨1, 240⟩ (0, 1) [] = .ok cut ∧
      1 + snippetBound < cut.start - wideUnit.start + (gapWidths cut.marks + cut.text.length) := by
  refine ⟨⟨?_, ?_⟩, ?_, ?_⟩
  · refine ⟨by decide, by decide, ?_, ?_, by decide, by decide, ?_, ?_, by simp⟩ <;> decide +kernel
  · decide +kernel
  · refine ⟨by decide, by decide, ?_, ?_, by decide, by decide, ?_, ?_, by simp⟩ <;> decide +kernel
  · exact ⟨⟨[0x61, 0x62], 1, [⟨0, 2, .span⟩, ⟨1, 0, .gap 238⟩, ⟨2, 0, .gap 240⟩]⟩, by decide +kernel,
      by decide⟩

end Search
