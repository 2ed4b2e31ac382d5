import Skep.Address.Address
import Skep.Library.Numbering
import Skep.Library.OrdSet

/-!
# The common refinement of run lists

The runs of every list are cut at every other run's edges, and each list becomes a
sequence of fragment ids. A fragment that a list places again is a copy: the `k`th
placement has one id in every list, and no id stands twice in one.
-/

namespace Composition

/-- A position of a document. -/
abbrev Position : Type := Address × ℕ

/-- The top of the range of ordinals. -/
def ordinalMax : ℕ := 2 ^ 64 - 1

def saturatingAdd (a b : ℕ) : ℕ := min (a + b) ordinalMax

/-- Some positions of a document, in a row. -/
structure Run where
  origin : Address
  iStart : ℕ
  width : ℕ
  deriving DecidableEq

def Run.reach (run : Run) : ℕ := saturatingAdd run.iStart run.width

/-- The positions the run places. -/
def Run.positions (run : Run) : List Position :=
  (List.range' run.iStart run.width).map fun n => (run.origin, n)

/-- The address sequence of a list. -/
def positions (runs : List Run) : List Position := runs.flatMap Run.positions

/-- A stretch of the refinement, its origin by number. -/
structure Frag where
  origin : ℕ
  start : ℕ
  width : ℕ
  deriving DecidableEq

/-- The origins named, and the edges of the runs of each. -/
structure Edges where
  origins : List Address
  points : List (List ℕ)

def Edges.note (edges : Edges) (run : Run) : Edges :=
  if run.width = 0 then edges
  else
    match edges.origins.idxOf? run.origin with
    | some o => { edges with points := edges.points.modify o (· ++ [run.iStart, run.reach]) }
    | none => ⟨edges.origins ++ [run.origin], edges.points ++ [[run.iStart, run.reach]]⟩

/-- The edges in order, each once. -/
def cutPoints (pts : List ℕ) : List ℕ := (OrdSet.ofList pts).elems

/-- The fragments between the edges of an origin. -/
def fragsBetween (o : ℕ) (pts : List ℕ) : List Frag :=
  (pts.zip pts.tail).map fun pair => ⟨o, pair.1, pair.2 - pair.1⟩

/-- The fragments by id, the first of each origin's. -/
structure Table where
  origins : List Address
  points : List (List ℕ)
  first : List ℕ
  frags : List Frag

def Table.of (runs : List Run) : Table :=
  let edges := runs.foldl Edges.note ⟨[], []⟩
  let points := edges.points.map cutPoints
  let cut := points.zipIdx.foldl (fun (cut : List ℕ × List Frag) e =>
    (cut.1 ++ [cut.2.length], cut.2 ++ fragsBetween e.2 e.1)) ([], [])
  ⟨edges.origins, points, cut.1, cut.2⟩

/-- The fragments a run is cut into. -/
def Table.idsOf (table : Table) (run : Run) : List ℕ :=
  match table.origins.idxOf? run.origin with
  | none => []
  | some o =>
      let pts := table.points.getD o []
      match pts.idxOf? run.iStart, pts.idxOf? run.reach with
      | some i, some j => List.range' (table.first.getD o 0 + i) (j - i)
      | _, _ => []

/-- The fragments with the copies minted so far: the `k`th repeat of a fragment, shared by every
list. -/
structure Minted where
  frags : List Frag
  copies : ℕ × ℕ → Option ℕ

/-- What a list has placed: how often each fragment, and the ids. -/
structure Placed where
  minted : Minted
  placed : ℕ → ℕ
  out : List ℕ

/-- A fragment of its own for a repeat. -/
def Minted.mint (m : Minted) (id k : ℕ) : Minted :=
  ⟨m.frags ++ m.frags[id]?.toList, Function.update m.copies (id, k) (some m.frags.length)⟩

/-- The id of a fragment's `k`th repeat, minted as a list first places it. -/
def Minted.copy (m : Minted) (id k : ℕ) : ℕ × Minted :=
  if k = 0 then (id, m)
  else
    match m.copies (id, k) with
    | some c => (c, m)
    | none => (m.frags.length, m.mint id k)

def Placed.put (acc : Placed) (id : ℕ) : Placed :=
  let copy := acc.minted.copy id (acc.placed id)
  ⟨copy.2, Function.update acc.placed id (acc.placed id + 1), acc.out ++ [copy.1]⟩

/-- A list as a sequence of fragment ids. -/
def Table.sequence (table : Table) (m : Minted) (runs : List Run) : List ℕ × Minted :=
  let placed := (runs.filter fun run => 0 < run.width).foldl
    (fun acc run => (table.idsOf run).foldl Placed.put acc) ⟨m, fun _ => 0, []⟩
  (placed.out, placed.minted)

/-- The lists given as sequences over one fragment table. -/
structure Refinement where
  origins : List Address
  frags : List Frag
  base : List ℕ
  sides : List (List ℕ)

/-- The sequences of the sides, each over the copies the lists before it minted. -/
def Table.sequences (table : Table) (m : Minted) : List (List Run) → List (List ℕ) × Minted
  | [] => ([], m)
  | runs :: sides =>
      let (seq, m) := table.sequence m runs
      let (seqs, m) := table.sequences m sides
      (seq :: seqs, m)

/-- The refinement of the base and the sides. -/
def Refinement.of (base : List Run) (sides : List (List Run)) : Refinement :=
  let table := Table.of (base ++ sides.flatten)
  let (baseSeq, m) := table.sequence ⟨table.frags, fun _ => none⟩ base
  let (sideSeqs, m) := table.sequences m sides
  ⟨table.origins, m.frags, baseSeq, sideSeqs⟩

namespace Refinement

/-- A fragment as the run it is. -/
def run? (r : Refinement) (f : ℕ) : Option Run := do
  let frag ← r.frags[f]?
  let origin ← r.origins[frag.origin]?
  some ⟨origin, frag.start, frag.width⟩

def width (r : Refinement) (f : ℕ) : ℕ := (r.frags[f]?.map Frag.width).getD 0

/-- Widen the last run by one that it is adjacent to. -/
def widen (out : List Run) (run : Run) : List Run :=
  match out.getLast? with
  | some last =>
      if last.origin = run.origin ∧ last.reach = run.iStart ∧ last.width + run.width ≤ ordinalMax then
        out.dropLast ++ [{ last with width := last.width + run.width }]
      else out ++ [run]
  | none => [run]

/-- The fragments as runs. -/
def coalesce (r : Refinement) (frags : List ℕ) : List Run := (frags.filterMap r.run?).foldl widen []

/-- The positions a sequence of fragments stands for. -/
def positions (r : Refinement) (seq : List ℕ) : List Position :=
  seq.flatMap fun f => (r.run? f).elim [] Run.positions

end Refinement

-- Copies

open Numbering

/-- The copies minted over a table of `n` fragments: each past the table, its fragment's, and that of one
repeat. -/
structure Minted.Sound (n : ℕ) (m : Minted) : Prop where
  table : n ≤ m.frags.length
  fresh : ∀ id k c, m.copies (id, k) = some c → n ≤ c ∧ c < m.frags.length ∧ k ≠ 0
  copied : ∀ id k c, m.copies (id, k) = some c → m.frags[c]? = m.frags[id]?
  apart : ∀ p q c, m.copies p = some c → m.copies q = some c → p = q

/-- What was minted stays. -/
structure Minted.Extends (m m' : Minted) : Prop where
  frags : m.frags <+: m'.frags
  copies : ∀ p c, m.copies p = some c → m'.copies p = some c

/-- The id of a fragment's `k`th repeat. -/
def Minted.Names (n : ℕ) (m : Minted) (c : ℕ) (p : ℕ × ℕ) : Prop :=
  (p.2 = 0 ∧ c = p.1 ∧ p.1 < n) ∨ m.copies p = some c

namespace Minted

variable {n : ℕ} {m m' m'' : Minted}

theorem Extends.refl (m : Minted) : m.Extends m := ⟨List.prefix_rfl, fun _ _ h => h⟩

theorem Extends.trans (h : m.Extends m') (h' : m'.Extends m'') : m.Extends m'' :=
  ⟨h.frags.trans h'.frags, fun p c hp => h'.copies p c (h.copies p c hp)⟩

theorem Extends.names (h : m.Extends m') {c : ℕ} {p : ℕ × ℕ} (hc : m.Names n c p) : m'.Names n c p := by
  rcases hc with hc | hc
  · exact .inl hc
  · exact .inr (h.copies p c hc)

theorem Sound.names_inj (h : m.Sound n) {c : ℕ} {p q : ℕ × ℕ} (hp : m.Names n c p) (hq : m.Names n c q) :
    p = q := by
  rcases hp with ⟨hp, hcp, hlt⟩ | hp
  · rcases hq with ⟨hq, hcq, -⟩ | hq
    · exact Prod.ext (hcp.symm.trans hcq) (hp.trans hq.symm)
    · have := (h.fresh q.1 q.2 c hq).1
      omega
  · rcases hq with ⟨hq, hcq, hlt⟩ | hq
    · have := (h.fresh p.1 p.2 c hp).1
      omega
    · exact h.apart p q c hp hq

theorem Sound.names_unique (h : m.Sound n) {c c' : ℕ} {p : ℕ × ℕ} (hc : m.Names n c p) (hc' : m.Names n c' p) :
    c = c' := by
  rcases hc with ⟨hk, rfl, -⟩ | hc
  · rcases hc' with ⟨-, hc', -⟩ | hc'
    · exact hc'.symm
    · exact absurd hk (h.fresh p.1 p.2 c' hc').2.2
  · rcases hc' with ⟨hk, -, -⟩ | hc'
    · exact absurd hk (h.fresh p.1 p.2 c hc).2.2
    · rw [hc] at hc'
      exact Option.some.inj hc'

theorem Sound.names_frag (h : m.Sound n) {c : ℕ} {p : ℕ × ℕ} (hc : m.Names n c p) :
    m.frags[c]? = m.frags[p.1]? := by
  rcases hc with ⟨-, rfl, -⟩ | hc
  · rfl
  · exact h.copied p.1 p.2 c hc

theorem mint_copies {id k c : ℕ} {p : ℕ × ℕ} (h : (m.mint id k).copies p = some c) :
    (p = (id, k) ∧ c = m.frags.length) ∨ m.copies p = some c := by
  change Function.update m.copies (id, k) (some m.frags.length) p = some c at h
  by_cases hp : p = (id, k)
  · subst hp
    rw [Function.update_self, Option.some.injEq] at h
    exact .inl ⟨rfl, h.symm⟩
  · rw [Function.update_of_ne hp] at h
    exact .inr h

theorem Sound.mint_frags (h : m.Sound n) {id : ℕ} (hid : id < n) (k : ℕ) :
    ∃ frag, m.frags[id]? = some frag ∧ (m.mint id k).frags = m.frags ++ [frag] := by
  have hlt : id < m.frags.length := hid.trans_le h.table
  refine ⟨m.frags[id], List.getElem?_eq_getElem hlt, ?_⟩
  rw [mint, List.getElem?_eq_getElem hlt]
  rfl

theorem Sound.mint (h : m.Sound n) {id k : ℕ} (hid : id < n) (hk : k ≠ 0) : (m.mint id k).Sound n := by
  obtain ⟨frag, hfrag, hfrags⟩ := h.mint_frags hid k
  have hlen : (m.mint id k).frags.length = m.frags.length + 1 := by
    rw [hfrags, List.length_append, List.length_singleton]
  refine ⟨hlen ▸ h.table.trans (Nat.le_succ _), fun id' k' c hc => ?_, fun id' k' c hc => ?_,
    fun p q c hp hq => ?_⟩
  · rw [hlen]
    rcases mint_copies hc with ⟨hp, rfl⟩ | hc
    · obtain ⟨-, rfl⟩ := Prod.mk.inj hp
      exact ⟨h.table, Nat.lt_succ_self _, hk⟩
    · obtain ⟨hge, hlt, hk'⟩ := h.fresh id' k' c hc
      exact ⟨hge, hlt.trans (Nat.lt_succ_self _), hk'⟩
  · rw [hfrags]
    rcases mint_copies hc with ⟨hp, rfl⟩ | hc
    · obtain ⟨rfl, -⟩ := Prod.mk.inj hp
      rw [List.getElem?_append_right le_rfl, Nat.sub_self,
        List.getElem?_append_left (List.getElem?_eq_some_iff.1 hfrag).1, hfrag]
      rfl
    · have hclt := (h.fresh id' k' c hc).2.1
      have hcopy := h.copied id' k' c hc
      rw [List.getElem?_eq_getElem hclt] at hcopy
      have hid' := (List.getElem?_eq_some_iff.1 hcopy.symm).1
      rw [List.getElem?_append_left hclt, List.getElem?_append_left hid', List.getElem?_eq_getElem hclt, hcopy]
  · have hpast : ∀ p, m.copies p ≠ some m.frags.length := fun p hp =>
      absurd (h.fresh p.1 p.2 _ hp).2.1 (lt_irrefl _)
    rcases mint_copies hp with ⟨rfl, rfl⟩ | hp
    · rcases mint_copies hq with ⟨rfl, -⟩ | hq
      · rfl
      · exact absurd hq (hpast q)
    · rcases mint_copies hq with ⟨rfl, rfl⟩ | hq
      · exact absurd hp (hpast p)
      · exact h.apart p q c hp hq

theorem Sound.extends_mint (h : m.Sound n) {id k : ℕ} (hid : id < n) (hnew : m.copies (id, k) = none) :
    m.Extends (m.mint id k) := by
  obtain ⟨frag, -, hfrags⟩ := h.mint_frags hid k
  refine ⟨hfrags ▸ List.prefix_append _ _, fun p c hp => ?_⟩
  have hne : p ≠ (id, k) := by
    rintro rfl
    rw [hnew] at hp
    cases hp
  exact (Function.update_of_ne hne _ _).trans hp

theorem Sound.copy (h : m.Sound n) {id : ℕ} (hid : id < n) (k : ℕ) : (m.copy id k).2.Sound n ∧
    m.Extends (m.copy id k).2 ∧ (m.copy id k).2.Names n (m.copy id k).1 (id, k) := by
  rw [Minted.copy]
  by_cases hk : k = 0
  · rw [if_pos hk]
    exact ⟨h, .refl m, .inl ⟨hk, rfl, hid⟩⟩
  · rw [if_neg hk]
    cases hc : m.copies (id, k) with
    | some c => exact ⟨h, .refl m, .inr hc⟩
    | none => exact ⟨h.mint hid hk, h.extends_mint hid hc, .inr (Function.update_self ..)⟩

end Minted

/-- A list's placements come out as the ids of its fragments and their numbers. -/
theorem foldl_put {n : ℕ} {m : Minted} (h : m.Sound n) {raw : List ℕ} (hraw : ∀ id ∈ raw, id < n) :
    let acc := raw.foldl Placed.put ⟨m, fun _ => 0, []⟩
    acc.minted.Sound n ∧ m.Extends acc.minted ∧ (∀ id, acc.placed id = raw.count id) ∧
      List.Forall₂ (acc.minted.Names n) acc.out (numbered raw) := by
  induction raw using List.reverseRecOn with
  | nil => exact ⟨h, .refl m, fun _ => rfl, .nil⟩
  | append_singleton raw id ih =>
    obtain ⟨hsound, hext, hplaced, hout⟩ := ih fun id' h' => hraw id' (List.mem_append_left _ h')
    rw [List.foldl_append, List.foldl_cons, List.foldl_nil]
    generalize raw.foldl Placed.put ⟨m, fun _ => 0, []⟩ = acc at hsound hext hplaced hout ⊢
    obtain ⟨hcopy, hext', hnames⟩ := hsound.copy (hraw id (by simp)) (acc.placed id)
    refine ⟨hcopy, hext.trans hext', fun id' => ?_, ?_⟩
    · show Function.update acc.placed id (acc.placed id + 1) id' = (raw ++ [id]).count id'
      rw [List.count_append]
      by_cases hid : id' = id
      · subst hid
        rw [Function.update_self, hplaced, List.count_singleton_self]
      · rw [Function.update_of_ne hid, hplaced, List.count_singleton, if_neg (by simpa using Ne.symm hid), Nat.add_zero]
    · rw [numbered_append_singleton]
      refine List.rel_append (hout.imp fun c p hc => hext'.names hc) (.cons ?_ .nil)
      rw [← hplaced]
      exact hnames

-- The edges

/-- A list without repeats holds an element at one index. -/
theorem idxOf?_eq_some_iff_getElem? {α : Type} [DecidableEq α] {l : List α} (hl : l.Nodup) {a : α} {i : ℕ} :
    l.idxOf? a = some i ↔ l[i]? = some a := by
  rw [List.idxOf?_eq_some_iff, List.getElem?_eq_some_iff]
  constructor
  · rintro ⟨hlt, heq, -⟩
    exact ⟨hlt, heq⟩
  · rintro ⟨hlt, heq⟩
    refine ⟨hlt, heq, fun j hj hj' => ?_⟩
    have hsame := hl.getElem_inj_iff.1 (hj'.trans heq.symm)
    omega

structure Edges.Sound (edges : Edges) : Prop where
  nodup : edges.origins.Nodup
  lengths : edges.points.length = edges.origins.length
  bounded : ∀ pts ∈ edges.points, ∀ x ∈ pts, x ≤ ordinalMax

/-- The edges of the run are noted, at its origin. -/
def Edges.Holds (edges : Edges) (run : Run) : Prop :=
  ∃ (o : ℕ) (pts : List ℕ), edges.origins[o]? = some run.origin ∧ edges.points[o]? = some pts ∧
    run.iStart ∈ pts ∧ run.reach ∈ pts

theorem Run.reach_le (run : Run) : run.reach ≤ ordinalMax := min_le_right _ _

namespace Edges

variable {edges : Edges} (h : edges.Sound) {run : Run}

include h

theorem Sound.note_of_mem {o : ℕ} (hwidth : run.width ≠ 0) (ho : edges.origins[o]? = some run.origin) :
    edges.note run = { edges with points := edges.points.modify o (· ++ [run.iStart, run.reach]) } := by
  rw [note, if_neg hwidth, (idxOf?_eq_some_iff_getElem? h.nodup).2 ho]

omit h in
theorem note_of_not_mem (hwidth : run.width ≠ 0) (ho : run.origin ∉ edges.origins) : edges.note run =
    ⟨edges.origins ++ [run.origin], edges.points ++ [[run.iStart, run.reach]]⟩ := by
  rw [note, if_neg hwidth, List.idxOf?_eq_none_iff.2 ho]

theorem Sound.note (hstart : run.iStart ≤ ordinalMax) : (edges.note run).Sound := by
  have hnew : ∀ x ∈ [run.iStart, run.reach], x ≤ ordinalMax := by
    intro x hx
    rcases List.mem_pair.1 hx with rfl | rfl
    · exact hstart
    · exact run.reach_le
  by_cases hwidth : run.width = 0
  · rw [Edges.note, if_pos hwidth]
    exact h
  · by_cases hmem : run.origin ∈ edges.origins
    · obtain ⟨o, ho⟩ := List.mem_iff_getElem?.1 hmem
      rw [h.note_of_mem hwidth ho]
      refine ⟨h.nodup, by rw [List.length_modify, h.lengths], fun pts hpts x hx => ?_⟩
      obtain ⟨o', ho'⟩ := List.mem_iff_getElem?.1 hpts
      rw [List.getElem?_modify] at ho'
      obtain ⟨old, hold, rfl⟩ := Option.map_eq_some_iff.1 ho'
      have hbound := h.bounded old (List.mem_of_getElem? hold)
      split at hx
      · rcases List.mem_append.1 hx with hx | hx
        · exact hbound x hx
        · exact hnew x hx
      · exact hbound x hx
    · rw [note_of_not_mem hwidth hmem]
      refine ⟨?_, by rw [List.length_append, List.length_append, h.lengths]; rfl, fun pts hpts x hx => ?_⟩
      · rw [List.nodup_append]
        refine ⟨h.nodup, List.nodup_singleton _, fun a ha b hb => ?_⟩
        rintro rfl
        exact hmem (List.mem_singleton.1 hb ▸ ha)
      · rcases List.mem_append.1 hpts with hpts | hpts
        · exact h.bounded pts hpts x hx
        · rw [List.mem_singleton.1 hpts] at hx
          exact hnew x hx

theorem Sound.holds_note (hwidth : run.width ≠ 0) : (edges.note run).Holds run := by
  by_cases hmem : run.origin ∈ edges.origins
  · obtain ⟨o, ho⟩ := List.mem_iff_getElem?.1 hmem
    have hlt := (List.getElem?_eq_some_iff.1 ho).1
    rw [← h.lengths] at hlt
    rw [h.note_of_mem hwidth ho]
    refine ⟨o, edges.points[o] ++ [run.iStart, run.reach], ho, ?_, by simp, by simp⟩
    rw [List.getElem?_modify_eq, List.getElem?_eq_getElem hlt]
    rfl
  · rw [note_of_not_mem hwidth hmem]
    refine ⟨edges.origins.length, [run.iStart, run.reach], by simp, ?_, by simp, by simp⟩
    rw [← h.lengths]
    simp

theorem Sound.holds_of_note {run' : Run} (hold : edges.Holds run') : (edges.note run).Holds run' := by
  obtain ⟨o', pts', ho', hpts', hstart, hreach⟩ := hold
  by_cases hwidth : run.width = 0
  · rw [Edges.note, if_pos hwidth]
    exact ⟨o', pts', ho', hpts', hstart, hreach⟩
  · by_cases hmem : run.origin ∈ edges.origins
    · obtain ⟨o, ho⟩ := List.mem_iff_getElem?.1 hmem
      rw [h.note_of_mem hwidth ho]
      by_cases hsame : o = o'
      · subst hsame
        refine ⟨o, pts' ++ [run.iStart, run.reach], ho', ?_, List.mem_append_left _ hstart,
          List.mem_append_left _ hreach⟩
        rw [List.getElem?_modify_eq, hpts']
        rfl
      · exact ⟨o', pts', ho', by rw [List.getElem?_modify_ne _ _ hsame, hpts'], hstart, hreach⟩
    · rw [note_of_not_mem hwidth hmem]
      refine ⟨o', pts', ?_, ?_, hstart, hreach⟩
      · rw [List.getElem?_append_left (List.getElem?_eq_some_iff.1 ho').1, ho']
      · rw [List.getElem?_append_left (List.getElem?_eq_some_iff.1 hpts').1, hpts']

end Edges

theorem edges_spec {runs : List Run} (hruns : ∀ run ∈ runs, run.iStart ≤ ordinalMax) :
    (runs.foldl Edges.note ⟨[], []⟩).Sound ∧
      ∀ run ∈ runs, run.width ≠ 0 → (runs.foldl Edges.note ⟨[], []⟩).Holds run := by
  induction runs using List.reverseRecOn with
  | nil => exact ⟨⟨List.nodup_nil, rfl, (fun pts h => nomatch h)⟩, (fun run h => nomatch h)⟩
  | append_singleton runs last ih =>
    obtain ⟨hsound, hholds⟩ := ih fun run hrun => hruns run (List.mem_append_left _ hrun)
    rw [List.foldl_append, List.foldl_cons, List.foldl_nil]
    refine ⟨hsound.note (hruns last (by simp)), fun run hrun hwidth => ?_⟩
    rcases List.mem_append.1 hrun with hrun | hrun
    · exact hsound.holds_of_note (hholds run hrun hwidth)
    · rw [List.mem_singleton] at hrun
      subst hrun
      exact hsound.holds_note hwidth

-- The fragments

theorem getElem?_fragsBetween {o : ℕ} {pts : List ℕ} {j a b : ℕ} (ha : pts[j]? = some a)
    (hb : pts[j + 1]? = some b) : (fragsBetween o pts)[j]? = some ⟨o, a, b - a⟩ := by
  have hzip : (pts.zip pts.tail)[j]? = some (a, b) :=
    List.getElem?_zip_eq_some.2 ⟨ha, by rw [List.getElem?_tail, hb]⟩
  rw [fragsBetween, List.getElem?_map, hzip]
  rfl

theorem getElem?_of_prefix {α : Type} {l l' : List α} (h : l <+: l') {i : ℕ} {a : α} (hi : l[i]? = some a) :
    l'[i]? = some a := by
  obtain ⟨rest, rfl⟩ := h
  rw [List.getElem?_append_left (List.getElem?_eq_some_iff.1 hi).1, hi]

/-- One turn of the cutting: where an origin's fragments begin, and they. -/
def cutNext (cut : List ℕ × List Frag) (e : List ℕ × ℕ) : List ℕ × List Frag :=
  (cut.1 ++ [cut.2.length], cut.2 ++ fragsBetween e.2 e.1)

theorem foldl_cutNext (l : List (List ℕ × ℕ)) (cut : List ℕ × List Frag) :
    cut.1 <+: (l.foldl cutNext cut).1 ∧ cut.2 <+: (l.foldl cutNext cut).2 ∧
      ∀ i pts o, l[i]? = some (pts, o) → ∃ first, (l.foldl cutNext cut).1[cut.1.length + i]? = some first ∧
        ∀ j frag, (fragsBetween o pts)[j]? = some frag → (l.foldl cutNext cut).2[first + j]? = some frag := by
  induction l generalizing cut with
  | nil => exact ⟨List.prefix_rfl, List.prefix_rfl, fun i pts o h => by simp at h⟩
  | cons e l ih =>
    obtain ⟨hfirst, hfrags, hall⟩ := ih (cutNext cut e)
    have hgrow : cut.1 <+: (cutNext cut e).1 ∧ cut.2 <+: (cutNext cut e).2 :=
      ⟨List.prefix_append _ _, List.prefix_append _ _⟩
    refine ⟨hgrow.1.trans hfirst, hgrow.2.trans hfrags, fun i pts o hi => ?_⟩
    rw [List.foldl_cons]
    cases i with
    | zero =>
      cases hi
      refine ⟨cut.2.length, ?_, fun j frag hj => ?_⟩
      · exact getElem?_of_prefix hfirst (by simp [cutNext])
      · refine getElem?_of_prefix hfrags ?_
        rw [cutNext, List.getElem?_append_right (Nat.le_add_right _ _), Nat.add_sub_cancel_left, hj]
    | succ i =>
      obtain ⟨first, hget, hfrag⟩ := hall i pts o hi
      refine ⟨first, ?_, hfrag⟩
      rw [← hget, cutNext, List.length_append, List.length_singleton]
      congr 1
      omega

/-- The fragments from one edge to a later one stand for what is between. -/
theorem flatMap_fragments {pts : List ℕ} (hasc : pts.Pairwise (· < ·)) {α : Type} {f : ℕ → List α} {g : ℕ → α}
    {first : ℕ} (hf : ∀ t a b, pts[t]? = some a → pts[t + 1]? = some b →
      f (first + t) = (List.range' a (b - a)).map g) (d : ℕ) {i a b : ℕ} (ha : pts[i]? = some a)
    (hb : pts[i + d]? = some b) :
    (List.range' (first + i) d).flatMap f = (List.range' a (b - a)).map g := by
  have hmono : ∀ {i j a b : ℕ}, pts[i]? = some a → pts[j]? = some b → i < j → a < b := by
    intro i j a b ha hb hij
    obtain ⟨hi, rfl⟩ := List.getElem?_eq_some_iff.1 ha
    obtain ⟨hj, rfl⟩ := List.getElem?_eq_some_iff.1 hb
    exact List.pairwise_iff_getElem.1 hasc i j hi hj hij
  induction d generalizing i a with
  | zero =>
    rw [Nat.add_zero, ha, Option.some.injEq] at hb
    subst hb
    simp
  | succ d ih =>
    have hlt := (List.getElem?_eq_some_iff.1 hb).1
    obtain ⟨c, hc⟩ : ∃ c, pts[i + 1]? = some c := ⟨pts[i + 1], List.getElem?_eq_getElem (by omega)⟩
    have hac := hmono ha hc (Nat.lt_succ_self i)
    have hcb : c ≤ b := by
      by_cases hd : d = 0
      · rw [hd, Nat.zero_add, hc, Option.some.injEq] at hb
        exact hb.le
      · exact (hmono hc hb (by omega)).le
    have hsplit : List.range' a (b - a) = List.range' a (c - a) ++ List.range' c (b - c) := by
      have happend := List.range'_append_1 (s := a) (m := c - a) (n := b - c)
      rw [Nat.add_sub_cancel' hac.le] at happend
      rw [happend]
      congr 1
      omega
    rw [List.range'_succ, List.flatMap_cons, hf i a c ha hc, Nat.add_assoc, ih hc (by rw [← hb]; congr 1; omega),
      hsplit, List.map_append]

theorem Table.of_eq (runs : List Run) : Table.of runs =
    let edges := runs.foldl Edges.note ⟨[], []⟩
    let points := edges.points.map cutPoints
    let cut := points.zipIdx.foldl cutNext ([], [])
    ⟨edges.origins, points, cut.1, cut.2⟩ := rfl

/-- What a run of the lists is cut into. -/
structure Table.Cuts (table : Table) (run : Run) (o : ℕ) (pts : List ℕ) (first : ℕ) : Prop where
  origin : table.origins[o]? = some run.origin
  points : table.points[o]? = some pts
  ascending : pts.Pairwise (· < ·)
  start : run.iStart ∈ pts
  reach : run.reach ∈ pts
  bounded : ∀ x ∈ pts, x ≤ ordinalMax
  begins : table.first[o]? = some first
  frags : ∀ j a b, pts[j]? = some a → pts[j + 1]? = some b → table.frags[first + j]? = some ⟨o, a, b - a⟩

theorem Table.of_nodup {runs : List Run} (hruns : ∀ run ∈ runs, run.iStart ≤ ordinalMax) :
    (Table.of runs).origins.Nodup := (edges_spec hruns).1.nodup

theorem Table.exists_cuts {runs : List Run} (hruns : ∀ run ∈ runs, run.iStart ≤ ordinalMax) {run : Run}
    (hrun : run ∈ runs) (hwidth : run.width ≠ 0) : ∃ o pts first, (Table.of runs).Cuts run o pts first := by
  obtain ⟨o, pts, horigin, hpts, hstart, hreach⟩ := (edges_spec hruns).2 run hrun hwidth
  have hpoints : ((runs.foldl Edges.note ⟨[], []⟩).points.map cutPoints)[o]? = some (cutPoints pts) := by
    rw [List.getElem?_map, hpts]
    rfl
  obtain ⟨-, -, hcut⟩ := foldl_cutNext ((runs.foldl Edges.note ⟨[], []⟩).points.map cutPoints).zipIdx ([], [])
  obtain ⟨first, hfirst, hfrags⟩ := hcut o (cutPoints pts) o (by
    rw [List.getElem?_zipIdx, hpoints, Option.map_some, Nat.zero_add])
  refine ⟨o, cutPoints pts, first, ⟨horigin, hpoints, (OrdSet.ofList pts).ascending, ?_, ?_, ?_, ?_, ?_⟩⟩
  · exact OrdSet.mem_ofList.2 hstart
  · exact OrdSet.mem_ofList.2 hreach
  · exact fun x hx => (edges_spec hruns).1.bounded pts (List.mem_of_getElem? hpts) x (OrdSet.mem_ofList.1 hx)
  · rw [← hfirst, List.length_nil, Nat.zero_add]
    rfl
  · exact fun j a b ha hb => hfrags j _ (getElem?_fragsBetween ha hb)

/-- A fragment of the table as the run it is. -/
def Table.run? (table : Table) (id : ℕ) : Option Run := do
  let frag ← table.frags[id]?
  let origin ← table.origins[frag.origin]?
  some ⟨origin, frag.start, frag.width⟩

/-- A run of some positions that end within the range. -/
def Run.Fits (run : Run) : Prop := 0 < run.width ∧ run.iStart + run.width ≤ ordinalMax

/-- The fragments a run is cut into stand for its positions. -/
theorem Table.positions_idsOf {runs : List Run} (hruns : ∀ run ∈ runs, run.iStart ≤ ordinalMax) {run : Run}
    (hrun : run ∈ runs) (hfits : run.Fits) :
    (((Table.of runs).idsOf run).flatMap fun id => ((Table.of runs).run? id).elim [] Run.positions) =
        run.positions ∧
      ∀ id ∈ (Table.of runs).idsOf run, ∃ piece, (Table.of runs).run? id = some piece ∧ piece.Fits := by
  obtain ⟨hpos, hend⟩ := hfits
  obtain ⟨o, pts, first, hcuts⟩ := Table.exists_cuts hruns hrun hpos.ne'
  have hnodup : pts.Nodup := hcuts.ascending.imp fun h => h.ne
  obtain ⟨i, hi⟩ := List.mem_iff_getElem?.1 hcuts.start
  obtain ⟨j, hj⟩ := List.mem_iff_getElem?.1 hcuts.reach
  have hreach : run.reach = run.iStart + run.width := min_eq_left hend
  have hij : i < j := by
    obtain ⟨hilt, hi'⟩ := List.getElem?_eq_some_iff.1 hi
    obtain ⟨hjlt, hj'⟩ := List.getElem?_eq_some_iff.1 hj
    rcases lt_trichotomy i j with hlt | rfl | hgt
    · exact hlt
    · have := hi'.symm.trans hj'
      omega
    · have := List.pairwise_iff_getElem.1 hcuts.ascending j i hjlt hilt hgt
      omega
  have hids : (Table.of runs).idsOf run = List.range' (first + i) (j - i) := by
    rw [idsOf, (idxOf?_eq_some_iff_getElem? (Table.of_nodup hruns)).2 hcuts.origin]
    simp only [List.getD_eq_getElem?_getD, hcuts.points, Option.getD_some, hcuts.begins,
      (idxOf?_eq_some_iff_getElem? hnodup).2 hi, (idxOf?_eq_some_iff_getElem? hnodup).2 hj]
  rw [hids]
  constructor
  · rw [flatMap_fragments hcuts.ascending (g := fun n => (run.origin, n)) ?_ (j - i) hi
      (by rw [Nat.add_sub_cancel' hij.le]; exact hj), hreach, Nat.add_sub_cancel_left, Run.positions]
    intro t a b ha hb
    rw [Table.run?, hcuts.frags t a b ha hb, Option.bind_eq_bind, Option.bind_some, hcuts.origin]
    rfl
  · intro id hid
    obtain ⟨hge, hlt⟩ := List.mem_range'_1.1 hid
    obtain ⟨d, rfl⟩ : ∃ d, id = first + (i + d) := ⟨id - first - i, by omega⟩
    have hlen := (List.getElem?_eq_some_iff.1 hj).1
    have ha : pts[i + d]? = some pts[i + d] := List.getElem?_eq_getElem (by omega)
    have hb : pts[i + d + 1]? = some pts[i + d + 1] := List.getElem?_eq_getElem (by omega)
    have hab := List.pairwise_iff_getElem.1 hcuts.ascending (i + d) (i + d + 1) (by omega) (by omega) (by omega)
    have hbound := hcuts.bounded pts[i + d + 1] (List.getElem_mem _)
    refine ⟨⟨run.origin, pts[i + d], pts[i + d + 1] - pts[i + d]⟩, ?_, Nat.sub_pos_of_lt hab, ?_⟩
    · rw [Table.run?, hcuts.frags (i + d) _ _ ha hb, Option.bind_eq_bind, Option.bind_some, hcuts.origin]
      rfl
    · rwa [Nat.add_sub_cancel' hab.le]

-- The sequences

theorem nodup_fragsBetween (o : ℕ) {pts : List ℕ} (hpts : pts.Pairwise (· < ·)) : (fragsBetween o pts).Nodup := by
  have hzip : (pts.zip pts.tail).Pairwise fun p q => p.1 < q.1 := by
    refine List.pairwise_iff_getElem.2 fun i j hi hj hij => ?_
    rw [List.getElem_zip, List.getElem_zip]
    exact List.pairwise_iff_getElem.1 hpts i j _ _ hij
  rw [fragsBetween, List.Nodup, List.pairwise_map]
  refine hzip.imp fun {p q} hlt heq => ?_
  exact hlt.ne (congrArg Frag.start heq)

theorem foldl_cutNext_frags (l : List (List ℕ × ℕ)) (cut : List ℕ × List Frag) :
    (l.foldl cutNext cut).2 = cut.2 ++ l.flatMap fun e => fragsBetween e.2 e.1 := by
  induction l generalizing cut with
  | nil => simp
  | cons e l ih => rw [List.foldl_cons, ih, cutNext, List.flatMap_cons, List.append_assoc]

theorem Table.nodup_frags (runs : List Run) : (Table.of runs).frags.Nodup := by
  have hfrags : (Table.of runs).frags =
      (Table.of runs).points.zipIdx.flatMap fun e => fragsBetween e.2 e.1 := foldl_cutNext_frags _ _
  rw [hfrags, List.nodup_flatMap]
  constructor
  · intro e he
    have hmem := List.fst_mem_of_mem_zipIdx he
    obtain ⟨pts, -, hpts⟩ := List.mem_map.1 hmem
    exact nodup_fragsBetween e.2 (hpts ▸ (OrdSet.ofList pts).ascending)
  · have hsnd : ((Table.of runs).points.zipIdx.map Prod.snd).Nodup := by
      rw [List.zipIdx_map_snd]
      exact List.nodup_range'
    refine (List.pairwise_map.1 hsnd).imp fun {e e'} hne frag hfrag hfrag' => ?_
    obtain ⟨pair, -, rfl⟩ := List.mem_map.1 hfrag
    obtain ⟨pair', -, heq⟩ := List.mem_map.1 hfrag'
    exact hne (congrArg Frag.origin heq).symm

/-- The fragments a list places, one after another. -/
def Table.raw (table : Table) (runs : List Run) : List ℕ :=
  (runs.filter fun run => 0 < run.width).flatMap table.idsOf

theorem Table.sequence_eq (table : Table) (m : Minted) (runs : List Run) : table.sequence m runs =
    (((table.raw runs).foldl Placed.put ⟨m, fun _ => 0, []⟩).out,
      ((table.raw runs).foldl Placed.put ⟨m, fun _ => 0, []⟩).minted) := by
  rw [sequence, raw, List.foldl_flatMap]

/-- The sequence of a list: the ids of its fragments and their numbers. -/
def Table.Spells (table : Table) (m : Minted) (runs : List Run) (seq : List ℕ) : Prop :=
  List.Forall₂ (m.Names table.frags.length) seq (numbered (table.raw runs))

theorem Minted.Extends.spells {table : Table} {m m' : Minted} (h : m.Extends m') {runs : List Run} {seq : List ℕ}
    (hseq : table.Spells m runs seq) : table.Spells m' runs seq := hseq.imp fun _ _ hc => h.names hc

theorem Table.sequence_spec {table : Table} {m : Minted} (h : m.Sound table.frags.length) {runs : List Run}
    (hruns : ∀ id ∈ table.raw runs, id < table.frags.length) :
    (table.sequence m runs).2.Sound table.frags.length ∧ m.Extends (table.sequence m runs).2 ∧
      table.Spells (table.sequence m runs).2 runs (table.sequence m runs).1 := by
  obtain ⟨hsound, hext, -, hout⟩ := foldl_put h hruns
  rw [table.sequence_eq]
  exact ⟨hsound, hext, hout⟩

theorem Table.sequences_spec {table : Table} {m : Minted} (h : m.Sound table.frags.length) {lists : List (List Run)}
    (hlists : ∀ runs ∈ lists, ∀ id ∈ table.raw runs, id < table.frags.length) :
    (table.sequences m lists).2.Sound table.frags.length ∧ m.Extends (table.sequences m lists).2 ∧
      List.Forall₂ (table.Spells (table.sequences m lists).2) lists (table.sequences m lists).1 := by
  induction lists generalizing m with
  | nil => exact ⟨h, .refl m, .nil⟩
  | cons runs lists ih =>
    obtain ⟨hsound, hext, hseq⟩ := Table.sequence_spec h (hlists runs List.mem_cons_self)
    obtain ⟨hsound', hext', hseqs⟩ := ih hsound fun runs' h' => hlists runs' (List.mem_cons_of_mem _ h')
    exact ⟨hsound', hext.trans hext', .cons (hext'.spells hseq) hseqs⟩

namespace Refinement

/-- The fragments of a sequence, each with how often it came before. -/
def copies (r : Refinement) (seq : List ℕ) : List (Option Frag × ℕ) := numbered (seq.map fun f => r.frags[f]?)

/-- The refinement is the table with the copies that the lists minted. -/
structure Over (r : Refinement) (table : Table) (m : Minted) : Prop where
  origins : r.origins = table.origins
  frags : r.frags = m.frags
  extends_table : table.frags <+: m.frags
  nodup : table.frags.Nodup
  sound : m.Sound table.frags.length

section

variable {r : Refinement} {table : Table} {m : Minted} (h : r.Over table m)

include h

theorem Over.frag_eq {c : ℕ} {p : ℕ × ℕ} (hc : m.Names table.frags.length c p)
    (hp : p.1 < table.frags.length) : r.frags[c]? = table.frags[p.1]? := by
  rw [h.frags, h.sound.names_frag hc, List.getElem?_eq_getElem hp]
  exact getElem?_of_prefix h.extends_table (List.getElem?_eq_getElem hp)

theorem Over.run?_eq {c : ℕ} {p : ℕ × ℕ} (hc : m.Names table.frags.length c p)
    (hp : p.1 < table.frags.length) : r.run? c = table.run? p.1 := by
  rw [run?, Table.run?, h.frag_eq hc hp, h.origins]

variable {runs : List Run} {seq : List ℕ} (hseq : table.Spells m runs seq)
  (hruns : ∀ id ∈ table.raw runs, id < table.frags.length)

include hseq

omit h in
theorem exists_name {i f : ℕ} (hf : seq[i]? = some f) :
    ∃ p, (numbered (table.raw runs))[i]? = some p ∧ m.Names table.frags.length f p := by
  obtain ⟨hi, rfl⟩ := List.getElem?_eq_some_iff.1 hf
  have hlen := hseq.length_eq
  refine ⟨(numbered (table.raw runs))[i], List.getElem?_eq_getElem (by omega), ?_⟩
  exact List.forall₂_iff_get.1 hseq |>.2 i hi (by omega)

theorem Over.nodup_seq : seq.Nodup := by
  refine List.nodup_iff_getElem?_ne_getElem?.2 fun i j hij hj heq => ?_
  have hi : seq[i]? = some seq[i] := List.getElem?_eq_getElem (hij.trans hj)
  obtain ⟨p, hp, hname⟩ := exists_name hseq hi
  obtain ⟨q, hq, hname'⟩ := exists_name hseq (heq ▸ hi)
  have hpq := h.sound.names_inj hname hname'
  subst hpq
  obtain ⟨hi', hp⟩ := List.getElem?_eq_some_iff.1 hp
  obtain ⟨hj', hq⟩ := List.getElem?_eq_some_iff.1 hq
  have := (nodup_numbered (table.raw runs)).getElem_inj_iff.1 (hp.trans hq.symm)
  omega

include hruns

omit h in
/-- What an id shares with its fragment, the sequence shares with the fragments placed. -/
theorem map_eq {β : Type} {F G : ℕ → β} (hFG : ∀ f p, m.Names table.frags.length f p →
    p.1 < table.frags.length → F f = G p.1) : seq.map F = (table.raw runs).map G := by
  apply List.ext_getElem?
  intro i
  rw [List.getElem?_map, List.getElem?_map]
  cases hf : seq[i]? with
  | none =>
    rw [List.getElem?_eq_none_iff] at hf
    rw [List.getElem?_eq_none]
    · rfl
    · have hlen := hseq.length_eq
      rw [length_numbered] at hlen
      omega
  | some f =>
    obtain ⟨p, hp, hname⟩ := exists_name hseq hf
    rw [getElem?_numbered] at hp
    obtain ⟨a, ha, rfl⟩ := Option.map_eq_some_iff.1 hp
    rw [ha, Option.map_some, Option.map_some, hFG f _ hname (hruns a (List.mem_of_getElem? ha))]

theorem Over.copies_eq : r.copies seq = (numbered (table.raw runs)).map fun p => (table.frags[p.1]?, p.2) := by
  have hinj : ∀ a ∈ table.raw runs, ∀ b ∈ table.raw runs, table.frags[a]? = table.frags[b]? → a = b := by
    intro a ha b hb hab
    rw [List.getElem?_eq_getElem (hruns a ha), List.getElem?_eq_getElem (hruns b hb), Option.some.injEq] at hab
    exact h.nodup.getElem_inj_iff.1 hab
  rw [copies, ← numbered_map (f := fun id => table.frags[id]?) hinj]
  exact congrArg numbered (map_eq hseq hruns fun _ _ hname hp => h.frag_eq hname hp)

theorem Over.map_run? : seq.map r.run? = (table.raw runs).map table.run? :=
  map_eq hseq hruns fun _ _ hname hp => h.run?_eq hname hp

omit hruns in
theorem Over.seq_unique {seq' : List ℕ} (hseq' : table.Spells m runs seq') : seq = seq' := by
  apply List.ext_getElem?
  intro i
  have hlen : seq.length = seq'.length := hseq.length_eq.trans hseq'.length_eq.symm
  by_cases hi : i < seq.length
  · obtain ⟨p, hp, hname⟩ := exists_name hseq (List.getElem?_eq_getElem hi)
    obtain ⟨q, hq, hname'⟩ := exists_name hseq' (List.getElem?_eq_getElem (hlen ▸ hi))
    rw [hp, Option.some.injEq] at hq
    subst hq
    rw [List.getElem?_eq_getElem hi, List.getElem?_eq_getElem (hlen ▸ hi), h.sound.names_unique hname hname']
  · rw [List.getElem?_eq_none (by omega), List.getElem?_eq_none (by omega)]

theorem Over.copy_iff {runs' : List Run} {seq' : List ℕ} (hseq' : table.Spells m runs' seq')
    (hruns' : ∀ id ∈ table.raw runs', id < table.frags.length) {i j f g : ℕ} (hf : seq[i]? = some f)
    (hg : seq'[j]? = some g) : f = g ↔ (r.copies seq)[i]? = (r.copies seq')[j]? := by
  obtain ⟨p, hp, hname⟩ := exists_name hseq hf
  obtain ⟨q, hq, hname'⟩ := exists_name hseq' hg
  have hpmem := (mem_numbered (List.mem_of_getElem? hp)).1
  have hqmem := (mem_numbered (List.mem_of_getElem? hq)).1
  rw [h.copies_eq hseq hruns, h.copies_eq hseq' hruns', List.getElem?_map, List.getElem?_map, hp, hq,
    Option.map_some, Option.map_some, Option.some.injEq, Prod.mk.injEq,
    List.getElem?_eq_getElem (hruns p.1 hpmem), List.getElem?_eq_getElem (hruns' q.1 hqmem),
    Option.some.injEq, h.nodup.getElem_inj_iff]
  constructor
  · rintro rfl
    have hpq := h.sound.names_inj hname hname'
    rw [hpq]
    exact ⟨rfl, rfl⟩
  · rintro ⟨hid, hk⟩
    have hpq : p = q := Prod.ext hid hk
    subst hpq
    exact h.sound.names_unique hname hname'

end

/-- What the refinement makes of its lists: sequences that stand for them, over fragments within the
range, no id twice in one, and one id for one copy. -/
structure Refines (r : Refinement) (lists : List (List Run × List ℕ)) : Prop where
  positions_eq : ∀ e ∈ lists, r.positions e.2 = Composition.positions e.1
  nodup : ∀ e ∈ lists, e.2.Nodup
  eq_of_eq : ∀ e ∈ lists, ∀ e' ∈ lists, e.1 = e'.1 → e.2 = e'.2
  fits : ∀ e ∈ lists, ∀ f ∈ e.2, ∃ run, r.run? f = some run ∧ run.Fits
  copy_iff : ∀ e ∈ lists, ∀ e' ∈ lists, ∀ i j f g : ℕ, e.2[i]? = some f → e'.2[j]? = some g →
    (f = g ↔ (r.copies e.2)[i]? = (r.copies e'.2)[j]?)

theorem raw_spec {all runs : List Run} (hall : ∀ run ∈ all, run.Fits) (hsub : ∀ run ∈ runs, run ∈ all) :
    (((Table.of all).raw runs).flatMap fun id => ((Table.of all).run? id).elim [] Run.positions) =
        Composition.positions runs ∧
      ∀ id ∈ (Table.of all).raw runs, ∃ piece, (Table.of all).run? id = some piece ∧ piece.Fits := by
  have hstart : ∀ run ∈ all, run.iStart ≤ ordinalMax := fun run hrun => by
    have := (hall run hrun).2
    omega
  have hfilter : runs.filter (fun run => 0 < run.width) = runs :=
    List.filter_eq_self.2 fun run hrun => decide_eq_true (hall run (hsub run hrun)).1
  have hids := fun run hrun => Table.positions_idsOf hstart (hsub run hrun) (hall run (hsub run hrun))
  rw [Table.raw, hfilter]
  constructor
  · rw [List.flatMap_assoc, Composition.positions]
    exact List.flatMap_congr fun run hrun => (hids run hrun).1
  · intro id hid
    obtain ⟨run, hrun, hid⟩ := List.mem_flatMap.1 hid
    exact (hids run hrun).2 id hid

theorem lt_length_of_run? {table : Table} {id : ℕ} {piece : Run} (h : table.run? id = some piece) :
    id < table.frags.length := by
  obtain ⟨frag, hfrag, -⟩ := Option.bind_eq_some_iff.1 h
  exact (List.getElem?_eq_some_iff.1 hfrag).1

theorem flatMap_elim (F : ℕ → Option Run) (l : List ℕ) :
    (l.flatMap fun f => (F f).elim [] Run.positions) = (l.map F).flatMap fun run => run.elim [] Run.positions := by
  rw [List.flatMap_map]

theorem sound_table (table : Table) : Minted.Sound table.frags.length ⟨table.frags, fun _ => none⟩ :=
  ⟨le_rfl, (fun _ _ _ h => nomatch h), (fun _ _ _ h => nomatch h), (fun _ _ _ h => nomatch h)⟩

theorem of_refines {base : List Run} {sides : List (List Run)} (hall : ∀ run ∈ base ++ sides.flatten, run.Fits) :
    (of base sides).Refines ((base, (of base sides).base) :: sides.zip (of base sides).sides) := by
  obtain ⟨table, htable⟩ : ∃ table, Table.of (base ++ sides.flatten) = table := ⟨_, rfl⟩
  have hsub : ∀ runs ∈ base :: sides, ∀ run ∈ runs, run ∈ base ++ sides.flatten := by
    intro runs hruns run hrun
    rcases List.mem_cons.1 hruns with rfl | hruns
    · exact List.mem_append_left _ hrun
    · exact List.mem_append_right _ (List.mem_flatten.2 ⟨runs, hruns, hrun⟩)
  have hraw := fun runs hruns => htable ▸ raw_spec hall (hsub runs hruns)
  have hlt : ∀ runs ∈ base :: sides, ∀ id ∈ table.raw runs, id < table.frags.length := fun runs hruns id hid => by
    obtain ⟨piece, hpiece, -⟩ := (hraw runs hruns).2 id hid
    exact lt_length_of_run? hpiece
  obtain ⟨hsound, hext, hbase⟩ := Table.sequence_spec (sound_table table) (hlt base List.mem_cons_self)
  obtain ⟨hsound', hext', hsides⟩ := Table.sequences_spec hsound fun runs hruns =>
    hlt runs (List.mem_cons_of_mem _ hruns)
  have hover : (of base sides).Over table
      (table.sequences (table.sequence ⟨table.frags, fun _ => none⟩ base).2 sides).2 := by
    subst htable
    exact ⟨rfl, rfl, (hext.trans hext').frags, Table.nodup_frags _, hsound'⟩
  have hspells : ∀ e ∈ (base, (of base sides).base) :: sides.zip (of base sides).sides, e.1 ∈ base :: sides ∧
      table.Spells (table.sequences (table.sequence ⟨table.frags, fun _ => none⟩ base).2 sides).2 e.1 e.2 := by
    intro e he
    rcases List.mem_cons.1 he with rfl | he
    · subst htable
      exact ⟨List.mem_cons_self, hext'.spells hbase⟩
    · subst htable
      exact ⟨List.mem_cons_of_mem _ (List.of_mem_zip he).1, List.forall₂_iff_zip.1 hsides |>.2 he⟩
  refine ⟨fun e he => ?_, fun e he => ?_, fun e he e' he' heq => ?_, fun e he f hf => ?_,
    fun e he e' he' i j f g hf hg => ?_⟩
  · obtain ⟨hmem, hseq⟩ := hspells e he
    rw [← (hraw e.1 hmem).1, positions, flatMap_elim, flatMap_elim, hover.map_run? hseq (hlt e.1 hmem)]
  · exact hover.nodup_seq (hspells e he).2
  · exact hover.seq_unique (hspells e he).2 (heq ▸ (hspells e' he').2)
  · obtain ⟨hmem, hseq⟩ := hspells e he
    have hrun : (of base sides).run? f ∈ (table.raw e.1).map table.run? := by
      rw [← hover.map_run? hseq (hlt e.1 hmem)]
      exact List.mem_map_of_mem hf
    obtain ⟨id, hid, heq⟩ := List.mem_map.1 hrun
    rw [← heq]
    exact (hraw e.1 hmem).2 id hid
  · obtain ⟨hmem, hseq⟩ := hspells e he
    obtain ⟨hmem', hseq'⟩ := hspells e' he'
    exact hover.copy_iff hseq (hlt e.1 hmem) hseq' (hlt e'.1 hmem') hf hg

-- Fragments as runs again

theorem positions_append_singleton (out : List Run) (run : Run) :
    Composition.positions (out ++ [run]) = Composition.positions out ++ run.positions := by
  simp [Composition.positions]

theorem widen_spec {out : List Run} (hout : ∀ run ∈ out, run.Fits) {run : Run} (hrun : run.Fits) :
    (∀ run' ∈ widen out run, run'.Fits) ∧
      Composition.positions (widen out run) = Composition.positions out ++ run.positions := by
  rw [widen]
  cases hlast : out.getLast? with
  | none =>
    rw [List.getLast?_eq_none_iff] at hlast
    subst hlast
    exact ⟨fun run' h => List.mem_singleton.1 h ▸ hrun, by simp [Composition.positions]⟩
  | some last =>
    obtain ⟨front, rfl⟩ := List.getLast?_eq_some_iff.1 hlast
    have hlastfits := hout last (by simp)
    have hfront : ∀ run ∈ front, run.Fits := fun run h => hout run (List.mem_append_left _ h)
    simp only
    split
    · next hadjacent =>
      obtain ⟨horigin, hreach, -⟩ := hadjacent
      have hreach : last.iStart + last.width = run.iStart := by
        rw [← hreach, Run.reach, saturatingAdd, min_eq_left hlastfits.2]
      have hpositions : ({ last with width := last.width + run.width } : Run).positions =
          last.positions ++ run.positions := by
        rw [Run.positions, Run.positions, Run.positions, ← List.range'_append_1, List.map_append, hreach, horigin]
      rw [List.dropLast_concat, positions_append_singleton, positions_append_singleton, hpositions,
        List.append_assoc]
      refine ⟨fun run' h => ?_, rfl⟩
      rcases List.mem_append.1 h with h | h
      · exact hfront run' h
      · rw [List.mem_singleton.1 h]
        have hpos := hlastfits.1
        have hend := hrun.2
        exact ⟨by simp only; omega, by simp only; omega⟩
    · rw [positions_append_singleton (front ++ [last])]
      refine ⟨fun run' h => ?_, rfl⟩
      rcases List.mem_append.1 h with h | h
      · exact hout run' h
      · exact List.mem_singleton.1 h ▸ hrun

theorem foldl_widen {runs out : List Run} (hout : ∀ run ∈ out, run.Fits) (hruns : ∀ run ∈ runs, run.Fits) :
    Composition.positions (runs.foldl widen out) = Composition.positions out ++ Composition.positions runs := by
  induction runs generalizing out with
  | nil => simp [Composition.positions]
  | cons run runs ih =>
    obtain ⟨hfits, hpositions⟩ := widen_spec hout (hruns run List.mem_cons_self)
    rw [List.foldl_cons, ih hfits fun run' h => hruns run' (List.mem_cons_of_mem _ h), hpositions,
      List.append_assoc]
    rfl

/-- Fragments as runs stand for the positions they did. -/
theorem positions_coalesce (r : Refinement) {frags : List ℕ}
    (hfrags : ∀ f ∈ frags, ∃ run, r.run? f = some run ∧ run.Fits) :
    Composition.positions (r.coalesce frags) = r.positions frags := by
  have hruns : ∀ run ∈ frags.filterMap r.run?, run.Fits := by
    intro run hrun
    obtain ⟨f, hf, hrun⟩ := List.mem_filterMap.1 hrun
    obtain ⟨run', hrun', hfits⟩ := hfrags f hf
    rw [hrun, Option.some.injEq] at hrun'
    exact hrun' ▸ hfits
  have hnil : ∀ run ∈ ([] : List Run), run.Fits := fun run h => nomatch h
  have hflat : Composition.positions (frags.filterMap r.run?) = r.positions frags := by
    clear hruns hfrags
    induction frags with
    | nil => rfl
    | cons f frags ih =>
      rw [positions, List.flatMap_cons]
      cases hf : r.run? f with
      | none => rw [List.filterMap_cons_none hf, ih, Option.elim_none, List.nil_append, positions]
      | some run =>
        rw [List.filterMap_cons_some hf, Composition.positions, List.flatMap_cons, Option.elim_some]
        exact congrArg (run.positions ++ ·) ih
  rw [coalesce, foldl_widen hnil hruns, hflat]
  rfl

end Refinement

end Composition
