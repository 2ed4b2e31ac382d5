import Skep.Address.Address
import Skep.Library.OrdMap

/-!
# The content store

Values by content address. A value stands alone or inside a stretch: one entry
that holds a byte at each of the consecutive positions from its key on. Entries
never overlap, so the entry at or below a tumbler is the only one that can
cover it, and an entry once stored is never replaced.

## Main results

- `ContentStore.walk_spec` — a walk returns the values of its positions, up to
  the first that has none
- `ContentStore.bytesAt_applyWrite`, `bytesAt_applyStretch` — what a fold stores
- `contentStore_writeOnce` — over any records, the store is a write-once map
-/

/-- A stored value. -/
structure Val where
  bytes : List UInt8
  deriving DecidableEq

/-- An entry of the store. -/
inductive Stored where
  | value (v : Val)
  | stretch (bytes : List UInt8) (nonempty : bytes ≠ [])
  deriving DecidableEq

/-- What a read returns: bytes of a stretch or a whole value. -/
inductive Piece where
  | bytes (b : List UInt8)
  | value (v : Val)
  deriving DecidableEq

namespace Stored

def width : Stored → ℕ
  | value _ => 1
  | stretch bytes _ => bytes.length

/-- The first tumbler past the entry. -/
def reach (s : Stored) (key : Tumbler) : Tumbler := key.shift s.width

/-- Whether the entry at `key` covers `t`. -/
def covers (s : Stored) (key t : Tumbler) : Bool :=
  match s with
  | value _ => key == t
  | stretch _ _ => key == t || decide (key < t) && decide (t < s.reach key)

end Stored

/-- Whether two tumblers differ in their last component at most. -/
def sameChain (key t : Tumbler) : Bool := key.len == t.len && key.comps.dropLast == t.comps.dropLast

/-- The offset of `t` in a stretch of `len` positions from `key` on. -/
def offsetIn (key : Tumbler) (len : ℕ) (t : Tumbler) : Option ℕ :=
  if sameChain key t = false ∨ ordinal t < ordinal key then none
  else
    let k := ordinal t - ordinal key
    if k < len then some k else none

theorem offsetIn_eq_some_iff {key t : Tumbler} {len k : ℕ} :
    offsetIn key len t = some k ↔ k < len ∧ t = key.shift k := by
  obtain ⟨front, last, rfl⟩ := key.exists_snoc
  obtain ⟨front', last', rfl⟩ := t.exists_snoc
  rw [Tumbler.shift_snoc, Tumbler.snoc_inj, offsetIn, ordinal_snoc, ordinal_snoc]
  have hchain : sameChain (Tumbler.snoc front last) (Tumbler.snoc front' last') = true ↔
      front' = front := by
    simp only [sameChain, Tumbler.len, Tumbler.comps_snoc, List.dropLast_concat, Bool.and_eq_true,
      beq_iff_eq, List.length_append, List.length_singleton]
    exact ⟨fun h => h.2.symm, fun h => by simp [h]⟩
  split
  · next h =>
    simp only [reduceCtorEq, false_iff, not_and]
    rintro - rfl hlast
    rw [← Bool.not_eq_true, hchain] at h
    exact h.elim (fun h => h rfl) fun h => by omega
  · next h =>
    rw [not_or, Bool.not_eq_false, hchain] at h
    simp only [Option.ite_none_right_eq_some, Option.some.injEq, h.1, true_and]
    omega

/-- Values by tumbler. No key lies inside a stretch. -/
structure ContentStore where
  map : OrdMap Tumbler Stored
  apart : ∀ key bytes nonempty, (key, Stored.stretch bytes nonempty) ∈ map.entries →
    ∀ e ∈ map.entries, key < e.1 → key.shift bytes.length ≤ e.1

/-- A record that stores one value. -/
structure ContentWrite where
  addr : Address
  val : Val

/-- A record that stores a byte at each of several positions. -/
structure ContentStretch where
  first : Address
  bytes : List UInt8
  nonempty : bytes ≠ []

/-- Why a content record was refused. -/
inductive ContentError where
  | alreadyStored (t : Tumbler)
  | emptyStretch
  | overlap (first reach : Tumbler)
  deriving DecidableEq

namespace ContentStore

def empty : ContentStore := ⟨OrdMap.empty, by simp⟩

/-- Whether an entry covers the tumbler. -/
def contains (s : ContentStore) (t : Tumbler) : Bool :=
  (s.map.atOrBelow t).any fun e => e.2.covers e.1 t

/-- Whether a key stands in `[start, reach)`. -/
def holdsAKeyIn (s : ContentStore) (start reach : Tumbler) : Bool :=
  (s.map.above start).head?.any fun e => decide (e.1 < reach)

/-- The value at a position. -/
def valueAt (s : ContentStore) (t : Tumbler) : Option Piece :=
  (s.map.atOrBelow t).bind fun e =>
    match e.2 with
    | .value v => if e.1 = t then some (.value v) else none
    | .stretch bytes _ => (offsetIn e.1 bytes.length t).map fun k => .bytes ((bytes.drop k).take 1)

/-- The part of an entry a walk takes at its cursor. -/
def covering (cursor : Tumbler) (remaining : ℕ) (e : Tumbler × Stored) : Option (Piece × ℕ) :=
  match e.2 with
  | .value v => if e.1 = cursor then some (.value v, 1) else none
  | .stretch bytes _ =>
      (offsetIn e.1 bytes.length cursor).map fun k =>
        let take := min remaining (bytes.length - k)
        (.bytes ((bytes.drop k).take take), take)

/-- The pieces a walk returns, and how many positions it leaves. -/
def piecesFrom (cursor : Tumbler) (remaining : ℕ) : List (Tumbler × Stored) → List Piece × ℕ
  | [] => ([], remaining)
  | e :: rest =>
      if remaining = 0 then ([], remaining)
      else
        match covering cursor remaining e with
        | some (piece, taken) =>
            let (pieces, left) := piecesFrom (cursor.shift taken) (remaining - taken) rest
            (piece :: pieces, left)
        | none => if e.1 < cursor then piecesFrom cursor remaining rest else ([], remaining)

/-- The walk of `width` positions from `start` on. -/
def walk (s : ContentStore) (start : Tumbler) (width : ℕ) : List Piece × ℕ :=
  match s.map.atOrBelow start with
  | some e => piecesFrom start width (s.map.above e.1)
  | none => ([], width)

def pieces (s : ContentStore) (start : Tumbler) (width : ℕ) : List Piece := (s.walk start width).1

/-- Whether every position of the walk has a value. -/
def covered (s : ContentStore) (start : Tumbler) (width : ℕ) : Bool := (s.walk start width).2 == 0

/-- An entry that a tumbler is not inside of ends before it. -/
theorem reach_le_of_not_contains {s : ContentStore} {t : Tumbler} (h : s.contains t = false)
    {key : Tumbler} {bytes : List UInt8} {hb : bytes ≠ []}
    (hmem : (key, Stored.stretch bytes hb) ∈ s.map.entries) (hlt : key < t) :
    key.shift bytes.length ≤ t := by
  cases hbelow : s.map.atOrBelow t with
  | none => exact absurd (OrdMap.atOrBelow_eq_none_iff.1 hbelow _ hmem) hlt.not_gt
  | some e =>
    obtain ⟨he, hle, hmax⟩ := OrdMap.atOrBelow_eq_some_iff.1 hbelow
    rcases (hmax _ hmem hlt.le).lt_or_eq with hk | hk
    · exact (s.apart key bytes hb hmem e he hk).trans hle
    · have hval : e.2 = .stretch bytes hb := by
        have h1 := OrdMap.get_eq_some_iff.2 he
        rw [← hk, OrdMap.get_eq_some_iff.2 hmem] at h1
        exact (Option.some.inj h1).symm
      simp only [contains, hbelow, Option.any_some, hval, Stored.covers, ← hk] at h
      simp only [hlt, decide_true, Bool.true_and, Bool.or_eq_false_iff] at h
      exact not_lt.1 (of_decide_eq_false h.2)

/-- Fold a value. What is stored stays. -/
def applyWrite (s : ContentStore) (r : ContentWrite) : ContentStore :=
  if h : s.contains r.addr.tumbler = true then s
  else
    ⟨s.map.insert r.addr.tumbler (.value r.val), by
      intro key bytes hb hmem e he hlt
      rcases OrdMap.mem_insert_iff.1 hmem with hmem | ⟨hmem, -⟩
      · cases hmem
      · rcases OrdMap.mem_insert_iff.1 he with rfl | ⟨he, -⟩
        · exact reach_le_of_not_contains (Bool.not_eq_true _ ▸ h) hmem hlt
        · exact s.apart key bytes hb hmem e he hlt⟩

/-- No key stands in the range where the first one at or past its start does not. -/
theorem not_lt_of_holdsAKeyIn {s : ContentStore} {start reach : Tumbler}
    (h : s.holdsAKeyIn start reach = false) {e : Tumbler × Stored} (he : e ∈ s.map.entries)
    (hle : start ≤ e.1) : reach ≤ e.1 := by
  have hmem : e ∈ s.map.above start := OrdMap.mem_above.2 ⟨he, hle⟩
  rw [holdsAKeyIn] at h
  cases habove : s.map.above start with
  | nil => simp [habove] at hmem
  | cons first rest =>
    have hfirst : reach ≤ first.1 := by simpa [habove] using h
    have hasc := s.map.above_ascending start
    rw [habove] at hasc hmem
    rcases List.mem_cons.1 hmem with rfl | hmem
    · exact hfirst
    · exact hfirst.trans ((List.pairwise_cons.1 hasc).1 e hmem).le

/-- Fold a stretch. What is stored stays. -/
def applyStretch (s : ContentStore) (r : ContentStretch) : ContentStore :=
  if h : s.contains r.first.tumbler = true ∨
      s.holdsAKeyIn r.first.tumbler (r.first.tumbler.shift r.bytes.length) = true then s
  else
    ⟨s.map.insert r.first.tumbler (.stretch r.bytes r.nonempty), by
      rw [not_or, Bool.not_eq_true, Bool.not_eq_true] at h
      intro key bytes hb hmem e he hlt
      rcases OrdMap.mem_insert_iff.1 hmem with hmem | ⟨hmem, -⟩
      · cases hmem
        rcases OrdMap.mem_insert_iff.1 he with rfl | ⟨he, -⟩
        · exact absurd hlt (lt_irrefl _)
        · exact not_lt_of_holdsAKeyIn h.2 he hlt.le
      · rcases OrdMap.mem_insert_iff.1 he with rfl | ⟨he, -⟩
        · exact reach_le_of_not_contains h.1 hmem hlt
        · exact s.apart key bytes hb hmem e he hlt⟩

end ContentStore

/-- Stage a value at an address that has none. -/
def stageWrite (s : ContentStore) (addr : Address) (val : Val) :
    Outcome ContentError ContentWrite := do
  Outcome.refuseIf (s.contains addr.tumbler = true) (.alreadyStored addr.tumbler)
  return ⟨addr, val⟩

/-- Stage bytes at consecutive addresses that have none. -/
def stageStretch (s : ContentStore) (first : Address) (bytes : List UInt8) :
    Outcome ContentError ContentStretch :=
  if h : bytes = [] then .err .emptyStretch
  else do
    Outcome.refuseIf (s.contains first.tumbler = true) (.alreadyStored first.tumbler)
    let reach := first.tumbler.shift bytes.length
    Outcome.refuseIf (s.holdsAKeyIn first.tumbler reach = true) (.overlap first.tumbler reach)
    return ⟨first, bytes, h⟩

theorem stageStretch_eq_ok {s : ContentStore} {first : Address} {bytes : List UInt8}
    {stretch : ContentStretch} (h : stageStretch s first bytes = .ok stretch) :
    s.contains first.tumbler = false ∧
      s.holdsAKeyIn first.tumbler (first.tumbler.shift bytes.length) = false ∧
      ∃ hne : bytes ≠ [], stretch = ⟨first, bytes, hne⟩ := by
  rw [stageStretch] at h
  split at h
  · cases h
  · next hne =>
    simp only [Outcome.bind_eq_ok_iff, Outcome.refuseIf_eq_ok_iff, Bool.not_eq_true, exists_const,
      Outcome.pure_eq, Outcome.ok.injEq] at h
    exact ⟨h.1, h.2.1, hne, h.2.2.symm⟩

-- The bytes at a position

def Piece.asBytes : Piece → List UInt8
  | .bytes b => b
  | .value v => v.bytes

/-- The bytes at each position of a piece. -/
def Piece.values : Piece → List (List UInt8)
  | .bytes b => b.map fun x => [x]
  | .value v => [v.bytes]

/-- The bytes an entry holds at a position. -/
def Stored.bytesAt (s : Stored) (key t : Tumbler) : Option (List UInt8) :=
  match s with
  | value v => if key = t then some v.bytes else none
  | stretch bytes _ => (offsetIn key bytes.length t).map fun k => (bytes.drop k).take 1

theorem Stored.le_of_bytesAt {s : Stored} {key t : Tumbler} {b : List UInt8}
    (h : s.bytesAt key t = some b) : key ≤ t := by
  cases s with
  | value v =>
    simp only [bytesAt, Option.ite_none_right_eq_some] at h
    exact h.1.le
  | stretch bytes hb =>
    obtain ⟨k, hk, -⟩ := Option.map_eq_some_iff.1 h
    obtain ⟨-, rfl⟩ := offsetIn_eq_some_iff.1 hk
    have := Tumbler.shift_le_shift (t := key).2 (Nat.zero_le k)
    rwa [Tumbler.shift_zero] at this

namespace ContentStore

/-- The bytes at a position, whatever entry holds them. -/
def bytesAt (s : ContentStore) (t : Tumbler) : Option (List UInt8) :=
  (s.valueAt t).map Piece.asBytes

/-- No entry past the one that holds a position starts at or below it. -/
theorem key_le_of_bytesAt {s : ContentStore} {e x : Tumbler × Stored} {t : Tumbler}
    {b : List UInt8} (he : e ∈ s.map.entries) (h : e.2.bytesAt e.1 t = some b)
    (hx : x ∈ s.map.entries) (hle : x.1 ≤ t) : x.1 ≤ e.1 := by
  obtain ⟨key, stored⟩ := e
  cases stored with
  | value v =>
    simp only [Stored.bytesAt, Option.ite_none_right_eq_some] at h
    exact hle.trans h.1.ge
  | stretch bytes hb =>
    obtain ⟨k, hk, -⟩ := Option.map_eq_some_iff.1 h
    obtain ⟨hlt, rfl⟩ := offsetIn_eq_some_iff.1 hk
    by_contra hgt
    exact absurd (Tumbler.shift_le_shift.1 ((s.apart key bytes hb he x hx (not_le.1 hgt)).trans hle))
      (not_le.2 hlt)

theorem bytesAt_eq_some_iff {s : ContentStore} {t : Tumbler} {b : List UInt8} :
    s.bytesAt t = some b ↔ ∃ e ∈ s.map.entries, e.2.bytesAt e.1 t = some b := by
  have hentry : ∀ e : Tumbler × Stored, s.map.atOrBelow t = some e →
      s.bytesAt t = e.2.bytesAt e.1 t := fun e he => by
    rw [bytesAt, valueAt, he, Option.bind_some]
    cases e.2 with
    | value v =>
      simp only [Stored.bytesAt]
      split <;> rfl
    | stretch bytes hb =>
      simp only [Stored.bytesAt, Option.map_map]
      rfl
  constructor
  · intro h
    cases hbelow : s.map.atOrBelow t with
    | none => simp [bytesAt, valueAt, hbelow] at h
    | some e => exact ⟨e, (OrdMap.atOrBelow_mem hbelow).1, by rw [← hentry e hbelow, h]⟩
  · rintro ⟨e, he, h⟩
    have hbelow : s.map.atOrBelow t = some e := OrdMap.atOrBelow_eq_some_iff.2
      ⟨he, Stored.le_of_bytesAt h, fun x hx hle => key_le_of_bytesAt he h hx hle⟩
    rw [hentry e hbelow, h]

theorem contains_of_bytesAt {s : ContentStore} {t : Tumbler} {b : List UInt8}
    (h : s.bytesAt t = some b) : s.contains t = true := by
  obtain ⟨e, he, hb⟩ := bytesAt_eq_some_iff.1 h
  have hbelow : s.map.atOrBelow t = some e := OrdMap.atOrBelow_eq_some_iff.2
    ⟨he, Stored.le_of_bytesAt hb, fun x hx hle => key_le_of_bytesAt he hb hx hle⟩
  rw [contains, hbelow, Option.any_some]
  obtain ⟨key, stored⟩ := e
  cases stored with
  | value v =>
    simp only [Stored.bytesAt, Option.ite_none_right_eq_some] at hb
    simp [Stored.covers, hb.1]
  | stretch bytes hne =>
    obtain ⟨k, hk, -⟩ := Option.map_eq_some_iff.1 hb
    obtain ⟨hlt, rfl⟩ := offsetIn_eq_some_iff.1 hk
    have hreach : key.shift k < (Stored.stretch bytes hne).reach key :=
      Tumbler.shift_lt_shift.2 hlt
    rcases (Stored.le_of_bytesAt hb).lt_or_eq with hkey | hkey
    · simp only at hkey
      simp [Stored.covers, hreach, hkey]
    · simp only at hkey
      simp [Stored.covers, ← hkey]

/-- No key of the store is a tumbler it does not contain. -/
theorem key_ne_of_not_contains {s : ContentStore} {t : Tumbler} (h : s.contains t = false)
    {e : Tumbler × Stored} (he : e ∈ s.map.entries) : e.1 ≠ t := by
  rintro rfl
  have hbelow : s.map.atOrBelow e.1 = some e :=
    OrdMap.atOrBelow_eq_some_iff.2 ⟨he, le_rfl, fun x _ hle => hle⟩
  rw [contains, hbelow] at h
  obtain ⟨key, stored⟩ := e
  cases stored <;> simp [Stored.covers] at h

theorem bytesAt_of_insert {s s' : ContentStore} {key : Tumbler} {stored : Stored}
    (hmap : s'.map = s.map.insert key stored) (hkey : s.contains key = false)
    (hnew : ∀ t b, stored.bytesAt key t = some b → s.bytesAt t = none) (t : Tumbler) :
    s'.bytesAt t = (stored.bytesAt key t).or (s.bytesAt t) := by
  refine Option.ext fun b => ?_
  rw [bytesAt_eq_some_iff, hmap]
  simp only [OrdMap.mem_insert_iff]
  constructor
  · rintro ⟨e, rfl | ⟨he, -⟩, hb⟩
    · rw [hb]
      rfl
    · have hold := bytesAt_eq_some_iff.2 ⟨e, he, hb⟩
      cases hst : stored.bytesAt key t with
      | none => exact hold
      | some b' => simp [hnew t b' hst] at hold
  · intro hb
    cases hst : stored.bytesAt key t with
    | none =>
      rw [hst, Option.none_or, bytesAt_eq_some_iff] at hb
      obtain ⟨e, he, hb⟩ := hb
      exact ⟨e, .inr ⟨he, key_ne_of_not_contains hkey he⟩, hb⟩
    | some b' =>
      rw [hst] at hb
      exact ⟨_, .inl rfl, hst.trans hb⟩

theorem bytesAt_eq_none_of_not_contains {s : ContentStore} {t : Tumbler}
    (h : s.contains t = false) : s.bytesAt t = none := by
  by_contra hne
  obtain ⟨b, hb⟩ := Option.ne_none_iff_exists'.1 hne
  simp [contains_of_bytesAt hb] at h

/-- A write stores its value where nothing stood, and moves nothing else. -/
theorem bytesAt_applyWrite {s : ContentStore} {r : ContentWrite}
    (h : s.contains r.addr.tumbler = false) (t : Tumbler) : (s.applyWrite r).bytesAt t =
      if t = r.addr.tumbler then some r.val.bytes else s.bytesAt t := by
  have hmap : (s.applyWrite r).map = s.map.insert r.addr.tumbler (.value r.val) := by
    rw [applyWrite, dif_neg (by simp [h])]
  rw [bytesAt_of_insert hmap h fun t b hb => ?_]
  · simp only [Stored.bytesAt, eq_comm (a := t)]
    split <;> rfl
  · simp only [Stored.bytesAt, Option.ite_none_right_eq_some] at hb
    rw [← hb.1]
    exact bytesAt_eq_none_of_not_contains h

/-- Where a stretch has room, nothing stands at any of its positions. -/
theorem bytesAt_eq_none_of_room {s : ContentStore} {r : ContentStretch}
    (h : s.contains r.first.tumbler = false)
    (hroom : s.holdsAKeyIn r.first.tumbler (r.first.tumbler.shift r.bytes.length) = false)
    {t : Tumbler} {k : ℕ} (hk : offsetIn r.first.tumbler r.bytes.length t = some k) :
    s.bytesAt t = none := by
  obtain ⟨hlt, rfl⟩ := offsetIn_eq_some_iff.1 hk
  by_contra hne
  obtain ⟨b', hb'⟩ := Option.ne_none_iff_exists'.1 hne
  obtain ⟨⟨key, stored⟩, he, hb'⟩ := bytesAt_eq_some_iff.1 hb'
  have hfirst := Tumbler.shift_le_shift (t := r.first.tumbler).2 (Nat.zero_le k)
  rw [Tumbler.shift_zero] at hfirst
  rcases lt_or_ge key r.first.tumbler with hkey | hkey
  · -- an entry that starts before the stretch ends before it
    cases stored with
    | value v =>
      simp only [Stored.bytesAt, Option.ite_none_right_eq_some] at hb'
      exact absurd (hb'.1 ▸ hfirst) hkey.not_ge
    | stretch bytes hne =>
      obtain ⟨j, hj, -⟩ := Option.map_eq_some_iff.1 hb'
      obtain ⟨hj, heq⟩ := offsetIn_eq_some_iff.1 hj
      have := (reach_le_of_not_contains h he hkey).trans hfirst
      rw [heq, Tumbler.shift_le_shift] at this
      exact absurd hj this.not_gt
  · have := (not_lt_of_holdsAKeyIn hroom he hkey).trans (Stored.le_of_bytesAt hb')
    exact absurd (Tumbler.shift_le_shift.1 this) hlt.not_ge

/-- A stretch stores a byte at each of its positions, where nothing stood. -/
theorem bytesAt_applyStretch {s : ContentStore} {r : ContentStretch}
    (h : s.contains r.first.tumbler = false)
    (hroom : s.holdsAKeyIn r.first.tumbler (r.first.tumbler.shift r.bytes.length) = false)
    (t : Tumbler) : (s.applyStretch r).bytesAt t =
      ((offsetIn r.first.tumbler r.bytes.length t).map fun k => (r.bytes.drop k).take 1).or
        (s.bytesAt t) := by
  have hmap : (s.applyStretch r).map =
      s.map.insert r.first.tumbler (.stretch r.bytes r.nonempty) := by
    rw [applyStretch, dif_neg (by simp [h, hroom])]
  refine bytesAt_of_insert hmap h (fun t b hb => ?_) t
  obtain ⟨k, hk, -⟩ := Option.map_eq_some_iff.1 hb
  exact bytesAt_eq_none_of_room h hroom hk

-- The walk

/-- What a walk of `width` positions from `start` returned and left. -/
structure Walked (s : ContentStore) (start : Tumbler) (width : ℕ) (w : List Piece × ℕ) : Prop where
  left_le : w.2 ≤ width
  length : (w.1.flatMap Piece.values).length = width - w.2
  values : ∀ i < width - w.2,
    s.bytesAt (start.shift i) = (w.1.flatMap Piece.values)[i]?
  stopped : w.2 ≠ 0 → s.bytesAt (start.shift (width - w.2)) = none

theorem Walked.nil {s : ContentStore} {start : Tumbler} {width : ℕ}
    (h : width ≠ 0 → s.bytesAt start = none) : s.Walked start width ([], width) :=
  ⟨le_rfl, by simp, by simp, by simpa using h⟩

/-- A piece taken at the cursor holds the bytes of the positions it takes. -/
theorem covering_spec {cursor : Tumbler} {remaining : ℕ} {e : Tumbler × Stored} {piece : Piece}
    {taken : ℕ} (hpos : remaining ≠ 0) (h : covering cursor remaining e = some (piece, taken)) :
    0 < taken ∧ taken ≤ remaining ∧ piece.values.length = taken ∧
      (∀ i < taken, e.2.bytesAt e.1 (cursor.shift i) = piece.values[i]?) ∧
      ∀ i, taken ≤ i → i < remaining → e.2.bytesAt e.1 (cursor.shift i) = none := by
  obtain ⟨key, stored⟩ := e
  cases stored with
  | value v =>
    simp only [covering, Option.ite_none_right_eq_some, Option.some.injEq, Prod.mk.injEq] at h
    obtain ⟨rfl, rfl, rfl⟩ := h
    refine ⟨by omega, by omega, rfl, fun i hi => ?_, fun i hi _ => ?_⟩
    · simp [show i = 0 by omega, Stored.bytesAt, Piece.values]
    · have : key ≠ key.shift i := fun heq => by
        have := Tumbler.shift_inj (t := key) (m := 0) (n := i) |>.1 (by simpa using heq)
        omega
      simp [Stored.bytesAt, this]
  | stretch bytes hne =>
    obtain ⟨k, hk, hpiece⟩ := Option.map_eq_some_iff.1 h
    obtain ⟨hlt, rfl⟩ := offsetIn_eq_some_iff.1 hk
    cases hpiece
    have hat : ∀ i, (Stored.stretch bytes hne).bytesAt key ((key.shift k).shift i) =
        (bytes[k + i]?).map fun b => [b] := fun i => by
      rw [Tumbler.shift_shift, Stored.bytesAt]
      by_cases hi : k + i < bytes.length
      · rw [offsetIn_eq_some_iff.2 ⟨hi, rfl⟩, Option.map_some, List.getElem?_eq_getElem hi,
          List.drop_eq_getElem_cons hi]
        rfl
      · have hnone : offsetIn key bytes.length (key.shift (k + i)) = none := by
          rw [Option.eq_none_iff_forall_ne_some]
          intro j hj
          obtain ⟨hj, heq⟩ := offsetIn_eq_some_iff.1 hj
          exact hi (Tumbler.shift_inj.1 heq ▸ hj)
        rw [hnone, List.getElem?_eq_none (not_lt.1 hi)]
        rfl
    refine ⟨by omega, by omega, ?_, fun i hi => ?_, fun i hi hi' => ?_⟩
    · simp only [Piece.values, List.length_map, List.length_take, List.length_drop]
      omega
    · rw [hat, Piece.values, List.getElem?_map, List.getElem?_take_of_lt hi, List.getElem?_drop]
    · rw [hat, List.getElem?_eq_none (by omega)]
      rfl

/-- An entry with nothing at the cursor is not keyed there, and has nothing past
it where it starts before. -/
theorem covering_eq_none {cursor : Tumbler} {remaining : ℕ} {e : Tumbler × Stored}
    (h : covering cursor remaining e = none) :
    e.1 ≠ cursor ∧ (e.1 < cursor → ∀ i, e.2.bytesAt e.1 (cursor.shift i) = none) := by
  obtain ⟨key, stored⟩ := e
  cases stored with
  | value v =>
    have hne : key ≠ cursor := by simpa [covering] using h
    refine ⟨hne, fun hlt i => ?_⟩
    have hle := Tumbler.shift_le_shift (t := cursor).2 (Nat.zero_le i)
    rw [Tumbler.shift_zero] at hle
    have : key ≠ cursor.shift i := (hlt.trans_le hle).ne
    simp [Stored.bytesAt, this]
  | stretch bytes hb =>
    have hnone : offsetIn key bytes.length cursor = none := by simpa [covering] using h
    rw [Option.eq_none_iff_forall_ne_some] at hnone
    refine ⟨?_, fun hlt i => ?_⟩
    · rintro rfl
      exact hnone 0 (offsetIn_eq_some_iff.2 ⟨List.length_pos_of_ne_nil hb, by simp⟩)
    · rw [Stored.bytesAt, Option.map_eq_none_iff, Option.eq_none_iff_forall_ne_some]
      intro k hk
      obtain ⟨hk, heq⟩ := offsetIn_eq_some_iff.1 hk
      -- the cursor and its shift stand on one chain
      obtain ⟨front, last, rfl⟩ := cursor.exists_snoc
      obtain ⟨front', last', rfl⟩ := key.exists_snoc
      rw [Tumbler.shift_snoc, Tumbler.shift_snoc, Tumbler.snoc_inj] at heq
      obtain ⟨rfl, heq⟩ := heq
      have hlast := Tumbler.snoc_lt_snoc.1 hlt
      exact hnone (last - last') (offsetIn_eq_some_iff.2 ⟨by omega, by
        rw [Tumbler.shift_snoc, Tumbler.snoc_inj]
        exact ⟨rfl, by omega⟩⟩)

theorem piecesFrom_walked {s : ContentStore} {entries : List (Tumbler × Stored)}
    (hmem : ∀ e ∈ entries, e ∈ s.map.entries) (hasc : OrdMap.Ascending entries) (cursor : Tumbler)
    (remaining : ℕ) (hrest : ∀ e ∈ s.map.entries, ∀ i < remaining, ∀ b,
      e.2.bytesAt e.1 (cursor.shift i) = some b → e ∈ entries) :
    s.Walked cursor remaining (piecesFrom cursor remaining entries) := by
  induction entries generalizing cursor remaining with
  | nil =>
    refine Walked.nil fun hpos => ?_
    by_contra hne
    obtain ⟨b, hb⟩ := Option.ne_none_iff_exists'.1 hne
    obtain ⟨e, he, hb⟩ := bytesAt_eq_some_iff.1 hb
    have := hrest e he 0 (by omega) b (by simpa using hb)
    cases this
  | cons e rest ih =>
    have hmem' : ∀ x ∈ rest, x ∈ s.map.entries := fun x hx => hmem x (List.mem_cons_of_mem _ hx)
    obtain ⟨hlt, hasc'⟩ := List.pairwise_cons.1 hasc
    rw [piecesFrom]
    split
    · next hzero => exact Walked.nil fun h => absurd hzero h
    · next hpos =>
      split
      · next piece taken hcov =>
        obtain ⟨hpos', hle, hlen, hat, hpast⟩ := covering_spec hpos hcov
        have hw := ih hmem' hasc' (cursor.shift taken) (remaining - taken)
          fun x hx i hi b hb => by
            rw [Tumbler.shift_shift] at hb
            rcases List.mem_cons.1 (hrest x hx (taken + i) (by omega) b hb) with rfl | hx'
            · rw [hpast (taken + i) (by omega) (by omega)] at hb
              cases hb
            · exact hx'
        generalize piecesFrom (cursor.shift taken) (remaining - taken) rest = w at hw
        obtain ⟨pieces, left⟩ := w
        obtain ⟨h1, h2, h3, h4⟩ := hw
        simp only at h1 h2 h3 h4
        refine ⟨by simp only; omega, ?_, fun i hi => ?_, fun h => ?_⟩
        · simp only [List.flatMap_cons, List.length_append, hlen, h2]
          omega
        · simp only at hi
          rw [List.flatMap_cons]
          by_cases hti : i < taken
          · rw [List.getElem?_append_left (by omega), ← hat i hti]
            have hsome : ∃ b, e.2.bytesAt e.1 (cursor.shift i) = some b := by
              rw [hat i hti, List.getElem?_eq_getElem (by omega)]
              exact ⟨_, rfl⟩
            obtain ⟨b, hb⟩ := hsome
            rw [hb]
            exact bytesAt_eq_some_iff.2 ⟨e, hmem e List.mem_cons_self, hb⟩
          · rw [List.getElem?_append_right (by omega), hlen]
            have := h3 (i - taken) (by omega)
            rwa [Tumbler.shift_shift, Nat.add_sub_cancel' (not_lt.1 hti)] at this
        · have := h4 h
          rw [Tumbler.shift_shift] at this
          simp only
          rwa [show remaining - left = taken + (remaining - taken - left) by omega]
      · next hcov =>
        obtain ⟨hne, hnone⟩ := covering_eq_none hcov
        split
        · next hkey =>
          refine ih hmem' hasc' cursor remaining fun x hx i hi b hb => ?_
          rcases List.mem_cons.1 (hrest x hx i hi b hb) with rfl | hx'
          · rw [hnone hkey i] at hb
            cases hb
          · exact hx'
        · next hkey =>
          -- the walk stops at the first key past the cursor
          refine Walked.nil fun _ => ?_
          have hgt : cursor < e.1 := lt_of_le_of_ne (not_lt.1 hkey) hne.symm
          by_contra hsome
          obtain ⟨b, hb⟩ := Option.ne_none_iff_exists'.1 hsome
          obtain ⟨x, hx, hb⟩ := bytesAt_eq_some_iff.1 hb
          have hin := hrest x hx 0 (Nat.pos_of_ne_zero hpos) b (by simpa using hb)
          have hge : e.1 ≤ x.1 := by
            rcases List.mem_cons.1 hin with rfl | hin
            · exact le_rfl
            · exact (hlt x hin).le
          exact absurd (Stored.le_of_bytesAt hb) (hgt.trans_le hge).not_ge

/-- A walk returns the values of its positions, up to the first that has none. -/
theorem walk_spec (s : ContentStore) (start : Tumbler) (width : ℕ) :
    s.Walked start width (s.walk start width) := by
  rw [walk]
  cases hbelow : s.map.atOrBelow start with
  | none =>
    refine Walked.nil fun _ => ?_
    rw [bytesAt, valueAt, hbelow]
    rfl
  | some e =>
    obtain ⟨he, hle, hmax⟩ := OrdMap.atOrBelow_eq_some_iff.1 hbelow
    refine piecesFrom_walked (fun x hx => (OrdMap.mem_above.1 hx).1) (s.map.above_ascending e.1)
      start width fun x hx i _ b hb => OrdMap.mem_above.2 ⟨hx, ?_⟩
    have hshift := Tumbler.shift_le_shift (t := start).2 (Nat.zero_le i)
    rw [Tumbler.shift_zero] at hshift
    exact key_le_of_bytesAt hx hb he (hle.trans hshift)

/-- A walk is covered exactly where every position has a value. -/
theorem covered_iff {s : ContentStore} {start : Tumbler} {width : ℕ} :
    s.covered start width = true ↔ ∀ i < width, ∃ b, s.bytesAt (start.shift i) = some b := by
  obtain ⟨hle, hlen, hvalues, hstop⟩ := s.walk_spec start width
  rw [covered, beq_iff_eq]
  constructor
  · intro hzero i hi
    rw [hvalues i (by omega), List.getElem?_eq_getElem (by omega)]
    exact ⟨_, rfl⟩
  · intro hall
    by_contra hne
    obtain ⟨b, hb⟩ := hall (width - (s.walk start width).2) (by omega)
    rw [hstop hne] at hb
    cases hb

/-- The values of a covered walk, position by position. -/
theorem pieces_values {s : ContentStore} {start : Tumbler} {width : ℕ}
    (h : s.covered start width = true) :
    ((s.pieces start width).flatMap Piece.values).length = width ∧
      ∀ i < width, s.bytesAt (start.shift i) =
        ((s.pieces start width).flatMap Piece.values)[i]? := by
  obtain ⟨-, hlen, hvalues, -⟩ := s.walk_spec start width
  rw [covered, beq_iff_eq] at h
  rw [h, Nat.sub_zero] at hlen hvalues
  exact ⟨hlen, hvalues⟩

-- The write-once map

/-- An entry is the one a position it holds is read from. -/
theorem atOrBelow_of_bytesAt {s : ContentStore} {e : Tumbler × Stored} {t : Tumbler}
    {b : List UInt8} (he : e ∈ s.map.entries) (h : e.2.bytesAt e.1 t = some b) :
    s.map.atOrBelow t = some e :=
  OrdMap.atOrBelow_eq_some_iff.2
    ⟨he, Stored.le_of_bytesAt h, fun _ hx hle => key_le_of_bytesAt he h hx hle⟩

/-- A store with more entries answers what it answered. -/
theorem valueAt_of_entries {s s' : ContentStore}
    (h : ∀ e ∈ s.map.entries, e ∈ s'.map.entries) {t : Tumbler} {p : Piece}
    (hp : s.valueAt t = some p) : s'.valueAt t = some p := by
  have hb : s.bytesAt t = some p.asBytes := by rw [bytesAt, hp, Option.map_some]
  obtain ⟨e, he, hb⟩ := bytesAt_eq_some_iff.1 hb
  rw [valueAt, atOrBelow_of_bytesAt he hb] at hp
  rw [valueAt, atOrBelow_of_bytesAt (h e he) hb]
  exact hp

end ContentStore

/-- The records of the content store. -/
inductive ContentRec where
  | write (r : ContentWrite)
  | stretch (r : ContentStretch)

namespace ContentStore

def applyRec (s : ContentStore) : ContentRec → ContentStore
  | .write r => s.applyWrite r
  | .stretch r => s.applyStretch r

def applyAll (s : ContentStore) (recs : List ContentRec) : ContentStore := recs.foldl applyRec s

theorem entries_applyRec (s : ContentStore) (r : ContentRec) :
    ∀ e ∈ s.map.entries, e ∈ (s.applyRec r).map.entries := by
  intro e he
  cases r with
  | write r =>
    rw [applyRec, applyWrite]
    split
    · exact he
    · next h =>
      rw [Bool.not_eq_true] at h
      exact OrdMap.mem_insert_iff.2 (.inr ⟨he, key_ne_of_not_contains h he⟩)
  | stretch r =>
    rw [applyRec, applyStretch]
    split
    · exact he
    · next h =>
      rw [not_or, Bool.not_eq_true] at h
      exact OrdMap.mem_insert_iff.2 (.inr ⟨he, key_ne_of_not_contains h.1 he⟩)

theorem entries_applyAll (s : ContentStore) (recs : List ContentRec) :
    ∀ e ∈ s.map.entries, e ∈ (s.applyAll recs).map.entries := by
  induction recs generalizing s with
  | nil => exact fun e he => he
  | cons r recs ih => exact fun e he => ih (s.applyRec r) e (entries_applyRec s r e he)

theorem isSome_bytesAt (s : ContentStore) (t : Tumbler) :
    (s.bytesAt t).isSome = (s.valueAt t).isSome := Option.isSome_map

/-- A later tumbler of a chain is a shift of an earlier one. -/
theorem exists_shift_of_sameChain {key t : Tumbler} (h : sameChain key t = true) (hle : key ≤ t) :
    ∃ k, t = key.shift k := by
  obtain ⟨front, last, rfl⟩ := key.exists_snoc
  obtain ⟨front', last', rfl⟩ := t.exists_snoc
  simp only [sameChain, Tumbler.comps_snoc, List.dropLast_concat, Bool.and_eq_true, beq_iff_eq] at h
  obtain ⟨-, rfl⟩ := h
  obtain ⟨k, rfl⟩ := Nat.exists_eq_add_of_le (Tumbler.snoc_le_snoc.1 hle)
  exact ⟨k, (Tumbler.shift_snoc ..).symm⟩

/-- A covered tumbler has a value, or lies inside a stretch and off its chain. -/
theorem contains_iff {s : ContentStore} {t : Tumbler} : s.contains t = true ↔
    (s.valueAt t).isSome = true ∨ ∃ key bytes nonempty,
      (key, Stored.stretch bytes nonempty) ∈ s.map.entries ∧ key < t ∧
        t < key.shift bytes.length ∧ sameChain key t = false := by
  constructor
  · intro h
    rw [contains] at h
    cases hbelow : s.map.atOrBelow t with
    | none => simp [hbelow] at h
    | some e =>
      obtain ⟨key, stored⟩ := e
      rw [hbelow, Option.any_some] at h
      obtain ⟨he, hle, -⟩ := OrdMap.atOrBelow_eq_some_iff.1 hbelow
      cases stored with
      | value v =>
        simp only [Stored.covers, beq_iff_eq] at h
        simp [valueAt, hbelow, h]
      | stretch bytes hne =>
        have hreach : t < key.shift bytes.length := by
          rcases hle.eq_or_lt with rfl | hlt
          · have := Tumbler.shift_lt_shift (t := key).2 (List.length_pos_of_ne_nil hne)
            rwa [Tumbler.shift_zero] at this
          · have hne' : key ≠ t := hlt.ne
            simp only [Stored.covers, Stored.reach, Stored.width, hlt, beq_false_of_ne hne',
              Bool.false_or, decide_true, Bool.true_and] at h
            exact of_decide_eq_true h
        cases hchain : sameChain key t with
        | true =>
          obtain ⟨k, rfl⟩ := exists_shift_of_sameChain hchain hle
          have hk := Tumbler.shift_lt_shift.1 hreach
          simp [valueAt, hbelow, offsetIn_eq_some_iff.2 ⟨hk, rfl⟩]
        | false =>
          have hlt : key < t := hle.lt_of_ne fun heq => by
            rw [show key = t from heq] at hchain
            simp [sameChain] at hchain
          exact .inr ⟨key, bytes, hne, he, hlt, hreach, hchain⟩
  · rintro (h | ⟨key, bytes, hne, he, hlt, hreach, -⟩)
    · rw [← isSome_bytesAt, Option.isSome_iff_exists] at h
      obtain ⟨b, hb⟩ := h
      exact contains_of_bytesAt hb
    · have hbelow : s.map.atOrBelow t = some (key, .stretch bytes hne) := by
        refine OrdMap.atOrBelow_eq_some_iff.2 ⟨he, hlt.le, fun x hx hle => ?_⟩
        by_contra hgt
        exact absurd ((s.apart key bytes hne he x hx (not_le.1 hgt)).trans hle) hreach.not_ge
      rw [contains, hbelow, Option.any_some]
      simp [Stored.covers, Stored.reach, Stored.width, hlt, hreach]

end ContentStore

/-- Over any records, the store is a write-once map: what it answers it answers
ever after, no key lies inside a stretch, the covered tumblers are those with a
value and those inside a stretch off its chain, and a walk returns the values of
its positions up to the first that has none. -/
theorem contentStore_writeOnce (recs : List ContentRec) :
    let s := ContentStore.empty.applyAll recs
    (∀ (more : List ContentRec) (t : Tumbler) (p : Piece), s.valueAt t = some p →
      (s.applyAll more).valueAt t = some p) ∧
    (∀ key bytes nonempty, (key, Stored.stretch bytes nonempty) ∈ s.map.entries →
      ∀ e ∈ s.map.entries, ¬ (key < e.1 ∧ e.1 < key.shift bytes.length)) ∧
    (∀ t, s.contains t = true ↔ (s.valueAt t).isSome = true ∨ ∃ key bytes nonempty,
      (key, Stored.stretch bytes nonempty) ∈ s.map.entries ∧ key < t ∧
        t < key.shift bytes.length ∧ sameChain key t = false) ∧
    ∀ start width, ∃ n ≤ width, ((s.pieces start width).flatMap Piece.values).length = n ∧
      (∀ i < n, (s.valueAt (start.shift i)).map Piece.asBytes =
        ((s.pieces start width).flatMap Piece.values)[i]?) ∧
      (n < width → s.valueAt (start.shift n) = none) ∧
      (s.covered start width = true ↔
        ∀ i < width, (s.valueAt (start.shift i)).isSome = true) := by
  intro s
  refine ⟨fun more t p => ContentStore.valueAt_of_entries (s.entries_applyAll more),
    fun key bytes hne hkey e he hin => ?_, fun t => ContentStore.contains_iff,
    fun start width => ?_⟩
  · exact absurd hin.2 (s.apart key bytes hne hkey e he hin.1).not_gt
  · obtain ⟨hle, hlen, hvalues, hstop⟩ := s.walk_spec start width
    refine ⟨width - (s.walk start width).2, Nat.sub_le _ _, hlen, hvalues, fun hlt => ?_, ?_⟩
    · have hnone := hstop (by omega)
      rwa [ContentStore.bytesAt, Option.map_eq_none_iff] at hnone
    · rw [ContentStore.covered_iff]
      simp only [← ContentStore.isSome_bytesAt, Option.isSome_iff_exists]

/-- A tumbler under an address inside a stretch is covered and has no value. -/
theorem contains_without_value :
    ¬ ∀ (recs : List ContentRec) (t : Tumbler),
      (ContentStore.empty.applyAll recs).contains t =
        ((ContentStore.empty.applyAll recs).valueAt t).isSome := by
  intro h
  have := h [.stretch ⟨⟨⟨[1, 0, 1, 0, 1, 0, 1, 1], by simp⟩, .element, by decide⟩, [7], by simp⟩]
    ⟨[1, 0, 1, 0, 1, 0, 1, 1, 1], by simp⟩
  revert this
  decide
