import Mathlib.Data.List.Basic
import Mathlib.Data.List.Chain
import Mathlib.Tactic.Ring

/-!
# UTF-8 in bytes that need not be UTF-8

Any sequence of bytes splits, from the left, into characters and into bytes that belong to no
character. What a byte is does not depend on where the sequence is cut, as long as no character
is cut in two.
-/

namespace Utf8

-- Sequences

def isContinuation (byte : UInt8) : Bool := byte &&& 0xC0 == 0x80

/-- The length of the character that a byte begins, 0 where it begins none. -/
def charWidth (byte : UInt8) : ℕ :=
  if byte < 0x80 then 1
  else if 0xC2 ≤ byte ∧ byte ≤ 0xDF then 2
  else if 0xE0 ≤ byte ∧ byte ≤ 0xEF then 3
  else if 0xF0 ≤ byte ∧ byte ≤ 0xF4 then 4
  else 0

/-- Whether a character may go on with a byte after its first: no longer spelling than needed,
no surrogate, nothing past the last code point. -/
def admitsSecond (first second : UInt8) : Bool :=
  if first = 0xE0 then 0xA0 ≤ second ∧ second ≤ 0xBF
  else if first = 0xED then 0x80 ≤ second ∧ second ≤ 0x9F
  else if first = 0xF0 then 0x90 ≤ second ∧ second ≤ 0xBF
  else if first = 0xF4 then 0x80 ≤ second ∧ second ≤ 0x8F
  else isContinuation second

/-- How many of the next `n` bytes, from the first on, continue a character. -/
def trail : ℕ → List UInt8 → ℕ
  | 0, _ => 0
  | _ + 1, [] => 0
  | n + 1, byte :: rest => if isContinuation byte then trail n rest + 1 else 0

/-- How many bytes go on with the character that `first` begins. -/
def matched (first : UInt8) : List UInt8 → ℕ
  | [] => 0
  | second :: rest => if admitsSecond first second then trail (charWidth first - 2) rest + 1 else 0

/-- Whether a character stands at the front, and its length, or the length of the invalid
sequence that stands there. -/
def scan : List UInt8 → Bool × ℕ
  | [] => (true, 0)
  | first :: rest =>
      if charWidth first ≤ 1 then (charWidth first = 1, 1)
      else (matched first rest + 1 = charWidth first, matched first rest + 1)

/-- The sequences from the left, each with whether it is a character. -/
def sequences : ℕ → List UInt8 → List (Bool × List UInt8)
  | 0, _ => []
  | _ + 1, [] => []
  | n + 1, first :: rest =>
      let (valid, width) := scan (first :: rest)
      (valid, (first :: rest).take width) :: sequences n ((first :: rest).drop width)

/-- A run of characters and the invalid sequence after it, empty at the end. -/
structure Chunk where
  valid : List UInt8
  invalid : List UInt8
  deriving DecidableEq

def group : List (Bool × List UInt8) → List Chunk
  | [] => []
  | (true, bytes) :: rest =>
      match group rest with
      | [] => [⟨bytes, []⟩]
      | chunk :: more => ⟨bytes ++ chunk.valid, chunk.invalid⟩ :: more
  | (false, bytes) :: rest => ⟨[], bytes⟩ :: group rest

def chunks (bytes : List UInt8) : List Chunk := group (sequences bytes.length bytes)

-- Roles

/-- What a byte is: the first of a character, a later one, or of no character. -/
inductive Role where
  | lead
  | inner
  | stray
  deriving DecidableEq

/-- The roles of a sequence whose first `k` bytes go on with a character. -/
def roles : ℕ → List UInt8 → List Role
  | _, [] => []
  | k + 1, _ :: rest => .inner :: roles k rest
  | 0, first :: rest =>
      if (scan (first :: rest)).1 then .lead :: roles ((scan (first :: rest)).2 - 1) rest
      else .stray :: roles 0 rest

/-- Every byte belongs to a character. -/
def Valid (bytes : List UInt8) : Prop := ∀ r ∈ roles 0 bytes, r ≠ .stray

-- Bytes

theorem isContinuation_iff (byte : UInt8) : isContinuation byte = true ↔ 0x80 ≤ byte ∧ byte ≤ 0xBF := by
  have key : ∀ n : Fin 256, isContinuation (UInt8.ofFin n) = true ↔
      0x80 ≤ UInt8.ofFin n ∧ UInt8.ofFin n ≤ 0xBF := by decide +kernel
  exact key byte.toFin

/-- A byte that goes on with a character begins none. -/
theorem charWidth_of_continuation {byte : UInt8} (h : isContinuation byte = true) : charWidth byte = 0 := by
  have key : ∀ n : Fin 256, isContinuation (UInt8.ofFin n) = true → charWidth (UInt8.ofFin n) = 0 := by
    decide +kernel
  exact key byte.toFin h

theorem isContinuation_of_admitsSecond {first second : UInt8} (h : admitsSecond first second = true) :
    isContinuation second = true := by
  rw [isContinuation_iff]
  unfold admitsSecond at h
  split_ifs at h
  · simp only [decide_eq_true_eq] at h
    exact ⟨UInt8.le_trans (show (0x80 : UInt8) ≤ 0xA0 by decide) h.1, h.2⟩
  · simp only [decide_eq_true_eq] at h
    exact ⟨h.1, UInt8.le_trans h.2 (show (0x9F : UInt8) ≤ 0xBF by decide)⟩
  · simp only [decide_eq_true_eq] at h
    exact ⟨UInt8.le_trans (show (0x80 : UInt8) ≤ 0x90 by decide) h.1, h.2⟩
  · simp only [decide_eq_true_eq] at h
    exact ⟨h.1, UInt8.le_trans h.2 (show (0x8F : UInt8) ≤ 0xBF by decide)⟩
  · rwa [isContinuation_iff] at h

-- The sequence at the front

theorem trail_le_length (n : ℕ) (bytes : List UInt8) : trail n bytes ≤ bytes.length := by
  induction bytes generalizing n with
  | nil => cases n <;> simp [trail]
  | cons b rest ih =>
    cases n with
    | zero => simp [trail]
    | succ n =>
      rw [trail, List.length_cons]
      split_ifs
      · exact Nat.add_le_add_right (ih n) 1
      · exact Nat.zero_le _

theorem continuation_of_lt_trail {n i : ℕ} {bytes : List UInt8} {b : UInt8} (hi : i < trail n bytes)
    (hb : bytes[i]? = some b) : isContinuation b = true := by
  induction bytes generalizing n i with
  | nil => simp at hb
  | cons c rest ih =>
    cases n with
    | zero => simp [trail] at hi
    | succ n =>
      rw [trail] at hi
      by_cases hc : isContinuation c = true
      · rw [if_pos hc] at hi
        cases i with
        | zero =>
          obtain rfl : c = b := by simpa using hb
          exact hc
        | succ i => exact ih (Nat.lt_of_succ_lt_succ hi) (by simpa using hb)
      · rw [if_neg hc] at hi
        exact absurd hi (Nat.not_lt_zero i)

theorem trail_take {n m : ℕ} (bytes : List UInt8) (h : trail n bytes ≤ m) :
    trail n bytes ≤ trail n (bytes.take m) := by
  induction bytes generalizing n m with
  | nil => simp
  | cons b rest ih =>
    cases n with
    | zero => simp [trail]
    | succ n =>
      rw [trail] at h ⊢
      split_ifs at h ⊢ with hb
      · obtain ⟨m, rfl⟩ : ∃ k, m = k + 1 := ⟨m - 1, by omega⟩
        rw [List.take_succ_cons, trail, if_pos hb]
        have := ih (Nat.le_of_succ_le_succ h)
        omega
      · exact Nat.zero_le _

theorem trail_append (n : ℕ) (bytes more : List UInt8) : trail n bytes ≤ trail n (bytes ++ more) := by
  induction bytes generalizing n with
  | nil => cases n <;> simp [trail]
  | cons b rest ih =>
    cases n with
    | zero => simp [trail]
    | succ n =>
      rw [List.cons_append, trail, trail]
      split_ifs
      · exact Nat.add_le_add_right (ih n) 1
      · exact le_rfl

theorem trail_le (n : ℕ) (bytes : List UInt8) : trail n bytes ≤ n := by
  induction bytes generalizing n with
  | nil => cases n <;> simp [trail]
  | cons b rest ih =>
    cases n with
    | zero => simp [trail]
    | succ n =>
      rw [trail]
      split_ifs
      · exact Nat.add_le_add_right (ih n) 1
      · exact Nat.zero_le _

theorem matched_le_length (first : UInt8) (rest : List UInt8) : matched first rest ≤ rest.length := by
  cases rest with
  | nil => simp [matched]
  | cons b rest =>
    rw [matched, List.length_cons]
    split_ifs
    · exact Nat.add_le_add_right (trail_le_length _ rest) 1
    · exact Nat.zero_le _

theorem matched_lt {first : UInt8} (h : 1 < charWidth first) (rest : List UInt8) :
    matched first rest < charWidth first := by
  cases rest with
  | nil => simpa [matched] using Nat.lt_of_succ_lt h
  | cons b rest =>
    rw [matched]
    split_ifs
    · have := trail_le (charWidth first - 2) rest
      omega
    · omega

theorem continuation_of_lt_matched {first : UInt8} {rest : List UInt8} {i : ℕ} {b : UInt8}
    (hi : i < matched first rest) (hb : rest[i]? = some b) : isContinuation b = true := by
  cases rest with
  | nil => simp at hb
  | cons c rest =>
    rw [matched] at hi
    by_cases hc : admitsSecond first c = true
    · rw [if_pos hc] at hi
      cases i with
      | zero =>
        obtain rfl : c = b := by simpa using hb
        exact isContinuation_of_admitsSecond hc
      | succ i => exact continuation_of_lt_trail (Nat.lt_of_succ_lt_succ hi) (by simpa using hb)
    · rw [if_neg hc] at hi
      exact absurd hi (Nat.not_lt_zero i)

theorem matched_take {first : UInt8} {rest : List UInt8} {m : ℕ} (h : matched first rest ≤ m) :
    matched first rest ≤ matched first (rest.take m) := by
  cases rest with
  | nil => simp
  | cons b rest =>
    rw [matched] at h ⊢
    split_ifs at h ⊢ with hb
    · obtain ⟨m, rfl⟩ : ∃ k, m = k + 1 := ⟨m - 1, by omega⟩
      rw [List.take_succ_cons, matched, if_pos hb]
      have := trail_take rest (Nat.le_of_succ_le_succ h)
      omega
    · exact Nat.zero_le _

theorem matched_append (first : UInt8) (rest more : List UInt8) :
    matched first rest ≤ matched first (rest ++ more) := by
  cases rest with
  | nil => simp [matched]
  | cons b rest =>
    rw [List.cons_append, matched, matched]
    split_ifs
    · exact Nat.add_le_add_right (trail_append _ rest more) 1
    · exact le_rfl

/-- The bytes after the first that the front sequence takes. -/
def taken (first : UInt8) (rest : List UInt8) : ℕ := (scan (first :: rest)).2 - 1

theorem scan_width (first : UInt8) (rest : List UInt8) :
    (scan (first :: rest)).2 = taken first rest + 1 := by
  rw [taken, scan]
  split_ifs <;> rfl

theorem taken_le_length (first : UInt8) (rest : List UInt8) : taken first rest ≤ rest.length := by
  rw [taken, scan]
  split_ifs
  · exact Nat.zero_le _
  · exact matched_le_length first rest

/-- What the front sequence takes after its first byte goes on with a character. -/
theorem continuation_of_lt_taken {first : UInt8} {rest : List UInt8} {i : ℕ} {b : UInt8}
    (hi : i < taken first rest) (hb : rest[i]? = some b) : isContinuation b = true := by
  rw [taken, scan] at hi
  split_ifs at hi
  · simp at hi
  · exact continuation_of_lt_matched hi hb

theorem scan_append {first : UInt8} {rest : List UInt8} (more : List UInt8)
    (h : (scan (first :: rest)).1 = true) :
    (scan (first :: (rest ++ more))).1 = true ∧ taken first (rest ++ more) = taken first rest := by
  simp only [taken, scan] at h ⊢
  by_cases hw : charWidth first ≤ 1
  · simpa [hw] using h
  · simp only [if_neg hw, decide_eq_true_eq] at h ⊢
    have := matched_append first rest more
    have := matched_lt (not_le.1 hw) (rest ++ more)
    omega

/-- A character stays one where what follows it is cut off. -/
theorem scan_take {first : UInt8} {rest : List UInt8} {m : ℕ} (h : (scan (first :: rest)).1 = true)
    (hm : taken first rest ≤ m) :
    (scan (first :: rest.take m)).1 = true ∧ taken first (rest.take m) = taken first rest := by
  simp only [taken, scan] at h hm ⊢
  by_cases hw : charWidth first ≤ 1
  · simpa [hw] using h
  · simp only [if_neg hw, decide_eq_true_eq] at h hm ⊢
    have hle : matched first rest ≤ m := by omega
    have := matched_take hle
    have := matched_lt (not_le.1 hw) (rest.take m)
    omega

theorem scan_of_continuation {first : UInt8} (h : isContinuation first = true) (rest : List UInt8) :
    (scan (first :: rest)).1 = false := by
  simp [scan, charWidth_of_continuation h]

-- Roles of a part

theorem roles_zero_cons (first : UInt8) (rest : List UInt8) : roles 0 (first :: rest) =
    if (scan (first :: rest)).1 then .lead :: roles (taken first rest) rest else .stray :: roles 0 rest := by
  rw [roles, taken]

@[simp] theorem roles_nil (k : ℕ) : roles k [] = [] := by cases k <;> rfl

@[simp] theorem roles_succ_cons (k : ℕ) (b : UInt8) (rest : List UInt8) :
    roles (k + 1) (b :: rest) = .inner :: roles k rest := rfl

@[simp] theorem length_roles (k : ℕ) (bytes : List UInt8) : (roles k bytes).length = bytes.length := by
  induction bytes generalizing k with
  | nil => simp
  | cons b rest ih =>
    cases k with
    | succ k => simp [ih]
    | zero =>
      rw [roles_zero_cons]
      split_ifs <;> simp [ih]

/-- The roles from a byte on that goes on with no character. -/
theorem roles_drop {k i : ℕ} {bytes : List UInt8} (h : (roles k bytes)[i]? ≠ some .inner)
    (hk : k ≤ bytes.length) (hi : i ≤ bytes.length) :
    roles 0 (bytes.drop i) = (roles k bytes).drop i := by
  induction bytes generalizing k i with
  | nil => simp
  | cons b rest ih =>
    cases k with
    | succ k =>
      cases i with
      | zero => simp at h
      | succ i => exact ih (by simpa using h) (by simpa using hk) (by simpa using hi)
    | zero =>
      cases i with
      | zero => rfl
      | succ i =>
        rw [roles_zero_cons] at h ⊢
        split_ifs at h ⊢
        · exact ih (by simpa using h) (taken_le_length b rest) (by simpa using hi)
        · exact ih (by simpa using h) (Nat.zero_le _) (by simpa using hi)

/-- A byte that goes on with no character stands past what the front sequence takes. -/
theorem le_of_roles_ne_inner {k i : ℕ} {bytes : List UInt8} (h : (roles k bytes)[i]? ≠ some .inner)
    (hk : k ≤ bytes.length) : k ≤ i := by
  induction bytes generalizing k i with
  | nil => simp_all
  | cons b rest ih =>
    cases k with
    | zero => exact Nat.zero_le _
    | succ k =>
      cases i with
      | zero => simp at h
      | succ i => exact Nat.succ_le_succ (ih (by simpa using h) (by simpa using hk))

/-- The roles up to a byte that goes on with no character. -/
theorem roles_take {k i : ℕ} {bytes : List UInt8} (h : (roles k bytes)[i]? ≠ some .inner)
    (hk : k ≤ bytes.length) : roles k (bytes.take i) = (roles k bytes).take i := by
  induction bytes generalizing k i with
  | nil => simp
  | cons b rest ih =>
    cases i with
    | zero => simp
    | succ i =>
      cases k with
      | succ k =>
        rw [List.take_succ_cons, roles_succ_cons, roles_succ_cons, List.take_succ_cons,
          ih (by simpa using h) (by simpa using hk)]
      | zero =>
        rw [roles_zero_cons] at h
        rw [List.take_succ_cons, roles_zero_cons, roles_zero_cons]
        by_cases hs : (scan (b :: rest)).1 = true
        · rw [if_pos hs] at h ⊢
          have hle := taken_le_length b rest
          have h' : (roles (taken b rest) rest)[i]? ≠ some .inner := by simpa using h
          obtain ⟨hv, ht⟩ := scan_take hs (le_of_roles_ne_inner h' hle)
          rw [if_pos hv, ht, List.take_succ_cons, ih h' hle]
        · rw [if_neg hs] at h ⊢
          -- a cut makes no character of what was none
          have hv : ¬ (scan (b :: rest.take i)).1 = true := by
            intro hv
            have := (scan_append (rest.drop i) hv).1
            rw [List.take_append_drop] at this
            exact hs this
          rw [if_neg hv, List.take_succ_cons, ih (by simpa using h) (Nat.zero_le _)]

theorem continuation_of_inner {k i : ℕ} {bytes : List UInt8} {b : UInt8}
    (hk : ∀ j < k, ∀ c, bytes[j]? = some c → isContinuation c = true)
    (h : (roles k bytes)[i]? = some .inner) (hb : bytes[i]? = some b) : isContinuation b = true := by
  induction bytes generalizing k i with
  | nil => simp at hb
  | cons c rest ih =>
    cases k with
    | succ k =>
      cases i with
      | zero => exact hk 0 (Nat.succ_pos k) b hb
      | succ i =>
        refine ih (fun j hj d hd => hk (j + 1) (Nat.succ_lt_succ hj) d (by simpa using hd))
          (by simpa using h) (by simpa using hb)
    | zero =>
      rw [roles_zero_cons] at h
      cases i with
      | zero => split_ifs at h <;> simp at h
      | succ i =>
        split_ifs at h with hs
        · exact ih (fun j hj d hd => continuation_of_lt_taken hj hd) (by simpa using h) (by simpa using hb)
        · exact ih (fun j hj => absurd hj (Nat.not_lt_zero j)) (by simpa using h) (by simpa using hb)

/-- A byte that goes on with a character and belongs to one is not its first. -/
theorem not_lead_of_continuation {k i : ℕ} {bytes : List UInt8} {b : UInt8}
    (hb : bytes[i]? = some b) (hc : isContinuation b = true) : (roles k bytes)[i]? ≠ some .lead := by
  induction bytes generalizing k i with
  | nil => simp at hb
  | cons c rest ih =>
    cases i with
    | zero =>
      obtain rfl : c = b := by simpa using hb
      cases k with
      | succ k => simp
      | zero => simp [roles_zero_cons, scan_of_continuation hc]
    | succ i =>
      have hb' : rest[i]? = some b := by simpa using hb
      cases k with
      | succ k => simpa using ih hb'
      | zero =>
        rw [roles_zero_cons]
        split_ifs
        · simpa using ih hb'
        · simpa using ih hb'

theorem head_roles_zero (bytes : List UInt8) : (roles 0 bytes)[0]? ≠ some .inner := by
  cases bytes with
  | nil => simp
  | cons b rest =>
    rw [roles_zero_cons]
    split_ifs <;> simp

/-- A later byte of a character follows a byte of one. -/
theorem stray_not_before_inner {k i : ℕ} {bytes : List UInt8} (h : (roles k bytes)[i]? = some .stray) :
    (roles k bytes)[i + 1]? ≠ some .inner := by
  induction bytes generalizing k i with
  | nil => simp at h
  | cons c rest ih =>
    cases k with
    | succ k =>
      cases i with
      | zero => simp at h
      | succ i => exact ih (by simpa using h)
    | zero =>
      rw [roles_zero_cons] at h ⊢
      split_ifs at h ⊢ with hs
      · cases i with
        | zero => simp at h
        | succ i => simpa using ih (by simpa using h)
      · cases i with
        | zero => simpa using head_roles_zero rest
        | succ i => simpa using ih (by simpa using h)

/-- Bytes that all belong to characters have their roles whatever follows them. -/
theorem roles_append {k : ℕ} {bytes : List UInt8} (more : List UInt8) (hk : k ≤ bytes.length)
    (h : ∀ r ∈ roles k bytes, r ≠ .stray) : roles k (bytes ++ more) = roles k bytes ++ roles 0 more := by
  induction bytes generalizing k with
  | nil =>
    obtain rfl : k = 0 := by simpa using hk
    simp
  | cons b rest ih =>
    cases k with
    | succ k =>
      rw [List.cons_append, roles_succ_cons, roles_succ_cons, List.cons_append,
        ih (by simpa using hk) fun r hr => h r (List.mem_cons_of_mem _ hr)]
    | zero =>
      rw [roles_zero_cons] at h
      rw [List.cons_append, roles_zero_cons, roles_zero_cons]
      by_cases hs : (scan (b :: rest)).1 = true
      · rw [if_pos hs] at h ⊢
        obtain ⟨hv, ht⟩ := scan_append more hs
        rw [if_pos hv, ht, List.cons_append,
          ih (taken_le_length b rest) fun r hr => h r (List.mem_cons_of_mem _ hr)]
      · rw [if_neg hs] at h
        exact absurd rfl (h .stray List.mem_cons_self)

theorem Valid.roles_append {bytes : List UInt8} (h : Valid bytes) (more : List UInt8) :
    roles 0 (bytes ++ more) = roles 0 bytes ++ roles 0 more :=
  Utf8.roles_append more (Nat.zero_le _) h

theorem valid_nil : Valid [] := by simp [Valid]

theorem Valid.append {bytes more : List UInt8} (h : Valid bytes) (h' : Valid more) : Valid (bytes ++ more) := by
  intro r hr
  rw [h.roles_append] at hr
  exact (List.mem_append.1 hr).elim (h r) (h' r)

-- Chunks

/-- Bytes that all go on with a character are the roles they were promised, and belong to none
where none was. -/
theorem roles_continuations {bytes : List UInt8} {n : ℕ} (hn : n ≤ bytes.length)
    (h : ∀ j < n, ∀ c, bytes[j]? = some c → isContinuation c = true) :
    roles 0 bytes = List.replicate n .stray ++ roles 0 (bytes.drop n) := by
  induction n generalizing bytes with
  | zero => simp
  | succ n ih =>
    cases bytes with
    | nil => simp at hn
    | cons b rest =>
      have hb : isContinuation b = true := h 0 (Nat.succ_pos n) b rfl
      rw [roles_zero_cons, scan_of_continuation hb, if_neg (by simp), List.replicate_succ, List.cons_append,
        List.drop_succ_cons]
      congr 1
      exact ih (by simpa using hn) fun j hj c hc => h (j + 1) (Nat.succ_lt_succ hj) c (by simpa using hc)

theorem roles_pending {bytes : List UInt8} {k : ℕ} (hk : k ≤ bytes.length) :
    roles k bytes = List.replicate k .inner ++ roles 0 (bytes.drop k) := by
  induction k generalizing bytes with
  | zero => simp
  | succ k ih =>
    cases bytes with
    | nil => simp at hk
    | cons b rest =>
      rw [roles_succ_cons, ih (by simpa using hk), List.replicate_succ, List.cons_append, List.drop_succ_cons]

/-- The roles that a sequence of its kind and length has. -/
def sequenceRoles (valid : Bool) (width : ℕ) : List Role :=
  if valid then .lead :: List.replicate (width - 1) .inner else List.replicate width .stray

theorem roles_scan (first : UInt8) (rest : List UInt8) : roles 0 (first :: rest) =
    sequenceRoles (scan (first :: rest)).1 (scan (first :: rest)).2 ++
      roles 0 ((first :: rest).drop (scan (first :: rest)).2) := by
  have hle := taken_le_length first rest
  rw [roles_zero_cons, sequenceRoles, scan_width, List.drop_succ_cons]
  split_ifs with hs
  · rw [roles_pending hle, List.cons_append]
    rfl
  · rw [roles_continuations hle fun j hj c hc => continuation_of_lt_taken hj hc, List.replicate_succ,
      List.cons_append]

/-- What the front sequence holds, on its own, has the roles it has there. -/
theorem roles_take_scan {first : UInt8} {rest : List UInt8} (h : (scan (first :: rest)).1 = true) :
    roles 0 ((first :: rest).take (scan (first :: rest)).2) =
      sequenceRoles true (scan (first :: rest)).2 := by
  have hle := taken_le_length first rest
  obtain ⟨hv, ht⟩ := scan_take h le_rfl
  rw [scan_width, List.take_succ_cons, roles_zero_cons, if_pos hv, ht,
    roles_pending (by simp [hle]), List.drop_take, Nat.sub_self, List.take_zero, roles_nil, List.append_nil]
  rfl

/-- The sequences hold the bytes, each with the roles it has there. -/
structure Splits (bytes : List UInt8) (seqs : List (Bool × List UInt8)) : Prop where
  bytes_eq : (seqs.map Prod.snd).flatten = bytes
  roles_eq : roles 0 bytes = (seqs.map fun s => sequenceRoles s.1 s.2.length).flatten
  nonempty : ∀ s ∈ seqs, s.2 ≠ []
  valid : ∀ s ∈ seqs, s.1 = true → roles 0 s.2 = sequenceRoles true s.2.length

theorem splits_sequences {n : ℕ} {bytes : List UInt8} (hn : bytes.length ≤ n) :
    Splits bytes (sequences n bytes) := by
  induction n generalizing bytes with
  | zero =>
    obtain rfl : bytes = [] := List.length_eq_zero_iff.1 (Nat.le_zero.1 hn)
    exact ⟨rfl, rfl, by simp [sequences], by simp [sequences]⟩
  | succ n ih =>
    cases bytes with
    | nil => exact ⟨rfl, rfl, by simp [sequences], by simp [sequences]⟩
    | cons first rest =>
      have hle := taken_le_length first rest
      have hlen : ((first :: rest).take (scan (first :: rest)).2).length = (scan (first :: rest)).2 := by
        rw [scan_width, List.length_take, List.length_cons]
        omega
      have hshort : ((first :: rest).drop (scan (first :: rest)).2).length ≤ n := by
        rw [scan_width, List.length_drop, List.length_cons]
        rw [List.length_cons] at hn
        omega
      have hrec := ih hshort
      have heq : sequences (n + 1) (first :: rest) =
          ((scan (first :: rest)).1, (first :: rest).take (scan (first :: rest)).2) ::
            sequences n ((first :: rest).drop (scan (first :: rest)).2) := rfl
      rw [heq]
      constructor
      · rw [List.map_cons, List.flatten_cons, hrec.bytes_eq, List.take_append_drop]
      · rw [List.map_cons, List.flatten_cons, ← hrec.roles_eq, hlen, ← roles_scan]
      · intro s hs
        rcases List.mem_cons.1 hs with rfl | hs
        · rw [scan_width]
          simp
        · exact hrec.nonempty s hs
      · intro s hs hv
        rcases List.mem_cons.1 hs with rfl | hs
        · rw [hlen]
          exact roles_take_scan hv
        · exact hrec.valid s hs hv

/-- The bytes of a chunk's invalid sequence belong to no character. -/
def Chunk.roles (chunk : Chunk) : List Role :=
  Utf8.roles 0 chunk.valid ++ List.replicate chunk.invalid.length .stray

/-- The chunks hold the bytes, each byte with the role it has there. -/
structure Cuts (bytes : List UInt8) (cs : List Chunk) : Prop where
  bytes_eq : (cs.map fun c => c.valid ++ c.invalid).flatten = bytes
  roles_eq : roles 0 bytes = (cs.map Chunk.roles).flatten
  valid : ∀ c ∈ cs, Valid c.valid

theorem sequenceRoles_true_ne_stray (width : ℕ) : ∀ r ∈ sequenceRoles true width, r ≠ .stray := by
  intro r hr
  simp only [sequenceRoles, if_true, List.mem_cons, List.mem_replicate] at hr
  rcases hr with rfl | ⟨-, rfl⟩ <;> decide

theorem cuts_group {bytes : List UInt8} {seqs : List (Bool × List UInt8)} (h : Splits bytes seqs) :
    Cuts bytes (group seqs) := by
  induction seqs generalizing bytes with
  | nil =>
    obtain rfl : [] = bytes := h.bytes_eq
    exact ⟨rfl, rfl, by simp [group]⟩
  | cons s rest ih =>
    obtain ⟨valid, front⟩ := s
    have hbytes : front ++ (rest.map Prod.snd).flatten = bytes := h.bytes_eq
    subst hbytes
    have hroles : roles 0 (front ++ (rest.map Prod.snd).flatten) = sequenceRoles valid front.length ++
        (rest.map fun s => sequenceRoles s.1 s.2.length).flatten := h.roles_eq
    have hrest : roles 0 (rest.map Prod.snd).flatten =
        (rest.map fun s => sequenceRoles s.1 s.2.length).flatten := by
      have hfront : front ≠ [] := h.nonempty _ List.mem_cons_self
      have hlen : (sequenceRoles valid front.length).length = front.length := by
        have := List.length_pos_iff.2 hfront
        unfold sequenceRoles
        split_ifs
        · rw [List.length_cons, List.length_replicate]
          omega
        · rw [List.length_replicate]
      have hinner : (roles 0 (front ++ (rest.map Prod.snd).flatten))[front.length]? ≠ some .inner := by
        rw [hroles, List.getElem?_append_right hlen.le, hlen, Nat.sub_self]
        cases rest with
        | nil => simp
        | cons t more =>
          have ht : t.2 ≠ [] := h.nonempty t (List.mem_cons_of_mem _ List.mem_cons_self)
          obtain ⟨b, l, hbl⟩ := List.exists_cons_of_ne_nil ht
          rw [List.map_cons, List.flatten_cons, sequenceRoles, hbl]
          split_ifs <;> simp [List.replicate_succ]
      have hdrop := roles_drop hinner (Nat.zero_le _) (by simp)
      rwa [List.drop_append_of_le_length le_rfl, List.drop_length, List.nil_append, hroles,
        List.drop_append_of_le_length hlen.ge, List.drop_eq_nil_of_le hlen.le, List.nil_append] at hdrop
    have hcuts := ih ⟨rfl, hrest, fun s hs => h.nonempty s (List.mem_cons_of_mem _ hs),
      fun s hs => h.valid s (List.mem_cons_of_mem _ hs)⟩
    cases valid with
    | false =>
      refine ⟨?_, ?_, ?_⟩
      · simp only [group, List.map_cons, List.flatten_cons, List.nil_append, hcuts.bytes_eq]
      · rw [hroles, ← hrest, hcuts.roles_eq]
        simp [group, Chunk.roles, sequenceRoles]
      · intro c hc
        rcases List.mem_cons.1 hc with rfl | hc
        · exact valid_nil
        · exact hcuts.valid c hc
    | true =>
      have hown : roles 0 front = sequenceRoles true front.length := h.valid _ List.mem_cons_self rfl
      have hvalid : Valid front := by
        intro r hr
        rw [hown] at hr
        exact sequenceRoles_true_ne_stray _ r hr
      have hall : roles 0 (front ++ (rest.map Prod.snd).flatten) =
          roles 0 front ++ ((group rest).map Chunk.roles).flatten := by
        rw [hvalid.roles_append, hcuts.roles_eq]
      cases hg : group rest with
      | nil =>
        rw [hg] at hcuts hall
        have hnil : (rest.map Prod.snd).flatten = [] := hcuts.bytes_eq.symm
        refine ⟨?_, ?_, ?_⟩
        · simp [group, hg, hnil]
        · rw [hall]
          simp [group, hg, Chunk.roles]
        · intro c hc
          simp only [group, hg, List.mem_singleton] at hc
          rw [hc]
          exact hvalid
      | cons chunk more =>
        rw [hg] at hcuts hall
        have hchunk := hcuts.valid chunk List.mem_cons_self
        refine ⟨?_, ?_, ?_⟩
        · have := hcuts.bytes_eq
          simp only [group, hg, List.map_cons, List.flatten_cons, List.append_assoc] at this ⊢
          rw [this]
        · rw [hall]
          simp only [group, hg, List.map_cons, List.flatten_cons, Chunk.roles, hvalid.roles_append,
            List.append_assoc]
        · intro c hc
          simp only [group, hg, List.mem_cons] at hc
          rcases hc with rfl | hc
          · exact hvalid.append hchunk
          · exact hcuts.valid c (List.mem_cons_of_mem _ hc)

theorem roles_chunks (bytes : List UInt8) : Cuts bytes (chunks bytes) :=
  cuts_group (splits_sequences le_rfl)

theorem group_invalid_ne_nil {seqs : List (Bool × List UInt8)} (h : ∀ s ∈ seqs, s.2 ≠ []) {pre post : List Chunk}
    {c : Chunk} (heq : group seqs = pre ++ c :: post) (hpost : post ≠ []) : c.invalid ≠ [] := by
  induction seqs generalizing pre c with
  | nil => simp [group] at heq
  | cons s rest ih =>
    have hrest := fun s' hs' => h s' (List.mem_cons_of_mem _ hs')
    obtain ⟨valid, bytes⟩ := s
    cases valid with
    | false =>
      rw [group] at heq
      cases pre with
      | nil =>
        obtain ⟨rfl, -⟩ := List.cons.inj heq
        exact h _ List.mem_cons_self
      | cons d pre => exact ih hrest (List.cons.inj heq).2
    | true =>
      rw [group] at heq
      cases hg : group rest with
      | nil =>
        rw [hg] at heq
        have hlen := congrArg List.length heq
        have := List.length_pos_iff.2 hpost
        simp only [List.length_cons, List.length_nil, List.length_append] at hlen
        omega
      | cons d more =>
        rw [hg] at heq
        cases pre with
        | nil =>
          obtain ⟨rfl, rfl⟩ := List.cons.inj heq
          have hg' : group rest = [] ++ d :: more := hg
          exact ih (c := d) hrest hg'
        | cons d' pre =>
          obtain ⟨-, rfl⟩ := List.cons.inj heq
          have hg' : group rest = (d :: pre) ++ c :: post := hg
          exact ih hrest hg'

theorem chunks_invalid_ne_nil {bytes : List UInt8} {pre post : List Chunk} {c : Chunk}
    (heq : chunks bytes = pre ++ c :: post) (hpost : post ≠ []) : c.invalid ≠ [] :=
  group_invalid_ne_nil (splits_sequences le_rfl).nonempty heq hpost

/-- The bytes of an initial run of characters. -/
def validLen (bytes : List UInt8) : ℕ := ((roles 0 bytes).takeWhile (· ≠ .stray)).length

/-- The first chunk begins with the initial run of characters. -/
theorem head_chunks {bytes : List UInt8} (h : bytes ≠ []) :
    ∃ c, (chunks bytes).head? = some c ∧ c.valid = bytes.take (validLen bytes) := by
  have hcuts := roles_chunks bytes
  cases hc : chunks bytes with
  | nil =>
    rw [hc] at hcuts
    exact absurd hcuts.bytes_eq.symm h
  | cons c rest =>
    refine ⟨c, rfl, ?_⟩
    have hc' : chunks bytes = [] ++ c :: rest := hc
    have hinvalid := chunks_invalid_ne_nil hc'
    rw [hc] at hcuts
    have hvalid := hcuts.valid c List.mem_cons_self
    have hlen : validLen bytes = c.valid.length := by
      rw [validLen, hcuts.roles_eq, List.map_cons, List.flatten_cons, Chunk.roles, List.append_assoc,
        List.takeWhile_append_of_pos (fun r hr => decide_eq_true (hvalid r hr)), List.length_append, length_roles]
      cases hi : c.invalid with
      | nil =>
        obtain rfl : rest = [] := by
          by_contra hrest
          exact hinvalid hrest hi
        simp
      | cons b more => simp [List.replicate_succ]
    have hbytes := hcuts.bytes_eq
    rw [List.map_cons, List.flatten_cons, List.append_assoc] at hbytes
    rw [hlen, ← hbytes, List.take_left]

/-- A run of characters ends where a byte of none follows. -/
theorem Valid.validLen_append {bytes : List UInt8} (h : Valid bytes) {more : List UInt8}
    (hmore : ∀ r, (roles 0 more).head? = some r → r = .stray) : validLen (bytes ++ more) = bytes.length := by
  rw [validLen, h.roles_append, List.takeWhile_append_of_pos (fun r hr => decide_eq_true (h r hr)), List.length_append,
    length_roles]
  cases hr : roles 0 more with
  | nil => simp
  | cons r rest =>
    rw [hr] at hmore
    simp [hmore r rfl]

theorem Valid.validLen_eq {bytes : List UInt8} (h : Valid bytes) : validLen bytes = bytes.length := by
  have hnil : ∀ r, (roles 0 ([] : List UInt8)).head? = some r → r = .stray := by simp
  simpa using h.validLen_append hnil

/-- A byte of no character belongs to none where what follows it is cut off. -/
theorem stray_head_take {bytes : List UInt8} (h : ∀ r, (roles 0 bytes).head? = some r → r = .stray) (n : ℕ) :
    ∀ r, (roles 0 (bytes.take n)).head? = some r → r = .stray := by
  cases bytes with
  | nil => simp
  | cons b rest =>
    cases n with
    | zero => simp
    | succ n =>
      intro r hr
      rw [roles_zero_cons] at h
      by_cases hs : (scan (b :: rest)).1 = true
      · rw [if_pos hs] at h
        cases h .lead rfl
      · rw [List.take_succ_cons, roles_zero_cons, if_neg] at hr
        · simpa using hr.symm
        · intro hv
          have := (scan_append (rest.drop n) hv).1
          rw [List.take_append_drop] at this
          exact hs this

theorem taken_le_three (first : UInt8) (rest : List UInt8) : taken first rest ≤ 3 := by
  have hw : charWidth first ≤ 4 := by
    unfold charWidth
    split_ifs <;> decide
  rw [taken, scan]
  split_ifs with h
  · exact Nat.zero_le _
  · have := matched_lt (not_le.1 h) rest
    dsimp only
    omega

/-- A cut leaves at most three bytes of a character behind the run of characters before it. -/
theorem le_validLen_take {k n : ℕ} {bytes : List UInt8} (hk : k ≤ 3) (h : ∀ r ∈ roles k bytes, r ≠ .stray)
    (hkl : k ≤ bytes.length) (hn : n ≤ bytes.length) :
    n ≤ ((roles k (bytes.take n)).takeWhile (· ≠ .stray)).length + 3 := by
  induction bytes generalizing k n with
  | nil =>
    have : n = 0 := by simpa using hn
    omega
  | cons b rest ih =>
    cases n with
    | zero => omega
    | succ n =>
      have hn' : n ≤ rest.length := by simpa using hn
      rw [List.take_succ_cons]
      cases k with
      | succ k =>
        have := ih (k := k) (by omega) (fun r hr => h r (List.mem_cons_of_mem _ hr))
          (by simpa using hkl) hn'
        rw [roles_succ_cons, List.takeWhile_cons_of_pos (by simp), List.length_cons]
        omega
      | zero =>
        rw [roles_zero_cons] at h
        by_cases hs : (scan (b :: rest)).1 = true
        · rw [if_pos hs] at h
          by_cases hle : taken b rest ≤ n
          · obtain ⟨hv, ht⟩ := scan_take hs hle
            have := ih (taken_le_three b rest) (fun r hr => h r (List.mem_cons_of_mem _ hr))
              (taken_le_length b rest) hn'
            rw [roles_zero_cons, if_pos hv, ht, List.takeWhile_cons_of_pos (by simp), List.length_cons]
            omega
          · have := taken_le_three b rest
            omega
        · rw [if_neg hs] at h
          exact absurd rfl (h .stray List.mem_cons_self)

theorem Valid.le_validLen_take {n : ℕ} {bytes : List UInt8} (h : Valid bytes) (hn : n ≤ bytes.length) :
    n ≤ validLen (bytes.take n) + 3 :=
  Utf8.le_validLen_take (Nat.zero_le _) h (Nat.zero_le _) hn

theorem validLen_le (bytes : List UInt8) : validLen bytes ≤ bytes.length := by
  rw [validLen, ← length_roles 0 bytes]
  exact (List.takeWhile_sublist _).length_le

/-- A part of a run of characters that starts between characters is one. -/
theorem Valid.drop {bytes : List UInt8} (h : Valid bytes) {i : ℕ} (hi : (roles 0 bytes)[i]? ≠ some .inner)
    (hle : i ≤ bytes.length) : Valid (bytes.drop i) := by
  intro r hr
  rw [roles_drop hi (Nat.zero_le _) hle] at hr
  exact h r (List.mem_of_mem_drop hr)

/-- A character and a byte of none: what a cut between two characters leaves unchanged. -/
example : chunks [0x61, 0xC3, 0xA9, 0xE2, 0x80, 0x62] = [⟨[0x61, 0xC3, 0xA9], [0xE2, 0x80]⟩, ⟨[0x62], []⟩] := by
  decide

end Utf8
