import Skep.Address.Arithmetic

/-!
# Addresses

An address is a tumbler the four clauses of T4 admit: up to four fields of
positive components, parted by single zeros. Its level is the number of zeros.
The admission is a field of the type, so a projection of an address that stays
admitted is an address by proof, with no second check.
-/

/-- The four levels an address may stand at. -/
inductive Level where
  | node
  | account
  | document
  | element
  deriving DecidableEq, Repr

/-- The zeros an address at the level has. -/
def Level.zeros : Level → ℕ
  | .node => 0
  | .account => 1
  | .document => 2
  | .element => 3

/-- A clause of T4. -/
inductive T4Clause where
  | leadingZero
  | trailingZero
  | adjacentZeros
  | overDepth
  deriving DecidableEq, Repr

/-- The clauses a refused tumbler violates. -/
structure T4Error where
  clauses : List T4Clause
  deriving DecidableEq, Repr

/-- What one scan of a tumbler finds. -/
structure T4Scan where
  zeros : ℕ
  clauses : List T4Clause

/-- Whether two zeros stand side by side. -/
def hasAdjacentZeros : List ℕ → Bool
  | c :: c' :: rest => (c == 0 && c' == 0) || hasAdjacentZeros (c' :: rest)
  | _ => false

/-- The scan: the zeros counted, the violated clauses listed. -/
def t4Scan (t : Tumbler) : T4Scan :=
  ⟨t.comps.count 0,
    (if t.comps.head? = some 0 then [.leadingZero] else []) ++
      (if t.comps.getLast? = some 0 then [.trailingZero] else []) ++
      (if hasAdjacentZeros t.comps then [.adjacentZeros] else []) ++
      (if 3 < t.comps.count 0 then [.overDepth] else [])⟩

/-- The level of a zero count, none past the last level. -/
def levelOfZeros : ℕ → Option Level
  | 0 => some .node
  | 1 => some .account
  | 2 => some .document
  | 3 => some .element
  | _ => none

/-- The level of a scan that violates no clause. -/
def T4Scan.admittedLevel (s : T4Scan) : Option Level :=
  if s.clauses = [] then levelOfZeros s.zeros else none

/-- Whether T4 admits the tumbler. -/
def isT4Valid (t : Tumbler) : Bool := (t4Scan t).admittedLevel.isSome

/-- A tumbler T4 admits, at its level. -/
structure Address where
  tumbler : Tumbler
  level : Level
  admitted : (t4Scan tumbler).admittedLevel = some level

/-- The constructor. -/
def validate (t : Tumbler) : Outcome T4Error Address :=
  match h : (t4Scan t).admittedLevel with
  | some level => .ok ⟨t, level, h⟩
  | none => .err ⟨(t4Scan t).clauses⟩

theorem levelOfZeros_eq_some_iff {n : ℕ} {lv : Level} : levelOfZeros n = some lv ↔ n = lv.zeros := by
  cases lv <;> unfold levelOfZeros <;> split <;> simp_all [Level.zeros]

theorem admits_iff {t : Tumbler} {lv : Level} : (t4Scan t).admittedLevel = some lv ↔
    t.comps.head? ≠ some 0 ∧ t.comps.getLast? ≠ some 0 ∧ hasAdjacentZeros t.comps = false ∧
      t.comps.count 0 = lv.zeros := by
  have hclauses : (t4Scan t).clauses = [] ↔ t.comps.head? ≠ some 0 ∧ t.comps.getLast? ≠ some 0 ∧
      hasAdjacentZeros t.comps = false ∧ t.comps.count 0 ≤ 3 := by
    simp [t4Scan]
  have hlevel : levelOfZeros (t4Scan t).zeros = some lv ↔ t.comps.count 0 = lv.zeros :=
    levelOfZeros_eq_some_iff
  have hdepth : t.comps.count 0 = lv.zeros → t.comps.count 0 ≤ 3 := by
    cases lv <;> simp only [Level.zeros] <;> omega
  rw [T4Scan.admittedLevel]
  constructor
  · intro h
    split at h
    · next hc =>
      obtain ⟨h1, h2, h3, -⟩ := hclauses.1 hc
      exact ⟨h1, h2, h3, hlevel.1 h⟩
    · simp at h
  · rintro ⟨h1, h2, h3, h4⟩
    rw [if_pos (hclauses.2 ⟨h1, h2, h3, hdepth h4⟩), hlevel]
    exact h4

theorem hasAdjacentZeros_append {p q : List ℕ} : hasAdjacentZeros (p ++ q) =
    (hasAdjacentZeros p || hasAdjacentZeros q ||
      (p.getLast? == some 0 && q.head? == some 0)) := by
  induction p with
  | nil => simp [hasAdjacentZeros]
  | cons c p ih =>
    cases p with
    | nil =>
      cases q with
      | nil => simp [hasAdjacentZeros]
      | cons c' q => simp [hasAdjacentZeros, Bool.or_comm]
    | cons c' p =>
      simp only [List.cons_append, hasAdjacentZeros] at ih ⊢
      rw [ih, List.getLast?_cons_cons]
      simp only [Bool.or_assoc]

theorem hasAdjacentZeros_of_zeroFree {e : List ℕ} (h : 0 ∉ e) : hasAdjacentZeros e = false := by
  induction e with
  | nil => rfl
  | cons c e ih =>
    cases e with
    | nil => rfl
    | cons c' e =>
      simp only [List.mem_cons, not_or] at h
      simp [hasAdjacentZeros, ih (by simpa using h.2), Ne.symm h.1]

/-- A field appended past a separator is admitted exactly where what stands
before it is, one level up. -/
theorem admits_field {p : Tumbler} {e : List ℕ} (he : e ≠ []) (hz : 0 ∉ e) {t : Tumbler}
    (ht : t.comps = p.comps ++ 0 :: e) {lv lv' : Level} (hlv : lv'.zeros = lv.zeros + 1) :
    (t4Scan t).admittedLevel = some lv' ↔ (t4Scan p).admittedLevel = some lv := by
  obtain ⟨x, e', rfl⟩ := List.exists_cons_of_ne_nil he
  have hhead : t.comps.head? = p.comps.head? := by
    rw [ht, List.head?_append_of_ne_nil _ p.nonempty]
  have hlast : t.comps.getLast? ≠ some 0 := by
    rw [ht, List.getLast?_append, List.getLast?_cons_cons]
    intro h
    exact hz (List.mem_of_getLast? (by simpa using h))
  have hcount : t.comps.count 0 = p.comps.count 0 + 1 := by
    rw [ht, List.count_append, List.count_cons_self, List.count_eq_zero.2 hz]
  have hadj : hasAdjacentZeros t.comps = (hasAdjacentZeros p.comps || p.comps.getLast? == some 0) := by
    have hx : (x == 0) = false := beq_eq_false_iff_ne.2 fun h => hz (by simp [h])
    rw [ht, hasAdjacentZeros_append, hasAdjacentZeros, hasAdjacentZeros_of_zeroFree hz]
    simp [hx]
  rw [admits_iff, admits_iff, hhead, hcount, hadj, hlv, Bool.or_eq_false_iff, beq_eq_false_iff_ne]
  constructor
  · rintro ⟨h1, -, ⟨h2, h3⟩, h4⟩
    exact ⟨h1, h3, h2, Nat.succ.inj h4⟩
  · rintro ⟨h1, h3, h2, h4⟩
    exact ⟨h1, hlast, ⟨h2, h3⟩, congrArg (· + 1) h4⟩

/-- Positive components appended within the last field keep the level, and so
does dropping them where a positive component stands before. -/
theorem admits_same {p : Tumbler} {e : List ℕ} (hz : 0 ∉ e) {t : Tumbler}
    (ht : t.comps = p.comps ++ e) (hp : p.comps.getLast? ≠ some 0) {lv : Level} :
    (t4Scan t).admittedLevel = some lv ↔ (t4Scan p).admittedLevel = some lv := by
  have hhead : t.comps.head? = p.comps.head? := by
    rw [ht, List.head?_append_of_ne_nil _ p.nonempty]
  have hlast : t.comps.getLast? ≠ some 0 := by
    rw [ht, List.getLast?_append]
    cases he : e.getLast? with
    | none => simpa [he] using hp
    | some x =>
      intro h
      exact hz (List.mem_of_getLast? (by simpa [he] using h))
  have hadj : hasAdjacentZeros t.comps = hasAdjacentZeros p.comps := by
    rw [ht, hasAdjacentZeros_append, hasAdjacentZeros_of_zeroFree hz]
    simp [hp]
  have hcount : t.comps.count 0 = p.comps.count 0 := by
    rw [ht, List.count_append, List.count_eq_zero.2 hz, Nat.add_zero]
  rw [admits_iff, admits_iff, hhead, hcount, hadj]
  exact ⟨fun ⟨h1, _, h2⟩ => ⟨h1, hp, h2⟩, fun ⟨h1, _, h2⟩ => ⟨h1, hlast, h2⟩⟩

namespace Address

theorem tumbler_injective : Function.Injective Address.tumbler := by
  rintro ⟨t, lv, h⟩ ⟨t', lv', h'⟩ heq
  cases heq
  cases h.symm.trans h'
  rfl

@[ext] theorem ext {a b : Address} (h : a.tumbler.comps = b.tumbler.comps) : a = b :=
  tumbler_injective (Tumbler.ext h)

instance : LinearOrder Address := LinearOrder.lift' tumbler tumbler_injective

instance : LawfulBEq Address := inferInstance

/-- The component sequence. -/
def comps (a : Address) : List ℕ := a.tumbler.comps

theorem comps_ne_nil (a : Address) : a.comps ≠ [] := a.tumbler.nonempty

theorem lt_def {a b : Address} : a < b ↔ a.tumbler < b.tumbler := Iff.rfl

theorem le_def {a b : Address} : a ≤ b ↔ a.tumbler ≤ b.tumbler := Iff.rfl

theorem comps_inj {a b : Address} : a.comps = b.comps ↔ a = b :=
  ⟨fun h => Address.ext h, fun h => h ▸ rfl⟩

/-- The address of a tumbler T4 admits. -/
def ofValid (t : Tumbler) (h : isT4Valid t = true) : Address :=
  ⟨t, (t4Scan t).admittedLevel.get h, (Option.some_get h).symm⟩

theorem admits_clauses (a : Address) : a.comps.head? ≠ some 0 ∧ a.comps.getLast? ≠ some 0 ∧
    hasAdjacentZeros a.comps = false ∧ a.comps.count 0 = a.level.zeros :=
  admits_iff.1 a.admitted

theorem count_zero (a : Address) : a.comps.count 0 = a.level.zeros := a.admits_clauses.2.2.2

theorem getLast?_ne_zero (a : Address) : a.comps.getLast? ≠ some 0 := a.admits_clauses.2.1

end Address

theorem isT4Valid_of_admits {t : Tumbler} {lv : Level} (h : (t4Scan t).admittedLevel = some lv) :
    isT4Valid t = true := by
  rw [isT4Valid, h]
  rfl

theorem validate_eq_ok_iff {t : Tumbler} {a : Address} : validate t = .ok a ↔ a.tumbler = t := by
  rw [validate]
  split
  · next level h =>
    rw [Outcome.ok.injEq]
    exact ⟨fun heq => heq ▸ rfl, fun heq => Address.tumbler_injective heq.symm⟩
  · next h =>
    simp only [reduceCtorEq, false_iff]
    rintro rfl
    rw [a.admitted] at h
    simp at h

/-- The positions of the zeros of a sequence that starts at position `i`. -/
def zeroPositions (l : List ℕ) (i : ℕ) : List ℕ :=
  ((l.zipIdx i).filter fun c => c.1 == 0).map Prod.snd

theorem zeroPositions_append (p q : List ℕ) (i : ℕ) :
    zeroPositions (p ++ q) i = zeroPositions p i ++ zeroPositions q (i + p.length) := by
  simp [zeroPositions, List.zipIdx_append]

theorem zeroPositions_cons_zero (e : List ℕ) (i : ℕ) :
    zeroPositions (0 :: e) i = i :: zeroPositions e (i + 1) := by
  simp [zeroPositions]

theorem length_zeroPositions (l : List ℕ) (i : ℕ) : (zeroPositions l i).length = l.count 0 := by
  induction l generalizing i with
  | nil => rfl
  | cons c l ih =>
    have := ih (i + 1)
    by_cases hc : c = 0 <;> simp_all [zeroPositions]

/-- The zeros of a sequence split at its separator number `p.count 0 + 1`. -/
theorem getElem?_zeroPositions {p e : List ℕ} :
    (zeroPositions (p ++ 0 :: e) 0)[p.count 0]? = some p.length := by
  rw [zeroPositions_append, zeroPositions_cons_zero,
    List.getElem?_append_right (by rw [length_zeroPositions])]
  simp [length_zeroPositions]

namespace Address

/-- The index of separator number `n`, 1-based. -/
def separator (a : Address) (n : ℕ) : Option ℕ := (zeroPositions a.comps 0)[n - 1]?

/-- The field after separator number `n`. -/
def field (a : Address) (n : ℕ) : Option (List ℕ) :=
  (a.separator n).map fun i =>
    (a.comps.take ((a.separator (n + 1)).getD a.comps.length)).drop (i + 1)

/-- The components before the first separator. -/
def nodeField (a : Address) : List ℕ := a.comps.take ((a.separator 1).getD a.comps.length)

def accountField (a : Address) : Option (List ℕ) := a.field 1

def documentField (a : Address) : Option (List ℕ) := a.field 2

def elementField (a : Address) : Option (List ℕ) := a.field 3

/-- The first component of the element field. -/
def subspace (a : Address) : Option ℕ := a.elementField.bind List.head?

theorem field_eq {a : Address} {p e : List ℕ} (h : a.comps = p ++ 0 :: e) (hz : 0 ∉ e) :
    a.field (p.count 0 + 1) = some e := by
  have hnext : a.separator (p.count 0 + 1 + 1) = none := by
    rw [separator, List.getElem?_eq_none]
    rw [length_zeroPositions, h, List.count_append, List.count_cons_self, List.count_eq_zero.2 hz]
    omega
  have hthis : a.separator (p.count 0 + 1) = some p.length := by
    rw [separator, h, Nat.add_sub_cancel, getElem?_zeroPositions]
  rw [field, hnext, hthis, Option.map_some, Option.getD_none, List.take_length, h]
  simp [List.drop_append]

theorem separator_eq {a : Address} {p e : List ℕ} (h : a.comps = p ++ 0 :: e) :
    a.separator (p.count 0 + 1) = some p.length := by
  rw [separator, h, Nat.add_sub_cancel, getElem?_zeroPositions]

/-- An address past the node level is what stands before its last separator,
the separator, and its last field. -/
theorem exists_lastField {a : Address} (h : a.level ≠ .node) :
    ∃ p : Tumbler, ∃ e, e ≠ [] ∧ 0 ∉ e ∧ a.comps = p.comps ++ 0 :: e := by
  have hmem : 0 ∈ a.comps.reverse := by
    rw [List.mem_reverse, ← List.count_pos_iff, a.count_zero]
    cases hlv : a.level <;> simp_all [Level.zeros]
  obtain ⟨e', p', hsplit, hz⟩ := List.eq_append_cons_of_mem hmem
  have hcomps : a.comps = p'.reverse ++ 0 :: e'.reverse := by
    rw [← List.reverse_reverse a.comps, hsplit]
    simp
  obtain ⟨hhead, hlast, -⟩ := a.admits_clauses
  refine ⟨⟨p'.reverse, fun hp => ?_⟩, e'.reverse, fun he => ?_, by simpa using hz, hcomps⟩
  · exact hhead (by simp [hcomps, hp])
  · exact hlast (by simp [hcomps, he])

end Address

namespace Address

/-- The field before the last separator belongs to an address one level up. -/
theorem admits_beforeLast {a : Address} {p : Tumbler} {e : List ℕ} (he : e ≠ []) (hz : 0 ∉ e)
    (h : a.comps = p.comps ++ 0 :: e) {lv : Level} (hlv : a.level.zeros = lv.zeros + 1) :
    (t4Scan p).admittedLevel = some lv :=
  (admits_field he hz h hlv).1 a.admitted

/-- The components of the document an address stands in. -/
def documentPrefix (a : Address) : Option (List ℕ) :=
  match a.level with
  | .node | .account => none
  | .document => some a.comps
  -- an element address has three separators
  | .element => some (a.comps.take ((a.separator 3).getD 0))

theorem elementField_eq_none {a : Address} (h : a.level ≠ .element) : a.elementField = none := by
  have hshort : a.separator 3 = none := by
    rw [separator, List.getElem?_eq_none]
    rw [length_zeroPositions, a.count_zero]
    cases hl : a.level <;> simp_all [Level.zeros]
  rw [elementField, field, hshort]
  rfl

/-- An element address is its document's components, a separator and the
element field. -/
theorem exists_document {a : Address} (h : a.level = .element) :
    ∃ d : Address, d.level = .document ∧ ∃ e, e ≠ [] ∧ 0 ∉ e ∧ a.comps = d.comps ++ 0 :: e ∧
      a.documentPrefix = some d.comps ∧ a.elementField = some e := by
  obtain ⟨p, e, he, hz, hcomps⟩ := exists_lastField (a := a) (by simp [h])
  have hp := admits_beforeLast he hz hcomps (show a.level.zeros = Level.document.zeros + 1 by rw [h]; rfl)
  have hcount : p.comps.count 0 + 1 = 3 := congrArg (· + 1) (admits_iff.1 hp).2.2.2
  refine ⟨⟨p, .document, hp⟩, rfl, e, he, hz, hcomps, ?_, ?_⟩
  · rw [documentPrefix, h, ← hcount, separator_eq hcomps, Option.getD_some, hcomps]
    simp [comps]
  · rw [elementField, ← hcount, field_eq hcomps hz]

theorem documentPrefix_admitted {a : Address} {p : List ℕ} (h : a.documentPrefix = some p) :
    ∃ hp : p ≠ [], (t4Scan ⟨p, hp⟩).admittedLevel = some .document := by
  cases hlv : a.level with
  | node => simp [documentPrefix, hlv] at h
  | account => simp [documentPrefix, hlv] at h
  | document =>
    simp only [documentPrefix, hlv, Option.some.injEq] at h
    subst h
    exact ⟨a.comps_ne_nil, hlv ▸ a.admitted⟩
  | element =>
    obtain ⟨d, hd, e, -, -, -, hpre, -⟩ := exists_document hlv
    rw [hpre, Option.some.injEq] at h
    subst h
    exact ⟨d.comps_ne_nil, hd ▸ d.admitted⟩

end Address

/-- The document an address is or stands in. -/
def documentOf (a : Address) : Option Address :=
  match h : a.documentPrefix with
  | none => none
  | some p =>
      some ⟨⟨p, (Address.documentPrefix_admitted h).choose⟩, .document,
        (Address.documentPrefix_admitted h).choose_spec⟩

theorem documentOf_eq_some_iff {a d : Address} :
    documentOf a = some d ↔ a.documentPrefix = some d.comps := by
  rw [documentOf]
  split
  · next h => simp [h]
  · next p h =>
    constructor
    · rintro ⟨⟩
      exact h
    · intro heq
      exact congrArg some (Address.ext (Option.some.inj (h.symm.trans heq)))

theorem documentOf_of_document {a : Address} (h : a.level = .document) : documentOf a = some a :=
  documentOf_eq_some_iff.2 (by rw [Address.documentPrefix, h])

/-- An address made of a document, a separator and an element field is an
element address of that document. -/
theorem element_of_parts {a d : Address} {e : List ℕ} (hd : d.level = .document) (he : e ≠ [])
    (hz : 0 ∉ e) (h : a.comps = d.comps ++ 0 :: e) :
    a.level = .element ∧ documentOf a = some d ∧ a.elementField = some e := by
  have hadm : (t4Scan a.tumbler).admittedLevel = some .element :=
    (admits_field he hz h (show _ = Level.document.zeros + 1 from rfl)).2 (hd ▸ d.admitted)
  have hlv : a.level = .element := Option.some.inj (a.admitted.symm.trans hadm)
  obtain ⟨d', hd', e', he', hz', hcomps, hpre, hfield⟩ := Address.exists_document hlv
  have hcount : d.comps.count 0 + 1 = 3 := by rw [d.count_zero, hd]; rfl
  have hpre' : a.documentPrefix = some d.comps := by
    rw [Address.documentPrefix, hlv, ← hcount, Address.separator_eq h, Option.getD_some, h]
    simp
  refine ⟨hlv, documentOf_eq_some_iff.2 hpre', ?_⟩
  rw [Address.elementField, ← hcount, Address.field_eq h hz]

/-- Whatever follows a document and a separator within an address is positive. -/
theorem zeroFree_of_parts {a d : Address} {e : List ℕ} (hd : d.level = .document)
    (h : a.comps = d.comps ++ 0 :: e) : e ≠ [] ∧ 0 ∉ e := by
  constructor
  · rintro rfl
    exact a.getLast?_ne_zero (by simp [h])
  · intro hz
    have hcount := a.count_zero
    have hpos := List.count_pos_iff.2 hz
    rw [h, List.count_append, d.count_zero, hd, List.count_cons_self] at hcount
    cases hl : a.level <;> simp only [hl, Level.zeros] at hcount <;> omega

/-- The last component. -/
def ordinal (t : Tumbler) : ℕ := t.comps.getLast t.nonempty

@[simp] theorem ordinal_snoc (front : List ℕ) (last : ℕ) :
    ordinal (Tumbler.snoc front last) = last := by
  simp [ordinal]

@[simp] theorem ordinal_shift (t : Tumbler) (k : ℕ) : ordinal (t.shift k) = ordinal t + k := by
  obtain ⟨front, last, rfl⟩ := t.exists_snoc
  simp

namespace Address

/-- An address keeps its level under any other positive ordinal. -/
theorem admits_snoc {front : List ℕ} {m n : ℕ} {lv : Level} (hn : n ≠ 0)
    (h : (t4Scan (Tumbler.snoc front m)).admittedLevel = some lv) :
    (t4Scan (Tumbler.snoc front n)).admittedLevel = some lv := by
  rw [admits_iff, Tumbler.comps_snoc] at h ⊢
  obtain ⟨h1, h2, h3, h4⟩ := h
  have hm : m ≠ 0 := fun h => h2 (by simp [h])
  refine ⟨?_, by simpa using hn, ?_, ?_⟩
  · cases front with
    | nil => simpa using hn
    | cons c front => simpa using h1
  · rw [hasAdjacentZeros_append] at h3 ⊢
    simpa [hasAdjacentZeros, hm, hn] using h3
  · rw [List.count_append, List.count_singleton, beq_eq_false_iff_ne.2 hn]
    rwa [List.count_append, List.count_singleton, beq_eq_false_iff_ne.2 hm] at h4

/-- The ordinal shift of an address is an address of its level. -/
theorem admits_shift (a : Address) (k : ℕ) :
    (t4Scan (a.tumbler.shift k)).admittedLevel = some a.level := by
  obtain ⟨front, last, heq⟩ := a.tumbler.exists_snoc
  have hadm := a.admitted
  have hlast : last ≠ 0 := fun h => a.getLast?_ne_zero (by simp [comps, heq, h])
  rw [heq] at hadm
  rw [heq, Tumbler.shift_snoc]
  exact admits_snoc (by omega) hadm

/-- The address `k` ordinals on. -/
def advance (a : Address) (k : ℕ) : Address := ⟨a.tumbler.shift k, a.level, a.admits_shift k⟩

@[simp] theorem tumbler_advance (a : Address) (k : ℕ) :
    (a.advance k).tumbler = a.tumbler.shift k := rfl

@[simp] theorem level_advance (a : Address) (k : ℕ) : (a.advance k).level = a.level := rfl

@[simp] theorem advance_zero (a : Address) : a.advance 0 = a :=
  tumbler_injective (by simp)

theorem advance_advance (a : Address) (m n : ℕ) : (a.advance m).advance n = a.advance (m + n) :=
  tumbler_injective (a.tumbler.shift_shift m n)

theorem advance_inj {a : Address} {m n : ℕ} : a.advance m = a.advance n ↔ m = n := by
  rw [← tumbler_injective.eq_iff, tumbler_advance, tumbler_advance, Tumbler.shift_inj]

end Address
