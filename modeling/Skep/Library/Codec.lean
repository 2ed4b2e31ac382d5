import Mathlib

/-!
# Self-delimiting codecs

A codec writes a value as bytes and reads one back off the front of a byte
string. What it reads is what it writes and nothing else, so its encodings are a
prefix code: a string of them parses in one way.
-/

/-- The `w` little-endian bytes of `n`. -/
def leBytes : ℕ → ℕ → List UInt8
  | 0, _ => []
  | w + 1, n => UInt8.ofNat n :: leBytes w (n / 256)

/-- The number whose little-endian bytes these are. -/
def leNat : List UInt8 → ℕ
  | [] => 0
  | b :: bs => b.toNat + 256 * leNat bs

/-- The `w` big-endian bytes of `n`. -/
def beBytes (w n : ℕ) : List UInt8 := (leBytes w n).reverse

/-- Thirty-two bytes. -/
abbrev Bytes32 := {bs : List UInt8 // bs.length = 32}

@[simp] theorem length_leBytes (w n : ℕ) : (leBytes w n).length = w := by
  induction w generalizing n with
  | zero => rfl
  | succ w ih => rw [leBytes, List.length_cons, ih]

theorem leNat_leBytes {w n : ℕ} (h : n < 256 ^ w) : leNat (leBytes w n) = n := by
  induction w generalizing n with
  | zero =>
    rw [pow_zero, Nat.lt_one_iff] at h
    rw [h]
    rfl
  | succ w ih =>
    have hdiv : n / 256 < 256 ^ w := by
      rw [Nat.div_lt_iff_lt_mul (by decide)]
      rwa [pow_succ] at h
    have hbyte : (UInt8.ofNat n).toNat = n % 256 := UInt8.toNat_ofNat'
    rw [leBytes, leNat, ih hdiv, hbyte]
    omega

theorem leNat_lt (bs : List UInt8) : leNat bs < 256 ^ bs.length := by
  induction bs with
  | nil => exact Nat.one_pos
  | cons b bs ih =>
    have hb : b.toNat < 256 := b.toNat_lt
    rw [leNat, List.length_cons, pow_succ]
    omega

theorem leBytes_leNat (bs : List UInt8) : leBytes bs.length (leNat bs) = bs := by
  induction bs with
  | nil => rfl
  | cons b bs ih =>
    have hb : b.toNat < 256 := b.toNat_lt
    have hdiv : (b.toNat + 256 * leNat bs) / 256 = leNat bs := by omega
    have hbyte : UInt8.ofNat (b.toNat + 256 * leNat bs) = b := by
      rw [← UInt8.toNat_inj, UInt8.toNat_ofNat']
      omega
    rw [List.length_cons, leBytes, leNat, hdiv, hbyte, ih]

/-- An encoder, and a decoder that reads exactly its encodings off the front. -/
structure Codec (α : Type) where
  encode : α → List UInt8
  decode : List UInt8 → Option (α × List UInt8)
  Fits : α → Prop
  spec : ∀ bs a rest, decode bs = some (a, rest) ↔ Fits a ∧ bs = encode a ++ rest

namespace Codec

variable {α β : Type}

theorem decode_encode (c : Codec α) {a : α} (h : c.Fits a) (rest : List UInt8) :
    c.decode (c.encode a ++ rest) = some (a, rest) :=
  (c.spec _ _ _).2 ⟨h, rfl⟩

/-- A number of `w` bytes. -/
def nat (w : ℕ) : Codec ℕ where
  encode n := leBytes w n
  decode bs := if bs.length < w then none else some (leNat (bs.take w), bs.drop w)
  Fits n := n < 256 ^ w
  spec bs n rest := by
    split
    · next hshort =>
      constructor
      · rintro ⟨⟩
      · rintro ⟨-, rfl⟩
        rw [List.length_append, length_leBytes] at hshort
        omega
    · next hlong =>
      have htake : (bs.take w).length = w := by
        rw [List.length_take]
        omega
      constructor
      · rintro ⟨⟩
        refine ⟨?_, ?_⟩
        · have := leNat_lt (bs.take w)
          rwa [htake] at this
        · have := leBytes_leNat (bs.take w)
          rw [htake] at this
          rw [this, List.take_append_drop]
      · rintro ⟨hfits, rfl⟩
        rw [List.take_left' (length_leBytes w n), List.drop_left' (length_leBytes w n),
          leNat_leBytes hfits]

/-- A byte string of `n` bytes. -/
def fixed (n : ℕ) : Codec {bs : List UInt8 // bs.length = n} where
  encode bs := bs.1
  decode bs := if h : n ≤ bs.length then some (⟨bs.take n, List.length_take_of_le h⟩, bs.drop n)
    else none
  Fits _ := True
  spec bs a rest := by
    split
    · next h =>
      constructor
      · rintro ⟨⟩
        exact ⟨trivial, (List.take_append_drop n bs).symm⟩
      · rintro ⟨-, rfl⟩
        simp [a.2]
    · next h =>
      constructor
      · rintro ⟨⟩
      · rintro ⟨-, rfl⟩
        rw [List.length_append, a.2] at h
        omega

/-- One value after another. -/
def prod (c : Codec α) (d : Codec β) : Codec (α × β) where
  encode p := c.encode p.1 ++ d.encode p.2
  decode bs := (c.decode bs).bind fun (a, bs) => (d.decode bs).map fun (b, bs) => ((a, b), bs)
  Fits p := c.Fits p.1 ∧ d.Fits p.2
  spec bs p rest := by
    obtain ⟨a, b⟩ := p
    simp only [Option.bind_eq_some_iff, Option.map_eq_some_iff, Prod.exists, Prod.mk.injEq]
    constructor
    · rintro ⟨a', mid, ha, b', rest', hb, ⟨rfl, rfl⟩, rfl⟩
      obtain ⟨hfa, rfl⟩ := (c.spec _ _ _).1 ha
      obtain ⟨hfb, rfl⟩ := (d.spec _ _ _).1 hb
      exact ⟨⟨hfa, hfb⟩, (List.append_assoc _ _ _).symm⟩
    · rintro ⟨⟨hfa, hfb⟩, rfl⟩
      refine ⟨a, d.encode b ++ rest, ?_, b, rest, d.decode_encode hfb rest, ⟨rfl, rfl⟩, rfl⟩
      rw [List.append_assoc]
      exact c.decode_encode hfa _

/-- The values of an equivalent type. -/
def iso (c : Codec α) (e : α ≃ β) : Codec β where
  encode b := c.encode (e.symm b)
  decode bs := (c.decode bs).map fun (a, bs) => (e a, bs)
  Fits b := c.Fits (e.symm b)
  spec bs b rest := by
    simp only [Option.map_eq_some_iff, Prod.exists, Prod.mk.injEq, c.spec]
    constructor
    · rintro ⟨a, rest', ⟨hfits, rfl⟩, rfl, rfl⟩
      rw [e.symm_apply_apply]
      exact ⟨hfits, rfl⟩
    · rintro ⟨hfits, rfl⟩
      exact ⟨e.symm b, rest, ⟨hfits, rfl⟩, e.apply_symm_apply b, rfl⟩

/-- The values a test admits, the others refused. -/
def only (c : Codec α) (good : α → Bool) : Codec α where
  encode := c.encode
  decode bs := (c.decode bs).filter fun p => good p.1
  Fits a := c.Fits a ∧ good a = true
  spec bs a rest := by
    rw [Option.filter_eq_some_iff, c.spec]
    constructor
    · rintro ⟨⟨hfits, hbs⟩, hgood⟩
      exact ⟨⟨hfits, hgood⟩, hbs⟩
    · rintro ⟨⟨hfits, hgood⟩, hbs⟩
      exact ⟨⟨hfits, hbs⟩, hgood⟩

/-- A byte string behind its length, a number of `w` bytes. -/
def bytes (w : ℕ) : Codec (List UInt8) where
  encode bs := leBytes w bs.length ++ bs
  decode bs := ((nat w).decode bs).bind fun (n, bs) =>
    if bs.length < n then none else some (bs.take n, bs.drop n)
  Fits bs := bs.length < 256 ^ w
  spec bs a rest := by
    simp only [Option.bind_eq_some_iff, Prod.exists]
    constructor
    · rintro ⟨n, mid, hn, h⟩
      obtain ⟨hfits, rfl⟩ := ((nat w).spec _ _ _).1 hn
      split at h
      · cases h
      · next hlong =>
        cases h
        have hlen : (mid.take n).length = n := by
          rw [List.length_take]
          omega
        refine ⟨by rwa [hlen], ?_⟩
        rw [hlen, List.append_assoc, List.take_append_drop]
        rfl
    · rintro ⟨hfits, rfl⟩
      refine ⟨a.length, a ++ rest, ?_, ?_⟩
      · rw [List.append_assoc]
        exact (nat w).decode_encode hfits _
      · rw [if_neg (by simp), List.take_left, List.drop_left]

/-- One of two kinds of value behind its tag, a number of `w` bytes. -/
def tagged (w : ℕ) (hw : 0 < w) (c : Codec α) (d : Codec β) : Codec (α ⊕ β) where
  encode
    | .inl a => leBytes w 0 ++ c.encode a
    | .inr b => leBytes w 1 ++ d.encode b
  decode bs := ((nat w).decode bs).bind fun (tag, bs) =>
    if tag = 0 then (c.decode bs).map fun (a, bs) => (.inl a, bs)
    else if tag = 1 then (d.decode bs).map fun (b, bs) => (.inr b, bs)
    else none
  Fits
    | .inl a => c.Fits a
    | .inr b => d.Fits b
  spec bs v rest := by
    have hpos : 256 ^ 1 ≤ 256 ^ w := Nat.pow_le_pow_right (by decide) hw
    have hzero : (nat w).Fits 0 := lt_of_lt_of_le (by decide) hpos
    have hone : (nat w).Fits 1 := lt_of_lt_of_le (by decide) hpos
    simp only [Option.bind_eq_some_iff, Prod.exists]
    constructor
    · rintro ⟨tag, mid, htag, h⟩
      obtain ⟨-, rfl⟩ := ((nat w).spec _ _ _).1 htag
      split at h
      · next hz =>
        subst hz
        simp only [Option.map_eq_some_iff, Prod.exists, Prod.mk.injEq, c.spec] at h
        obtain ⟨a, rest', ⟨hfits, rfl⟩, rfl, rfl⟩ := h
        exact ⟨hfits, (List.append_assoc _ _ _).symm⟩
      · split at h
        · next ho =>
          subst ho
          simp only [Option.map_eq_some_iff, Prod.exists, Prod.mk.injEq, d.spec] at h
          obtain ⟨b, rest', ⟨hfits, rfl⟩, rfl, rfl⟩ := h
          exact ⟨hfits, (List.append_assoc _ _ _).symm⟩
        · cases h
    · rintro ⟨hfits, rfl⟩
      cases v with
      | inl a =>
        refine ⟨0, c.encode a ++ rest, ?_, ?_⟩
        · rw [List.append_assoc]
          exact (nat w).decode_encode hzero _
        · rw [if_pos rfl, c.decode_encode hfits]
          rfl
      | inr b =>
        refine ⟨1, d.encode b ++ rest, ?_, ?_⟩
        · rw [List.append_assoc]
          exact (nat w).decode_encode hone _
        · rw [if_neg one_ne_zero, if_pos rfl, d.decode_encode hfits]
          rfl

/-- Decode a whole byte string, trailing bytes refused. -/
def readAll (c : Codec α) (bs : List UInt8) : Option α :=
  match c.decode bs with
  | some (a, []) => some a
  | _ => none

theorem readAll_eq_some_iff (c : Codec α) {bs : List UInt8} {a : α} :
    c.readAll bs = some a ↔ c.Fits a ∧ bs = c.encode a := by
  have hspec := c.spec bs a []
  rw [List.append_nil] at hspec
  rw [← hspec, readAll]
  split
  · next a' heq =>
    rw [heq]
    simp
  · next hne =>
    constructor
    · rintro ⟨⟩
    · exact fun h => absurd h (hne a)

theorem encode_append_inj (c : Codec α) {a b : α} (ha : c.Fits a) (hb : c.Fits b)
    {s t : List UInt8} (h : c.encode a ++ s = c.encode b ++ t) : a = b ∧ s = t := by
  have hdecode := c.decode_encode ha s
  rw [h, c.decode_encode hb t, Option.some.injEq, Prod.mk.injEq] at hdecode
  exact ⟨hdecode.1.symm, hdecode.2.symm⟩

/-- A string of encodings, none of them empty, before a tail of known length is determined. -/
theorem flatMap_encode_inj (c : Codec α) (hne : ∀ a, c.encode a ≠ []) {as bs : List α}
    (ha : ∀ a ∈ as, c.Fits a) (hb : ∀ b ∈ bs, c.Fits b) {s t : List UInt8}
    (hlen : s.length = t.length) (h : as.flatMap c.encode ++ s = bs.flatMap c.encode ++ t) :
    as = bs ∧ s = t := by
  induction as generalizing bs with
  | nil =>
    cases bs with
    | nil => exact ⟨rfl, h⟩
    | cons b bs =>
      -- an encoding more on one side makes it longer
      have hlong := congrArg List.length h
      have hpos := List.length_pos_of_ne_nil (hne b)
      simp only [List.flatMap_nil, List.nil_append, List.flatMap_cons, List.length_append] at hlong
      omega
  | cons a as ih =>
    cases bs with
    | nil =>
      have hlong := congrArg List.length h
      have hpos := List.length_pos_of_ne_nil (hne a)
      simp only [List.flatMap_nil, List.nil_append, List.flatMap_cons, List.length_append] at hlong
      omega
    | cons b bs =>
      rw [List.flatMap_cons, List.flatMap_cons, List.append_assoc, List.append_assoc] at h
      obtain ⟨rfl, hrest⟩ := c.encode_append_inj (ha a List.mem_cons_self) (hb b List.mem_cons_self) h
      obtain ⟨rfl, rfl⟩ := ih (fun x hx => ha x (List.mem_cons_of_mem _ hx))
        (fun x hx => hb x (List.mem_cons_of_mem _ hx)) hrest
      exact ⟨rfl, rfl⟩

end Codec
