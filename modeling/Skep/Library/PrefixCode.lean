import Skep.Library.Codec

/-!
# Prefix codes on short strings

An encoding whose strings are told apart at the front: two strings shorter than a
bound that begin with an encoding and are equal begin with the same one. The bound
is what the lengths and counts of the format can count, so nothing has to be said of
the values themselves.
-/

theorem length_beBytes (w n : ℕ) : (beBytes w n).length = w := by
  rw [beBytes, List.length_reverse, length_leBytes]

theorem beBytes_inj {w m n : ℕ} (hm : m < 256 ^ w) (hn : n < 256 ^ w) (h : beBytes w m = beBytes w n) :
    m = n := by
  have hle : leBytes w m = leBytes w n := List.reverse_inj.1 h
  rw [← leNat_leBytes hm, ← leNat_leBytes hn, hle]

/-- An encoding that is read off the front of a string shorter than `N`. -/
structure PrefixCode (N : ℕ) (α : Type*) where
  encode : α → List UInt8
  inj : ∀ {a b s t}, (encode a ++ s).length < N → encode a ++ s = encode b ++ t → a = b ∧ s = t

namespace PrefixCode

variable {N : ℕ} {α β : Type*}

theorem encode_inj (c : PrefixCode N α) {a b : α} (hlen : (c.encode a).length < N)
    (h : c.encode a = c.encode b) : a = b := by
  refine (c.inj (s := []) (t := []) ?_ ?_).1
  · rwa [List.append_nil]
  · rw [h]

/-- An injective encoding of one length. -/
def ofLength (n : ℕ) (f : α → List UInt8) (hlen : ∀ a, (f a).length = n) (hinj : Function.Injective f) :
    PrefixCode N α where
  encode := f
  inj {a b s t} _ h := by
    obtain ⟨hf, hst⟩ := List.append_inj h (by rw [hlen, hlen])
    exact ⟨hinj hf, hst⟩

/-- The encoding of what an injective function reads of a value. -/
def comap (c : PrefixCode N α) (f : β → α) (hf : Function.Injective f) : PrefixCode N β where
  encode b := c.encode (f b)
  inj hlen h := by
    obtain ⟨hab, hst⟩ := c.inj hlen h
    exact ⟨hf hab, hst⟩

/-- One value after another. -/
def prod (c : PrefixCode N α) (d : PrefixCode N β) : PrefixCode N (α × β) where
  encode p := c.encode p.1 ++ d.encode p.2
  inj {p q s t} hlen h := by
    rw [List.append_assoc] at hlen
    rw [List.append_assoc, List.append_assoc] at h
    obtain ⟨hfst, hrest⟩ := c.inj hlen h
    rw [List.length_append] at hlen
    obtain ⟨hsnd, hst⟩ := d.inj (by omega) hrest
    exact ⟨Prod.ext hfst hsnd, hst⟩

/-- A value behind a fixed byte. -/
def marked (mark : UInt8) (c : PrefixCode N α) : PrefixCode N α where
  encode a := mark :: c.encode a
  inj {a b s t} hlen h := by
    rw [List.cons_append, List.length_cons] at hlen
    rw [List.cons_append, List.cons_append, List.cons.injEq] at h
    exact c.inj (by omega) h.2

/-- One of two kinds of value, told apart by their first bytes. -/
def either (c : PrefixCode N α) (d : PrefixCode N β)
    (hcd : ∀ a b s t, c.encode a ++ s ≠ d.encode b ++ t) : PrefixCode N (α ⊕ β) where
  encode
    | .inl a => c.encode a
    | .inr b => d.encode b
  inj {p q s t} hlen h := by
    cases p with
    | inl a =>
      cases q with
      | inl a' =>
        obtain ⟨haa, hst⟩ := c.inj hlen h
        exact ⟨congrArg Sum.inl haa, hst⟩
      | inr b => exact absurd h (hcd a b s t)
    | inr b =>
      cases q with
      | inl a => exact absurd h.symm (hcd a b t s)
      | inr b' =>
        obtain ⟨hbb, hst⟩ := d.inj hlen h
        exact ⟨congrArg Sum.inr hbb, hst⟩

theorem ne_of_marks {c : PrefixCode N α} {d : PrefixCode N β} {m m' : UInt8} (hm : m ≠ m') (a : α) (b : β)
    (s t : List UInt8) : (marked m c).encode a ++ s ≠ (marked m' d).encode b ++ t := by
  intro h
  exact hm (List.cons.inj h).1

/-- A byte string behind its length, a number of `w` bytes. -/
def delimited (w : ℕ) (hN : N ≤ 256 ^ w) : PrefixCode N (List UInt8) where
  encode bs := beBytes w bs.length ++ bs
  inj {a b s t} hlen h := by
    have heq := congrArg List.length h
    rw [List.append_assoc, List.append_assoc] at h
    simp only [List.length_append] at hlen heq
    obtain ⟨hcount, hrest⟩ := List.append_inj h (by rw [length_beBytes, length_beBytes])
    have hab : a.length = b.length := beBytes_inj (by omega) (by omega) hcount
    exact List.append_inj hrest hab

/-- A value's encoding behind its length. -/
def group (w : ℕ) (hN : N ≤ 256 ^ w) (c : PrefixCode N α) : PrefixCode N α where
  encode a := (delimited w hN).encode (c.encode a)
  inj {a b s t} hlen h := by
    obtain ⟨hab, hst⟩ := (delimited w hN).inj hlen h
    refine ⟨c.encode_inj ?_ hab, hst⟩
    simp only [delimited, List.length_append] at hlen
    omega

/-- A value's encoding behind its length, the length alone where there is none. -/
def groupOption (w : ℕ) (hN : N ≤ 256 ^ w) (c : PrefixCode N α) (hne : ∀ a, c.encode a ≠ []) :
    PrefixCode N (Option α) where
  encode
    | none => (delimited w hN).encode []
    | some a => (group w hN c).encode a
  inj {p q s t} hlen h := by
    cases p with
    | none =>
      cases q with
      | none => exact ⟨rfl, ((delimited w hN).inj hlen h).2⟩
      | some b => exact absurd ((delimited w hN).inj hlen h).1.symm (hne b)
    | some a =>
      cases q with
      | none => exact absurd ((delimited w hN).inj hlen h).1 (hne a)
      | some b =>
        obtain ⟨hab, hst⟩ := (group w hN c).inj hlen h
        exact ⟨congrArg some hab, hst⟩

/-- Encodings of one number, none of them empty, are told apart where they stand. -/
theorem flatMap_append_inj (c : PrefixCode N α) {as bs : List α} {s t : List UInt8}
    (hcount : as.length = bs.length) (hlen : (as.flatMap c.encode ++ s).length < N)
    (h : as.flatMap c.encode ++ s = bs.flatMap c.encode ++ t) : as = bs ∧ s = t := by
  induction as generalizing bs with
  | nil =>
    obtain rfl : bs = [] := List.length_eq_zero_iff.1 hcount.symm
    exact ⟨rfl, h⟩
  | cons a as ih =>
    cases bs with
    | nil => cases hcount
    | cons b bs =>
      rw [List.flatMap_cons, List.append_assoc] at hlen h
      rw [List.flatMap_cons, List.append_assoc] at h
      obtain ⟨rfl, hrest⟩ := c.inj hlen h
      rw [List.length_append] at hlen
      obtain ⟨rfl, hst⟩ := ih (Nat.succ.inj hcount) (by omega) hrest
      exact ⟨rfl, hst⟩

theorem length_le_flatMap (c : PrefixCode N α) (hne : ∀ a, c.encode a ≠ []) (as : List α) :
    as.length ≤ (as.flatMap c.encode).length := by
  induction as with
  | nil => exact le_rfl
  | cons a as ih =>
    have hpos := List.length_pos_of_ne_nil (hne a)
    rw [List.flatMap_cons, List.length_append, List.length_cons]
    omega

/-- A list behind its count, a number of `w` bytes. -/
def counted (w : ℕ) (hN : N ≤ 256 ^ w) (c : PrefixCode N α) (hne : ∀ a, c.encode a ≠ []) :
    PrefixCode N (List α) where
  encode as := beBytes w as.length ++ as.flatMap c.encode
  inj {as bs s t} hlen h := by
    have heq := congrArg List.length h
    have ha := c.length_le_flatMap hne as
    have hb := c.length_le_flatMap hne bs
    rw [List.append_assoc] at hlen h
    rw [List.append_assoc] at h
    simp only [List.length_append] at heq
    obtain ⟨hcount, hrest⟩ := List.append_inj h (by rw [length_beBytes, length_beBytes])
    have hlen' : (as.flatMap c.encode ++ s).length < N := by
      rw [List.length_append] at hlen
      omega
    have hab : as.length = bs.length := by
      simp only [List.length_append] at hlen
      exact beBytes_inj (by omega) (by omega) hcount
    exact c.flatMap_append_inj hab hlen' hrest

/-- Encodings of one weight, to which each adds, are told apart where they stand. -/
theorem weight_append_inj (c : PrefixCode N α) {weight : α → ℕ} (hpos : ∀ a, 0 < weight a) {as bs : List α}
    {s t : List UInt8} (hweight : (as.map weight).sum = (bs.map weight).sum)
    (hlen : (as.flatMap c.encode ++ s).length < N)
    (h : as.flatMap c.encode ++ s = bs.flatMap c.encode ++ t) : as = bs ∧ s = t := by
  induction as generalizing bs with
  | nil =>
    cases bs with
    | nil => exact ⟨rfl, h⟩
    | cons b bs =>
      have hb := hpos b
      simp only [List.map_nil, List.sum_nil, List.map_cons, List.sum_cons] at hweight
      omega
  | cons a as ih =>
    cases bs with
    | nil =>
      have ha := hpos a
      simp only [List.map_nil, List.sum_nil, List.map_cons, List.sum_cons] at hweight
      omega
    | cons b bs =>
      rw [List.flatMap_cons, List.append_assoc] at hlen h
      rw [List.flatMap_cons, List.append_assoc] at h
      obtain ⟨rfl, hrest⟩ := c.inj hlen h
      rw [List.length_append] at hlen
      simp only [List.map_cons, List.sum_cons, Nat.add_left_cancel_iff] at hweight
      obtain ⟨rfl, hst⟩ := ih hweight (by omega) hrest
      exact ⟨rfl, hst⟩

/-- A list behind its weight, a number of `w` bytes. -/
def weighed (w : ℕ) (c : PrefixCode N α) (weight : α → ℕ) (hpos : ∀ a, 0 < weight a) :
    PrefixCode N {as : List α // (as.map weight).sum < 256 ^ w} where
  encode as := beBytes w (as.1.map weight).sum ++ as.1.flatMap c.encode
  inj {as bs s t} hlen h := by
    rw [List.append_assoc] at hlen h
    rw [List.append_assoc] at h
    obtain ⟨hweight, hrest⟩ := List.append_inj h (by rw [length_beBytes, length_beBytes])
    have hlen' : (as.1.flatMap c.encode ++ s).length < N := by
      rw [List.length_append] at hlen
      omega
    obtain ⟨hab, hst⟩ := c.weight_append_inj hpos (beBytes_inj as.2 bs.2 hweight) hlen' hrest
    exact ⟨Subtype.ext hab, hst⟩

/-- A whole string of encodings, none of them empty, determines their list. -/
theorem flatMap_inj (c : PrefixCode N α) (hne : ∀ a, c.encode a ≠ []) {as bs : List α}
    (hlen : (as.flatMap c.encode).length < N) (h : as.flatMap c.encode = bs.flatMap c.encode) : as = bs := by
  induction as generalizing bs with
  | nil =>
    cases bs with
    | nil => rfl
    | cons b bs => exact absurd (List.append_eq_nil_iff.1 h.symm).1 (hne b)
  | cons a as ih =>
    cases bs with
    | nil => exact absurd (List.append_eq_nil_iff.1 h).1 (hne a)
    | cons b bs =>
      rw [List.flatMap_cons] at hlen h
      rw [List.flatMap_cons] at h
      obtain ⟨rfl, hrest⟩ := c.inj hlen h
      rw [List.length_append] at hlen
      rw [ih (by omega) hrest]

end PrefixCode
