import Mathlib

/-!
# A longest increasing subsequence

Patience sorting over a list of keys, some positions without one. A position is put at
the first pile whose top is not below it, and linked back to the top of the pile before.
The links from the last pile's top give a longest increasing subsequence.
-/

namespace Patience

variable {κ : Type} [LinearOrder κ] (keys : List (Option κ))

/-- The key at a position. -/
def keyAt (i : ℕ) : Option κ := keys[i]?.join

/-- The key of a position comes before another's. -/
def KeyLt (i j : ℕ) : Prop := ∃ a b, keyAt keys i = some a ∧ keyAt keys j = some b ∧ a < b

/-- Positions with keys, both ascending. -/
def Rises (l : List ℕ) : Prop :=
  (∀ i ∈ l, ∃ k, keyAt keys i = some k) ∧ l.Pairwise fun i j => i < j ∧ KeyLt keys i j

/-- The tops of the piles, and each position's link to the pile before. -/
structure Piles where
  tails : List ℕ
  back : ℕ → Option ℕ

def isBelow (k : κ) (t : ℕ) : Bool := (keyAt keys t).any fun tk => decide (tk < k)

/-- Put a position on the piles. -/
def place (p : Piles) (i : ℕ) : Piles :=
  match keyAt keys i with
  | none => p
  | some k =>
      let pile := (p.tails.takeWhile (isBelow keys k)).length
      let back := Function.update p.back i (if pile = 0 then none else p.tails[pile - 1]?)
      if pile = p.tails.length then ⟨p.tails ++ [i], back⟩ else ⟨p.tails.set pile i, back⟩

/-- The positions the links lead back through. -/
def trace (back : ℕ → Option ℕ) : ℕ → Option ℕ → List ℕ
  | fuel + 1, some i => i :: trace back fuel (back i)
  | _, _ => []

def piles : Piles := (List.range keys.length).foldl (place keys) ⟨[], fun _ => none⟩

/-- The positions of one longest increasing subsequence. -/
def longest : List ℕ := (trace (piles keys).back keys.length (piles keys).tails.getLast?).reverse

variable {keys}

theorem KeyLt.trans {i j m : ℕ} (h : KeyLt keys i j) (h' : KeyLt keys j m) : KeyLt keys i m := by
  obtain ⟨a, b, ha, hb, hab⟩ := h
  obtain ⟨b', c, hb', hc, hbc⟩ := h'
  rw [hb] at hb'
  cases hb'
  exact ⟨a, c, ha, hc, hab.trans hbc⟩

omit [LinearOrder κ] in
theorem lt_length_of_key {i : ℕ} {k : κ} (h : keyAt keys i = some k) : i < keys.length := by
  by_contra hle
  rw [keyAt, List.getElem?_eq_none (by omega)] at h
  cases h

theorem isBelow_iff {k a : κ} {t : ℕ} (h : keyAt keys t = some a) : isBelow keys k t = true ↔ a < k := by
  rw [isBelow, h, Option.any_some, decide_eq_true_eq]

theorem rises_append_singleton {l : List ℕ} {i : ℕ} : Rises keys (l ++ [i]) ↔
    Rises keys l ∧ (∃ k, keyAt keys i = some k) ∧ ∀ j ∈ l, j < i ∧ KeyLt keys j i := by
  simp only [Rises, List.pairwise_append, List.pairwise_singleton, List.mem_append, List.mem_singleton,
    forall_eq, true_and]
  constructor
  · rintro ⟨hall, hpair, hlast⟩
    exact ⟨⟨fun j hj => hall j (.inl hj), hpair⟩, hall i (.inr rfl), hlast⟩
  · rintro ⟨⟨hall, hpair⟩, hi, hlast⟩
    refine ⟨fun j hj => ?_, hpair, hlast⟩
    rcases hj with hj | rfl
    · exact hall j hj
    · exact hi

/-- The links from a position lead back through these. -/
inductive Descent (keys : List (Option κ)) (back : ℕ → Option ℕ) : ℕ → List ℕ → Prop
  | first {t : ℕ} {k : κ} (hkey : keyAt keys t = some k) (hback : back t = none) : Descent keys back t [t]
  | later {t u : ℕ} {l : List ℕ} (hlt : u < t) (hkey : KeyLt keys u t) (hback : back t = some u)
      (h : Descent keys back u l) : Descent keys back t (t :: l)

namespace Descent

variable {back : ℕ → Option ℕ} {t : ℕ} {l : List ℕ}

theorem le (h : Descent keys back t l) : ∀ i ∈ l, i ≤ t := by
  induction h with
  | first _ _ => exact fun i hi => (List.mem_singleton.1 hi).le
  | later hlt _ _ _ ih =>
    intro i hi
    rcases List.mem_cons.1 hi with rfl | hi
    · exact le_rfl
    · exact (ih i hi).trans hlt.le

theorem length_le (h : Descent keys back t l) : l.length ≤ t + 1 := by
  induction h with
  | first _ _ => simp
  | later hlt _ _ _ ih =>
    rw [List.length_cons]
    omega

theorem rises (h : Descent keys back t l) : Rises keys l.reverse ∧ ∀ i ∈ l, i = t ∨ KeyLt keys i t := by
  induction h with
  | first hkey _ =>
    refine ⟨⟨fun i hi => ?_, List.pairwise_singleton _ _⟩, fun i hi => .inl (List.mem_singleton.1 hi)⟩
    rw [List.mem_singleton.1 hi]
    exact ⟨_, hkey⟩
  | later hlt hkey _ h ih =>
    obtain ⟨hrises, hbelow⟩ := ih
    have hbelow : ∀ i ∈ _, KeyLt keys i _ := fun i hi => by
      rcases hbelow i hi with rfl | hi
      · exact hkey
      · exact hi.trans hkey
    refine ⟨?_, fun i hi => ?_⟩
    · obtain ⟨a, b, -, hb, -⟩ := hkey
      rw [List.reverse_cons, rises_append_singleton]
      refine ⟨hrises, ⟨b, hb⟩, fun i hi => ?_⟩
      rw [List.mem_reverse] at hi
      exact ⟨(h.le i hi).trans_lt hlt, hbelow i hi⟩
    · rcases List.mem_cons.1 hi with rfl | hi
      · exact .inl rfl
      · exact .inr (hbelow i hi)

/-- A link of a later position leads nowhere from an earlier one. -/
theorem update (h : Descent keys back t l) {n : ℕ} (hn : t < n) (v : Option ℕ) :
    Descent keys (Function.update back n v) t l := by
  induction h with
  | first hkey hback => exact .first hkey (by rw [Function.update_of_ne (by omega), hback])
  | later hlt hkey hback _ ih =>
    exact .later hlt hkey (by rw [Function.update_of_ne (by omega), hback]) (ih (by omega))

theorem trace_eq (h : Descent keys back t l) {fuel : ℕ} (hfuel : l.length ≤ fuel) :
    trace back fuel (some t) = l := by
  induction h generalizing fuel with
  | first _ hback =>
    cases fuel with
    | zero => simp at hfuel
    | succ fuel =>
      rw [trace, hback]
      cases fuel <;> rfl
  | later _ _ hback _ ih =>
    cases fuel with
    | zero => simp at hfuel
    | succ fuel =>
      rw [List.length_cons] at hfuel
      rw [trace, hback, ih (by omega)]

end Descent

/-- What the piles hold of the first positions: the top of the `j`th pile ends an increasing
subsequence of `j + 1` positions, and none so long ends at a lower key. -/
structure Piled (keys : List (Option κ)) (n : ℕ) (p : Piles) : Prop where
  sorted : p.tails.Pairwise (KeyLt keys)
  placed : ∀ t ∈ p.tails, t < n ∧ ∃ k, keyAt keys t = some k
  traced : ∀ j t, p.tails[j]? = some t → ∃ l, Descent keys p.back t l ∧ l.length = j + 1
  least : ∀ l i k, Rises keys (l ++ [i]) → i < n → keyAt keys i = some k →
    ∃ t tk, p.tails[l.length]? = some t ∧ keyAt keys t = some tk ∧ tk ≤ k

theorem piled_nil : Piled keys 0 ⟨[], fun _ => none⟩ :=
  ⟨List.Pairwise.nil, (fun t h => nomatch h), (fun j t h => nomatch h), fun l i k _ hi => absurd hi (by omega)⟩

/-- A position with a key goes between the piles below it and the others. -/
theorem place_eq {p : Piles} {i : ℕ} {k : κ} (hk : keyAt keys i = some k) {low high : List ℕ}
    (hlow : p.tails.takeWhile (isBelow keys k) = low) (hsplit : p.tails = low ++ high) :
    place keys p i = ⟨low ++ i :: high.tail, Function.update p.back i low.getLast?⟩ := by
  have hback : (if low.length = 0 then none else p.tails[low.length - 1]?) = low.getLast? := by
    by_cases hlow : low = []
    · simp [hlow]
    · have hpos := List.length_pos_iff.2 hlow
      rw [if_neg hpos.ne', hsplit, List.getElem?_append_left (by omega), List.getLast?_eq_getElem?]
  simp only [place, hk, hlow, hback]
  cases high with
  | nil =>
    rw [List.append_nil] at hsplit
    rw [if_pos (by rw [hsplit]), hsplit]
    rfl
  | cons top high =>
    rw [if_neg (by simp [hsplit]), hsplit, List.set_append_right _ _ le_rfl, Nat.sub_self]
    rfl

theorem Piled.place_none {n : ℕ} {p : Piles} (h : Piled keys n p) (hk : keyAt keys n = none) :
    Piled keys (n + 1) (place keys p n) := by
  have hplace : place keys p n = p := by rw [place, hk]
  rw [hplace]
  refine ⟨h.sorted, fun t ht => ⟨(h.placed t ht).1.trans n.lt_succ_self, (h.placed t ht).2⟩, h.traced,
    fun l i k hl hi hik => ?_⟩
  refine h.least l i k hl (Nat.lt_of_le_of_ne (Nat.le_of_lt_succ hi) ?_) hik
  rintro rfl
  rw [hk] at hik
  cases hik

theorem getElem?_middle {α : Type} (low high : List α) (a : α) (j : ℕ) :
    (low ++ a :: high.tail)[j]? = if j = low.length then some a else (low ++ high)[j]? := by
  by_cases hj : j = low.length
  · rw [if_pos hj, hj, List.getElem?_append_right le_rfl, Nat.sub_self]
    rfl
  · rw [if_neg hj]
    by_cases hlt : j < low.length
    · rw [List.getElem?_append_left hlt, List.getElem?_append_left hlt]
    · obtain ⟨d, rfl⟩ : ∃ d, j = low.length + d + 1 := ⟨j - low.length - 1, by omega⟩
      rw [List.getElem?_append_right (by omega), List.getElem?_append_right (by omega), Nat.add_assoc,
        Nat.add_sub_cancel_left, List.getElem?_cons_succ, List.getElem?_tail]

/-- The piles below a key, and the others. -/
structure Parted (keys : List (Option κ)) (k : κ) (tails low high : List ℕ) : Prop where
  split : tails = low ++ high
  below : ∀ t ∈ low, ∃ tk, keyAt keys t = some tk ∧ tk < k
  above : ∀ t ∈ high, ∃ tk, keyAt keys t = some tk ∧ k ≤ tk

theorem Piled.parted {n : ℕ} {p : Piles} (h : Piled keys n p) (k : κ) : Parted keys k p.tails
    (p.tails.takeWhile (isBelow keys k)) (p.tails.dropWhile (isBelow keys k)) := by
  have hsplit := (List.takeWhile_append_dropWhile (p := isBelow keys k) (l := p.tails)).symm
  refine ⟨hsplit, fun t ht => ?_, ?_⟩
  · obtain ⟨-, tk, htk⟩ := h.placed t (hsplit ▸ List.mem_append_left _ ht)
    exact ⟨tk, htk, (isBelow_iff htk).1 (List.mem_takeWhile_imp ht)⟩
  · have hhead := List.head?_dropWhile_not (isBelow keys k) p.tails
    have hsorted := hsplit ▸ h.sorted
    have hplaced : ∀ t ∈ p.tails.dropWhile (isBelow keys k), ∃ tk, keyAt keys t = some tk := fun t ht =>
      (h.placed t (hsplit ▸ List.mem_append_right _ ht)).2
    cases hhigh : p.tails.dropWhile (isBelow keys k) with
    | nil => exact fun t ht => nomatch ht
    | cons top high =>
      rw [hhigh] at hhead hsorted hplaced
      obtain ⟨tk, htk⟩ := hplaced top List.mem_cons_self
      have hk : k ≤ tk := by
        by_contra hlt
        have hbelow := (isBelow_iff htk).2 (not_le.1 hlt)
        rw [List.head?_cons] at hhead
        exact absurd hbelow (by simpa using hhead)
      intro t ht
      rcases List.mem_cons.1 ht with rfl | ht
      · exact ⟨tk, htk, hk⟩
      · have hpair := (List.pairwise_append.1 hsorted).2.1
        obtain ⟨a, b, ha, hb, hab⟩ := List.rel_of_pairwise_cons hpair ht
        rw [htk] at ha
        cases ha
        exact ⟨b, hb, hk.trans hab.le⟩

section

variable {n : ℕ} {p : Piles} {k : κ} {low high : List ℕ}

theorem Parted.sorted (h : Parted keys k p.tails low high) (hp : Piled keys n p)
    (hk : keyAt keys n = some k) : (low ++ n :: high.tail).Pairwise (KeyLt keys) := by
  have hsorted := hp.sorted
  rw [h.split, List.pairwise_append] at hsorted
  obtain ⟨hlow, hhigh, hacross⟩ := hsorted
  have hlater : ∀ t ∈ high.tail, KeyLt keys n t := by
    cases high with
    | nil => exact fun t ht => nomatch ht
    | cons top high =>
      intro t ht
      obtain ⟨tk, htk, hle⟩ := h.above top List.mem_cons_self
      obtain ⟨a, b, ha, hb, hab⟩ := List.rel_of_pairwise_cons hhigh ht
      rw [htk] at ha
      cases ha
      exact ⟨k, b, hk, hb, hle.trans_lt hab⟩
  rw [List.pairwise_append, List.pairwise_cons]
  refine ⟨hlow, ⟨hlater, hhigh.sublist (List.tail_sublist _)⟩, fun t ht t' ht' => ?_⟩
  rcases List.mem_cons.1 ht' with rfl | ht'
  · obtain ⟨tk, htk, hlt⟩ := h.below t ht
    exact ⟨tk, k, htk, hk, hlt⟩
  · exact hacross t ht t' (List.mem_of_mem_tail ht')

/-- The new top ends a subsequence as long as the piles below it are many, and one. -/
theorem Parted.traced (h : Parted keys k p.tails low high) (hp : Piled keys n p)
    (hk : keyAt keys n = some k) :
    ∃ l, Descent keys (Function.update p.back n low.getLast?) n l ∧ l.length = low.length + 1 := by
  cases hlast : low.getLast? with
  | none =>
    rw [List.getLast?_eq_none_iff] at hlast
    exact ⟨[n], .first hk (Function.update_self ..), by rw [hlast]; rfl⟩
  | some u =>
    have hu := List.mem_of_getLast? hlast
    have hpos := List.length_pos_of_mem hu
    have hget : p.tails[low.length - 1]? = some u := by
      rw [h.split, List.getElem?_append_left (by omega), ← List.getLast?_eq_getElem?, hlast]
    obtain ⟨l, hl, hlen⟩ := hp.traced _ _ hget
    obtain ⟨uk, huk, hlt⟩ := h.below u hu
    have hun := (hp.placed u (List.mem_of_getElem? hget)).1
    refine ⟨n :: l, .later hun ⟨uk, k, huk, hk, hlt⟩ (Function.update_self ..) (hl.update hun _), ?_⟩
    rw [List.length_cons, hlen]
    omega

/-- An increasing subsequence that the new position ends has no more before it than there are
piles below. -/
theorem Parted.length_le (h : Parted keys k p.tails low high) (hp : Piled keys n p)
    (hk : keyAt keys n = some k) {l : List ℕ} (hl : Rises keys (l ++ [n])) : l.length ≤ low.length := by
  obtain ⟨hrises, -, hlast⟩ := rises_append_singleton.1 hl
  rcases List.eq_nil_or_concat l with rfl | ⟨l, m, rfl⟩
  · exact Nat.zero_le _
  · rw [List.concat_eq_append] at hrises hlast ⊢
    obtain ⟨hm, a, b, ha, hb, hab⟩ := hlast m (by simp)
    rw [hk] at hb
    cases hb
    obtain ⟨t, tk, ht, htk, hle⟩ := hp.least l m a hrises hm ha
    rw [List.length_append, List.length_singleton]
    by_contra hlong
    rw [h.split, List.getElem?_append_right (by omega)] at ht
    obtain ⟨tk', htk', hk'⟩ := h.above t (List.mem_of_getElem? ht)
    rw [htk] at htk'
    cases htk'
    exact absurd (hk'.trans hle) (not_le.2 hab)

theorem Parted.least (h : Parted keys k p.tails low high) (hp : Piled keys n p)
    (hk : keyAt keys n = some k) {l : List ℕ} {i : ℕ} {ik : κ} (hl : Rises keys (l ++ [i])) (hi : i < n + 1)
    (hik : keyAt keys i = some ik) :
    ∃ t tk, (low ++ n :: high.tail)[l.length]? = some t ∧ keyAt keys t = some tk ∧ tk ≤ ik := by
  rw [getElem?_middle, ← h.split]
  by_cases hnew : i = n
  · subst hnew
    rw [hk] at hik
    cases hik
    have hle := h.length_le hp hk hl
    by_cases hj : l.length = low.length
    · exact ⟨i, k, if_pos hj, hk, le_rfl⟩
    · rw [if_neg hj, h.split, List.getElem?_append_left (by omega), List.getElem?_eq_getElem (by omega)]
      obtain ⟨tk, htk, hlt⟩ := h.below _ (List.getElem_mem (by omega : l.length < low.length))
      exact ⟨_, tk, rfl, htk, hlt.le⟩
  · obtain ⟨t, tk, ht, htk, hle⟩ := hp.least l i ik hl (by omega) hik
    by_cases hj : l.length = low.length
    · rw [h.split, List.getElem?_append_right (by omega)] at ht
      obtain ⟨tk', htk', hk'⟩ := h.above t (List.mem_of_getElem? ht)
      rw [htk] at htk'
      cases htk'
      exact ⟨n, k, if_pos hj, hk, hk'.trans hle⟩
    · exact ⟨t, tk, by rw [if_neg hj, ht], htk, hle⟩

end

theorem Piled.place_some {n : ℕ} {p : Piles} (h : Piled keys n p) {k : κ} (hk : keyAt keys n = some k) :
    Piled keys (n + 1) (place keys p n) := by
  have hpart := h.parted k
  rw [place_eq hk rfl hpart.split]
  refine ⟨hpart.sorted h hk, fun t ht => ?_, fun j t ht => ?_, fun l i ik hl hi hik => hpart.least h hk hl hi hik⟩
  · have hold : ∀ t ∈ p.tails, t < n + 1 ∧ ∃ k, keyAt keys t = some k := fun t ht =>
      ⟨(h.placed t ht).1.trans n.lt_succ_self, (h.placed t ht).2⟩
    rcases List.mem_append.1 ht with ht | ht
    · exact hold t (hpart.split ▸ List.mem_append_left _ ht)
    · rcases List.mem_cons.1 ht with rfl | ht
      · exact ⟨Nat.lt_succ_self t, k, hk⟩
      · exact hold t (hpart.split ▸ List.mem_append_right _ (List.mem_of_mem_tail ht))
  · rw [getElem?_middle, ← hpart.split] at ht
    by_cases hj : j = (p.tails.takeWhile (isBelow keys k)).length
    · rw [if_pos hj] at ht
      cases ht
      obtain ⟨l, hl, hlen⟩ := hpart.traced h hk
      exact ⟨l, hl, hlen.trans (by rw [hj])⟩
    · rw [if_neg hj] at ht
      obtain ⟨l, hl, hlen⟩ := h.traced j t ht
      exact ⟨l, hl.update (h.placed t (List.mem_of_getElem? ht)).1 _, hlen⟩

theorem piled_piles (keys : List (Option κ)) : Piled keys keys.length (piles keys) := by
  have hrun : ∀ n, Piled keys n ((List.range n).foldl (place keys) ⟨[], fun _ => none⟩) := by
    intro n
    induction n with
    | zero => exact piled_nil
    | succ n ih =>
      rw [List.range_succ, List.foldl_append, List.foldl_cons, List.foldl_nil]
      cases hk : keyAt keys n with
      | none => exact ih.place_none hk
      | some k => exact ih.place_some hk
  exact hrun keys.length

/-- The links from the last pile lead through as many positions as there are piles. -/
theorem longest_spec (keys : List (Option κ)) :
    Rises keys (longest keys) ∧ (longest keys).length = (piles keys).tails.length := by
  have hpiled := piled_piles keys
  cases hlast : (piles keys).tails.getLast? with
  | none =>
    have hlongest : longest keys = [] := by
      rw [longest, hlast]
      cases keys.length <;> rfl
    rw [List.getLast?_eq_none_iff] at hlast
    rw [hlongest, hlast]
    exact ⟨⟨(fun i h => nomatch h), List.Pairwise.nil⟩, rfl⟩
  | some t =>
    have ht := List.mem_of_getLast? hlast
    have hpos := List.length_pos_of_mem ht
    rw [List.getLast?_eq_getElem?] at hlast
    obtain ⟨l, hl, hlen⟩ := hpiled.traced _ _ hlast
    have hfuel : l.length ≤ keys.length :=
      hl.length_le.trans (hpiled.placed t ht).1
    have hlongest : longest keys = l.reverse := by
      rw [longest, List.getLast?_eq_getElem?, hlast, hl.trace_eq hfuel]
    rw [hlongest, List.length_reverse, hlen]
    exact ⟨hl.rises.1, by omega⟩

theorem rises_longest (keys : List (Option κ)) : Rises keys (longest keys) := (longest_spec keys).1

theorem length_le_longest {l : List ℕ} (hl : Rises keys l) : l.length ≤ (longest keys).length := by
  rw [(longest_spec keys).2]
  rcases List.eq_nil_or_concat l with rfl | ⟨l, i, rfl⟩
  · exact Nat.zero_le _
  · rw [List.concat_eq_append] at hl ⊢
    obtain ⟨k, hk⟩ := hl.1 i (by simp)
    obtain ⟨t, -, ht, -, -⟩ := (piled_piles keys).least l i k hl (lt_length_of_key hk) hk
    obtain ⟨hlt, -⟩ := List.getElem?_eq_some_iff.1 ht
    rw [List.length_append, List.length_singleton]
    exact hlt

end Patience
