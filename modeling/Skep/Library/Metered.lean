import Mathlib

/-!
# Metered readers

A reader takes a value off the front of a byte string and pays, out of a limit, for what it builds.
An exact reader answers a value where its encoding stands and its cost is left, and nowhere else.
The rules read the exactness of a format's reader off the reader's own text.
-/

/-- An input under reading: its length, what is left of it, and what was spent of a limit. -/
@[ext] structure Rd (limit : ℕ) where
  total : ℕ
  rest : List UInt8
  spent : ℕ
  short : rest.length ≤ total
  within : spent ≤ limit

/-- A reader: it refuses, or answers a value and the input after it. -/
abbrev Metered (limit : ℕ) := StateT (Rd limit) Option

namespace Rd

variable {limit : ℕ} {rd mid rd' : Rd limit} {bs bs' : List UInt8} {c c' : ℕ}

/-- The input of a whole byte string. -/
def start (limit : ℕ) (bs : List UInt8) : Rd limit := ⟨bs.length, bs, 0, le_rfl, Nat.zero_le limit⟩

theorem short_tail {b : UInt8} {bs : List UInt8} {n : ℕ} (h : (b :: bs).length ≤ n) : bs.length ≤ n :=
  (Nat.le_succ _).trans h

theorem short_drop (rd : Rd limit) (n : ℕ) : (rd.rest.drop n).length ≤ rd.total := by
  have hshort := rd.short
  rw [List.length_drop]
  omega

/-- The bytes `bs` were taken, at the cost `c`. -/
structure Took (rd : Rd limit) (bs : List UInt8) (c : ℕ) (rd' : Rd limit) : Prop where
  total : rd'.total = rd.total
  rest : rd.rest = bs ++ rd'.rest
  spent : rd'.spent = rd.spent + c

theorem Took.refl (rd : Rd limit) : rd.Took [] 0 rd := ⟨rfl, rfl, rfl⟩

theorem Took.trans (h : rd.Took bs c mid) (h' : mid.Took bs' c' rd') : rd.Took (bs ++ bs') (c + c') rd' where
  total := h'.total.trans h.total
  rest := by rw [h.rest, h'.rest, List.append_assoc]
  spent := by rw [h'.spent, h.spent, Nat.add_assoc]

theorem Took.cost_le (h : rd.Took bs c rd') : c ≤ limit := by
  have hspent := h.spent
  have hwithin := rd'.within
  omega

theorem Took.length_le (h : rd.Took bs c rd') : bs.length ≤ rd.rest.length := by
  rw [h.rest, List.length_append]
  exact Nat.le_add_right _ _

theorem Took.split (h : rd.Took (bs ++ bs') (c + c') rd') : ∃ mid, rd.Took bs c mid ∧ mid.Took bs' c' rd' := by
  have hspent := h.spent
  have hwithin := rd'.within
  have hrest : rd.rest = bs ++ (bs' ++ rd'.rest) := by rw [h.rest, List.append_assoc]
  refine ⟨⟨rd.total, bs' ++ rd'.rest, rd.spent + c, ?_, by omega⟩, ⟨rfl, hrest, rfl⟩, h.total, rfl, ?_⟩
  · have hshort := rd.short
    rw [hrest, List.length_append] at hshort
    omega
  · show rd'.spent = rd.spent + c + c'
    omega

theorem Took.eq (h : rd.Took bs c mid) (h' : rd.Took bs c rd') : mid = rd' := by
  apply Rd.ext
  · rw [h.total, h'.total]
  · exact List.append_cancel_left (h.rest.symm.trans h'.rest)
  · rw [h.spent, h'.spent]

end Rd

namespace Metered

variable {limit : ℕ} {α β : Type}

def fail : Metered limit α := fun _ => none

/-- The next byte. -/
def u8 : Metered limit UInt8
  | ⟨_, [], _, _, _⟩ => none
  | ⟨total, b :: bs, spent, short, within⟩ => some (b, ⟨total, bs, spent, Rd.short_tail short, within⟩)

/-- Pay for what is built. -/
def pay (units : ℕ) : Metered limit Unit := fun rd =>
  if h : rd.spent + units ≤ limit then some ((), { rd with
    spent := rd.spent + units
    within := h })
  else none

/-- The next `n` bytes. -/
def take (n : ℕ) : Metered limit (List UInt8) := fun rd =>
  if n ≤ rd.rest.length then some (rd.rest.take n, { rd with
    rest := rd.rest.drop n
    short := rd.short_drop n })
  else none

def ofOption (x : Option α) : Metered limit α := fun rd => x.map fun a => (a, rd)

def ensure (good : Bool) : Metered limit Unit := if good then pure () else fail

/-- One of several forms, told by its first byte. -/
def tagged (forms : List (UInt8 × Metered limit α)) : Metered limit α := do
  let tag ← u8
  (forms.lookup tag).getD fail

/-- The length of the whole input. -/
def total : Metered limit ℕ := fun rd => some (rd.total, rd)

/-- The length of what is left. -/
def left : Metered limit ℕ := fun rd => some (rd.rest.length, rd)

def times (p : Metered limit α) : ℕ → Metered limit (List α)
  | 0 => pure []
  | n + 1 => do
      let a ← p
      let as ← times p n
      return a :: as

/-- What a reader answers stands before what it leaves, as `R` says. -/
def Sound (p : Metered limit α) (R : α → List UInt8 → ℕ → Prop) : Prop :=
  ∀ rd a rd', p rd = some (a, rd') → ∃ bs c, R a bs c ∧ rd.Took bs c rd'

/-- A reader answers the value off the front of the bytes, where the cost is left. -/
def Answers (p : Metered limit α) (a : α) (bs : List UInt8) (c : ℕ) : Prop :=
  ∀ rd rd', Rd.Took rd bs c rd' → p rd = some (a, rd')

/-- A reader of an encoding, of the values that fit and no others. -/
structure Exact (p : Metered limit α) (enc : α → List UInt8) (cost : α → ℕ) (Fits : α → Prop) : Prop where
  sound : Sound p fun a bs c => Fits a ∧ bs = enc a ∧ c = cost a
  answers : ∀ a, Fits a → Answers p a (enc a) (cost a)

section

variable {p : Metered limit α} {k : α → Metered limit β} {R : α → List UInt8 → ℕ → Prop} {a : α} {b : β}
  {bs bs' : List UInt8} {c c' : ℕ}

theorem bind_eq_some {rd rd' : Rd limit} :
    (p >>= k) rd = some (b, rd') ↔ ∃ a mid, p rd = some (a, mid) ∧ k a mid = some (b, rd') := by
  show (p rd).bind (fun x => k x.1 x.2) = _ ↔ _
  rw [Option.bind_eq_some_iff, Prod.exists]

theorem Sound.imp {S : α → List UInt8 → ℕ → Prop} (h : Sound p R) (himp : ∀ a bs c, R a bs c → S a bs c) : Sound p S := by
  intro rd a rd' hp
  obtain ⟨bs, c, hR, htook⟩ := h rd a rd' hp
  exact ⟨bs, c, himp a bs c hR, htook⟩

theorem Sound.pure {S : β → List UInt8 → ℕ → Prop} (h : S b [] 0) : Sound (pure b : Metered limit β) S := by
  rintro rd b' rd' ⟨⟩
  exact ⟨[], 0, h, .refl rd⟩

theorem Sound.bind {S : β → List UInt8 → ℕ → Prop} (hp : Sound p R)
    (hk : ∀ a bs c, R a bs c → Sound (k a) fun b bs' c' => S b (bs ++ bs') (c + c')) : Sound (p >>= k) S := by
  intro rd b rd' h
  obtain ⟨a, mid, hread, hrest⟩ := bind_eq_some.1 h
  obtain ⟨bs, c, hR, htook⟩ := hp rd a mid hread
  obtain ⟨bs', c', hS, htook'⟩ := hk a bs c hR mid b rd' hrest
  exact ⟨bs ++ bs', c + c', hS, htook.trans htook'⟩

theorem Exact.then {enc : α → List UInt8} {cost : α → ℕ} {Fits : α → Prop} {S : β → List UInt8 → ℕ → Prop}
    (hp : Exact p enc cost Fits)
    (hk : ∀ a, Fits a → Sound (k a) fun b bs c => S b (enc a ++ bs) (cost a + c)) : Sound (p >>= k) S :=
  hp.sound.bind fun a _ _ hR => by
    obtain ⟨hfits, rfl, rfl⟩ := hR
    exact hk a hfits

theorem Answers.of_eq (h : Answers p a bs c) (hbs : bs = bs') (hc : c = c') : Answers p a bs' c' := by
  rwa [hbs, hc] at h

theorem Answers.pure (b : β) : Answers (pure b : Metered limit β) b [] 0 := by
  intro rd rd' h
  rw [(Rd.Took.refl rd).eq h]
  rfl

theorem Answers.bind (hp : Answers p a bs c) (hk : Answers (k a) b bs' c') :
    Answers (p >>= k) b (bs ++ bs') (c + c') := by
  intro rd rd' h
  obtain ⟨mid, hfirst, hrest⟩ := h.split
  exact bind_eq_some.2 ⟨a, mid, hp rd mid hfirst, hk mid rd' hrest⟩

/-- A reader of one value after one of no bytes and no cost. -/
theorem Answers.skip (hp : Answers p a [] 0) (hk : Answers (k a) b bs c) : Answers (p >>= k) b bs c := by
  have h := hp.bind hk
  rwa [List.nil_append, Nat.zero_add] at h

theorem Answers.map {f : α → β} (hp : Answers p a bs c) : Answers (p >>= fun a => Pure.pure (f a)) (f a) bs c := by
  have h := hp.bind (k := fun a => Pure.pure (f a)) (Answers.pure (f a))
  rwa [List.append_nil, Nat.add_zero] at h

end

theorem exact_u8 : Exact (u8 : Metered limit UInt8) (fun b => [b]) (fun _ => 0) fun _ => True where
  sound := by
    rintro ⟨total, rest, spent, short, within⟩ b rd' h
    cases rest with
    | nil => cases h
    | cons b' bs =>
      cases h
      exact ⟨[b], 0, ⟨trivial, rfl, rfl⟩, rfl, rfl, rfl⟩
  answers b _ := by
    rintro ⟨total, rest, spent, short, within⟩ rd' h
    obtain rfl : rest = b :: rd'.rest := h.rest
    have hsame := Rd.Took.eq (show Rd.Took ⟨total, b :: rd'.rest, spent, short, within⟩ [b] 0
      ⟨total, rd'.rest, spent, Rd.short_tail short, within⟩ from ⟨rfl, rfl, rfl⟩) h
    exact congrArg (fun r => some (b, r)) hsame

theorem sound_pay (units : ℕ) : Sound (pay units : Metered limit Unit) fun _ bs c => bs = [] ∧ c = units := by
  intro rd a rd' h
  unfold pay at h
  split at h
  · cases h
    exact ⟨[], units, ⟨rfl, rfl⟩, rfl, rfl, rfl⟩
  · cases h

theorem answers_pay (units : ℕ) : Answers (pay units : Metered limit Unit) () [] units := by
  intro rd rd' h
  have hspent := h.spent
  have hwithin := rd'.within
  have hle : rd.spent + units ≤ limit := hspent ▸ hwithin
  unfold pay
  rw [dif_pos hle]
  have hsame := Rd.Took.eq (show rd.Took [] units ⟨rd.total, rd.rest, rd.spent + units, rd.short, hle⟩ from
    ⟨rfl, rfl, rfl⟩) h
  rw [← hsame]

theorem sound_fail {R : α → List UInt8 → ℕ → Prop} : Sound (fail : Metered limit α) R := by
  rintro rd a rd' ⟨⟩

theorem ensure_eq_some {good : Bool} {rd rd' : Rd limit} : ensure good rd = some ((), rd') ↔ good = true ∧ rd' = rd := by
  cases good with
  | true =>
    show some ((), rd) = some ((), rd') ↔ _
    rw [Option.some.injEq, Prod.mk.injEq]
    exact and_congr_left' (iff_of_true rfl rfl) |>.trans (and_congr_right' eq_comm)
  | false => exact iff_of_false (fun h => by cases h) fun h => Bool.false_ne_true h.1

theorem sound_ensure (good : Bool) : Sound (ensure good : Metered limit Unit) fun _ bs c => good = true ∧ bs = [] ∧ c = 0 := by
  cases good with
  | true => exact .pure ⟨rfl, rfl, rfl⟩
  | false => exact sound_fail

theorem answers_ensure {good : Bool} (h : good = true) : Answers (ensure good : Metered limit Unit) () [] 0 := by
  rw [ensure, if_pos h]
  exact .pure ()

theorem sound_ofOption (x : Option α) : Sound (ofOption x : Metered limit α) fun a bs c => x = some a ∧ bs = [] ∧ c = 0 := by
  intro rd a rd' h
  obtain ⟨a', ha, hpair⟩ := Option.map_eq_some_iff.1 h
  cases hpair
  exact ⟨[], 0, ⟨ha, rfl, rfl⟩, .refl rd⟩

theorem answers_ofOption {x : Option α} {a : α} (h : x = some a) : Answers (ofOption x : Metered limit α) a [] 0 := by
  subst h
  exact .pure a

theorem sound_total : Sound (total : Metered limit ℕ) fun _ bs c => bs = [] ∧ c = 0 := by
  rintro rd a rd' ⟨⟩
  exact ⟨[], 0, ⟨rfl, rfl⟩, .refl rd⟩

theorem exact_take (n : ℕ) : Exact (take n : Metered limit (List UInt8)) (fun bs => bs) (fun _ => 0) fun bs => bs.length = n where
  sound := by
    intro rd bs rd' h
    unfold take at h
    split at h
    · next hle =>
      cases h
      exact ⟨_, 0, ⟨List.length_take_of_le hle, rfl, rfl⟩, rfl, (List.take_append_drop n rd.rest).symm, rfl⟩
    · cases h
  answers := by
    rintro bs rfl rd rd' h
    have hle := h.length_le
    unfold take
    rw [if_pos hle]
    have hdrop : rd.rest = bs ++ rd.rest.drop bs.length := by
      conv_rhs => rw [h.rest, List.drop_left]
      exact h.rest
    have hsame := Rd.Took.eq (show rd.Took bs 0
      ⟨rd.total, rd.rest.drop bs.length, rd.spent, rd.short_drop bs.length, rd.within⟩ from ⟨rfl, hdrop, rfl⟩) h
    rw [hsame, h.rest, List.take_left]

/-- What a partial function admits of what was read, its inverse being known. -/
theorem Exact.narrow {p : Metered limit α} {enc : α → List UInt8} {cost : α → ℕ} {Fits : α → Prop} {enc' : β → List UInt8}
    {cost' : β → ℕ} {Fits' : β → Prop} (hp : Exact p enc cost Fits) {f : α → Option β} {g : β → α}
    (hf : ∀ a b, f a = some b ∧ Fits a ↔ a = g b ∧ Fits' b) (henc : ∀ b, enc (g b) = enc' b)
    (hcost : ∀ b, cost (g b) = cost' b) : Exact (p >>= fun a => ofOption (f a)) enc' cost' Fits' where
  sound := hp.then fun a ha => (sound_ofOption (f a)).imp fun b bs c hb => by
    obtain ⟨hfa, rfl, rfl⟩ := hb
    obtain ⟨rfl, hfits⟩ := (hf a b).1 ⟨hfa, ha⟩
    exact ⟨hfits, by rw [List.append_nil, henc], by rw [Nat.add_zero, hcost]⟩
  answers := by
    intro b hb
    obtain ⟨hgb, hfits⟩ := (hf (g b) b).2 ⟨rfl, hb⟩
    have h := (hp.answers (g b) hfits).bind (k := fun a => ofOption (f a)) (answers_ofOption hgb)
    rwa [List.append_nil, Nat.add_zero, henc, hcost] at h

theorem Exact.pair {p : Metered limit α} {q : Metered limit β} {enc : α → List UInt8} {enc' : β → List UInt8}
    {cost : α → ℕ} {cost' : β → ℕ} {Fits : α → Prop} {Fits' : β → Prop} (hp : Exact p enc cost Fits)
    (hq : Exact q enc' cost' Fits') : Exact (p >>= fun a => q >>= fun b => pure (a, b)) (fun x => enc x.1 ++ enc' x.2)
      (fun x => cost x.1 + cost' x.2) fun x => Fits x.1 ∧ Fits' x.2 where
  sound := hp.then fun a ha => hq.then fun b hb => .pure ⟨⟨ha, hb⟩, by rw [List.append_nil], Nat.add_zero _⟩
  answers x hx := (hp.answers x.1 hx.1).bind ((hq.answers x.2 hx.2).map (f := fun b => (x.1, b)))

theorem Sound.tagged {forms : List (UInt8 × Metered limit α)} {S : α → List UInt8 → ℕ → Prop}
    (h : ∀ form ∈ forms, Sound form.2 fun a bs c => S a (form.1 :: bs) c) : Sound (tagged forms) S := by
  refine exact_u8.then fun tag _ => ?_
  cases hform : forms.lookup tag with
  | none => exact sound_fail
  | some p =>
    obtain ⟨before, after, rfl, -⟩ := List.lookup_eq_some_iff.1 hform
    refine (h (tag, p) (List.mem_append_right _ List.mem_cons_self)).imp fun a bs c hS => ?_
    rwa [Nat.zero_add]

theorem Answers.tagged {forms : List (UInt8 × Metered limit α)} (tag : UInt8) {p : Metered limit α} {a : α}
    {bs : List UInt8} {c : ℕ} (hform : forms.lookup tag = some p) (hp : Answers p a bs c) :
    Answers (tagged forms) a (tag :: bs) c := by
  have hread : Answers ((forms.lookup tag).getD fail) a bs c := by rwa [hform]
  have h := (exact_u8.answers tag trivial).bind (k := fun tag => (forms.lookup tag).getD fail) hread
  rwa [Nat.zero_add] at h

/-- The rest of a number from the bit `shift` on, `n` bytes at most. A last byte that adds nothing
is refused, and so is a bit from the 64th on. -/
def varintFrom (shift x : ℕ) : ℕ → Metered limit ℕ
  | 0 => fail
  | n + 1 => do
      let byte ← u8
      ensure (!(shift == 63 && byte &&& 0x7e != 0))
      ensure (shift ≤ 63)
      let x := x ||| (byte &&& 0x7f).toNat <<< shift
      if byte &&& 0x80 = 0 then do
        ensure (!(byte == 0 && shift != 0))
        return x
      else varintFrom (shift + 7) x n

/-- A number below `2 ^ 64`. -/
def varint : Metered limit ℕ := varintFrom 0 0 11

end Metered

/-- The least form of a number, seven bits a byte, the lowest first. -/
def varintBytes (x : ℕ) : List UInt8 :=
  if x < 128 then [UInt8.ofNat x] else UInt8.ofNat (x % 128 + 128) :: varintBytes (x / 128)

theorem varintBytes_ne_nil (x : ℕ) : varintBytes x ≠ [] := by
  rw [varintBytes]
  split <;> exact List.cons_ne_nil _ _

theorem UInt8.varint_masks (b : UInt8) : (b &&& 0x80 = 0 ↔ b.toNat < 128) ∧ (b &&& 0x7f).toNat = b.toNat % 128 ∧
    (b &&& 0x7e = 0 ↔ b.toNat % 128 < 2) := by
  have hall : ∀ n < 256, ((UInt8.ofNat n) &&& 0x80 = 0 ↔ n < 128) ∧ ((UInt8.ofNat n) &&& 0x7f).toNat = n % 128 ∧
      ((UInt8.ofNat n) &&& 0x7e = 0 ↔ n % 128 < 2) := by decide +kernel
  have hb := hall b.toNat b.toNat_lt
  rwa [UInt8.ofNat_toNat] at hb

namespace Metered

variable {limit : ℕ} {α β : Type}

theorem or_shiftLeft {x y shift : ℕ} (h : x < 2 ^ shift) : x ||| y <<< shift = x + y * 2 ^ shift := by
  rw [Nat.or_comm, ← Nat.shiftLeft_add_eq_or_of_lt h, Nat.shiftLeft_eq, Nat.add_comm]

/-- The shift of a byte that adds something is below 64. -/
theorem shift_lt {k y : ℕ} (hy : 0 < y) (h : y * 2 ^ (7 * k) < 2 ^ 64) : 7 * k < 64 :=
  (Nat.pow_lt_pow_iff_right (by decide)).1 ((Nat.le_mul_of_pos_left _ hy).trans_lt h)

theorem varint_fits {k b y : ℕ} (hb : b < 128) (hy : 0 < y) (h : y * 2 ^ (7 * (k + 1)) < 2 ^ 64) :
    (b + 128 * y) * 2 ^ (7 * k) < 2 ^ 64 := by
  obtain ⟨m, hm⟩ := Nat.exists_eq_add_of_lt (shift_lt hy h)
  have hsplit : (2 : ℕ) ^ 64 = 2 ^ (m + 1) * 2 ^ (7 * (k + 1)) := by
    rw [← pow_add]
    congr 1
    omega
  have hlt : y < 2 ^ (m + 1) := by
    rw [hsplit] at h
    exact lt_of_mul_lt_mul_right h (Nat.zero_le _)
  calc (b + 128 * y) * 2 ^ (7 * k) < (128 * (y + 1)) * 2 ^ (7 * k) :=
        Nat.mul_lt_mul_of_pos_right (by omega) (Nat.two_pow_pos _)
    _ = (y + 1) * 2 ^ (7 * (k + 1)) := by
        rw [Nat.mul_add 7, pow_add]
        ring
    _ ≤ 2 ^ (m + 1) * 2 ^ (7 * (k + 1)) := Nat.mul_le_mul_right _ hlt
    _ = 2 ^ 64 := hsplit.symm

theorem sound_varintFrom (n k x : ℕ) (hk : k + n = 11) (hx : x < 2 ^ (7 * k)) :
    Sound (varintFrom (7 * k) x n : Metered limit ℕ) fun v bs c => ∃ y, v = x + y * 2 ^ (7 * k) ∧
      y * 2 ^ (7 * k) < 2 ^ 64 ∧ (0 < k → 0 < y) ∧ bs = varintBytes y ∧ c = 0 := by
  induction n generalizing k x with
  | zero => exact sound_fail
  | succ n ih =>
    refine exact_u8.then fun b _ => (sound_ensure _).bind fun _ _ _ hlast => (sound_ensure _).bind fun _ _ _ hshift => ?_
    obtain ⟨hlast, rfl, rfl⟩ := hlast
    obtain ⟨hshift, rfl, rfl⟩ := hshift
    obtain ⟨hhigh, hlow, hover⟩ := b.varint_masks
    have hshift : 7 * k ≤ 63 := of_decide_eq_true hshift
    have hlast : 7 * k = 63 → b.toNat % 128 < 2 := by
      intro h63
      rw [← hover]
      simpa [h63] using hlast
    have hbyte := b.toNat_lt
    dsimp only
    rw [hlow, or_shiftLeft hx]
    split
    · next hend =>
      rw [hhigh] at hend
      rw [Nat.mod_eq_of_lt hend] at hlast ⊢
      refine (sound_ensure _).bind fun _ _ _ hleast => .pure ⟨b.toNat, rfl, ?_, fun hpos => ?_, ?_, ?_⟩
      · obtain hk | hk : k = 9 ∨ k ≤ 8 := by omega
        · subst hk
          have hlt := hlast rfl
          omega
        · have hle : (2 : ℕ) ^ (7 * k) ≤ 2 ^ 56 := Nat.pow_le_pow_right (by decide) (by omega)
          calc b.toNat * 2 ^ (7 * k) ≤ 127 * 2 ^ 56 := Nat.mul_le_mul (by omega) hle
            _ < 2 ^ 64 := by decide
      · obtain ⟨hleast, -, -⟩ := hleast
        by_contra hzero
        have hb : b = 0 := UInt8.toNat_inj.1 (Nat.eq_zero_of_not_pos hzero)
        simp [hb] at hleast
        omega
      · obtain ⟨-, rfl, -⟩ := hleast
        rw [varintBytes, if_pos hend, UInt8.ofNat_toNat]
        rfl
      · obtain ⟨-, -, rfl⟩ := hleast
        rfl
    · next hmore =>
      rw [hhigh, not_lt] at hmore
      have hx' : x + b.toNat % 128 * 2 ^ (7 * k) < 2 ^ (7 * (k + 1)) := by
        have hpow : (2 : ℕ) ^ (7 * (k + 1)) = 128 * 2 ^ (7 * k) := by
          rw [Nat.mul_add 7, pow_add, Nat.mul_comm]
          rfl
        have hmod : b.toNat % 128 ≤ 127 := by omega
        have hmul := Nat.mul_le_mul_right (2 ^ (7 * k)) hmod
        omega
      refine (ih (k + 1) _ (by omega) hx').imp fun v bs c hv => ?_
      obtain ⟨y, rfl, hy, hpos, rfl, rfl⟩ := hv
      have hpos := hpos (Nat.succ_pos k)
      have hsum : b.toNat % 128 + 128 * y = b.toNat - 128 + 128 * y := by omega
      refine ⟨b.toNat % 128 + 128 * y, ?_, varint_fits (Nat.mod_lt _ (by decide)) hpos hy, fun _ => by omega, ?_, rfl⟩
      · rw [Nat.mul_add 7, pow_add]
        ring
      · have hb : UInt8.ofNat ((b.toNat % 128 + 128 * y) % 128 + 128) = b := by
          rw [← UInt8.toNat_inj, UInt8.toNat_ofNat']
          omega
        have hdiv : (b.toNat % 128 + 128 * y) / 128 = y := by omega
        conv_rhs => rw [varintBytes, if_neg (by omega), hb, hdiv]
        rfl

theorem answers_varintFrom (n k x y : ℕ) (hk : k + n = 11) (hx : x < 2 ^ (7 * k)) (hy : y * 2 ^ (7 * k) < 2 ^ 64)
    (hpos : 0 < k → 0 < y) :
    Answers (varintFrom (7 * k) x n : Metered limit ℕ) (x + y * 2 ^ (7 * k)) (varintBytes y) 0 := by
  have hshift : 7 * k < 64 := by
    rcases Nat.eq_zero_or_pos k with rfl | hk'
    · decide
    · exact shift_lt (hpos hk') hy
  induction n generalizing k x y with
  | zero => omega
  | succ n ih =>
    have hlast : 7 * k = 63 → y < 2 := by
      intro h63
      rw [h63] at hy
      omega
    by_cases hend : y < 128
    · obtain ⟨hhigh, hlow, hover⟩ := (UInt8.ofNat y).varint_masks
      have hb : (UInt8.ofNat y).toNat = y := by
        rw [UInt8.toNat_ofNat']
        omega
      rw [hb] at hhigh hlow hover
      rw [Nat.mod_eq_of_lt hend] at hlow hover
      have hfirst : (!(7 * k == 63 && UInt8.ofNat y &&& 0x7e != 0)) = true := by
        by_cases h63 : 7 * k = 63
        · simp [hover.2 (hlast h63)]
        · simp [h63]
      have hleast : (!(UInt8.ofNat y == 0 && 7 * k != 0)) = true := by
        by_cases hzero : k = 0
        · simp [hzero]
        · have hne : UInt8.ofNat y ≠ 0 := by
            intro heq
            have hy0 := congrArg UInt8.toNat heq
            rw [hb] at hy0
            exact (hpos (Nat.pos_of_ne_zero hzero)).ne' hy0
          simp [hne]
      rw [varintBytes, if_pos hend, varintFrom]
      show Answers _ _ ([UInt8.ofNat y] ++ []) (0 + 0)
      refine (exact_u8.answers (UInt8.ofNat y) trivial).bind ?_
      refine (answers_ensure hfirst).skip ((answers_ensure (decide_eq_true (by omega))).skip ?_)
      rw [if_pos (hhigh.2 hend), hlow, or_shiftLeft hx]
      exact (answers_ensure hleast).skip (.pure _)
    · obtain ⟨hhigh, hlow, -⟩ := (UInt8.ofNat (y % 128 + 128)).varint_masks
      have hb : (UInt8.ofNat (y % 128 + 128)).toNat = y % 128 + 128 := by
        rw [UInt8.toNat_ofNat']
        omega
      have hmod : (y % 128 + 128) % 128 = y % 128 := by omega
      rw [hb] at hhigh hlow
      rw [hmod] at hlow
      have hfirst : (!(7 * k == 63 && UInt8.ofNat (y % 128 + 128) &&& 0x7e != 0)) = true := by
        have h63 : 7 * k ≠ 63 := by
          intro h63
          have hlt := hlast h63
          omega
        simp [h63]
      have hpow : (2 : ℕ) ^ (7 * (k + 1)) = 128 * 2 ^ (7 * k) := by
        rw [Nat.mul_add 7, pow_add, Nat.mul_comm]
        rfl
      have hdiv : y / 128 * (128 * 2 ^ (7 * k)) + y % 128 * 2 ^ (7 * k) = y * 2 ^ (7 * k) := by
        conv_rhs => rw [← Nat.div_add_mod y 128]
        ring
      have hx' : x + y % 128 * 2 ^ (7 * k) < 2 ^ (7 * (k + 1)) := by
        have hmul := Nat.mul_le_mul_right (2 ^ (7 * k)) (show y % 128 ≤ 127 by omega)
        omega
      have hy' : y / 128 * 2 ^ (7 * (k + 1)) < 2 ^ 64 := by
        rw [hpow]
        omega
      have hpos' : 0 < y / 128 := by omega
      have hsum : x + y * 2 ^ (7 * k) = x + y % 128 * 2 ^ (7 * k) + y / 128 * 2 ^ (7 * (k + 1)) := by
        rw [hpow]
        omega
      rw [varintBytes, if_neg hend, varintFrom, hsum]
      show Answers _ _ ([UInt8.ofNat (y % 128 + 128)] ++ varintBytes (y / 128)) (0 + 0)
      refine (exact_u8.answers (UInt8.ofNat (y % 128 + 128)) trivial).bind ?_
      refine (answers_ensure hfirst).skip ((answers_ensure (decide_eq_true (by omega))).skip ?_)
      rw [if_neg (by rw [hhigh]; omega), hlow, or_shiftLeft hx]
      exact ih (k + 1) _ _ (by omega) hx' hy' (fun _ => hpos') (shift_lt hpos' hy')

theorem exact_varint : Exact (varint : Metered limit ℕ) varintBytes (fun _ => 0) fun x => x < 2 ^ 64 where
  sound := by
    refine (sound_varintFrom 11 0 0 rfl (by decide)).imp fun v bs c hv => ?_
    obtain ⟨y, rfl, hy, -, rfl, rfl⟩ := hv
    rw [Nat.mul_zero, pow_zero, Nat.mul_one, Nat.zero_add] at *
    exact ⟨hy, rfl, rfl⟩
  answers x hx := by
    have h : Answers (varintFrom (7 * 0) 0 11 : Metered limit ℕ) (0 + x * 2 ^ (7 * 0)) (varintBytes x) 0 :=
      answers_varintFrom 11 0 0 x rfl (by decide) (by simpa using hx) fun hpos => absurd hpos (lt_irrefl 0)
    simpa [varint] using h

section

variable {p : Metered limit α} {enc : α → List UInt8} {cost : α → ℕ} {Fits : α → Prop}

theorem Exact.times (hp : Exact p enc cost Fits) (n : ℕ) : Exact (times p n) (fun as => as.flatMap enc)
    (fun as => (as.map cost).sum) fun as => as.length = n ∧ ∀ a ∈ as, Fits a where
  sound := by
    induction n with
    | zero => exact .pure ⟨⟨rfl, List.forall_mem_nil _⟩, rfl, rfl⟩
    | succ n ih =>
      refine hp.then fun a ha => ih.bind fun as bs c has => .pure ?_
      obtain ⟨⟨rfl, has⟩, rfl, rfl⟩ := has
      exact ⟨⟨rfl, List.forall_mem_cons.2 ⟨ha, has⟩⟩, by simp, by simp⟩
  answers := by
    rintro as ⟨rfl, hfits⟩
    induction as with
    | nil => exact .pure []
    | cons a as ih =>
      obtain ⟨ha, hfits⟩ := List.forall_mem_cons.1 hfits
      rw [List.flatMap_cons, List.map_cons, List.sum_cons]
      exact (hp.answers a ha).bind (ih hfits).map

end

/-- A list behind its count, no more than `most`, the count paid for before anything is read. -/
def countedUpTo (most : ℕ) (p : Metered limit α) : Metered limit (List α) := do
  let n ← varint
  ensure (n ≤ most)
  pay n
  times p n

/-- A list behind its count, which the input could hold. -/
def counted (p : Metered limit α) : Metered limit (List α) := do
  let most ← total
  countedUpTo most p

/-- The encoding of a list behind its count. -/
def countedBytes (enc : α → List UInt8) (as : List α) : List UInt8 := varintBytes as.length ++ as.flatMap enc

/-- What a list costs behind its count. -/
def countedCost (cost : α → ℕ) (as : List α) : ℕ := as.length + (as.map cost).sum

section

variable {p : Metered limit α} {enc : α → List UInt8} {cost : α → ℕ} {Fits : α → Prop}

theorem length_le_flatMap (hne : ∀ a, enc a ≠ []) (as : List α) : as.length ≤ (as.flatMap enc).length := by
  induction as with
  | nil => exact le_rfl
  | cons a as ih =>
    have hpos := List.length_pos_of_ne_nil (hne a)
    rw [List.flatMap_cons, List.length_append, List.length_cons]
    omega

theorem Exact.countedUpTo (hp : Exact p enc cost Fits) (hlimit : limit < 2 ^ 64) (most : ℕ) :
    Exact (countedUpTo most p) (countedBytes enc) (countedCost cost) fun as => as.length ≤ most ∧ ∀ a ∈ as, Fits a where
  sound := by
    refine exact_varint.then fun n _ => (sound_ensure _).bind fun _ _ _ hmost => (sound_pay n).bind fun _ _ c hcost => ?_
    obtain ⟨hmost, rfl, rfl⟩ := hmost
    obtain ⟨rfl, hc⟩ := hcost
    refine (hp.times n).sound.imp fun as bs c has => ?_
    obtain ⟨⟨rfl, has⟩, rfl, rfl⟩ := has
    exact ⟨⟨of_decide_eq_true hmost, has⟩, rfl, by simp [countedCost, hc]⟩
  answers := by
    rintro as ⟨hmost, has⟩ rd rd' h
    have hlt : as.length < 2 ^ 64 := by
      have hcost := h.cost_le
      rw [countedCost] at hcost
      omega
    have hread : Answers (Metered.countedUpTo most p) as (varintBytes as.length ++ as.flatMap enc)
        (0 + (as.length + (as.map cost).sum)) := by
      refine (exact_varint.answers as.length hlt).bind ((answers_ensure (decide_eq_true hmost)).skip ?_)
      exact (answers_pay as.length).bind ((hp.times as.length).answers as ⟨rfl, has⟩)
    rw [Nat.zero_add] at hread
    exact hread rd rd' h

theorem Exact.counted (hp : Exact p enc cost Fits) (hlimit : limit < 2 ^ 64) (hne : ∀ a, enc a ≠ []) :
    Exact (counted p) (countedBytes enc) (countedCost cost) fun as => ∀ a ∈ as, Fits a where
  sound := by
    refine sound_total.bind fun most _ _ htotal => (hp.countedUpTo hlimit most).sound.imp fun as bs c has => ?_
    obtain ⟨rfl, rfl⟩ := htotal
    obtain ⟨⟨-, has⟩, rfl, rfl⟩ := has
    exact ⟨has, rfl, Nat.zero_add _⟩
  answers := by
    intro as has rd rd' h
    have hmost : as.length ≤ rd.total := by
      have hlen := h.length_le
      rw [countedBytes, List.length_append] at hlen
      exact (length_le_flatMap hne as).trans ((Nat.le_add_left _ _).trans (hlen.trans rd.short))
    exact bind_eq_some.2 ⟨rd.total, rd, rfl, (hp.countedUpTo hlimit rd.total).answers as ⟨hmost, has⟩ rd rd' h⟩

end

end Metered
