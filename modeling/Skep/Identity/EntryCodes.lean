import Skep.Identity.PublishBody
import Skep.Library.PrefixCode

/-!
# The rows of an entry as prefix codes

Each row that a builder pushes is the encoding of a prefix code on strings that four
bytes can count, as every string within a frame is.
-/

namespace Identity

theorem utf8_injective : Function.Injective utf8 := by
  intro s t h
  apply String.toByteArray_inj.1
  apply ByteArray.ext
  exact Array.toList_inj.1 h

theorem toDigits_injective : Function.Injective (Nat.toDigits 10) := by
  intro m n h
  rw [← Nat.ofDigitChars_ten_toDigits (n := m), h, Nat.ofDigitChars_ten_toDigits]

theorem dot_not_mem_toDigits (n : ℕ) : '.' ∉ Nat.toDigits 10 n := by
  intro h
  have hdigit := Nat.isDigit_of_mem_toDigits (by decide) (by decide) h
  exact absurd hdigit (by decide)

theorem append_separator_inj {α : Type*} {p q r s : List α} {x : α} (hp : x ∉ p) (hq : x ∉ q)
    (h : p ++ x :: r = q ++ x :: s) : p = q ∧ r = s := by
  induction p generalizing q with
  | nil =>
    cases q with
    | nil => exact ⟨rfl, (List.cons.inj h).2⟩
    | cons c q => exact absurd (List.cons.inj h).1 (fun hx => hq (hx ▸ List.mem_cons_self))
  | cons c p ih =>
    cases q with
    | nil => exact absurd (List.cons.inj h).1 (fun hx => hp (hx ▸ List.mem_cons_self))
    | cons c' q =>
      obtain ⟨rfl, hrest⟩ := List.cons.inj h
      obtain ⟨rfl, hrs⟩ := ih (fun hx => hp (List.mem_cons_of_mem _ hx))
        (fun hx => hq (List.mem_cons_of_mem _ hx)) hrest
      exact ⟨rfl, hrs⟩

theorem dotted_injective {l l' : List ℕ} (hl : l ≠ []) (hl' : l' ≠ []) (h : dotted l = dotted l') :
    l = l' := by
  have hdot : ∀ n m rest rest', Nat.toDigits 10 n ≠ Nat.toDigits 10 m ++ '.' :: dotted (rest :: rest') := by
    intro n m rest rest' heq
    apply dot_not_mem_toDigits n
    rw [heq]
    simp
  induction l generalizing l' with
  | nil => exact absurd rfl hl
  | cons n rest ih =>
    obtain ⟨n', rest', rfl⟩ := List.exists_cons_of_ne_nil hl'
    cases rest with
    | nil =>
      cases rest' with
      | nil => exact congrArg (fun x => [x]) (toDigits_injective h)
      | cons m' rest' => exact absurd h (hdot _ _ _ _)
    | cons m rest =>
      cases rest' with
      | nil => exact absurd h.symm (hdot _ _ _ _)
      | cons m' rest' =>
        rw [dotted, dotted] at h
        obtain ⟨hn, hrest⟩ := append_separator_inj (dot_not_mem_toDigits n) (dot_not_mem_toDigits n') h
        rw [toDigits_injective hn, ih (by simp) (by simp) hrest]

theorem spelled_injective : Function.Injective spelled := by
  intro t t' h
  apply Tumbler.comps_injective
  exact dotted_injective t.nonempty t'.nonempty (String.ofList_injective (utf8_injective h))

/-- A prefix code on strings that four bytes count. -/
abbrev RowCode (α : Type*) := PrefixCode (2 ^ 32) α

theorem rows_le_four_bytes : 2 ^ 32 ≤ 256 ^ 4 := by norm_num

theorem rows_le_eight_bytes : 2 ^ 32 ≤ 256 ^ 8 := by norm_num

def elementCode : RowCode (List UInt8) := .delimited 4 rows_le_four_bytes

def numberCode : RowCode UInt64 :=
  .ofLength 8 (fun n => beBytes 8 n.toNat) (fun n => length_beBytes 8 n.toNat) fun m n h =>
    UInt64.toNat_inj.1 (beBytes_inj (by simpa using m.toNat_lt) (by simpa using n.toNat_lt) h)

def tumblerCode : RowCode Tumbler := elementCode.comap spelled spelled_injective

def addressCode : RowCode Address := tumblerCode.comap Address.tumbler Address.tumbler_injective

theorem elementCode_ne_nil (bs : List UInt8) : elementCode.encode bs ≠ [] := by
  intro h
  have hlen := congrArg List.length h
  simp [elementCode, PrefixCode.delimited, length_beBytes] at hlen

theorem numberCode_ne_nil (n : UInt64) : numberCode.encode n ≠ [] := by
  intro h
  have hlen := congrArg List.length h
  simp [numberCode, PrefixCode.ofLength, length_beBytes] at hlen

/-- The parts a span is spelled by. -/
def spanParts (span : Span) : Tumbler × Tumbler := (span.start, span.width)

theorem spanParts_injective : Function.Injective spanParts := by
  intro a b h
  obtain ⟨hstart, hwidth⟩ := Prod.mk.inj h
  exact Span.ext hstart hwidth

def spanCode : RowCode Span := (tumblerCode.prod tumblerCode).comap spanParts spanParts_injective

def slotCode : RowCode (List Span) :=
  .marked slotFormStored (.counted 8 rows_le_eight_bytes spanCode fun _ h =>
    elementCode_ne_nil _ (List.append_eq_nil_iff.1 h).1)

def addressListCode : RowCode (List Address) :=
  .marked addressListForm (.counted 8 rows_le_eight_bytes addressCode fun _ => elementCode_ne_nil _)

def oneAddressCode : RowCode Address := addressListCode.comap (fun a => [a]) List.singleton_injective

def optionalAddressCode : RowCode (Option Address) :=
  .groupOption 4 rows_le_four_bytes oneAddressCode fun _ h => List.cons_ne_nil _ _ h

def valuesCode : RowCode (List (List UInt8)) := .counted 8 rows_le_eight_bytes elementCode elementCode_ne_nil

section Writes

variable {ε : Type} {α : Type*}

/-- What the builder pushes is the code's encoding. -/
def Writes (push : List UInt8 → α → Outcome ε (List UInt8)) (c : RowCode α) : Prop :=
  ∀ out a out', push out a = .ok out' → out' = out ++ c.encode a

theorem pushDelimited_writes : Writes (ε := ε) pushDelimited elementCode := by
  intro out bs out' h
  simp only [pushDelimited, Outcome.bind_eq_ok_iff, Outcome.pure_eq, Outcome.ok.injEq] at h
  obtain ⟨-, -, rfl⟩ := h
  rfl

theorem Writes.foldlM {push : List UInt8 → α → Outcome ε (List UInt8)} {c : RowCode α} (hpush : Writes push c)
    {l : List α} {out out' : List UInt8} (h : l.foldlM push out = .ok out') :
    out' = out ++ l.flatMap c.encode := by
  induction l generalizing out with
  | nil =>
    obtain rfl := Outcome.ok.inj h
    simp
  | cons a l ih =>
    rw [List.foldlM_cons, Outcome.bind_eq_ok_iff] at h
    obtain ⟨mid, hmid, hrest⟩ := h
    rw [ih hrest, hpush out a mid hmid, List.flatMap_cons, List.append_assoc]

/-- Bytes written over as many held bytes stand in their place. -/
theorem overwrite_held (front held rest bs : List UInt8) (hlen : held.length = bs.length) :
    overwrite (ε := ε) front.length bs (front ++ (held ++ rest)) = .ok (front ++ (bs ++ rest)) := by
  have hle : front.length + bs.length ≤ (front ++ (held ++ rest)).length := by
    simp only [List.length_append]
    omega
  have hdrop : (front ++ (held ++ rest)).drop (front.length + bs.length) = rest := by
    rw [← List.append_assoc, List.drop_left' (by rw [List.length_append, hlen])]
  rw [overwrite, Outcome.require, if_pos hle, hdrop, List.take_left' rfl]
  simp

theorem pushSpan_writes : Writes (ε := ε) pushSpan spanCode := by
  intro out span out' h
  simp only [pushSpan, Outcome.bind_eq_ok_iff] at h
  obtain ⟨mid, hmid, hout⟩ := h
  rw [pushDelimited_writes _ _ _ hout, pushDelimited_writes _ _ _ hmid, List.append_assoc]
  rfl

theorem pushSlot_writes : Writes (ε := ε) pushSlot slotCode := by
  intro out slot out' h
  simp only [pushSlot, Outcome.bind_eq_ok_iff] at h
  obtain ⟨rows, hrows, hout⟩ := h
  have hlen : (beBytes 8 0).length = (beBytes 8 slot.length).length := by
    rw [length_beBytes, length_beBytes]
  rw [pushSpan_writes.foldlM hrows, List.append_assoc, overwrite_held _ _ _ _ hlen] at hout
  rw [← Outcome.ok.inj hout, List.append_assoc]
  rfl

theorem pushAddress_writes :
    Writes (ε := ε) (fun out a => pushDelimited out (addressBytes a)) addressCode :=
  fun out a out' h => pushDelimited_writes out (addressBytes a) out' h

theorem pushAddressList_writes : Writes (ε := ε) pushAddressList addressListCode := by
  intro out addrs out' h
  rw [pushAddress_writes.foldlM h, List.append_assoc]
  rfl

theorem pushOptionalAddress_writes : Writes (ε := ε) pushOptionalAddress optionalAddressCode := by
  intro out named out' h
  simp only [pushOptionalAddress, Outcome.bind_eq_ok_iff] at h
  obtain ⟨group, hgroup, hout⟩ := h
  rw [pushDelimited_writes _ _ _ hout]
  cases named with
  | none =>
    obtain rfl : [] = group := Outcome.ok.inj hgroup
    rfl
  | some a =>
    have hlist := pushAddressList_writes _ _ _ hgroup
    rw [List.nil_append] at hlist
    rw [hlist]
    rfl

/-- A value sequence under way grows by its values' elements and counts them. -/
theorem pushValues_eq_ok {values : List (List UInt8)} {row row' : ValueSequence} {out out' : List UInt8}
    (h : values.foldlM (fun (p : ValueSequence × List UInt8) value => p.1.push p.2 value) (row, out) =
      (.ok (row', out') : Outcome ε _)) :
    row' = ⟨row.start, row.count + values.length⟩ ∧ out' = out ++ values.flatMap elementCode.encode := by
  induction values generalizing row out with
  | nil =>
    obtain ⟨rfl, rfl⟩ := Prod.mk.inj (Outcome.ok.inj h)
    simp
  | cons value values ih =>
    simp only [List.foldlM_cons, Outcome.bind_eq_ok_iff, Prod.exists, ValueSequence.push, Outcome.pure_eq,
      Outcome.ok.injEq, Prod.mk.injEq] at h
    obtain ⟨mid, out₁, ⟨out₂, hpush, rfl, rfl⟩, hrest⟩ := h
    obtain ⟨hrow, hout⟩ := ih hrest
    rw [hrow, hout, pushDelimited_writes _ _ _ hpush, List.flatMap_cons, List.append_assoc, List.length_cons]
    exact ⟨congrArg (ValueSequence.mk row.start) (by simp only; omega), rfl⟩

theorem pushValueSequence_writes : Writes (ε := ε) pushValueSequence valuesCode := by
  intro out values out' h
  simp only [pushValueSequence, Outcome.bind_eq_ok_iff, Prod.exists] at h
  obtain ⟨row, rows, hrows, hout⟩ := h
  obtain ⟨rfl, rfl⟩ := pushValues_eq_ok hrows
  have hlen : (beBytes 8 0).length = (beBytes 8 (0 + values.length)).length := by
    rw [length_beBytes, length_beBytes]
  rw [ValueSequence.close, List.append_assoc] at hout
  simp only at hout
  rw [overwrite_held _ _ _ _ hlen, Nat.zero_add] at hout
  rw [← Outcome.ok.inj hout]
  rfl

end Writes

end Identity
