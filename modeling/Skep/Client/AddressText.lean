import Skep.Namespace.Chain
import Skep.Registry.OneSpelling

/-!
# The address grammar over dotted text

The client reads addresses off their dotted spelling, each component within 64 bits, and reads
the document an address lies in off the text alone: the components through the one after the
second zero.
-/

namespace Client

open Identity (dotted)
open Registry (render)

/-- A component: decimal digits, behind a plus sign or none, within 64 bits. -/
def parseU64 (c : List Char) : Option ℕ :=
  let digits := if c.head? = some '+' then c.tail else c
  if digits = [] ∨ digits.all Char.isDigit = false then none
  else
    let n := Nat.ofDigitChars 10 digits 0
    if n < 2 ^ 64 then some n else none

/-- The address a text spells. -/
def parseAddress (s : String) : Option Address := do
  let comps ← (s.toList.splitOn '.').mapM parseU64
  let t ← Tumbler.new comps
  (validate t).toOption

/-- The indices of the components that are a zero, counted from `i`. -/
def zeroTexts (comps : List (List Char)) (i : ℕ) : List ℕ :=
  ((comps.zipIdx i).filter fun c => c.1 == ['0']).map Prod.snd

/-- The document an element or link address lies in: the components through the one after the
second zero. -/
def documentOfText (addr : String) : Option String := do
  let comps := addr.toList.splitOn '.'
  let second ← (zeroTexts comps 0)[1]?
  if second + 1 < comps.length then some (String.ofList (['.'].intercalate (comps.take (second + 2)))) else none

theorem isDigit_toDigits {n : ℕ} {c : Char} (h : c ∈ Nat.toDigits 10 n) : c.isDigit = true :=
  Nat.isDigit_of_mem_toDigits (by decide) (by decide) h

theorem parseU64_toDigits {n : ℕ} (h : n < 2 ^ 64) : parseU64 (Nat.toDigits 10 n) = some n := by
  have hhead : (Nat.toDigits 10 n).head? ≠ some '+' := by
    intro hplus
    have hdigit := isDigit_toDigits (List.mem_of_head? hplus)
    exact absurd hdigit (by decide)
  have hsome : ¬ (Nat.toDigits 10 n = [] ∨ (Nat.toDigits 10 n).all Char.isDigit = false) := by
    rw [not_or, Bool.not_eq_false, List.all_eq_true]
    exact ⟨Nat.toDigits_ne_nil, fun c hc => isDigit_toDigits hc⟩
  simp only [parseU64, if_neg hhead, if_neg hsome, Nat.ofDigitChars_ten_toDigits, if_pos h]

/-- A spelling is read back where its components are within 64 bits. -/
theorem parseAddress_render {a : Address} (h : ∀ n ∈ a.comps, n < 2 ^ 64) : parseAddress (render a) = some a := by
  have hcomps : ∀ comps : List ℕ, (∀ n ∈ comps, n < 2 ^ 64) →
      (comps.map (Nat.toDigits 10)).mapM parseU64 = some comps := by
    intro comps hcomps
    induction comps with
    | nil => rfl
    | cons n comps ih =>
      obtain ⟨hn, hrest⟩ := List.forall_mem_cons.1 hcomps
      rw [List.map_cons, List.mapM_cons, parseU64_toDigits hn, ih hrest]
      rfl
  have hnew : Tumbler.new a.tumbler.comps = some a.tumbler := by rw [Tumbler.new, dif_pos a.tumbler.nonempty]
  have hvalid : validate a.tumbler = .ok a := validate_eq_ok_iff.2 rfl
  rw [parseAddress, render, String.toList_ofList, Registry.splitOn_dotted a.tumbler.nonempty,
    hcomps a.tumbler.comps h, Option.bind_eq_bind, Option.bind_some, hnew, Option.bind_eq_bind, Option.bind_some, hvalid]
  rfl

theorem zeroTexts_append (p q : List (List Char)) (i : ℕ) :
    zeroTexts (p ++ q) i = zeroTexts p i ++ zeroTexts q (i + p.length) := by
  simp [zeroTexts, List.zipIdx_append]

theorem toDigits_eq_zero_iff {n : ℕ} : Nat.toDigits 10 n = ['0'] ↔ n = 0 :=
  ⟨fun h => Identity.toDigits_injective (h.trans rfl), fun h => by rw [h]; rfl⟩

theorem zeroTexts_map (comps : List ℕ) (i : ℕ) : zeroTexts (comps.map (Nat.toDigits 10)) i = zeroPositions comps i := by
  induction comps generalizing i with
  | nil => rfl
  | cons n comps ih =>
    have hcons : ∀ (p : List (List Char)) c, zeroTexts (c :: p) i = zeroTexts [c] i ++ zeroTexts p (i + 1) := fun p c =>
      zeroTexts_append [c] p i
    have hcons' : zeroPositions (n :: comps) i = zeroPositions [n] i ++ zeroPositions comps (i + 1) :=
      zeroPositions_append [n] comps i
    rw [List.map_cons, hcons, hcons', ih]
    congr 1
    by_cases h : n = 0
    · subst h
      rfl
    · have hne : Nat.toDigits 10 n ≠ ['0'] := mt toDigits_eq_zero_iff.1 h
      simp [zeroTexts, zeroPositions, h, hne]

theorem intercalate_toDigits (comps : List ℕ) : ['.'].intercalate (comps.map (Nat.toDigits 10)) = dotted comps := by
  induction comps with
  | nil => rfl
  | cons n comps ih =>
    cases comps with
    | nil => simp [dotted, List.intercalate]
    | cons m comps =>
      rw [dotted, ← ih]
      simp [List.intercalate]

/-- A text that goes on from a document's spelling lies in the document's trunk. -/
theorem documentOfText_under {d : Address} (hd : d.level = .document) (rest : String) :
    documentOfText (render d ++ "." ++ rest) = some (render (trunkOf d)) := by
  obtain ⟨p, hp, x, e, -, -, hcomps, -⟩ := Address.exists_account hd
  have hcount : p.comps.count 0 = 1 := by rw [p.count_zero, hp]; rfl
  have hsplit : (render d ++ "." ++ rest).toList.splitOn '.' =
      d.comps.map (Nat.toDigits 10) ++ rest.toList.splitOn '.' := by
    have hdot : (render d ++ "." ++ rest).toList = dotted d.comps ++ '.' :: rest.toList := by
      rw [String.toList_append, String.toList_append, render, String.toList_ofList, List.append_assoc]
      rfl
    rw [hdot, List.splitOn_append_cons_self, Registry.splitOn_dotted d.comps_ne_nil]
  have hsecond : (zeroTexts ((render d ++ "." ++ rest).toList.splitOn '.') 0)[1]? = some p.comps.length := by
    have hget := getElem?_zeroPositions (p := p.comps) (e := x :: e)
    rw [hcount] at hget
    rw [hsplit, zeroTexts_append, zeroTexts_map, hcomps]
    rw [List.getElem?_append_left (List.getElem?_eq_some_iff.1 hget).1]
    exact hget
  have hlen : p.comps.length + 2 ≤ (d.comps.map (Nat.toDigits 10)).length := by
    rw [List.length_map, hcomps, List.length_append, List.length_cons, List.length_cons]
    omega
  have htake : (d.comps.map (Nat.toDigits 10) ++ rest.toList.splitOn '.').take (p.comps.length + 2) =
      (trunkOf d).comps.map (Nat.toDigits 10) := by
    rw [List.take_append_of_le_length hlen, ← List.map_take, trunkOf_of_parts hd hp hcomps, hcomps,
      List.take_length_add_append]
    rfl
  have hlt : p.comps.length + 1 < (d.comps.map (Nat.toDigits 10) ++ rest.toList.splitOn '.').length := by
    rw [List.length_append]
    omega
  rw [documentOfText, hsecond, Option.bind_eq_bind, Option.bind_some, hsplit]
  show (if _ then some _ else none) = _
  rw [if_pos hlt, htake, intercalate_toDigits]
  rfl

end Client
