import Skep.Address.Address
import Skep.Library.Outcome
import Skep.Library.Utf8

/-!
# Units

A unit is one document version's arranged content, delivered in parts and joined: items of
text and gaps, each at its first ordinal, contiguous, no two items of text side by side. A
position of the unit is a byte of text or lies in a gap.
-/

namespace Search

/-- What an item that is not text is. -/
inductive GapKind where
  | atom
  | withheld (origin : Address)
  | unknown

inductive Item where
  | text (start : ℕ) (bytes : List UInt8)
  | gap (start width : ℕ) (kind : GapKind)

namespace Item

def start : Item → ℕ
  | text start _ => start
  | gap start _ _ => start

/-- The positions the item occupies. -/
def width : Item → ℕ
  | text _ bytes => bytes.length
  | gap _ width _ => width

def isText : Item → Bool
  | text _ _ => true
  | gap _ _ _ => false

/-- The bytes of text the item holds. -/
def textLen : Item → ℕ
  | text _ bytes => bytes.length
  | gap _ _ _ => 0

end Item

/-- Every item starts where the items before it reach. -/
def Laid : ℕ → List Item → Prop
  | _, [] => True
  | s, item :: rest => item.start = s ∧ Laid (s + item.width) rest

/-- The positions of items. -/
def widths (items : List Item) : ℕ := (items.map Item.width).sum

inductive Kind where
  | edition
  | draft

/-- The class a read was made at. -/
inductive Class where
  | guest
  | principal (n : ℕ)

/-- One document version's arranged content. -/
structure Unit where
  key : Address
  member : Option Address
  kind : Kind
  class' : Class
  asOf : ℕ
  start : ℕ
  items : List Item
  bytes : ℕ
  laid : Laid start items
  joined : items.IsChain fun a b => ¬ (a.isText = true ∧ b.isText = true)
  fits : start + widths items < 2 ^ 64

/-- Why the join refused the items. -/
inductive UnitError where
  | discontiguous (index expected found : ℕ)
  | overflow (index : ℕ)

/-- The items joined so far, where they reach, and their bytes of text. -/
structure Parts where
  joined : List Item
  reach : Option ℕ
  bytes : ℕ

/-- An item at the end, joined with the last where both are text. -/
def pushItem (joined : List Item) (item : Item) : List Item :=
  match joined.getLast?, item with
  | some (.text start prev), .text _ more => joined.dropLast ++ [.text start (prev ++ more)]
  | _, _ => joined ++ [item]

/-- An item starts where the items before it reach. -/
def checkStart (reach : Option ℕ) (item : Item) (index : ℕ) : Outcome UnitError PUnit :=
  match reach with
  | some expected => Outcome.refuseIf (item.start ≠ expected) (.discontiguous index expected item.start)
  | none => return ()

def addItem (p : Parts) (next : Item × ℕ) : Outcome UnitError Parts := do
  checkStart p.reach next.1 next.2
  Outcome.refuseIf (2 ^ 64 ≤ next.1.start + next.1.width) (.overflow next.2)
  return ⟨pushItem p.joined next.1, some (next.1.start + next.1.width), p.bytes + next.1.textLen⟩

def joinParts (items : List Item) : Outcome UnitError Parts :=
  items.zipIdx.foldlM addItem ⟨[], none, 0⟩

def startOf (joined : List Item) : ℕ := (joined.head?.map Item.start).getD 0

/-- The items joined are one contiguous extent, from its start up to where they reach. -/
structure Joined (p : Parts) : Prop where
  laid : Laid (startOf p.joined) p.joined
  chain : p.joined.IsChain fun a b => ¬ (a.isText = true ∧ b.isText = true)
  reach : ∀ r, p.reach = some r → startOf p.joined + widths p.joined = r ∧ r < 2 ^ 64
  empty : p.reach = none → p.joined = []

@[simp] theorem widths_nil : widths [] = 0 := rfl

@[simp] theorem widths_cons (item : Item) (rest : List Item) :
    widths (item :: rest) = item.width + widths rest := by
  simp [widths]

@[simp] theorem widths_append (l l' : List Item) : widths (l ++ l') = widths l + widths l' := by
  simp [widths]

theorem laid_append {s : ℕ} {l l' : List Item} : Laid s (l ++ l') ↔ Laid s l ∧ Laid (s + widths l) l' := by
  induction l generalizing s with
  | nil => simp [Laid]
  | cons item rest ih =>
    rw [List.cons_append, Laid, Laid, ih, widths_cons, ← Nat.add_assoc]
    exact and_assoc.symm

theorem addItem_eq_ok {p q : Parts} {item : Item} {index : ℕ} (h : addItem p (item, index) = .ok q) :
    (∀ r, p.reach = some r → item.start = r) ∧ item.start + item.width < 2 ^ 64 ∧
      q = ⟨pushItem p.joined item, some (item.start + item.width), p.bytes + item.textLen⟩ := by
  obtain ⟨_, hreach, h⟩ := Outcome.bind_eq_ok_iff.1 h
  obtain ⟨_, hfits, h⟩ := Outcome.bind_eq_ok_iff.1 h
  refine ⟨fun r hr => ?_, not_le.1 (Outcome.refuseIf_eq_ok_iff.1 hfits), (Outcome.ok.inj h).symm⟩
  rw [hr] at hreach
  unfold checkStart at hreach
  exact not_not.1 (Outcome.refuseIf_eq_ok_iff.1 hreach)

/-- The last item's text joined with more stays in its place. -/
theorem pushItem_cases (joined : List Item) (item : Item) :
    (∃ init start prev s more, joined = init ++ [.text start prev] ∧ item = .text s more ∧
      pushItem joined item = init ++ [.text start (prev ++ more)]) ∨
    (¬ (∃ a, joined.getLast? = some a ∧ a.isText = true ∧ item.isText = true) ∧
      pushItem joined item = joined ++ [item]) := by
  cases hl : joined.getLast? with
  | none => exact .inr ⟨by simp, by simp [pushItem, hl]⟩
  | some last =>
    obtain ⟨init, rfl⟩ := List.getLast?_eq_some_iff.1 hl
    cases last with
    | gap start width kind => exact .inr ⟨by simp [Item.isText], by simp [pushItem]⟩
    | text start prev =>
      cases item with
      | gap s width kind => exact .inr ⟨by simp [Item.isText], by simp [pushItem]⟩
      | text s more => exact .inl ⟨init, start, prev, s, more, rfl, rfl, by simp [pushItem]⟩

theorem startOf_append {l l' : List Item} (h : l ≠ []) : startOf (l ++ l') = startOf l := by
  obtain ⟨a, l, rfl⟩ := List.exists_cons_of_ne_nil h
  rfl

theorem isChain_concat {α : Type*} {R : α → α → Prop} {l : List α} {a : α} (h : l.IsChain R)
    (hlast : ∀ b, l.getLast? = some b → R b a) : (l ++ [a]).IsChain R := by
  rw [List.isChain_append]
  exact ⟨h, List.isChain_singleton a, fun b hb c hc => by
    obtain rfl : a = c := by simpa using hc
    exact hlast b hb⟩

theorem joined_addItem {p q : Parts} {next : Item × ℕ} (hp : Joined p) (h : addItem p next = .ok q) :
    Joined q := by
  obtain ⟨item, index⟩ := next
  obtain ⟨hstart, hfits, rfl⟩ := addItem_eq_ok h
  have hreach : p.joined ≠ [] → startOf p.joined + widths p.joined = item.start := by
    intro hne
    cases hr : p.reach with
    | none => exact absurd (hp.empty hr) hne
    | some r => rw [(hp.reach r hr).1, hstart r hr]
  obtain ⟨init, start, prev, s, more, hj, hi, heq⟩ | ⟨hnot, heq⟩ := pushItem_cases p.joined item
  · have hne : p.joined ≠ [] := by simp [hj]
    have hlaid := hp.laid
    have hr := hreach hne
    rw [hj] at hlaid hr
    have hchain := hp.chain
    rw [hj, List.isChain_append] at hchain
    obtain ⟨h1, h2⟩ := laid_append.1 hlaid
    have hso : startOf (init ++ [.text start (prev ++ more)]) = startOf (init ++ [.text start prev]) := by
      cases init <;> rfl
    have hw : startOf (init ++ [.text start prev]) + widths (init ++ [.text start (prev ++ more)]) =
        item.start + item.width := by
      rw [← hr, hi]
      simp only [widths_append, widths_cons, widths_nil, Item.width, List.length_append]
      omega
    refine ⟨?_, ?_, ?_, by simp⟩
    · simp only [heq, hso]
      exact laid_append.2 ⟨h1, h2.1, trivial⟩
    · simp only [heq]
      rw [List.isChain_append]
      refine ⟨hchain.1, List.isChain_singleton _, fun b hb c hc => ?_⟩
      obtain rfl : Item.text start (prev ++ more) = c := by simpa using hc
      exact hchain.2.2 b hb (.text start prev) rfl
    · intro r hr'
      obtain rfl := Option.some.inj hr'
      simp only [heq, hso]
      exact ⟨hw, hfits⟩
  · by_cases hne : p.joined = []
    · have heq' : pushItem p.joined item = [item] := by rw [heq, hne, List.nil_append]
      refine ⟨?_, ?_, ?_, by simp⟩
      · simp only [heq']
        exact ⟨rfl, trivial⟩
      · simp only [heq']
        exact List.isChain_singleton item
      · intro r hr'
        obtain rfl := Option.some.inj hr'
        simp only [heq', widths_cons, widths_nil, Nat.add_zero]
        exact ⟨rfl, hfits⟩
    · have hr := hreach hne
      have hso : startOf (p.joined ++ [item]) = startOf p.joined := startOf_append hne
      refine ⟨?_, ?_, ?_, by simp⟩
      · simp only [heq, hso]
        exact laid_append.2 ⟨hp.laid, hr.symm, trivial⟩
      · simp only [heq]
        exact isChain_concat hp.chain fun b hb hbt => hnot ⟨b, hb, hbt⟩
      · intro r hr'
        obtain rfl := Option.some.inj hr'
        simp only [heq, hso, widths_append, widths_cons, widths_nil, Nat.add_zero]
        rw [← Nat.add_assoc, hr]
        exact ⟨rfl, hfits⟩

theorem parts_joined {items : List Item} {p : Parts} (h : joinParts items = .ok p) : Joined p := by
  apply Outcome.foldlM_invariant (P := Joined) _ h
  · exact ⟨trivial, by simp, by simp, fun _ => rfl⟩
  · intro b a _ q hq hb
    exact joined_addItem hb hq

theorem Joined.fits {p : Parts} (h : Joined p) : startOf p.joined + widths p.joined < 2 ^ 64 := by
  cases hr : p.reach with
  | none => simp [h.empty hr, startOf]
  | some r =>
    obtain ⟨h1, h2⟩ := h.reach r hr
    rwa [h1]

/-- The unit of its parts' items in order. -/
def Unit.new (key : Address) (member : Option Address) (kind : Kind) (class' : Class) (asOf : ℕ)
    (items : List Item) : Outcome UnitError Unit :=
  match h : joinParts items with
  | .ok p => .ok ⟨key, member, kind, class', asOf, startOf p.joined, p.joined, p.bytes,
      (parts_joined h).laid, (parts_joined h).chain, (parts_joined h).fits⟩
  | .err e => .err e
  | .fault => .fault

/-- What a position holds: a byte of text in its role, or nothing readable. -/
inductive Cell where
  | text (role : Utf8.Role) (byte : UInt8)
  | gap
  deriving DecidableEq

def Item.cells : Item → List Cell
  | .text _ bytes => List.zipWith Cell.text (Utf8.roles 0 bytes) bytes
  | .gap _ width _ => List.replicate width .gap

@[simp] theorem Item.length_cells (item : Item) : item.cells.length = item.width := by
  cases item with
  | text start bytes => simp [Item.cells, Item.width]
  | gap start width kind => simp [Item.cells, Item.width]

namespace Unit

variable (u : Unit)

/-- The extent's width. -/
def positions : ℕ := widths u.items

/-- What every position holds, from the unit's start. -/
def cells : List Cell := u.items.flatMap Item.cells

/-- The item that holds the position at an offset from the unit's start. -/
def itemAt (offset : ℕ) : Option ℕ :=
  let ordinal := u.start + offset
  if 2 ^ 64 ≤ ordinal then none
  else
    match (u.items.takeWhile fun item => item.start ≤ ordinal).length with
    | 0 => none
    | index + 1 =>
        match u.items[index]? with
        | some item => if ordinal - item.start < item.width then some index else none
        | none => none

/-- The item of text that holds the offset: its start offset and its bytes. -/
def textAt (offset : ℕ) : Option (ℕ × List UInt8) := do
  let index ← u.itemAt offset
  match u.items[index]? with
  | some (.text start bytes) => some (start - u.start, bytes)
  | _ => none

end Unit

theorem length_flatMap_cells (items : List Item) : (items.flatMap Item.cells).length = widths items := by
  induction items with
  | nil => rfl
  | cons item rest ih => simp [ih]

@[simp] theorem Unit.length_cells (u : Unit) : u.cells.length = u.positions := length_flatMap_cells u.items

theorem takeWhile_laid {s : ℕ} {items : List Item} (h : Laid s items) (ordinal : ℕ) (hlt : ordinal < s) :
    items.takeWhile (fun item => item.start ≤ ordinal) = [] := by
  cases items with
  | nil => rfl
  | cons item rest =>
    have := h.1
    rw [List.takeWhile_cons_of_neg]
    simp only [decide_eq_true_eq]
    omega

/-- The items that start no later than an ordinal end with the one that holds it. -/
theorem takeWhile_of_split {s : ℕ} {pre post : List Item} {item : Item} (h : Laid s (pre ++ item :: post))
    {ordinal : ℕ} (hlo : s + widths pre ≤ ordinal) (hhi : ordinal < s + widths pre + item.width) :
    (pre ++ item :: post).takeWhile (fun item => item.start ≤ ordinal) = pre ++ [item] := by
  induction pre generalizing s with
  | nil =>
    obtain ⟨h1, h2⟩ := h
    simp only [widths_nil, Nat.add_zero] at hlo hhi
    rw [List.nil_append, List.takeWhile_cons_of_pos (by simpa [h1] using hlo),
      takeWhile_laid h2 ordinal (by omega), List.nil_append]
  | cons a pre ih =>
    obtain ⟨h1, h2⟩ := h
    rw [widths_cons] at hlo hhi
    have ha : a.start ≤ ordinal := by
      rw [h1]
      exact le_trans (Nat.le_add_right _ _) hlo
    rw [List.cons_append, List.takeWhile_cons_of_pos (by simpa using ha),
      ih h2 (by omega) (by omega), List.cons_append]

theorem exists_split (items : List Item) {offset : ℕ} (h : offset < widths items) :
    ∃ pre item post, items = pre ++ item :: post ∧ widths pre ≤ offset ∧
      offset < widths pre + item.width := by
  induction items generalizing offset with
  | nil => simp at h
  | cons a rest ih =>
    by_cases ha : offset < a.width
    · exact ⟨[], a, rest, rfl, Nat.zero_le _, by simpa using ha⟩
    · rw [widths_cons] at h
      have hin : offset - a.width < widths rest := by omega
      obtain ⟨pre, item, post, rfl, h1, h2⟩ := ih hin
      exact ⟨a :: pre, item, post, rfl, by rw [widths_cons]; omega, by rw [widths_cons]; omega⟩

theorem start_of_split {s : ℕ} {pre post : List Item} {item : Item} (h : Laid s (pre ++ item :: post)) :
    item.start = s + widths pre := (laid_append.1 h).2.1

theorem Unit.itemAt_of_split {u : Unit} {pre post : List Item} {item : Item} {offset : ℕ}
    (h : u.items = pre ++ item :: post) (hlo : widths pre ≤ offset) (hhi : offset < widths pre + item.width) :
    u.itemAt offset = some pre.length := by
  have hlaid := u.laid
  have hfits := u.fits
  rw [h] at hlaid hfits
  have hstart := start_of_split hlaid
  have hle : u.start + widths pre ≤ u.start + offset := Nat.add_le_add_left hlo _
  have htake := takeWhile_of_split hlaid hle (by omega)
  have hsmall : ¬ 2 ^ 64 ≤ u.start + offset := by
    rw [widths_append, widths_cons] at hfits
    omega
  rw [Unit.itemAt, if_neg hsmall, h, htake, List.length_append, List.length_singleton]
  simp only [List.getElem?_append_right le_rfl, Nat.sub_self, List.getElem?_cons_zero]
  rw [if_pos (by omega)]

theorem Unit.itemAt_eq_none {u : Unit} {offset : ℕ} (h : u.positions ≤ offset) : u.itemAt offset = none := by
  unfold Unit.itemAt
  by_cases hbig : 2 ^ 64 ≤ u.start + offset
  · rw [if_pos hbig]
  · rw [if_neg hbig]
    cases hn : (u.items.takeWhile fun item => item.start ≤ u.start + offset).length with
    | zero => rfl
    | succ index =>
      dsimp only
      cases hi : u.items[index]? with
      | none => rfl
      | some item =>
        -- every item ends by the extent's end
        obtain ⟨hlt, rfl⟩ := List.getElem?_eq_some_iff.1 hi
        have hsplit : u.items = u.items.take index ++ u.items[index] :: u.items.drop (index + 1) := by
          rw [← List.drop_eq_getElem_cons hlt, List.take_append_drop]
        have hstart := start_of_split (hsplit ▸ u.laid)
        have hw : u.positions = widths (u.items.take index) + u.items[index].width +
            widths (u.items.drop (index + 1)) := by
          rw [Unit.positions]
          conv_lhs => rw [hsplit]
          rw [widths_append, widths_cons, Nat.add_assoc]
        exact if_neg (by omega)

/-- The item found is the one that holds the position. -/
theorem Unit.itemAt_eq_some_iff {u : Unit} {offset index : ℕ} : u.itemAt offset = some index ↔
    ∃ pre item post, u.items = pre ++ item :: post ∧ pre.length = index ∧ widths pre ≤ offset ∧
      offset < widths pre + item.width := by
  constructor
  · intro h
    by_cases hlt : offset < u.positions
    · obtain ⟨pre, item, post, heq, h1, h2⟩ := exists_split u.items hlt
      rw [Unit.itemAt_of_split heq h1 h2] at h
      exact ⟨pre, item, post, heq, Option.some.inj h, h1, h2⟩
    · rw [Unit.itemAt_eq_none (not_lt.1 hlt)] at h
      cases h
  · rintro ⟨pre, item, post, heq, rfl, h1, h2⟩
    exact Unit.itemAt_of_split heq h1 h2

/-- The text found is the item of text that holds the position. -/
theorem Unit.textAt_eq_some_iff {u : Unit} {offset start : ℕ} {bytes : List UInt8} :
    u.textAt offset = some (start, bytes) ↔ ∃ pre s post, u.items = pre ++ .text s bytes :: post ∧
      widths pre = start ∧ start ≤ offset ∧ offset < start + bytes.length := by
  constructor
  · intro h
    obtain ⟨index, hindex, h⟩ := Option.bind_eq_some_iff.1 h
    obtain ⟨pre, item, post, heq, rfl, h1, h2⟩ := Unit.itemAt_eq_some_iff.1 hindex
    rw [heq, List.getElem?_append_right le_rfl, Nat.sub_self, List.getElem?_cons_zero] at h
    cases item with
    | gap s width kind => simp at h
    | text s b =>
      simp only [Option.some.injEq, Prod.mk.injEq] at h
      have hs := start_of_split (heq ▸ u.laid)
      obtain ⟨h3, rfl⟩ := h
      have hst : widths pre = start := by
        rw [← h3, show s = u.start + widths pre from hs]
        omega
      exact ⟨pre, s, post, heq, hst, hst ▸ h1, hst ▸ h2⟩
  · rintro ⟨pre, s, post, heq, rfl, h1, h2⟩
    have hs := start_of_split (heq ▸ u.laid)
    rw [Unit.textAt, Unit.itemAt_of_split heq h1 h2]
    simp only [Option.bind_eq_bind, Option.bind_some, heq, List.getElem?_append_right le_rfl, Nat.sub_self,
      List.getElem?_cons_zero, Option.some.injEq, Prod.mk.injEq, and_true]
    rw [show s = u.start + widths pre from hs]
    omega

theorem Unit.cells_split {u : Unit} {pre post : List Item} {item : Item} (h : u.items = pre ++ item :: post) :
    u.cells = pre.flatMap Item.cells ++ item.cells ++ post.flatMap Item.cells := by
  rw [Unit.cells, h, List.flatMap_append, List.flatMap_cons, List.append_assoc]

theorem Unit.cells_getElem?_of_split {u : Unit} {pre post : List Item} {item : Item} {i : ℕ}
    (h : u.items = pre ++ item :: post) (hi : i < item.width) :
    u.cells[widths pre + i]? = item.cells[i]? := by
  have hpre := length_flatMap_cells pre
  rw [Unit.cells_split h, List.getElem?_append_left, List.getElem?_append_right, hpre,
    Nat.add_sub_cancel_left]
  · rw [hpre]
    exact Nat.le_add_right _ _
  · rw [List.length_append, hpre, Item.length_cells]
    exact Nat.add_lt_add_left hi _

end Search
