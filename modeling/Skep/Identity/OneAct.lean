import Skep.Identity.PublishBytes

/-!
# One signature, one act

Two entry frames of the same bytes are one frame: one algorithm, one board term, one
account, one document term, one operation and one body, input for input. No frame under
a tag is a framing under another.

## Main results

- `framed_inj` — the tag and the fields of a frame
- `build_content` — what a builder makes of its input
- `signature_covers_one_act` — the frames are injective, and the budget is exact
-/

namespace Identity

theorem tag_append_inj {tag tag' : Tag} {s t : List UInt8} (h : tag.asBytes ++ s = tag'.asBytes ++ t) :
    tag = tag' := by
  have hfree : ∀ x y : Tag, x = y ∨ ¬ x.asBytes <+: y.asBytes := by
    intro x y
    cases x <;> cases y <;> first | exact .inl rfl | exact .inr (by decide +kernel)
  rcases List.append_eq_append_iff.1 h with ⟨r, hr, -⟩ | ⟨r, hr, -⟩
  · exact (hfree tag tag').resolve_right (not_not_intro ⟨r, hr.symm⟩)
  · exact ((hfree tag' tag).resolve_right (not_not_intro ⟨r, hr.symm⟩)).symm

theorem delimited_append_inj {a b s t : List UInt8} (ha : a.length < 2 ^ 32) (hb : b.length < 2 ^ 32)
    (h : delimited a ++ s = delimited b ++ t) : a = b ∧ s = t := by
  rw [delimited, delimited, List.append_assoc, List.append_assoc] at h
  obtain ⟨hcount, hrest⟩ := List.append_inj h (by rw [length_beBytes, length_beBytes])
  exact List.append_inj hrest (beBytes_inj ha hb hcount)

theorem fields_inj {fields fields' : List (List UInt8)} (hf : ∀ f ∈ fields, f.length < 2 ^ 32)
    (hf' : ∀ f ∈ fields', f.length < 2 ^ 32) (h : fields.flatMap delimited = fields'.flatMap delimited) :
    fields = fields' := by
  have hne : ∀ f, delimited f ≠ [] := elementCode_ne_nil
  induction fields generalizing fields' with
  | nil =>
    cases fields' with
    | nil => rfl
    | cons f fields' => exact absurd (List.append_eq_nil_iff.1 h.symm).1 (hne f)
  | cons f fields ih =>
    cases fields' with
    | nil => exact absurd (List.append_eq_nil_iff.1 h).1 (hne f)
    | cons f' fields' =>
      rw [List.flatMap_cons, List.flatMap_cons] at h
      obtain ⟨rfl, hrest⟩ := delimited_append_inj (hf f List.mem_cons_self) (hf' f' List.mem_cons_self) h
      rw [ih (fun x hx => hf x (List.mem_cons_of_mem _ hx)) (fun x hx => hf' x (List.mem_cons_of_mem _ hx)) hrest]

theorem framed_eq_ok_iff {tag : Tag} {fields : List (List UInt8)} {bs : List UInt8} :
    framed tag fields = .ok bs ↔ (∀ f ∈ fields, f.length < 2 ^ 32) ∧ frameBytes tag fields = bs := by
  simp only [framed, Outcome.bind_eq_ok_iff, Outcome.require_eq_ok_iff, Outcome.pure_eq, Outcome.ok.injEq,
    exists_const]

/-- A frame has one tag and one list of fields. -/
theorem framed_inj {tag tag' : Tag} {fields fields' : List (List UInt8)} {bs : List UInt8}
    (h : framed tag fields = .ok bs) (h' : framed tag' fields' = .ok bs) : tag = tag' ∧ fields = fields' := by
  obtain ⟨hf, rfl⟩ := framed_eq_ok_iff.1 h
  obtain ⟨hf', heq⟩ := framed_eq_ok_iff.1 h'
  obtain rfl := tag_append_inj heq
  exact ⟨rfl, (fields_inj hf' hf (List.append_cancel_left heq)).symm⟩

theorem spelled_ne_utf8 {t : Tumbler} {s : String} (hs : ∀ c ∈ s.toList.head?, ¬ c.isDigit = true) :
    spelled t ≠ utf8 s := by
  intro h
  have hchars : dotted t.comps = s.toList := by
    rw [← utf8_injective h, String.toList_ofList]
  obtain ⟨n, rest, hcomps⟩ := List.exists_cons_of_ne_nil t.nonempty
  obtain ⟨c, digits, hdigits⟩ := List.exists_cons_of_ne_nil (Nat.toDigits_ne_nil (n := n) (b := 10))
  have hhead : (dotted t.comps).head? = some c := by
    rw [hcomps]
    cases rest with
    | nil => rw [dotted, hdigits]; rfl
    | cons m rest => rw [dotted, hdigits]; rfl
  have hdigit : c.isDigit = true :=
    Nat.isDigit_of_mem_toDigits (b := 10) (n := n) (by decide) (by decide) (hdigits ▸ List.mem_cons_self)
  exact hs c (by rw [← hchars, hhead]; rfl) hdigit

theorem spelled_ne_nil (t : Tumbler) : spelled t ≠ [] :=
  spelled_ne_utf8 (s := "") (by simp)

def declaredBytes (declaredType : Option Address) : List UInt8 := (declaredType.map addressBytes).getD []

theorem declaredBytes_injective : Function.Injective declaredBytes := by
  intro a b h
  cases a with
  | none =>
    cases b with
    | none => rfl
    | some b => exact absurd h.symm (spelled_ne_nil _)
  | some a =>
    cases b with
    | none => exact absurd h (spelled_ne_nil _)
    | some b => exact congrArg some (Address.tumbler_injective (spelled_injective h))

def declaredCode : RowCode (Option Address) := elementCode.comap declaredBytes declaredBytes_injective

theorem home_bytes_injective : Function.Injective DepositHome.bytes := by
  have hmember : ∀ a, addressBytes a ≠ memberTag := fun a => spelled_ne_utf8 (s := "member") (by simp)
  have hedition : ∀ a, addressBytes a ≠ editionTag := fun a => spelled_ne_utf8 (s := "edition") (by simp)
  have htags : memberTag ≠ editionTag := by decide +kernel
  intro a b h
  cases a <;> cases b
  case member.member => rfl
  case edition.edition => rfl
  case address.address a b => exact congrArg DepositHome.address (Address.tumbler_injective (spelled_injective h))
  case member.edition => exact absurd h htags
  case edition.member => exact absurd h.symm htags
  case member.address a => exact absurd h.symm (hmember a)
  case address.member a => exact absurd h (hmember a)
  case edition.address a => exact absurd h.symm (hedition a)
  case address.edition a => exact absurd h (hedition a)

/-- The two elements a slot's element is spelled by. -/
def SlotElement.parts : SlotElement → List UInt8 × List UInt8
  | span s => (spelled s.start, spelled s.width)
  | member => (memberTag, [])
  | edition => (editionTag, [])

theorem slotElement_parts_injective : Function.Injective SlotElement.parts := by
  have htags : memberTag ≠ editionTag := by decide +kernel
  intro a b h
  obtain ⟨hfst, hsnd⟩ := Prod.mk.inj h
  cases a <;> cases b
  case member.member => rfl
  case edition.edition => rfl
  case span.span s t => exact congrArg SlotElement.span (Span.ext (spelled_injective hfst) (spelled_injective hsnd))
  case member.edition => exact absurd hfst htags
  case edition.member => exact absurd hfst.symm htags
  case span.member s => exact absurd hsnd (spelled_ne_nil _)
  case span.edition s => exact absurd hsnd (spelled_ne_nil _)
  case member.span s => exact absurd hsnd.symm (spelled_ne_nil _)
  case edition.span s => exact absurd hsnd.symm (spelled_ne_nil _)

def slotElementCode : RowCode SlotElement :=
  (elementCode.prod elementCode).comap SlotElement.parts slotElement_parts_injective

def MemberPositions.parts (span : MemberPositions) : UInt64 × UInt64 := (span.ordinal, span.width)

theorem memberPositions_parts_injective : Function.Injective MemberPositions.parts := by
  rintro ⟨ordinal, width⟩ ⟨ordinal', width'⟩ h
  obtain ⟨rfl, rfl⟩ := Prod.mk.inj h
  rfl

def memberPositionsCode : RowCode MemberPositions :=
  (numberCode.prod numberCode).comap MemberPositions.parts memberPositions_parts_injective

def DepositSlot.parts : DepositSlot → List SlotElement ⊕ List MemberPositions
  | stored elements => .inl elements
  | memberPositions spans => .inr spans

theorem depositSlot_parts_injective : Function.Injective DepositSlot.parts := by
  intro a b h
  cases a <;> cases b
  case stored.stored => exact congrArg DepositSlot.stored (Sum.inl.inj h)
  case memberPositions.memberPositions => exact congrArg DepositSlot.memberPositions (Sum.inr.inj h)
  case stored.memberPositions => cases h
  case memberPositions.stored => cases h

def depositSlotCode : RowCode DepositSlot :=
  (PrefixCode.either
    (.marked slotFormStored (.counted 8 rows_le_eight_bytes slotElementCode fun _ h =>
      elementCode_ne_nil _ (List.append_eq_nil_iff.1 h).1))
    (.marked memberPositionsForm (.counted 8 rows_le_eight_bytes memberPositionsCode fun _ h =>
      numberCode_ne_nil _ (List.append_eq_nil_iff.1 h).1))
    (PrefixCode.ne_of_marks (by decide))).comap DepositSlot.parts depositSlot_parts_injective

def kindCode : RowCode DepositKind :=
  .ofLength 1 (fun kind => [kind.byte]) (fun _ => rfl) fun a b h => by
    cases a <;> cases b <;> first | rfl | exact absurd h (by decide)

/-- The rows a deposit is spelled by, the `replaces` row empty. -/
def DepositRow.parts (row : DepositRow) :
    DepositHome × DepositKind × DepositSlot × DepositSlot × DepositSlot × Option Address :=
  (row.home, row.kind, row.ty, row.fromSlot, row.toSlot, none)

theorem depositRow_parts_injective : Function.Injective DepositRow.parts := by
  rintro ⟨home, kind, ty, fromSlot, toSlot⟩ ⟨home', kind', ty', fromSlot', toSlot'⟩ h
  simp only [DepositRow.parts, Prod.mk.injEq] at h
  obtain ⟨rfl, rfl, rfl, rfl, rfl, -⟩ := h
  rfl

def depositCode : RowCode DepositRow :=
  ((elementCode.comap DepositHome.bytes home_bytes_injective).prod
    (kindCode.prod (depositSlotCode.prod (depositSlotCode.prod
      (depositSlotCode.prod optionalAddressCode))))).comap DepositRow.parts depositRow_parts_injective

theorem depositCode_ne_nil (row : DepositRow) : depositCode.encode row ≠ [] := fun h =>
  elementCode_ne_nil _ (List.append_eq_nil_iff.1 h).1

/-- A call of a builder with what it is handed. -/
inductive BodyInput where
  | empty (op : ContentFreeOp)
  | insert (declaredType : Option Address) (values : List (List UInt8))
  | makeLink (slots : LinkSlots)
  | makeLinkReplacing (slots : LinkSlots) (replaces : Address)
  | emit (slots : LinkSlots)
  | nullify (slots : LinkSlots)
  | assertSup (slots : LinkSlots)
  | editLink (successor : LinkSlots) (original : Span)
  | publish (pieces : List ShotSegmentPiece) (base : Option ShotBase)
  | budgeted (budget : ℕ) (pieces : List ShotSegmentPiece) (base : Option ShotBase)
  | publication (shot : BodyInput) (deposits : List DepositRow)
  | record (rows : RecordRows)

/-- The call's body. -/
def BodyInput.build : BodyInput → Outcome PublishRefusal EntryBody
  | empty op => .ok (entryBodyEmpty op)
  | insert declaredType values => entryBodyInsert declaredType values
  | makeLink slots => entryBodyMakeLink slots
  | makeLinkReplacing slots replaces => entryBodyMakeLinkReplacing slots replaces
  | emit slots => entryBodyEmit slots
  | nullify slots => entryBodyNullify slots
  | assertSup slots => entryBodyAssertSup slots
  | editLink successor original => entryBodyEditLink successor original
  | publish pieces base => entryBodyPublish pieces base
  | budgeted budget pieces base => budgetedBody budget pieces base
  | publication shot deposits => do
      let shot ← shot.build
      entryBodyPublication shot deposits
  | record rows => entryBodyRecord rows

/-- What a body is of, whichever builder made it: a shot's body is a publication's of no
deposit, and a publication of a publication adds its deposits. -/
inductive BodyContent where
  | empty (op : ContentFreeOp)
  | insert (declaredType : Option Address) (values : List (List UInt8))
  | makeLink (slots : LinkSlots) (replaces : Option Address)
  | emit (slots : LinkSlots)
  | nullify (slots : LinkSlots)
  | assertSup (slots : LinkSlots)
  | editLink (successor : LinkSlots) (original : Span)
  | publish (pieces : List ShotSegmentPiece) (base : Option ShotBase) (deposits : List DepositRow)
  | record (rows : RecordRows)
  deriving DecidableEq

/-- More deposits behind a publication's body. -/
def BodyContent.withDeposits (deposits : List DepositRow) : BodyContent → BodyContent
  | publish pieces base earlier => publish pieces base (earlier ++ deposits)
  | content => content

def BodyInput.content : BodyInput → BodyContent
  | empty op => .empty op
  | insert declaredType values => .insert declaredType values
  | makeLink slots => .makeLink slots none
  | makeLinkReplacing slots replaces => .makeLink slots (some replaces)
  | emit slots => .emit slots
  | nullify slots => .nullify slots
  | assertSup slots => .assertSup slots
  | editLink successor original => .editLink successor original
  | publish pieces base => .publish pieces base []
  | budgeted _ pieces base => .publish pieces base []
  | publication shot deposits => shot.content.withDeposits deposits
  | record rows => .record rows

namespace BodyContent

def grammar : BodyContent → Grammar
  | empty op => .contentFree op
  | insert _ _ => .insert
  | makeLink _ _ => .makeLink
  | emit _ => .emit
  | nullify _ => .nullify
  | assertSup _ => .assertSup
  | editLink _ _ => .editLink
  | publish _ _ _ => .publish
  | record _ => .record

end BodyContent

/-- The rows of a link write. -/
def linkParts (p : LinkSlots × Option Address) : List Span × List Span × List Span × Option Address :=
  (p.1.ty, p.1.fromSlot, p.1.toSlot, p.2)

theorem linkParts_injective : Function.Injective linkParts := by
  rintro ⟨⟨fromSlot, toSlot, ty⟩, replaces⟩ ⟨⟨fromSlot', toSlot', ty'⟩, replaces'⟩ h
  simp only [linkParts, Prod.mk.injEq] at h
  obtain ⟨rfl, rfl, rfl, rfl⟩ := h
  rfl

def linkCode : RowCode (LinkSlots × Option Address) :=
  (slotCode.prod (slotCode.prod (slotCode.prod optionalAddressCode))).comap linkParts linkParts_injective

/-- The rows of a record. -/
def RecordRows.parts (rows : RecordRows) :
    List Address × List Address × Option Address × Option Address × List UInt8 :=
  ([rows.ty], rows.toSlot, rows.replaces, rows.lineageForkPoint, rows.siglessCanonicalRecord)

theorem recordRows_parts_injective : Function.Injective RecordRows.parts := by
  rintro ⟨ty, toSlot, replaces, lineage, sigless⟩ ⟨ty', toSlot', replaces', lineage', sigless'⟩ h
  simp only [RecordRows.parts, Prod.mk.injEq, List.cons.injEq] at h
  obtain ⟨⟨rfl, -⟩, rfl, rfl, rfl, rfl⟩ := h
  rfl

def recordCode : RowCode RecordRows :=
  (addressListCode.prod (addressListCode.prod (optionalAddressCode.prod (optionalAddressCode.prod
    elementCode)))).comap RecordRows.parts recordRows_parts_injective

def editCode : RowCode (LinkSlots × Span) :=
  (linkCode.prod slotCode).comap (fun p => ((p.1, none), [p.2])) (by
    rintro ⟨slots, original⟩ ⟨slots', original'⟩ h
    simp only [Prod.mk.injEq, List.cons.injEq, and_true] at h
    obtain ⟨rfl, rfl⟩ := h
    rfl)

/-- The bytes of a body. -/
def BodyContent.bytes : BodyContent → List UInt8
  | empty _ => []
  | insert declaredType values => (declaredCode.prod valuesCode).encode (declaredType, values)
  | makeLink slots replaces => linkCode.encode (slots, replaces)
  | emit slots => linkCode.encode (slots, none)
  | nullify slots => linkCode.encode (slots, none)
  | assertSup slots => linkCode.encode (slots, none)
  | editLink successor original => editCode.encode (successor, original)
  | publish pieces base deposits => publishBytes pieces base ++ deposits.flatMap depositCode.encode
  | record rows => recordCode.encode rows

/-- Eight bytes count the positions a shot places. -/
def BodyContent.Counted : BodyContent → Prop
  | publish pieces _ _ => (pieces.map ShotSegmentPiece.positions).sum ≤ wordMax
  | _ => True

section Writes

variable {ε : Type}

theorem pushSlotElement_writes : Writes (ε := ε) pushSlotElement slotElementCode := by
  have htwo : ∀ (out a b out' : List UInt8),
      (pushDelimited out a >>= fun mid => pushDelimited mid b) = (.ok out' : Outcome ε _) →
        out' = out ++ (elementCode.encode a ++ elementCode.encode b) := by
    intro out a b out' h
    obtain ⟨mid, hmid, hout⟩ := Outcome.bind_eq_ok_iff.1 h
    rw [pushDelimited_writes _ _ _ hout, pushDelimited_writes _ _ _ hmid, List.append_assoc]
  intro out e out' h
  cases e with
  | span s => exact htwo _ _ _ _ h
  | member => exact htwo _ _ _ _ h
  | edition => exact htwo _ _ _ _ h

theorem pushDepositSlot_writes : Writes (ε := ε) pushDepositSlot depositSlotCode := by
  intro out slot out' h
  cases slot with
  | stored elements =>
    rw [pushSlotElement_writes.foldlM h, List.append_assoc]
    rfl
  | memberPositions spans =>
    rw [← Outcome.ok.inj h, List.append_assoc]
    rfl

theorem pushDeposit_writes : Writes (ε := ε) pushDeposit depositCode := by
  intro out row out' h
  simp only [pushDeposit, Outcome.bind_eq_ok_iff] at h
  obtain ⟨out₁, h₁, out₂, h₂, out₃, h₃, out₄, h₄, h₅⟩ := h
  rw [pushOptionalAddress_writes _ _ _ h₅, pushDepositSlot_writes _ _ _ h₄, pushDepositSlot_writes _ _ _ h₃,
    pushDepositSlot_writes _ _ _ h₂, pushDelimited_writes _ _ _ h₁]
  simp only [List.append_assoc]
  rfl

theorem linkWriteBody_eq_ok {grammar : Grammar} {slots : LinkSlots} {replaces : Option Address}
    {body : EntryBody} (h : linkWriteBody grammar slots replaces = (.ok body : Outcome ε _)) :
    body = ⟨grammar, linkCode.encode (slots, replaces)⟩ := by
  simp only [linkWriteBody, Outcome.bind_eq_ok_iff, Outcome.pure_eq, Outcome.ok.injEq] at h
  obtain ⟨out₁, h₁, out₂, h₂, out₃, h₃, out₄, h₄, rfl⟩ := h
  rw [pushOptionalAddress_writes _ _ _ h₄, pushSlot_writes _ _ _ h₃, pushSlot_writes _ _ _ h₂,
    pushSlot_writes _ _ _ h₁]
  simp only [List.nil_append, List.append_assoc]
  rfl

end Writes

/-- What a builder makes of its input. -/
theorem build_content {input : BodyInput} {body : EntryBody} (h : input.build = .ok body) :
    body = ⟨input.content.grammar, input.content.bytes⟩ ∧ input.content.Counted := by
  induction input generalizing body with
  | empty op => exact ⟨(Outcome.ok.inj h).symm, trivial⟩
  | insert declaredType values =>
    simp only [BodyInput.build, entryBodyInsert, Outcome.bind_eq_ok_iff, Outcome.pure_eq, Outcome.ok.injEq] at h
    obtain ⟨out₁, h₁, out₂, h₂, rfl⟩ := h
    rw [pushValueSequence_writes _ _ _ h₂, pushDelimited_writes _ _ _ h₁, List.nil_append]
    exact ⟨rfl, trivial⟩
  | makeLink slots => exact ⟨linkWriteBody_eq_ok h, trivial⟩
  | makeLinkReplacing slots replaces => exact ⟨linkWriteBody_eq_ok h, trivial⟩
  | emit slots => exact ⟨linkWriteBody_eq_ok h, trivial⟩
  | nullify slots => exact ⟨linkWriteBody_eq_ok h, trivial⟩
  | assertSup slots => exact ⟨linkWriteBody_eq_ok h, trivial⟩
  | editLink successor original =>
    simp only [BodyInput.build, entryBodyEditLink, Outcome.bind_eq_ok_iff, Outcome.pure_eq, Outcome.ok.injEq] at h
    obtain ⟨link, hlink, bytes, hbytes, rfl⟩ := h
    rw [pushSlot_writes _ _ _ hbytes, linkWriteBody_eq_ok hlink]
    exact ⟨rfl, trivial⟩
  | publish pieces base =>
    rw [BodyInput.build, entryBodyPublish, Outcome.expect_eq_ok_iff] at h
    obtain ⟨rfl, hcounted⟩ := budgetedBody_eq_ok h
    refine ⟨?_, hcounted⟩
    simp [BodyInput.content, BodyContent.grammar, BodyContent.bytes]
  | budgeted budget pieces base =>
    obtain ⟨rfl, hcounted⟩ := budgetedBody_eq_ok h
    refine ⟨?_, hcounted⟩
    simp [BodyInput.content, BodyContent.grammar, BodyContent.bytes]
  | publication shot deposits ih =>
    simp only [BodyInput.build, entryBodyPublication, Outcome.bind_eq_ok_iff, Outcome.require_eq_ok_iff,
      exists_const, Outcome.pure_eq, Outcome.ok.injEq] at h
    obtain ⟨body', hbody', hgrammar, bytes, hbytes, rfl⟩ := h
    obtain ⟨rfl, hcounted⟩ := ih hbody'
    rw [pushDeposit_writes.foldlM hbytes, BodyInput.content]
    cases hcontent : shot.content with
    | publish pieces base earlier =>
      rw [hcontent] at hcounted
      refine ⟨?_, hcounted⟩
      simp [BodyContent.withDeposits, BodyContent.grammar, BodyContent.bytes]
    | empty op => simp [hcontent, BodyContent.grammar] at hgrammar
    | insert declaredType values => simp [hcontent, BodyContent.grammar] at hgrammar
    | makeLink slots replaces => simp [hcontent, BodyContent.grammar] at hgrammar
    | emit slots => simp [hcontent, BodyContent.grammar] at hgrammar
    | nullify slots => simp [hcontent, BodyContent.grammar] at hgrammar
    | assertSup slots => simp [hcontent, BodyContent.grammar] at hgrammar
    | editLink successor original => simp [hcontent, BodyContent.grammar] at hgrammar
    | record rows => simp [hcontent, BodyContent.grammar] at hgrammar
  | record rows =>
    simp only [BodyInput.build, entryBodyRecord, Outcome.bind_eq_ok_iff, Outcome.pure_eq, Outcome.ok.injEq] at h
    obtain ⟨out₁, h₁, out₂, h₂, out₃, h₃, out₄, h₄, out₅, h₅, rfl⟩ := h
    rw [pushDelimited_writes _ _ _ h₅, pushOptionalAddress_writes _ _ _ h₄, pushOptionalAddress_writes _ _ _ h₃,
      pushAddressList_writes _ _ _ h₂, pushAddressList_writes _ _ _ h₁]
    simp only [List.nil_append, List.append_assoc]
    exact ⟨rfl, trivial⟩

/-- A publication's bytes are one shot's and one list of deposits'. -/
theorem publication_inj {pieces pieces' : List ShotSegmentPiece} {base base' : Option ShotBase}
    {deposits deposits' : List DepositRow} (hcounted : (pieces.map ShotSegmentPiece.positions).sum ≤ wordMax)
    (hcounted' : (pieces'.map ShotSegmentPiece.positions).sum ≤ wordMax)
    (hlen : (publishBytes pieces base ++ deposits.flatMap depositCode.encode).length < 2 ^ 32)
    (h : publishBytes pieces base ++ deposits.flatMap depositCode.encode =
      publishBytes pieces' base' ++ deposits'.flatMap depositCode.encode) :
    pieces = pieces' ∧ base = base' ∧ deposits = deposits' := by
  have hword : wordMax < 256 ^ 8 := by decide
  rw [← positions_segmentsOf] at hcounted hcounted'
  simp only [publishBytes, Segmented.body, List.append_assoc] at h hlen
  obtain ⟨hcount, hrest⟩ := List.append_inj h (by rw [length_beBytes, length_beBytes])
  have hweight := beBytes_inj (by omega) (by omega) hcount
  rw [List.length_append] at hlen
  obtain ⟨hsegments, hrest⟩ := segmentCode.weight_append_inj Segment.positions_pos hweight
    (lt_of_le_of_lt (Nat.le_add_left _ _) hlen) hrest
  rw [Segmented.bytes, List.length_append] at hlen
  obtain ⟨rfl, hdeposits⟩ := baseCode.inj (by omega) hrest
  rw [List.length_append] at hlen
  exact ⟨segmentsOf_injective hsegments, rfl, depositCode.flatMap_inj depositCode_ne_nil (by omega) hdeposits⟩

/-- The bytes of a body under its grammar determine its content. -/
theorem content_inj {c c' : BodyContent} (hgrammar : c.grammar = c'.grammar) (hlen : c.bytes.length < 2 ^ 32)
    (hcounted : c.Counted) (hcounted' : c'.Counted) (h : c.bytes = c'.bytes) : c = c' := by
  cases c <;> cases c' <;> simp only [BodyContent.grammar, reduceCtorEq, Grammar.contentFree.injEq] at hgrammar
  case empty.empty op op' => exact congrArg BodyContent.empty hgrammar
  case insert.insert declaredType values declaredType' values' =>
    obtain ⟨rfl, rfl⟩ := Prod.mk.inj ((declaredCode.prod valuesCode).encode_inj hlen h)
    rfl
  case makeLink.makeLink slots replaces slots' replaces' =>
    obtain ⟨rfl, rfl⟩ := Prod.mk.inj (linkCode.encode_inj hlen h)
    rfl
  case emit.emit slots slots' =>
    obtain ⟨rfl, -⟩ := Prod.mk.inj (linkCode.encode_inj hlen h)
    rfl
  case nullify.nullify slots slots' =>
    obtain ⟨rfl, -⟩ := Prod.mk.inj (linkCode.encode_inj hlen h)
    rfl
  case assertSup.assertSup slots slots' =>
    obtain ⟨rfl, -⟩ := Prod.mk.inj (linkCode.encode_inj hlen h)
    rfl
  case editLink.editLink successor original successor' original' =>
    obtain ⟨rfl, rfl⟩ := Prod.mk.inj (editCode.encode_inj hlen h)
    rfl
  case publish.publish pieces base deposits pieces' base' deposits' =>
    obtain ⟨rfl, rfl, rfl⟩ := publication_inj hcounted hcounted' hlen h
    rfl
  case record.record rows rows' => exact congrArg BodyContent.record (recordCode.encode_inj hlen h)

theorem token_injective : Function.Injective Grammar.token := by
  intro g g' h
  rcases g with (_ | _ | _) | _ <;> rcases g' with (_ | _ | _) | _ <;>
    first | rfl | exact absurd h (by decide)

theorem boardBytes_injective : Function.Injective boardBytes := by
  rintro ⟨position, chain⟩ ⟨position', chain'⟩ h
  obtain ⟨hposition, hchain⟩ := List.append_inj h (by rw [length_beBytes, length_beBytes])
  have hsame := beBytes_inj (by simpa using position.toNat_lt) (by simpa using position'.toNat_lt) hposition
  obtain rfl := UInt64.toNat_inj.1 hsame
  obtain rfl := Subtype.ext hchain
  rfl

theorem docBytes_inj {doc doc' : DocTerm} {bs : List UInt8} (hshape : doc.namesTwoHomes = doc'.namesTwoHomes)
    (hlen : bs.length < 2 ^ 32) (h : docBytes doc = .ok bs) (h' : docBytes doc' = .ok bs) : doc = doc' := by
  cases doc with
  | one a =>
    cases doc' with
    | one a' =>
      have hbytes : addressBytes a = addressBytes a' := (Outcome.ok.inj h).trans (Outcome.ok.inj h').symm
      exact congrArg DocTerm.one (Address.tumbler_injective (spelled_injective hbytes))
    | pair dS dA => cases hshape
  | pair dS dA =>
    cases doc' with
    | one a => cases hshape
    | pair dS' dA' =>
      have hbytes := pushAddressList_writes _ _ _ h
      have hbytes' := pushAddressList_writes _ _ _ h'
      rw [List.nil_append] at hbytes hbytes'
      rw [hbytes] at hlen hbytes'
      obtain ⟨rfl, hrest⟩ := List.cons.inj (addressListCode.encode_inj hlen hbytes')
      obtain ⟨rfl, -⟩ := List.cons.inj hrest
      rfl

theorem entryFrame_eq_ok {alg : String} {board : BoardTerm} {account : Address} {doc : DocTerm}
    {body : EntryBody} {bs : List UInt8} (h : entryFrame alg board account doc body = .ok bs) :
    doc.namesTwoHomes = body.grammar.namesTwoHomes ∧ ∃ docTerm, docBytes doc = .ok docTerm ∧
      framed .entry [utf8 alg, boardBytes board, addressBytes account, docTerm, utf8 body.op, body.bytes] = .ok bs := by
  simpa only [entryFrame, Outcome.bind_eq_ok_iff, Outcome.require_eq_ok_iff, exists_const] using h

theorem entryFrame_inj {alg alg' : String} {board board' : BoardTerm} {account account' : Address}
    {doc doc' : DocTerm} {body body' : EntryBody} {bs : List UInt8}
    (h : entryFrame alg board account doc body = .ok bs)
    (h' : entryFrame alg' board' account' doc' body' = .ok bs) :
    alg = alg' ∧ board = board' ∧ account = account' ∧ doc = doc' ∧ body = body' ∧
      body.bytes.length < 2 ^ 32 := by
  obtain ⟨hshape, docTerm, hdoc, hframed⟩ := entryFrame_eq_ok h
  obtain ⟨hshape', docTerm', hdoc', hframed'⟩ := entryFrame_eq_ok h'
  obtain ⟨-, hfields⟩ := framed_inj hframed hframed'
  obtain ⟨hcounted, -⟩ := framed_eq_ok_iff.1 hframed
  simp only [List.cons.injEq, and_true] at hfields
  obtain ⟨halg, hboard, haccount, rfl, hop, hbytes⟩ := hfields
  have hgrammar : body.grammar = body'.grammar := token_injective (utf8_injective hop)
  have hbody : body = body' := by
    cases body
    cases body'
    exact congrArg₂ EntryBody.mk hgrammar hbytes
  have hterms : doc.namesTwoHomes = doc'.namesTwoHomes := by rw [hshape, hshape', hgrammar]
  exact ⟨utf8_injective halg, boardBytes_injective hboard,
    Address.tumbler_injective (spelled_injective haccount),
    docBytes_inj hterms (hcounted docTerm (by simp)) hdoc hdoc', hbody, hcounted body.bytes (by simp)⟩

/-- **One signature covers one act.** Entry frames of the same bytes, over bodies of any
builders, are of one algorithm, board term, account, document term, operation and
content; no frame under a tag is a framing under another; and a budget refuses a shot's
body exactly where it passes the budget or its count passes its field, and builds the
body that is built under none otherwise. -/
theorem signature_covers_one_act :
    (∀ alg alg' board board' account account' doc doc' input input' body body' bs,
      BodyInput.build input = .ok body → BodyInput.build input' = .ok body' →
      entryFrame alg board account doc body = .ok bs → entryFrame alg' board' account' doc' body' = .ok bs →
      alg = alg' ∧ board = board' ∧ account = account' ∧ doc = doc' ∧ body.op = body'.op ∧
        input.content = input'.content) ∧
    (∀ tag tag' fields fields' bs, framed tag fields = .ok bs → framed tag' fields' = .ok bs → tag = tag') ∧
    ∀ budget pieces base,
      ((∃ e, budgetedBody budget pieces base = .err e) → Refusable budget pieces base) ∧
      (Refusable budget pieces base → Spellable budget pieces base →
        ∃ e, budgetedBody budget pieces base = .err e) ∧
      (¬ Refusable budget pieces base → budgetedBody budget pieces base = entryBodyPublish pieces base) ∧
      (¬ Refusable budget pieces base → Spellable budget pieces base →
        ∃ body, budgetedBody budget pieces base = .ok body) := by
  refine ⟨?_, fun tag tag' fields fields' bs h h' => (framed_inj h h').1, fun budget pieces base => ?_⟩
  · intro alg alg' board board' account account' doc doc' input input' body body' bs hbuild hbuild' h h'
    obtain ⟨halg, hboard, haccount, hdoc, rfl, hlen⟩ := entryFrame_inj h h'
    obtain ⟨rfl, hcounted⟩ := build_content hbuild
    obtain ⟨hbody, hcounted'⟩ := build_content hbuild'
    obtain ⟨hgrammar, hbytes⟩ := EntryBody.mk.inj hbody
    exact ⟨halg, hboard, haccount, hdoc, rfl, content_inj hgrammar hlen hcounted hcounted' hbytes⟩
  · refine ⟨?_, budgetedBody_refused, budgetedBody_of_not_refusable, ?_⟩
    · rintro ⟨e, he⟩
      exact refusable_of_err he
    · intro hnot hspellable
      exact ⟨_, budgetedBody_built hnot hspellable⟩

end Identity
