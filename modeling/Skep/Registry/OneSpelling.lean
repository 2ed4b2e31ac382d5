import Skep.Identity.EntryCodes
import Skep.Identity.Spelling
import Skep.Registry.Body

/-!
# A registry body has one spelling

The reader accepts exactly the canonical spellings within the cap, each as the body and
the signature it spells. The reader of decimal naturals may accept more spellings of a
number than one: the rendering of what it read is compared.

## Main results

- `addressOf_eq_some_iff` — an address is read of its rendering alone
- `ofText_encode` — a canonical spelling denotes the body's members
- `parse_encode` — a canonical spelling is read back where the cap allows it
- `body_one_spelling` — both ways, and for addresses
-/

namespace Registry

open Identity (dotted utf8)

theorem splitOn_dotted {comps : List ℕ} (h : comps ≠ []) :
    (dotted comps).splitOn '.' = comps.map (Nat.toDigits 10) := by
  have hjoined : dotted comps = ['.'].intercalate (comps.map (Nat.toDigits 10)) := by
    induction comps with
    | nil => rfl
    | cons n rest ih =>
      cases rest with
      | nil => simp [dotted, List.intercalate]
      | cons m rest =>
        rw [dotted, ih (by simp)]
        simp [List.intercalate]
  rw [hjoined]
  apply List.splitOn_intercalate
  · intro digits hdigits
    obtain ⟨n, -, rfl⟩ := List.mem_map.1 hdigits
    exact Identity.dot_not_mem_toDigits n
  · simpa using h

theorem mapM_natOf_render {natOf : String → Option ℕ} (hnat : ∀ n : ℕ, natOf n.repr = some n) (a : Address) :
    ((render a).toList.splitOn '.').mapM (fun c => natOf (String.ofList c)) = some a.tumbler.comps := by
  rw [render, String.toList_ofList, splitOn_dotted a.tumbler.nonempty]
  generalize a.tumbler.comps = comps
  induction comps with
  | nil => rfl
  | cons n comps ih =>
    have hn : natOf (String.ofList (Nat.toDigits 10 n)) = some n := by
      rw [← Nat.repr_eq_ofList_toDigits, hnat]
    rw [List.map_cons, List.mapM_cons, hn, ih]
    rfl

/-- Reading and rendering an address are inverse, the rendering compared. -/
theorem addressOf_eq_some_iff {natOf : String → Option ℕ} (hnat : ∀ n : ℕ, natOf n.repr = some n)
    {s : String} {a : Address} : addressOf natOf s = some a ↔ s = render a := by
  constructor
  · intro h
    rw [addressOf] at h
    obtain ⟨comps, -, h⟩ := Option.bind_eq_some_iff.1 h
    split at h
    · cases h
    · split at h
      · split at h
        · next heq =>
          cases h
          exact heq.symm
        · cases h
      · cases h
  · rintro rfl
    have hvalid : validate a.tumbler = .ok a := validate_eq_ok_iff.2 rfl
    rw [addressOf, mapM_natOf_render hnat]
    simp [a.tumbler.nonempty, hvalid]

/-- The row's own member: its name, its spelling, its value. -/
def Body.ownMember : Body → String × List Char × Json
  | binding b => (Member.pre.name, escapeJsonString (render b.pre), .string (render b.pre))
  | endpoint e => (Member.origins.name, '[' :: (Json.joined (e.origins.list.map escapeJsonString) ++ [']']),
      .array (e.origins.list.map .string))

/-- A member that is a text, where there is one. -/
def textMember (m : Member) (text : Option String) : List (String × List Char × Json) :=
  text.toList.map fun s => (m.name, escapeJsonString s, .string s)

/-- The members of a body and its signature, in the order they are spelled. -/
def members (body : Body) (sig : Option String) : List (String × List Char × Json) :=
  ("type", '"' :: (body.kind.typeValue.toList ++ ['"']), .string body.kind.typeValue) ::
    body.ownMember :: (textMember .replaces (body.replaces.map render) ++ textMember .sig sig)

/-- The object a canonical spelling denotes. -/
def memberValues (body : Body) (sig : Option String) : List (String × Json) :=
  (members body sig).map fun m => (m.1, m.2.2)

theorem encode_eq (body : Body) (sig : Option String) : encode body sig = String.ofList
    ('{' :: (Json.joined ((members body sig).map fun m => Json.spellMember m.1 m.2.1) ++ ['}'])) := by
  unfold encode members
  apply congrArg String.ofList
  cases body with
  | binding b =>
    cases hr : b.replaces <;> cases sig <;>
      simp [Body.kind, BodyKind.typeValue, Body.ownMember, Body.replaces, hr, textMember,
        pushMemberOpening, Member.name, Json.joined, Json.spellMember]
  | endpoint e =>
    cases hr : e.replaces <;> cases sig <;>
      simp [Body.kind, BodyKind.typeValue, Body.ownMember, Body.replaces, hr, textMember,
        pushMemberOpening, Member.name, Json.joined, Json.spellMember]

theorem name_plain (m : Member) : ∀ c ∈ m.name.toList, Json.Plain c := by
  cases m <;> simp [Member.name, Json.Plain]

theorem typeValue_plain (kind : BodyKind) : ∀ c ∈ kind.typeValue.toList, Json.Plain c := by
  cases kind <;> simp [BodyKind.typeValue, Json.Plain]

/-- The items of an endpoint's origins. -/
private def originItems (origins : List String) : List (List Char × Json) :=
  origins.map fun o => (escapeJsonString o, .string o)

theorem readValue_origins (origins : Origins) (rest : List Char) :
    Json.readValue (1 + origins.list.length + 1)
      ('[' :: (Json.joined (origins.list.map escapeJsonString) ++ ']' :: rest)) =
        some (.array (origins.list.map .string), rest) := by
  have hread : ∀ p ∈ originItems origins.list, ∀ rest,
      Json.readValue 1 (p.1 ++ rest) = some (p.2, rest) := by
    intro p hp rest
    obtain ⟨o, -, rfl⟩ := List.mem_map.1 hp
    exact Identity.readValue_escape o 0 rest
  have hopen : ∀ p ∈ originItems origins.list, ∃ c cs, p.1 = c :: cs ∧ Json.isWs c = false ∧ c ≠ ']' := by
    intro p hp
    obtain ⟨o, -, rfl⟩ := List.mem_map.1 hp
    exact ⟨'"', _, rfl, rfl, by decide⟩
  have hne : originItems origins.list ≠ [] := by simpa [originItems] using origins.ne_nil
  have := Json.readValue_array hne hread hopen rest
  simpa [originItems, List.map_map, Function.comp_def] using this

/-- How many turns an own member's reading takes. -/
def Body.turns : Body → ℕ
  | binding _ => 1
  | endpoint e => 1 + e.origins.list.length + 1

theorem mem_textMember {m : Member} {text : Option String} {x : String × List Char × Json}
    (h : x ∈ textMember m text) : ∃ s, x = (m.name, escapeJsonString s, .string s) := by
  obtain ⟨s, -, rfl⟩ := List.mem_map.1 h
  exact ⟨s, rfl⟩

theorem readValue_member {body : Body} {sig : Option String} {m : String × List Char × Json}
    (hm : m ∈ members body sig) (rest : List Char) :
    Json.readValue body.turns (m.2.1 ++ rest) = some (m.2.2, rest) := by
  have hturns : 1 ≤ body.turns := by
    cases body <;> simp only [Body.turns] <;> omega
  have htext : ∀ s : String, Json.readValue body.turns (escapeJsonString s ++ rest) =
      some (.string s, rest) := fun s =>
    Json.readValue_mono hturns (Identity.readValue_escape s 0 rest)
  rw [members, List.mem_cons, List.mem_cons, List.mem_append] at hm
  rcases hm with rfl | rfl | hm | hm
  · have hread := Identity.readValue_plain (typeValue_plain body.kind) 0 rest
    rw [String.ofList_toList] at hread
    simpa using Json.readValue_mono hturns hread
  · cases body with
    | binding b => exact htext (render b.pre)
    | endpoint e => simpa [Body.ownMember, Body.turns] using readValue_origins e.origins rest
  · obtain ⟨s, rfl⟩ := mem_textMember hm
    exact htext s
  · obtain ⟨s, rfl⟩ := mem_textMember hm
    exact htext s

theorem members_plain {body : Body} {sig : Option String} : ∀ m ∈ members body sig,
    ∀ c ∈ m.1.toList, Json.Plain c := by
  intro m hm
  rw [members, List.mem_cons, List.mem_cons, List.mem_append] at hm
  rcases hm with rfl | rfl | hm | hm
  · simp [Json.Plain]
  · cases body <;> exact name_plain _
  · obtain ⟨s, rfl⟩ := mem_textMember hm
    exact name_plain _
  · obtain ⟨s, rfl⟩ := mem_textMember hm
    exact name_plain _

theorem members_nodup (body : Body) (sig : Option String) :
    ((members body sig).map Prod.fst).Nodup := by
  cases body with
  | binding b => cases hr : b.replaces <;> cases sig <;>
      simp [members, Body.ownMember, Body.replaces, hr, textMember, Member.name]
  | endpoint e => cases hr : e.replaces <;> cases sig <;>
      simp [members, Body.ownMember, Body.replaces, hr, textMember, Member.name]

/-- The spelling is long enough for its own reading. -/
theorem turns_le (body : Body) (sig : Option String) :
    body.turns + (members body sig).length ≤
      (Json.joined ((members body sig).map fun m => Json.spellMember m.1 m.2.1)).length + 1 := by
  refine le_trans ?_ (Nat.succ_le_succ (Json.sum_length_le_joined _))
  have hlong : ∀ l : List (String × List Char × Json),
      l.length ≤ ((l.map fun m => Json.spellMember m.1 m.2.1).map List.length).sum := by
    intro l
    induction l with
    | nil => exact le_rfl
    | cons m l ih =>
      have hm : 1 ≤ (Json.spellMember m.1 m.2.1).length := by simp [Json.spellMember]
      simp only [List.map_cons, List.sum_cons, List.length_cons]
      omega
  have hown : body.turns + 1 ≤ (Json.spellMember body.ownMember.1 body.ownMember.2.1).length := by
    cases body with
    | binding b =>
      simp only [Body.turns, Body.ownMember, Json.spellMember, List.length_cons, List.length_append]
      omega
    | endpoint e =>
      have hjoined := Json.sum_length_le_joined (e.origins.list.map escapeJsonString)
      have hone : e.origins.list.length ≤ ((e.origins.list.map escapeJsonString).map List.length).sum := by
        induction e.origins.list with
        | nil => exact le_rfl
        | cons o l ih =>
          simp only [List.map_cons, List.sum_cons, List.length_cons, escapeJsonString,
            Identity.escapeJsonString, List.length_append]
          omega
      simp only [Body.turns, Body.ownMember, Json.spellMember, List.length_cons, List.length_append]
      omega
  have hrest := hlong (textMember .replaces (body.replaces.map render) ++ textMember .sig sig)
  simp only [members, List.map_cons, List.sum_cons, List.length_cons, Json.spellMember,
    List.length_append] at hrest hown ⊢
  omega

/-- A canonical spelling denotes its members. -/
theorem ofText_encode (body : Body) (sig : Option String) :
    Json.ofText (encode body sig) = some (.object (memberValues body sig)) := by
  have hne : members body sig ≠ [] := by simp [members]
  have hread := Json.readValue_members hne members_plain (fun m hm => readValue_member hm)
    (members_nodup body sig) []
  have hfuel := turns_le body sig
  rw [Json.ofText, encode_eq, String.toList_ofList]
  rw [Json.readValue_mono (by simp only [List.length_cons, List.length_append]; omega) hread]
  rfl

theorem anyHoldsANumber_string (l : List String) : anyHoldsANumber (l.map .string) = false := by
  induction l with
  | nil => rfl
  | cons s l ih => rw [List.map_cons, anyHoldsANumber, holdsANumber, ih, Bool.or_self]

/-- A member of the object, stage by stage. -/
structure Denotes (natOf : String → Option ℕ) (object : List (String × Json)) (body : Body)
    (sig : Option String) : Prop where
  noNumber : anyMemberHoldsANumber object = false
  type : (Json.getMember object "type").bind Json.asStr = some body.kind.typeValue
  known : (object.all fun m => body.kind.knows m.1) = true
  replaces : addressMember natOf object .replaces = .ok body.replaces
  sig : sigMember (Json.getMember object Member.sig.name) = .ok sig
  body : parseBody natOf object body.replaces body.kind = .ok body

theorem denotes_memberValues {natOf : String → Option ℕ} (hnat : ∀ n : ℕ, natOf n.repr = some n)
    (body : Body) (sig : Option String) : Denotes natOf (memberValues body sig) body sig := by
  have haddress : ∀ a, addressOf natOf (render a) = some a := fun a =>
    (addressOf_eq_some_iff hnat).2 rfl
  cases body with
  | binding b =>
    obtain ⟨pre, replaces⟩ := b
    constructor <;> cases replaces <;> cases sig <;>
      simp [memberValues, members, Body.ownMember, Body.replaces, Body.kind, BodyKind.typeValue,
        textMember, Member.name, anyMemberHoldsANumber, holdsANumber, Json.getMember, Json.asStr,
        BodyKind.knows, BodyKind.own, addressMember, haddress, Outcome.okOr, sigMember, parseBody] <;>
      rfl
  | endpoint e =>
    obtain ⟨origins, replaces⟩ := e
    have horigins : (origins.list.map .string).mapM originOf = .ok origins.list := by
      induction origins.list with
      | nil => rfl
      | cons o l ih =>
        rw [List.map_cons, List.mapM_cons, originOf, Json.asStr, Outcome.okOr, Outcome.ok_bind, ih]
        rfl
    have hnew : Origins.new origins.list = some origins := by
      rw [Origins.new, dif_neg origins.ne_nil]
    constructor <;> cases replaces <;> cases sig <;>
      simp [memberValues, members, Body.ownMember, Body.replaces, Body.kind, BodyKind.typeValue,
        textMember, Member.name, anyMemberHoldsANumber, holdsANumber, anyHoldsANumber_string,
        Json.getMember, Json.asStr, Json.asArray, BodyKind.knows, BodyKind.own, addressMember,
        haddress, Outcome.okOr, sigMember, parseBody, horigins, hnew] <;>
      rfl

/-- A canonical spelling is read back where it is within the cap, and refused past it. -/
theorem parse_encode {natOf : String → Option ℕ} (hnat : ∀ n : ℕ, natOf n.repr = some n)
    (body : Body) (sig : Option String) :
    parse Json.ofText natOf body.kind (utf8 (encode body sig)) =
      if (utf8 (encode body sig)).length ≤ maxRegistryRecordBytes then .ok ⟨body, sig⟩
      else .err .pastCap := by
  by_cases hcap : (utf8 (encode body sig)).length ≤ maxRegistryRecordBytes
  · have h := denotes_memberValues hnat body sig
    rw [if_pos hcap]
    simp only [parse, Identity.fromUTF8_utf8, Outcome.okOr, Outcome.ok_bind, ofText_encode,
      Json.asObject, h.noNumber, h.type, h.known, h.replaces, h.sig, h.body, Outcome.refuseIf,
      not_lt.2 hcap, ne_eq, not_true_eq_false, if_false, Bool.false_eq_true, Bool.true_eq_false,
      Outcome.pure_eq]
  · rw [if_neg hcap, parse, Outcome.refuseIf, if_pos (not_le.1 hcap)]
    rfl

/-- What is read is of the kind named, spelled as it was, and within the cap. -/
theorem parse_eq_ok {fromStr : String → Option Json} {natOf : String → Option ℕ} {kind : BodyKind}
    {bytes : List UInt8} {r : Record} (h : parse fromStr natOf kind bytes = .ok r) :
    r.body.kind = kind ∧ utf8 (encode r.body r.sig) = bytes ∧
      bytes.length ≤ maxRegistryRecordBytes := by
  simp only [parse, Outcome.bind_eq_ok_iff, Outcome.refuseIf_eq_ok_iff, Outcome.okOr_eq_ok_iff,
    Outcome.pure_eq, Outcome.ok.injEq] at h
  obtain ⟨_, hcap, text, htext, _, _, object, _, _, _, _, _, _, _, replaces, _, sig, _, body, hbody,
    _, hspelled, rfl⟩ := h
  rw [not_not] at hspelled
  refine ⟨?_, by rw [hspelled, Identity.utf8_of_fromUTF8 htext], not_lt.1 hcap⟩
  cases kind with
  | binding =>
    simp only [parseBody, Outcome.bind_eq_ok_iff, Outcome.pure_eq, Outcome.ok.injEq] at hbody
    obtain ⟨_, _, pre, _, rfl⟩ := hbody
    rfl
  | endpoint =>
    simp only [parseBody, Outcome.bind_eq_ok_iff, Outcome.pure_eq, Outcome.ok.injEq] at hbody
    obtain ⟨_, _, _, _, _, _, origins, _, rfl⟩ := hbody
    rfl

/-- The value's type is the kind's, so bytes are a record under one kind at most. -/
theorem kind_unique {fromStr : String → Option Json} {natOf : String → Option ℕ}
    {kind kind' : BodyKind} {bytes : List UInt8} {r r' : Record}
    (h : parse fromStr natOf kind bytes = .ok r) (h' : parse fromStr natOf kind' bytes = .ok r') :
    kind = kind' := by
  simp only [parse, Outcome.bind_eq_ok_iff, Outcome.refuseIf_eq_ok_iff, Outcome.okOr_eq_ok_iff] at h h'
  obtain ⟨_, _, text, htext, value, hvalue, object, hobject, _, _, _, htype, _⟩ := h
  obtain ⟨_, _, text', htext', value', hvalue', object', hobject', _, _, _, htype', _⟩ := h'
  obtain rfl : text = text' := Option.some.inj (htext.symm.trans htext')
  obtain rfl : value = value' := Option.some.inj (hvalue.symm.trans hvalue')
  obtain rfl : object = object' := Option.some.inj (hobject.symm.trans hobject')
  rw [not_not] at htype htype'
  have heq : kind.typeValue = kind'.typeValue := Option.some.inj (htype.symm.trans htype')
  revert heq
  cases kind <;> cases kind' <;> simp [BodyKind.typeValue]

/-- **A registry body has one spelling.** With a JSON reader that answers the value a text
denotes and a reader of naturals that reads a number's decimal rendering: what is admitted
is of the kind named, is its own canonical spelling and is within the cap; it is admitted
under one kind alone, and no two texts spell one body and signature; every canonical
spelling is admitted within the cap as what it spells and is past the cap beyond it; and
an address is read of its rendering alone. -/
theorem body_one_spelling (fromStr : String → Option Json) (natOf : String → Option ℕ)
    (hjson : ∀ text, fromStr text = Json.ofText text) (hnat : ∀ n : ℕ, natOf n.repr = some n) :
    (∀ kind bytes r, parse fromStr natOf kind bytes = .ok r →
      r.body.kind = kind ∧ utf8 (encode r.body r.sig) = bytes ∧
        bytes.length ≤ maxRegistryRecordBytes) ∧
    (∀ kind kind' bytes r r', parse fromStr natOf kind bytes = .ok r →
      parse fromStr natOf kind' bytes = .ok r' → kind = kind') ∧
    (∀ kind kind' bytes bytes' r, parse fromStr natOf kind bytes = .ok r →
      parse fromStr natOf kind' bytes' = .ok r → bytes = bytes') ∧
    (∀ body sig, parse fromStr natOf body.kind (utf8 (encode body sig)) =
      if (utf8 (encode body sig)).length ≤ maxRegistryRecordBytes then .ok ⟨body, sig⟩
      else .err .pastCap) ∧
    ∀ s a, addressOf natOf s = some a ↔ s = render a := by
  obtain rfl : fromStr = Json.ofText := funext hjson
  refine ⟨fun _ _ _ => parse_eq_ok, fun _ _ _ _ _ => kind_unique, fun kind kind' bytes bytes' r h h' => ?_,
    parse_encode hnat, fun _ _ => addressOf_eq_some_iff hnat⟩
  rw [← (parse_eq_ok h).2.1, (parse_eq_ok h').2.1]

/-- An endpoint of two origins, one of them in need of escapes, signed. -/
theorem body_one_spelling_escaped :
    let body : Body := .endpoint ⟨⟨["https://a.example", "\"\\\n\x01é"], by simp⟩,
      some ⟨⟨[1, 0, 2], by simp⟩, .account, by decide⟩⟩
    parse Json.ofText String.toNat? .endpoint (utf8 (encode body (some "sig"))) =
      .ok ⟨body, some "sig"⟩ := by
  intro body
  have hcap : (utf8 (encode body (some "sig"))).length ≤ maxRegistryRecordBytes := by
    decide +kernel
  obtain ⟨-, -, -, hread, -⟩ := body_one_spelling Json.ofText String.toNat? (fun _ => rfl)
    Nat.toNat?_repr
  exact (hread body (some "sig")).trans (if_pos hcap)

end Registry
