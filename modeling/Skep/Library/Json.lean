import Mathlib

/-!
# JSON texts

The value a JSON text denotes. A member repeated within an object keeps its last
value. The reader is fuelled by the length of its input, which it never runs short of.
-/

/-- A JSON value; a number is kept as it is spelled. An object's members have distinct
names. -/
inductive Json where
  | null
  | bool (b : Bool)
  | number (text : List Char)
  | string (s : String)
  | array (items : List Json)
  | object (members : List (String × Json))

namespace Json

def asStr : Json → Option String
  | string s => some s
  | _ => none

def asBool : Json → Option Bool
  | bool b => some b
  | _ => none

def asArray : Json → Option (List Json)
  | array items => some items
  | _ => none

def asObject : Json → Option (List (String × Json))
  | object members => some members
  | _ => none

/-- The member of a name. -/
def getMember (members : List (String × Json)) (name : String) : Option Json :=
  (members.find? fun m => m.1 == name).map Prod.snd

/-- The members with one set. -/
def setMember (members : List (String × Json)) (name : String) (value : Json) : List (String × Json) :=
  if members.any fun m => m.1 == name then
    members.map fun m => if m.1 == name then (name, value) else m
  else members ++ [(name, value)]

def isWs (c : Char) : Bool := c == ' ' || c == '\t' || c == '\n' || c == '\r'

def skipWs (cs : List Char) : List Char := cs.dropWhile isWs

def isDigit (c : Char) : Bool := decide (48 ≤ c.toNat) && decide (c.toNat ≤ 57)

/-- The number a hexadecimal digit of either case spells. -/
def hexDigit (c : Char) : Option ℕ :=
  if 48 ≤ c.toNat ∧ c.toNat ≤ 57 then some (c.toNat - 48)
  else if 97 ≤ c.toNat ∧ c.toNat ≤ 102 then some (c.toNat - 87)
  else if 65 ≤ c.toNat ∧ c.toNat ≤ 70 then some (c.toNat - 55)
  else none

/-- The number four hexadecimal digits spell, and what follows them. -/
def readHex4 : List Char → Option (ℕ × List Char)
  | a :: b :: c :: d :: rest => do
      let a ← hexDigit a
      let b ← hexDigit b
      let c ← hexDigit c
      let d ← hexDigit d
      return (((a * 16 + b) * 16 + c) * 16 + d, rest)
  | _ => none

/-- The character behind `\u`: one code unit, or a surrogate pair. -/
def readUnicode (cs : List Char) : Option (Char × List Char) := do
  let (unit, rest) ← readHex4 cs
  if 0xD800 ≤ unit ∧ unit < 0xDC00 then
    match rest with
    | '\\' :: 'u' :: rest => do
        let (low, rest) ← readHex4 rest
        if 0xDC00 ≤ low ∧ low < 0xE000 then
          some (Char.ofNat (0x10000 + (unit - 0xD800) * 0x400 + (low - 0xDC00)), rest)
        else none
    | _ => none
  else if 0xDC00 ≤ unit ∧ unit < 0xE000 then none
  else some (Char.ofNat unit, rest)

/-- The character an escape spells, its backslash read already. -/
def readEscape : List Char → Option (Char × List Char)
  | [] => none
  | c :: rest =>
      if c = '"' ∨ c = '\\' ∨ c = '/' then some (c, rest)
      else if c = 'b' then some (Char.ofNat 8, rest)
      else if c = 't' then some (Char.ofNat 9, rest)
      else if c = 'n' then some (Char.ofNat 10, rest)
      else if c = 'f' then some (Char.ofNat 12, rest)
      else if c = 'r' then some (Char.ofNat 13, rest)
      else if c = 'u' then readUnicode rest
      else none

/-- The characters of a string up to its closing quote, and what follows it. -/
def readString : ℕ → List Char → Option (List Char × List Char)
  | 0, _ => none
  | _ + 1, [] => none
  | n + 1, c :: rest =>
      if c = '"' then some ([], rest)
      else if c = '\\' then do
        let (e, rest) ← readEscape rest
        let (s, rest) ← readString n rest
        return (e :: s, rest)
      else if c.toNat < 0x20 then none
      else do
        let (s, rest) ← readString n rest
        return (c :: s, rest)

/-- A run of digits, one at least. -/
def readDigits (cs : List Char) : Option (List Char × List Char) :=
  if cs.takeWhile isDigit = [] then none else some (cs.takeWhile isDigit, cs.dropWhile isDigit)

/-- The integer part: a single zero, or digits that begin with none. -/
def readInt : List Char → Option (List Char × List Char)
  | '0' :: rest => some (['0'], rest)
  | cs => readDigits cs

/-- The exponent, where there is one. -/
def readExponent : List Char → Option (List Char × List Char)
  | c :: rest =>
      if c = 'e' ∨ c = 'E' then
        match rest with
        | s :: rest =>
            if s = '+' ∨ s = '-' then do
              let (digits, rest) ← readDigits rest
              return (c :: s :: digits, rest)
            else do
              let (digits, rest) ← readDigits (s :: rest)
              return (c :: digits, rest)
        | [] => none
      else some ([], c :: rest)
  | [] => some ([], [])

/-- The fraction, where there is one. -/
def readFraction : List Char → Option (List Char × List Char)
  | '.' :: rest => do
      let (digits, rest) ← readDigits rest
      return ('.' :: digits, rest)
  | cs => some ([], cs)

def readNumber (cs : List Char) : Option (List Char × List Char) := do
  let (sign, rest) := match cs with
    | '-' :: rest => (['-'], rest)
    | cs => ([], cs)
  let (int, rest) ← readInt rest
  let (fraction, rest) ← readFraction rest
  let (exponent, rest) ← readExponent rest
  return (sign ++ int ++ fraction ++ exponent, rest)

/-- Read the literal `word`. -/
def readWord (word : List Char) (v : Json) (cs : List Char) : Option (Json × List Char) :=
  if word <+: cs then some (v, cs.drop word.length) else none

mutual

/-- The value at the front of the input, white space before it passed over. -/
def readValue : ℕ → List Char → Option (Json × List Char)
  | 0, _ => none
  | n + 1, cs =>
      match skipWs cs with
      | [] => none
      | c :: rest =>
          if c = '"' then (readString (rest.length + 1) rest).map fun p => (.string (String.ofList p.1), p.2)
          else if c = '[' then
            if (skipWs rest).head? = some ']' then some (.array [], (skipWs rest).tail)
            else (readItems n rest).map fun p => (.array p.1, p.2)
          else if c = '{' then
            if (skipWs rest).head? = some '}' then some (.object [], (skipWs rest).tail)
            else (readMembers n [] rest).map fun p => (.object p.1, p.2)
          else if c = 't' then readWord "true".toList (.bool true) (c :: rest)
          else if c = 'f' then readWord "false".toList (.bool false) (c :: rest)
          else if c = 'n' then readWord "null".toList .null (c :: rest)
          else (readNumber (c :: rest)).map fun p => (.number p.1, p.2)

/-- The items of an array up to its closing bracket. -/
def readItems : ℕ → List Char → Option (List Json × List Char)
  | 0, _ => none
  | n + 1, cs => do
      let (v, rest) ← readValue n cs
      match skipWs rest with
      | ',' :: rest => do
          let (items, rest) ← readItems n rest
          return (v :: items, rest)
      | ']' :: rest => return ([v], rest)
      | _ => none

/-- The members of an object up to its closing brace, after those in `members`. -/
def readMembers : ℕ → List (String × Json) → List Char → Option (List (String × Json) × List Char)
  | 0, _, _ => none
  | n + 1, members, cs => do
      match skipWs cs with
      | '"' :: rest => do
          let (name, rest) ← readString (rest.length + 1) rest
          match skipWs rest with
          | ':' :: rest => do
              let (v, rest) ← readValue n rest
              let members := setMember members (String.ofList name) v
              match skipWs rest with
              | ',' :: rest => readMembers n members rest
              | '}' :: rest => return (members, rest)
              | _ => none
          | _ => none
      | _ => none

end

/-- The value a text denotes, where it is a JSON text. -/
def ofText (text : String) : Option Json := do
  let (v, rest) ← readValue (text.toList.length + 1) text.toList
  if skipWs rest = [] then some v else none

theorem read_succ (n : ℕ) :
    (∀ cs r, readValue n cs = some r → readValue (n + 1) cs = some r) ∧
    (∀ cs r, readItems n cs = some r → readItems (n + 1) cs = some r) ∧
    ∀ members cs r, readMembers n members cs = some r → readMembers (n + 1) members cs = some r := by
  induction n with
  | zero =>
    refine ⟨fun cs r h => ?_, fun cs r h => ?_, fun members cs r h => ?_⟩ <;>
      simp [readValue, readItems, readMembers] at h
  | succ n ih =>
    obtain ⟨ihv, ihi, ihm⟩ := ih
    refine ⟨fun cs r h => ?_, fun cs r h => ?_, fun members cs r h => ?_⟩
    · rw [readValue] at h ⊢
      split at h
      · exact h
      · next c rest _ =>
        split_ifs at h ⊢ with h1 h2 h3 h4 h5 <;> try exact h
        · obtain ⟨p, hp, rfl⟩ := Option.map_eq_some_iff.1 h
          rw [ihi _ _ hp, Option.map_some]
        · obtain ⟨p, hp, rfl⟩ := Option.map_eq_some_iff.1 h
          rw [ihm _ _ _ hp, Option.map_some]
    · rw [readItems] at h ⊢
      obtain ⟨⟨v, rest⟩, hp, h⟩ := Option.bind_eq_some_iff.1 h
      rw [ihv _ _ hp]
      simp only [Option.bind_eq_bind, Option.bind_some] at h ⊢
      split at h
      · obtain ⟨q, hq, h⟩ := Option.bind_eq_some_iff.1 h
        rw [ihi _ _ hq]
        exact h
      · exact h
      · cases h
    · rw [readMembers] at h ⊢
      split at h
      · obtain ⟨⟨name, rest⟩, hp, h⟩ := Option.bind_eq_some_iff.1 h
        rw [hp]
        simp only [Option.bind_eq_bind, Option.bind_some] at h ⊢
        split at h
        · obtain ⟨⟨v, rest⟩, hq, h⟩ := Option.bind_eq_some_iff.1 h
          rw [ihv _ _ hq]
          simp only [Option.bind_some] at h ⊢
          split at h
          · exact ihm _ _ _ h
          · exact h
          · cases h
        · cases h
      · cases h

theorem readValue_mono {n m : ℕ} {cs : List Char} {r : Json × List Char} (hnm : n ≤ m)
    (h : readValue n cs = some r) : readValue m cs = some r := by
  induction hnm with
  | refl => exact h
  | step _ ih => exact (read_succ _).1 _ _ ih

/-- A character that stands in a string for itself. -/
def Plain (c : Char) : Prop := c ≠ '"' ∧ c ≠ '\\' ∧ 0x20 ≤ c.toNat

instance : DecidablePred Plain := fun c => by
  unfold Plain
  infer_instance

/-- A member set that stood under no name is the last. -/
theorem setMember_of_new {members : List (String × Json)} {name : String} {v : Json}
    (h : name ∉ members.map Prod.fst) : setMember members name v = members ++ [(name, v)] := by
  rw [setMember, if_neg]
  rw [List.any_eq_true]
  rintro ⟨m, hm, heq⟩
  exact h (List.mem_map.2 ⟨m, hm, beq_iff_eq.1 heq⟩)

theorem readString_cons_plain {c : Char} (hc : Plain c) (n : ℕ) (rest : List Char) :
    readString (n + 1) (c :: rest) = (readString n rest).map fun p => (c :: p.1, p.2) := by
  obtain ⟨h1, h2, h3⟩ := hc
  rw [readString, if_neg h1, if_neg h2, if_neg (by omega)]
  cases readString n rest <;> rfl

/-- A character that needs no escape reads as itself. -/
theorem readString_plain {s : List Char} (hs : ∀ c ∈ s, Plain c) {n : ℕ} (hn : s.length < n)
    (rest : List Char) : readString n (s ++ '"' :: rest) = some (s, rest) := by
  induction s generalizing n with
  | nil =>
    obtain ⟨n, rfl⟩ := Nat.exists_eq_add_of_lt hn
    simp [readString]
  | cons c s ih =>
    cases n with
    | zero => simp at hn
    | succ n =>
      rw [List.cons_append, readString_cons_plain (hs c List.mem_cons_self),
        ih (fun x hx => hs x (List.mem_cons_of_mem _ hx)) (by simpa using hn)]
      rfl

theorem skipWs_cons {c : Char} (hc : isWs c = false) (rest : List Char) :
    skipWs (c :: rest) = c :: rest := by
  rw [skipWs, List.dropWhile_cons_of_neg (by simp [hc])]

theorem readValue_string {n : ℕ} {cs rest : List Char} {s : List Char}
    (h : readString (cs.length + 1) cs = some (s, rest)) :
    readValue (n + 1) ('"' :: cs) = some (.string (String.ofList s), rest) := by
  simp [readValue, skipWs_cons (show isWs '"' = false from rfl), h]

theorem readValue_true (n : ℕ) (rest : List Char) :
    readValue (n + 1) ("true".toList ++ rest) = some (.bool true, rest) := by
  simp [readValue, skipWs_cons (show isWs 't' = false from rfl), readWord]

theorem readValue_false (n : ℕ) (rest : List Char) :
    readValue (n + 1) ("false".toList ++ rest) = some (.bool false, rest) := by
  simp [readValue, skipWs_cons (show isWs 'f' = false from rfl), readWord]

theorem readValue_object {n : ℕ} {cs rest : List Char} {members : List (String × Json)}
    (hc : cs.head? = some '"') (h : readMembers n [] cs = some (members, rest)) :
    readValue (n + 1) ('{' :: cs) = some (.object members, rest) := by
  obtain ⟨cs', rfl⟩ : ∃ cs', cs = '"' :: cs' := by
    cases cs with
    | nil => simp at hc
    | cons c cs' =>
      obtain rfl : c = '"' := by simpa using hc
      exact ⟨cs', rfl⟩
  simp [readValue, skipWs_cons (show isWs '{' = false from rfl),
    skipWs_cons (show isWs '"' = false from rfl), h]

theorem readMembers_cons {n : ℕ} {members : List (String × Json)} {name cs cs' : List Char}
    {v : Json} (hname : ∀ c ∈ name, Plain c) (h : readValue n cs = some (v, ',' :: cs')) :
    readMembers (n + 1) members ('"' :: (name ++ '"' :: ':' :: cs)) =
      readMembers n (setMember members (String.ofList name) v) cs' := by
  have hread : readString ((name ++ '"' :: ':' :: cs).length + 1) (name ++ '"' :: ':' :: cs) =
      some (name, ':' :: cs) := readString_plain hname (by simp) _
  rw [readMembers, skipWs_cons (by rfl)]
  simp only [hread, Option.bind_eq_bind, Option.bind_some, skipWs_cons (show isWs ':' = false from rfl),
    h, skipWs_cons (show isWs ',' = false from rfl)]

theorem readMembers_last {n : ℕ} {members : List (String × Json)} {name cs cs' : List Char}
    {v : Json} (hname : ∀ c ∈ name, Plain c) (h : readValue n cs = some (v, '}' :: cs')) :
    readMembers (n + 1) members ('"' :: (name ++ '"' :: ':' :: cs)) =
      some (setMember members (String.ofList name) v, cs') := by
  have hread : readString ((name ++ '"' :: ':' :: cs).length + 1) (name ++ '"' :: ':' :: cs) =
      some (name, ':' :: cs) := readString_plain hname (by simp) _
  rw [readMembers, skipWs_cons (by rfl)]
  simp only [hread, Option.bind_eq_bind, Option.bind_some, skipWs_cons (show isWs ':' = false from rfl),
    h, skipWs_cons (show isWs '}' = false from rfl), Option.pure_def]

/-- The items of an array, a comma between two and the bracket at their end. -/
def joined : List (List Char) → List Char
  | [] => []
  | [item] => item
  | item :: rest => item ++ ',' :: joined rest

theorem joined_cons_cons (a b : List Char) (l : List (List Char)) :
    joined (a :: b :: l) = a ++ ',' :: joined (b :: l) := by
  simp [joined]

/-- Items each of which reads back, whatever follows it, are read back together. -/
theorem readItems_joined {items : List (List Char × Json)} (hne : items ≠ []) {n : ℕ}
    (h : ∀ p ∈ items, ∀ rest, readValue n (p.1 ++ rest) = some (p.2, rest)) (rest : List Char) :
    readItems (n + items.length) (joined (items.map Prod.fst) ++ ']' :: rest) =
      some (items.map Prod.snd, rest) := by
  induction items with
  | nil => exact absurd rfl hne
  | cons p items ih =>
    have hp : ∀ rest, readValue (n + items.length) (p.1 ++ rest) = some (p.2, rest) := fun rest =>
      readValue_mono (Nat.le_add_right _ _) (h p List.mem_cons_self rest)
    cases items with
    | nil =>
      have hvalue : readValue n (p.1 ++ ']' :: rest) = some (p.2, ']' :: rest) := hp _
      simp [readItems, joined, hvalue, skipWs_cons (show isWs ']' = false from rfl)]
    | cons q items =>
      have hrest := ih (by simp) fun p' hp' => h p' (List.mem_cons_of_mem _ hp')
      rw [List.map_cons] at hrest
      rw [List.map_cons, List.map_cons, joined_cons_cons, List.append_assoc, List.cons_append,
        List.length_cons, ← Nat.add_assoc, readItems, hp]
      simp only [Option.bind_eq_bind, Option.bind_some, skipWs_cons (show isWs ',' = false from rfl),
        hrest]
      rfl

theorem readValue_array {items : List (List Char × Json)} (hne : items ≠ []) {n : ℕ}
    (h : ∀ p ∈ items, ∀ rest, readValue n (p.1 ++ rest) = some (p.2, rest))
    (hopen : ∀ p ∈ items, ∃ c cs, p.1 = c :: cs ∧ isWs c = false ∧ c ≠ ']') (rest : List Char) :
    readValue (n + items.length + 1) ('[' :: (joined (items.map Prod.fst) ++ ']' :: rest)) =
      some (.array (items.map Prod.snd), rest) := by
  have hitems := readItems_joined hne h rest
  obtain ⟨c, cs, hcs, hws, hclose⟩ : ∃ c cs, joined (items.map Prod.fst) = c :: cs ∧
      isWs c = false ∧ c ≠ ']' := by
    cases items with
    | nil => exact absurd rfl hne
    | cons p items =>
      obtain ⟨c, cs, hp, hc⟩ := hopen p List.mem_cons_self
      cases items with
      | nil => exact ⟨c, cs, by rw [List.map_cons, List.map_nil, joined, hp], hc⟩
      | cons q items =>
        exact ⟨c, _, by rw [List.map_cons, List.map_cons, joined_cons_cons, hp, List.cons_append], hc⟩
  rw [hcs, List.cons_append] at hitems ⊢
  simp [readValue, skipWs_cons (show isWs '[' = false from rfl), skipWs_cons hws, hclose, hitems]

/-- A member as it is spelled: its name, a colon, its value. -/
def spellMember (name : String) (value : List Char) : List Char :=
  '"' :: (name.toList ++ '"' :: ':' :: value)

/-- Members of distinct names whose values read back are read back together. -/
theorem readMembers_joined {members : List (String × List Char × Json)} (hne : members ≠ []) {n : ℕ}
    (hname : ∀ m ∈ members, ∀ c ∈ m.1.toList, Plain c)
    (h : ∀ m ∈ members, ∀ rest, readValue n (m.2.1 ++ rest) = some (m.2.2, rest))
    {before : List (String × Json)}
    (hnodup : (before.map Prod.fst ++ members.map Prod.fst).Nodup) (rest : List Char) :
    readMembers (n + members.length) before
      (joined (members.map fun m => spellMember m.1 m.2.1) ++ '}' :: rest) =
        some (before ++ members.map fun m => (m.1, m.2.2), rest) := by
  induction members generalizing before with
  | nil => exact absurd rfl hne
  | cons m members ih =>
    have hplain := hname m List.mem_cons_self
    have hm : ∀ rest, readValue (n + members.length) (m.2.1 ++ rest) = some (m.2.2, rest) :=
      fun rest => readValue_mono (Nat.le_add_right _ _) (h m List.mem_cons_self rest)
    have hnew : m.1 ∉ before.map Prod.fst := by
      intro hmem
      exact (List.nodup_append.1 hnodup).2.2 _ hmem _ (by simp) rfl
    have hset := setMember_of_new (v := m.2.2) hnew
    cases members with
    | nil =>
      have hread : readMembers (n + 1) before _ = _ := readMembers_last hplain (hm ('}' :: rest))
      rw [String.ofList_toList, hset] at hread
      simpa [joined, spellMember] using hread
    | cons m' members =>
      have hstep : readMembers (n + (m' :: members).length + 1) before _ = _ := readMembers_cons hplain
        (hm (',' :: (joined ((m' :: members).map fun m => spellMember m.1 m.2.1) ++ '}' :: rest)))
      rw [String.ofList_toList, hset] at hstep
      have hnodup' : ((before ++ [(m.1, m.2.2)]).map Prod.fst ++
          (m' :: members).map Prod.fst).Nodup := by
        simpa using hnodup
      have hrest := ih (by simp) (fun x hx => hname x (List.mem_cons_of_mem _ hx))
        (fun x hx => h x (List.mem_cons_of_mem _ hx)) hnodup'
      have hcut : joined ((m :: m' :: members).map fun m => spellMember m.1 m.2.1) =
          spellMember m.1 m.2.1 ++
            ',' :: joined ((m' :: members).map fun m => spellMember m.1 m.2.1) :=
        joined_cons_cons ..
      rw [hcut, List.length_cons, ← Nat.add_assoc, spellMember]
      simp only [List.append_assoc, List.cons_append] at hstep hrest ⊢
      rw [hstep, hrest]
      simp

theorem readValue_members {members : List (String × List Char × Json)} (hne : members ≠ []) {n : ℕ}
    (hname : ∀ m ∈ members, ∀ c ∈ m.1.toList, Plain c)
    (h : ∀ m ∈ members, ∀ rest, readValue n (m.2.1 ++ rest) = some (m.2.2, rest))
    (hnodup : (members.map Prod.fst).Nodup) (rest : List Char) :
    readValue (n + members.length + 1)
      ('{' :: (joined (members.map fun m => spellMember m.1 m.2.1) ++ '}' :: rest)) =
        some (.object (members.map fun m => (m.1, m.2.2)), rest) := by
  have hnodup' : (([] : List (String × Json)).map Prod.fst ++ members.map Prod.fst).Nodup := by
    simpa using hnodup
  have hread := readMembers_joined hne hname h hnodup' rest
  rw [List.nil_append] at hread
  refine readValue_object ?_ hread
  cases members with
  | nil => exact absurd rfl hne
  | cons m members =>
    cases members with
    | nil => rfl
    | cons m' members => rw [List.map_cons, List.map_cons, joined_cons_cons]; rfl

/-- Joined items are as long as the items together at least. -/
theorem sum_length_le_joined (items : List (List Char)) :
    (items.map List.length).sum ≤ (joined items).length := by
  induction items with
  | nil => exact le_rfl
  | cons item items ih =>
    cases items with
    | nil => simp [joined]
    | cons item' items =>
      rw [joined_cons_cons, List.map_cons, List.sum_cons, List.length_append, List.length_cons]
      omega

end Json
