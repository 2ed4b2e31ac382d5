import Skep.Identity.Payload

/-!
# A credential record has one spelling

The reader accepts exactly the canonical spellings of the records, so a record is its
spelling and a spelling its record.

## Main results

- `readString_escape` — a JSON string is read back as what it spells
- `parseRecordValue_canonical` — a canonical spelling is read back
- `record_one_spelling` — both ways, for both kinds
-/

namespace Identity

theorem json_hexDigit (d : ℕ) (h : d < 16) : Json.hexDigit (hexDigit d) = some d := by
  interval_cases d <;> decide

/-- One escaped character is read as that character. -/
theorem readString_escapeChar (c : Char) (n : ℕ) (rest : List Char) :
    Json.readString (n + 1) (escapeChar c ++ rest) =
      (Json.readString n rest).map fun p => (c :: p.1, p.2) := by
  have hstep : ∀ e : List Char, Json.readEscape (e ++ rest) = some (c, rest) →
      Json.readString (n + 1) ('\\' :: (e ++ rest)) =
        (Json.readString n rest).map fun p => (c :: p.1, p.2) := by
    intro e he
    rw [Json.readString, if_neg (by decide), if_pos rfl, he]
    simp only [Option.bind_eq_bind, Option.bind_some]
    cases Json.readString n rest <;> rfl
  rw [escapeChar]
  split_ifs with h1 h2 h3 h4 h5 h6 h7 h8
  · exact hstep ['"'] (by simp [Json.readEscape, h1])
  · exact hstep ['\\'] (by simp [Json.readEscape, h2])
  · exact hstep ['b'] (by simp [Json.readEscape, h3])
  · exact hstep ['t'] (by simp [Json.readEscape, h4])
  · exact hstep ['n'] (by simp [Json.readEscape, h5])
  · exact hstep ['f'] (by simp [Json.readEscape, h6])
  · exact hstep ['r'] (by simp [Json.readEscape, h7])
  · -- a control character behind its four digits
    have hhigh := json_hexDigit (c.toNat / 16) (by omega)
    have hlow := json_hexDigit (c.toNat % 16) (by omega)
    have hzero : Json.hexDigit '0' = some 0 := by decide
    have hunit : (0 * 16 + c.toNat / 16) * 16 + c.toNat % 16 = c.toNat := by omega
    refine hstep ['u', '0', '0', hexDigit (c.toNat / 16), hexDigit (c.toNat % 16)] ?_
    simp only [Json.readEscape, List.cons_append, List.nil_append]
    rw [if_neg (by decide), if_neg (by decide), if_neg (by decide), if_neg (by decide),
      if_neg (by decide), if_neg (by decide), if_pos trivial, Json.readUnicode, Json.readHex4]
    simp only [hzero, hhigh, hlow, Option.bind_eq_bind, Option.bind_some, Option.pure_def]
    rw [show (0 * 16 + 0) * 16 + c.toNat / 16 = 0 * 16 + c.toNat / 16 by omega, hunit,
      if_neg (by omega), if_neg (by omega), Char.ofNat_toNat]
  · exact Json.readString_cons_plain ⟨h1, h2, by omega⟩ n rest

/-- A JSON string is read back as what it spells. -/
theorem readString_escape (s : List Char) {n : ℕ} (hn : s.length < n) (rest : List Char) :
    Json.readString n (s.flatMap escapeChar ++ '"' :: rest) = some (s, rest) := by
  induction s generalizing n with
  | nil =>
    obtain ⟨n, rfl⟩ := Nat.exists_eq_add_of_lt hn
    simp [Json.readString]
  | cons c s ih =>
    cases n with
    | zero => simp at hn
    | succ n =>
      rw [List.flatMap_cons, List.append_assoc, readString_escapeChar, ih (by simpa using hn)]
      rfl

theorem length_le_escape (s : List Char) : s.length ≤ (s.flatMap escapeChar).length := by
  have hpos : ∀ c, 1 ≤ (escapeChar c).length := by
    intro c
    rw [escapeChar]
    split_ifs <;> simp
  induction s with
  | nil => simp
  | cons c s ih =>
    have := hpos c
    rw [List.flatMap_cons, List.length_append, List.length_cons]
    omega

theorem readValue_escape (s : String) (n : ℕ) (rest : List Char) :
    Json.readValue (n + 1) (escapeJsonString s ++ rest) = some (.string s, rest) := by
  have hlen := length_le_escape s.toList
  have hread := readString_escape s.toList (n := (s.toList.flatMap escapeChar ++ '"' :: rest).length + 1)
    (by rw [List.length_append]; omega) rest
  have := Json.readValue_string (n := n) hread
  rw [String.ofList_toList] at this
  simpa [escapeJsonString] using this

theorem readValue_plain {s : List Char} (hs : ∀ c ∈ s, Json.Plain c) (n : ℕ) (rest : List Char) :
    Json.readValue (n + 1) ('"' :: (s ++ '"' :: rest)) = some (.string (String.ofList s), rest) :=
  Json.readValue_string (Json.readString_plain hs (by simp) rest)

theorem hexDigit_plain (d : ℕ) (h : d < 16) :
    Json.Plain (hexDigit d) ∧ (hexDigit d).toNat < 128 ∧
      nibble (UInt8.ofNat (hexDigit d).toNat) = some d := by
  unfold Json.Plain
  interval_cases d <;> decide

theorem mem_hexChars {bs : List UInt8} {c : Char} (h : c ∈ hexChars bs) : ∃ d < 16, c = hexDigit d := by
  obtain ⟨b, -, hc⟩ := List.mem_flatMap.1 h
  have hb : b.toNat < 256 := b.toNat_lt
  simp only [List.mem_cons, List.not_mem_nil, or_false] at hc
  rcases hc with rfl | rfl
  · exact ⟨b.toNat / 16, by omega, rfl⟩
  · exact ⟨b.toNat % 16, by omega, rfl⟩

theorem hexChars_plain (bs : List UInt8) : ∀ c ∈ hexChars bs, Json.Plain c := by
  intro c hc
  obtain ⟨d, hd, rfl⟩ := mem_hexChars hc
  exact (hexDigit_plain d hd).1

theorem utf8_ascii {cs : List Char} (h : ∀ c ∈ cs, c.toNat < 128) :
    utf8 (String.ofList cs) = cs.map fun c => UInt8.ofNat c.toNat := by
  have hencode : ∀ c : Char, c.toNat < 128 → String.utf8EncodeChar c = [UInt8.ofNat c.toNat] := by
    intro c hc
    have hval : c.val ≤ 0x7f := by
      rw [UInt32.le_iff_toNat_le]
      exact Nat.le_of_lt_succ hc
    rw [String.utf8EncodeChar]
    simp only [Char.toNat] at hc
    rw [if_pos (by omega)]
    rfl
  rw [utf8, String.toByteArray_ofList]
  induction cs with
  | nil => simp [List.utf8Encode]
  | cons c cs ih =>
    rw [List.utf8Encode_cons, List.utf8Encode_singleton, hencode c (h c List.mem_cons_self),
      ByteArray.data_append, Array.toList_append, ih fun x hx => h x (List.mem_cons_of_mem _ hx),
      List.map_cons]
    rfl

theorem hexDecode_hexEncode (bs : List UInt8) : hexDecode (hexEncode bs) = some bs := by
  have hascii : ∀ c ∈ hexChars bs, c.toNat < 128 := by
    intro c hc
    obtain ⟨d, hd, rfl⟩ := mem_hexChars hc
    exact (hexDigit_plain d hd).2.1
  rw [hexDecode, hexEncode, utf8_ascii hascii]
  clear hascii
  induction bs with
  | nil => rfl
  | cons b bs ih =>
    have hb : b.toNat < 256 := b.toNat_lt
    have hhigh := (hexDigit_plain (b.toNat / 16) (by omega)).2.2
    have hlow := (hexDigit_plain (b.toNat % 16) (by omega)).2.2
    have hbyte : UInt8.ofNat (b.toNat / 16 * 16 + b.toNat % 16) = b := by
      rw [show b.toNat / 16 * 16 + b.toNat % 16 = b.toNat by omega, UInt8.ofNat_toNat]
    rw [hexChars] at ih
    rw [hexChars, List.flatMap_cons, List.map_append, List.map_cons, List.map_cons, List.map_nil,
      List.cons_append, List.cons_append, List.nil_append, hexPairs, hhigh, hlow, ih]
    show some (_ :: bs) = some (b :: bs)
    rw [hbyte]

/-- The entries of a kind are read back from their spellings, as the JSON values `value`. -/
structure Schema.Readable {T : Type} (schema : Schema T) (value : T → Json) : Prop where
  typePlain : ∀ c ∈ schema.typeValue.toList, Json.Plain c
  memberPlain : ∀ c ∈ schema.entriesMember.toList, Json.Plain c
  member_ne_type : schema.entriesMember ≠ "type"
  member_ne_sig : schema.entriesMember ≠ "sig"
  read : ∀ e rest, Json.readValue 6 (schema.encodeEntry e ++ rest) = some (value e, rest)
  opens : ∀ e, ∃ c cs, schema.encodeEntry e = c :: cs ∧ Json.isWs c = false ∧ c ≠ ']'
  parse : ∀ e, schema.parseEntry (value e) = .ok e

/-- A key entry as a JSON value. -/
def keyEntryValue (e : Enrollment) : Json :=
  .object ([("alg", .string e.key.alg), ("key", .string e.key.toHex), ("anchor", .bool e.anchor)] ++
    match e.label with
    | some label => [("label", .string label)]
    | none => [])

theorem alg_plain (key : PublicKey) : ∀ c ∈ key.alg.toList, Json.Plain c := by
  have hrows : ∀ row ∈ sigAlgs, ∀ c ∈ row.token.toList, Json.Plain c := by
    simp [Json.Plain, sigAlgs, mldsa65Ed25519Row, fndsa512PreviewEd25519Row]
  exact hrows _ key.sigAlgRow_mem

theorem toHex_plain (bs : List UInt8) : ∀ c ∈ (hexEncode bs).toList, Json.Plain c := by
  rw [hexEncode, String.toList_ofList]
  exact hexChars_plain bs

theorem readValue_bool (b : Bool) (n : ℕ) (rest : List Char) :
    Json.readValue (n + 1) ((if b then "true".toList else "false".toList) ++ rest) =
      some (.bool b, rest) := by
  cases b
  · exact Json.readValue_false n rest
  · exact Json.readValue_true n rest

theorem names_plain : ∀ name ∈ ["alg", "key", "anchor", "label", "type", "sig", "keys", "fingerprints",
    "skep-enroll", "skep-retire"], ∀ c ∈ name.toList, Json.Plain c := by
  simp [Json.Plain]

theorem keyEntry_punctuation : "\x7b\"alg\":\"".toList = '{' :: '"' :: "alg".toList ++ ['"', ':', '"'] ∧
    "\",\"key\":\"".toList = '"' :: ',' :: '"' :: "key".toList ++ ['"', ':', '"'] ∧
    "\",\"anchor\":".toList = '"' :: ',' :: '"' :: "anchor".toList ++ ['"', ':'] ∧
    ",\"label\":".toList = ',' :: '"' :: "label".toList ++ ['"', ':'] := by
  simp

/-- The first three members of a key entry, whatever follows them. -/
theorem read_keyEntry_members (e : Enrollment) (n : ℕ) {rest : List Char}
    {r : List (String × Json) × List Char}
    (h : Json.readMembers (n + 3) [("alg", .string e.key.alg), ("key", .string e.key.toHex)]
      ('"' :: ("anchor".toList ++ '"' :: ':' :: ((if e.anchor then "true".toList else "false".toList) ++ rest))) =
        some r) :
    Json.readMembers (n + 5) [] ('"' :: ("alg".toList ++ '"' :: ':' :: ('"' :: (e.key.alg.toList ++ '"' :: ',' ::
      ('"' :: ("key".toList ++ '"' :: ':' :: ('"' :: (e.key.toHex.toList ++ '"' :: ',' ::
        ('"' :: ("anchor".toList ++ '"' :: ':' ::
          ((if e.anchor then "true".toList else "false".toList) ++ rest))))))))))) = some r := by
  have halg : ∀ n cs, Json.readValue (n + 1) ('"' :: (e.key.alg.toList ++ '"' :: cs)) =
      some (.string e.key.alg, cs) := fun n cs => by
    rw [readValue_plain (alg_plain e.key) n cs, String.ofList_toList]
  have hkey : ∀ n cs, Json.readValue (n + 1) ('"' :: (e.key.toHex.toList ++ '"' :: cs)) =
      some (.string e.key.toHex, cs) := fun n cs => by
    rw [PublicKey.toHex, readValue_plain (toHex_plain e.key.raw) n cs, String.ofList_toList]
  have hset : Json.setMember [] "alg" (.string e.key.alg) = [("alg", .string e.key.alg)] :=
    Json.setMember_of_new (by simp)
  rw [Json.readMembers_cons (names_plain "alg" (by simp)) (halg (n + 3) _), String.ofList_toList, hset,
    Json.readMembers_cons (names_plain "key" (by simp)) (hkey (n + 2) _), String.ofList_toList,
    Json.setMember_of_new (by simp)]
  exact h

theorem read_keyEntry (e : Enrollment) (rest : List Char) :
    Json.readValue 6 (encodeKeyEntry e ++ rest) = some (keyEntryValue e, rest) := by
  obtain ⟨h1, h2, h3, h4⟩ := keyEntry_punctuation
  have hanchor := names_plain "anchor" (by simp)
  unfold encodeKeyEntry keyEntryValue
  simp only [h1, h2, h3, h4]
  cases hl : e.label with
  | none =>
    simp only [List.append_assoc, List.cons_append, List.nil_append, List.append_nil]
    refine Json.readValue_object rfl (read_keyEntry_members e 0 ?_)
    rw [Json.readMembers_last hanchor (readValue_bool e.anchor 1 _), String.ofList_toList,
      Json.setMember_of_new (by simp)]
    rfl
  | some label =>
    simp only [List.append_assoc, List.cons_append, List.nil_append]
    refine Json.readValue_object rfl (read_keyEntry_members e 0 ?_)
    rw [Json.readMembers_cons hanchor (readValue_bool e.anchor 1 _), String.ofList_toList,
      Json.setMember_of_new (by simp),
      Json.readMembers_last (names_plain "label" (by simp)) (readValue_escape label 0 _),
      String.ofList_toList, Json.setMember_of_new (by simp)]
    rfl

theorem parse_toHex (key : PublicKey) : PublicKey.parse key.alg key.toHex = .ok key := by
  have hraw : PublicKey.fromRaw key.alg key.raw = .ok key := by
    cases key with
    | mlDsa65Ed25519 raw =>
      show PublicKey.fromRaw mldsa65Ed25519Row.token raw.1 = _
      rw [PublicKey.fromRaw, if_pos rfl, dif_pos raw.2]
    | fnDsa512PreviewEd25519 raw =>
      show PublicKey.fromRaw fndsa512PreviewEd25519Row.token raw.1 = _
      rw [PublicKey.fromRaw, if_neg (by decide), if_pos rfl, dif_pos raw.2]
  have hrow : (sigAlgs.all fun row => row.token != key.alg) = false := by
    have hrows : ∀ row ∈ sigAlgs, (sigAlgs.all fun row' => row'.token != row.token) = false := by decide
    exact hrows _ key.sigAlgRow_mem
  rw [PublicKey.parse, hrow, PublicKey.toHex, hexDecode_hexEncode]
  simpa [Outcome.refuseIf, Outcome.okOr] using hraw

theorem parse_keyEntry (e : Enrollment) : parseKeyEntry (keyEntryValue e) = .ok e := by
  have hkey := parse_toHex e.key
  obtain ⟨key, anchor, label, hlabel⟩ := e
  simp only at hkey
  cases label with
  | none =>
    simp [parseKeyEntry, keyEntryValue, labelMember, Json.asObject, Json.getMember, Json.asStr, Json.asBool, Outcome.okOr,
      Outcome.refuseIf, hkey, Outcome.mapErr, Enrollment.new]
  | some l =>
    have hl := hlabel l rfl
    obtain ⟨h1, h2, h3⟩ := hl
    simp [parseKeyEntry, keyEntryValue, labelMember, Json.asObject, Json.getMember, Json.asStr, Json.asBool, Outcome.okOr,
      Outcome.refuseIf, hkey, Outcome.mapErr, Enrollment.new, IsLabel, h1, h2, not_lt.2 h3, h3]

theorem enrollSchema_readable (sha256 : List UInt8 → Bytes32) :
    (enrollSchema sha256).Readable keyEntryValue where
  typePlain := names_plain "skep-enroll" (by simp)
  memberPlain := names_plain "keys" (by simp)
  member_ne_type := show "keys" ≠ "type" by decide
  member_ne_sig := show "keys" ≠ "sig" by decide
  read := read_keyEntry
  opens _ := ⟨'{', _, rfl, rfl, by decide⟩
  parse := parse_keyEntry

theorem retireSchema_readable : retireSchema.Readable fun fp => .string fp.toHex where
  typePlain := names_plain "skep-retire" (by simp)
  memberPlain := names_plain "fingerprints" (by simp)
  member_ne_type := by decide
  member_ne_sig := by decide
  read fp rest := by
    have := readValue_plain (toHex_plain fp.bytes.1) 5 rest
    rw [String.ofList_toList] at this
    simpa [retireSchema, encodeFingerprintEntry, Fingerprint.toHex] using this
  opens _ := ⟨'"', _, rfl, rfl, by decide⟩
  parse fp := by
    have hsize : (hexEncode fp.bytes.1).utf8ByteSize = 64 := by
      have hascii : ∀ c ∈ hexChars fp.bytes.1, c.toNat < 128 := by
        intro c hc
        obtain ⟨d, hd, rfl⟩ := mem_hexChars hc
        exact (hexDigit_plain d hd).2.1
      have hlen : (utf8 (hexEncode fp.bytes.1)).length = 64 := by
        rw [hexEncode, utf8_ascii hascii, List.length_map, hexChars, List.length_flatMap]
        simp [fp.bytes.2]
      simpa [utf8] using hlen
    simp [retireSchema, parseFingerprintEntry, Json.asStr, Outcome.okOr, Fingerprint.parseHex,
      Fingerprint.toHex, hsize, hexDecode_hexEncode, fp.bytes.2]

theorem record_punctuation : "\x7b\"type\":\"".toList = '{' :: '"' :: "type".toList ++ ['"', ':', '"'] ∧
    "\",\"".toList = ['"', ',', '"'] ∧ "\":[".toList = ['"', ':', '['] ∧
    ",\"sig\":".toList = ',' :: '"' :: "sig".toList ++ ['"', ':'] := by
  simp

section Records

variable {T : Type} {schema : Schema T} {value : T → Json}

/-- A record as a JSON value's members. -/
def recordMembers (schema : Schema T) (value : T → Json) (entries : List T) (sig : Option String) :
    List (String × Json) :=
  [("type", .string schema.typeValue), (schema.entriesMember, .array (entries.map value))] ++
    match sig with
    | some sig => [("sig", .string sig)]
    | none => []

/-- The first two members of a record, whatever follows them. -/
theorem read_record_members (hs : schema.Readable value) {entries : List T} {rest : List Char} {r : List (String × Json) × List Char}
    (h : Json.readMembers (6 + entries.length + 1 + 1) [("type", .string schema.typeValue)]
      ('"' :: (schema.entriesMember.toList ++ '"' :: ':' ::
        ('[' :: (Json.joined (entries.map schema.encodeEntry) ++ ']' :: rest)))) = some r) :
    Json.readMembers (6 + entries.length + 1 + 2) [] ('"' :: ("type".toList ++ '"' :: ':' ::
      ('"' :: (schema.typeValue.toList ++ '"' :: ',' :: ('"' :: (schema.entriesMember.toList ++ '"' :: ':' ::
        ('[' :: (Json.joined (entries.map schema.encodeEntry) ++ ']' :: rest)))))))) = some r := by
  have htype : ∀ n cs, Json.readValue (n + 1) ('"' :: (schema.typeValue.toList ++ '"' :: cs)) =
      some (.string schema.typeValue, cs) := fun n cs => by
    rw [readValue_plain hs.typePlain n cs, String.ofList_toList]
  have hset : Json.setMember [] "type" (.string schema.typeValue) = [("type", .string schema.typeValue)] :=
    Json.setMember_of_new (by simp)
  rw [Json.readMembers_cons (names_plain "type" (by simp)) (htype _ _), String.ofList_toList, hset]
  exact h

theorem read_entries (hs : schema.Readable value) {entries : List T} (hne : entries ≠ []) (rest : List Char) :
    Json.readValue (6 + entries.length + 1)
      ('[' :: (Json.joined (entries.map schema.encodeEntry) ++ ']' :: rest)) =
        some (.array (entries.map value), rest) := by
  have hread : ∀ p ∈ entries.map fun e => (schema.encodeEntry e, value e), ∀ rest,
      Json.readValue 6 (p.1 ++ rest) = some (p.2, rest) := by
    intro p hp rest
    obtain ⟨e, -, rfl⟩ := List.mem_map.1 hp
    exact hs.read e rest
  have hopen : ∀ p ∈ entries.map fun e => (schema.encodeEntry e, value e),
      ∃ c cs, p.1 = c :: cs ∧ Json.isWs c = false ∧ c ≠ ']' := by
    intro p hp
    obtain ⟨e, -, rfl⟩ := List.mem_map.1 hp
    exact hs.opens e
  have := Json.readValue_array (by simpa using hne) hread hopen rest
  simpa [List.map_map, Function.comp_def] using this

theorem length_le_joined (hs : schema.Readable value) (entries : List T) :
    entries.length ≤ (Json.joined (entries.map schema.encodeEntry)).length := by
  have hpos : ∀ e, 1 ≤ (schema.encodeEntry e).length := by
    intro e
    obtain ⟨c, cs, h, -⟩ := hs.opens e
    simp [h]
  induction entries with
  | nil => simp
  | cons e entries ih =>
    have := hpos e
    cases entries with
    | nil => simpa [Json.joined] using this
    | cons e' entries =>
      rw [List.map_cons, List.map_cons, Json.joined_cons_cons, ← List.map_cons, List.length_append]
      simp only [List.length_cons] at ih ⊢
      omega

theorem ofText_canonical (hs : schema.Readable value) {entries : List T} (hne : entries ≠ [])
    (sig : Option String) : Json.ofText (canonicalRecord schema entries sig) =
      some (.object (recordMembers schema value entries sig)) := by
  obtain ⟨h1, h2, h3, h4⟩ := record_punctuation
  have hlen := length_le_joined hs entries
  have hmember : Json.setMember [("type", .string schema.typeValue)] schema.entriesMember
      (.array (entries.map value)) =
        [("type", .string schema.typeValue), (schema.entriesMember, .array (entries.map value))] :=
    Json.setMember_of_new (by simpa using hs.member_ne_type)
  have hread : ∀ cs, canonicalRecord schema entries sig = String.ofList cs →
      Json.readValue (6 + entries.length + 1 + 3) cs =
        some (.object (recordMembers schema value entries sig), []) := by
    intro cs hcs
    unfold canonicalRecord at hcs
    rw [← String.ofList_inj.1 hcs]
    simp only [h1, h2, h3, h4]
    unfold recordMembers
    cases sig with
    | none =>
      simp only [List.append_assoc, List.cons_append, List.nil_append, List.append_nil]
      refine Json.readValue_object rfl (read_record_members hs ?_)
      rw [Json.readMembers_last hs.memberPlain (read_entries hs hne _), String.ofList_toList, hmember]
    | some sig =>
      have hsig : Json.setMember [("type", .string schema.typeValue),
          (schema.entriesMember, .array (entries.map value))] "sig" (.string sig) =
            [("type", .string schema.typeValue), (schema.entriesMember, .array (entries.map value)),
              ("sig", .string sig)] :=
        Json.setMember_of_new (by simpa using hs.member_ne_sig.symm)
      have hread : Json.readValue (6 + entries.length) (escapeJsonString sig ++ ['}']) =
          some (.string sig, ['}']) := Json.readValue_mono (by omega) (readValue_escape sig 0 _)
      simp only [List.append_assoc, List.cons_append, List.nil_append]
      refine Json.readValue_object rfl (read_record_members hs ?_)
      rw [Json.readMembers_cons hs.memberPlain (read_entries hs hne _), String.ofList_toList, hmember,
        Json.readMembers_last (names_plain "sig" (by simp)) hread, String.ofList_toList, hsig]
  have hlong : 6 + entries.length + 1 + 3 ≤ (canonicalRecord schema entries sig).toList.length + 1 := by
    have htype : "type".toList.length = 4 := by simp
    unfold canonicalRecord
    simp only [String.toList_ofList, h1, h2, h3, h4, List.length_append, List.length_cons,
      List.length_nil]
    omega
  have := Json.readValue_mono hlong (hread _ (String.ofList_toList).symm)
  rw [Json.ofText, this]
  rfl

theorem fromUTF8_utf8 (s : String) : String.fromUTF8? ⟨(utf8 s).toArray⟩ = some s := by
  have hbytes : (⟨(utf8 s).toArray⟩ : ByteArray) = s.toByteArray := by
    rw [utf8, Array.toArray_toList]
  rw [hbytes, String.fromUTF8?, dif_pos s.isValidUTF8]
  rfl

theorem utf8_of_fromUTF8 {bs : List UInt8} {s : String} (h : String.fromUTF8? ⟨bs.toArray⟩ = some s) :
    utf8 s = bs := by
  rw [String.fromUTF8?] at h
  split at h
  · cases h
    rw [utf8]
    simp [String.fromUTF8]
  · cases h

/-- A canonical spelling within the cap is read back. -/
theorem parseRecordValue_canonical (hs : schema.Readable value) {entries : List T} (hne : entries ≠ [])
    (hnodup : (entries.map schema.comparedBy).Nodup) (sig : Option String)
    (hcap : (utf8 (canonicalRecord schema entries sig)).length ≤ maxRecordBytes) :
    parseRecordValue schema Json.ofText (utf8 (canonicalRecord schema entries sig)) =
      .ok ⟨entries, sig⟩ := by
  have hentries : (entries.map value).mapM schema.parseEntry = .ok entries := by
    clear hne hnodup hcap
    induction entries with
    | nil => rfl
    | cons e entries ih => rw [List.map_cons, List.mapM_cons, hs.parse e, Outcome.ok_bind, ih]; rfl
  have hrepeats : refuseRepeats [] 1 (entries.map schema.comparedBy) = .ok () :=
    refuseRepeats_eq_ok_iff.2 ⟨hnodup, by simp⟩
  have hmember : Json.getMember (recordMembers schema value entries sig) schema.entriesMember =
      some (.array (entries.map value)) := by
    simp [recordMembers, Json.getMember, hs.member_ne_type.symm]
  have htype : Json.getMember (recordMembers schema value entries sig) "type" =
      some (.string schema.typeValue) := by
    simp [recordMembers, Json.getMember]
  have hsig : sigMember (Json.getMember (recordMembers schema value entries sig) "sig") = .ok sig ∧
      (recordMembers schema value entries sig).length =
        2 + if (Json.getMember (recordMembers schema value entries sig) "sig").isSome then 1 else 0 := by
    cases sig <;> simp [recordMembers, Json.getMember, hs.member_ne_sig, sigMember]
  simp only [parseRecordValue, fromUTF8_utf8, Outcome.okOr, Outcome.ok_bind, ofText_canonical hs hne,
    Json.asObject, htype, hmember, Option.bind_some, Json.asStr, Json.asArray, hsig.1, ← hsig.2,
    Outcome.refuseIf, hentries, hrepeats, not_lt.2 hcap, hne, ne_eq, not_true_eq_false, if_false,
    Outcome.pure_eq]

/-- What is read is in the canonical spelling, has entries, repeats none, and is within
the cap, whatever reads the JSON. -/
theorem parseRecordValue_eq_ok {fromStr : String → Option Json} {bytes : List UInt8} {v : RecordValue T}
    (h : parseRecordValue schema fromStr bytes = .ok v) :
    utf8 (canonicalRecord schema v.entries v.sig) = bytes ∧ v.entries ≠ [] ∧
      (v.entries.map schema.comparedBy).Nodup ∧ bytes.length ≤ maxRecordBytes := by
  simp only [parseRecordValue, Outcome.bind_eq_ok_iff, Outcome.refuseIf_eq_ok_iff, Outcome.okOr_eq_ok_iff,
    Outcome.pure_eq, Outcome.ok.injEq] at h
  obtain ⟨_, hcap, text, htext, _, _, _, _, _, _, _, _, sig, _, _, _, entries, _, _, hspelled, _, hrepeats, _,
    hne, rfl⟩ := h
  rw [not_not] at hspelled
  obtain ⟨hnodup, -⟩ := refuseRepeats_eq_ok_iff.1 hrepeats
  exact ⟨by rw [hspelled, utf8_of_fromUTF8 htext], hne, hnodup, not_lt.1 hcap⟩

end Records

/-- A record of the kind is its spelling, and a spelling its record. -/
structure OneSpelling {T : Type} (schema : Schema T) (fromStr : String → Option Json) : Prop where
  spelled : ∀ bytes v, parseRecordValue schema fromStr bytes = .ok v →
    utf8 (canonicalRecord schema v.entries v.sig) = bytes ∧ v.entries ≠ [] ∧
      (v.entries.map schema.comparedBy).Nodup ∧ bytes.length ≤ maxRecordBytes
  read : ∀ entries sig, entries ≠ [] → (entries.map schema.comparedBy).Nodup →
    (utf8 (canonicalRecord schema entries sig)).length ≤ maxRecordBytes →
      parseRecordValue schema fromStr (utf8 (canonicalRecord schema entries sig)) = .ok ⟨entries, sig⟩
  unique : ∀ bytes bytes' v, parseRecordValue schema fromStr bytes = .ok v →
    parseRecordValue schema fromStr bytes' = .ok v → bytes = bytes'

theorem Schema.Readable.oneSpelling {T : Type} {schema : Schema T} {value : T → Json}
    (hs : schema.Readable value) : OneSpelling schema Json.ofText where
  spelled _ _ h := parseRecordValue_eq_ok h
  read _ sig hne hnodup hcap := parseRecordValue_canonical hs hne hnodup sig hcap
  unique _ _ _ h h' := by rw [← (parseRecordValue_eq_ok h).1, (parseRecordValue_eq_ok h').1]

/-- **A credential record has one spelling.** With a JSON reader that answers the value
a text denotes, what is admitted of either kind is a canonical spelling within the cap,
of entries of which none repeats; every such spelling is admitted, as the record it
spells; and no two bodies are one record's. -/
theorem record_one_spelling (sha256 : List UInt8 → Bytes32) (fromStr : String → Option Json)
    (hjson : ∀ text, fromStr text = Json.ofText text) :
    OneSpelling (enrollSchema sha256) fromStr ∧ OneSpelling retireSchema fromStr := by
  obtain rfl : fromStr = Json.ofText := funext hjson
  exact ⟨(enrollSchema_readable sha256).oneSpelling, retireSchema_readable.oneSpelling⟩

/-- A retirement of one key, signed with a text that needs every kind of escape. -/
theorem record_one_spelling_escaped :
    let fp : Fingerprint := ⟨⟨List.replicate 32 7, rfl⟩⟩
    let sig := "\"\\\n\x01é"
    parseRecordValue retireSchema Json.ofText (utf8 (canonicalRecord retireSchema [fp] (some sig))) =
      .ok ⟨[fp], some sig⟩ :=
  (record_one_spelling (fun _ => ⟨List.replicate 32 0, rfl⟩) Json.ofText fun _ => rfl).2.read _ _
    (by simp) (by simp) (by decide +kernel)

end Identity
