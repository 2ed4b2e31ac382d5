import Skep.Identity.Key
import Skep.Library.Json

/-!
# Credential records

The body of a credential record is a JSON object in one canonical spelling: its kind,
its entries, and a signature where it carries one. What is read is spelled again and
compared byte by byte. The JSON reader and the digest are parameters.
-/

namespace Identity

def maxRecordBytes : ℕ := 128 * 1024

def maxLabelBytes : ℕ := 128

inductive LabelError where
  | newline
  | tooLong
  deriving DecidableEq

/-- Whether a label is one an enrollment keeps: there, on one line, and short. -/
def IsLabel (label : String) : Prop :=
  label ≠ "" ∧ '\n' ∉ label.toList ∧ label.utf8ByteSize ≤ maxLabelBytes

instance (label : String) : Decidable (IsLabel label) := by
  unfold IsLabel
  infer_instance

/-- An enrolled key as a record names it. -/
structure Enrollment where
  key : PublicKey
  anchor : Bool
  label : Option String
  isLabel : ∀ l ∈ label, IsLabel l

theorem isLabel_none : ∀ l ∈ (none : Option String), IsLabel l := by simp

@[ext] theorem Enrollment.ext {a b : Enrollment} (hkey : a.key = b.key) (hanchor : a.anchor = b.anchor)
    (hlabel : a.label = b.label) : a = b := by
  cases a
  cases b
  cases hkey
  cases hanchor
  cases hlabel
  rfl

instance : DecidableEq Enrollment := fun a b =>
  decidable_of_iff (a.key = b.key ∧ a.anchor = b.anchor ∧ a.label = b.label)
    ⟨fun ⟨h1, h2, h3⟩ => Enrollment.ext h1 h2 h3, fun h => h ▸ ⟨rfl, rfl, rfl⟩⟩

/-- The constructor: an empty label is none. -/
def Enrollment.new (key : PublicKey) (anchor : Bool) (label : Option String) :
    Outcome LabelError Enrollment :=
  match label with
  | none => .ok ⟨key, anchor, none, isLabel_none⟩
  | some l =>
      if hline : '\n' ∈ l.toList then .err .newline
      else if hlong : maxLabelBytes < l.utf8ByteSize then .err .tooLong
      else if hempty : l = "" then .ok ⟨key, anchor, none, isLabel_none⟩
      else .ok ⟨key, anchor, some l, by simpa using ⟨hempty, hline, not_lt.1 hlong⟩⟩

/-- Why a body is no record. -/
inductive PayloadError where
  | tooLarge
  | foreignContent
  | missingValue
  | notUtf8
  | badRecord
  | empty
  | duplicateKey (n : ℕ)
  deriving DecidableEq

/-- A character within a JSON string. -/
def escapeChar (c : Char) : List Char :=
  if c = '"' then ['\\', '"']
  else if c = '\\' then ['\\', '\\']
  else if c = Char.ofNat 8 then ['\\', 'b']
  else if c = Char.ofNat 9 then ['\\', 't']
  else if c = Char.ofNat 10 then ['\\', 'n']
  else if c = Char.ofNat 12 then ['\\', 'f']
  else if c = Char.ofNat 13 then ['\\', 'r']
  else if c.toNat < 0x20 then
    ['\\', 'u', '0', '0', hexDigit (c.toNat / 16), hexDigit (c.toNat % 16)]
  else [c]

/-- A text as a JSON string. -/
def escapeJsonString (s : String) : List Char := '"' :: s.toList.flatMap escapeChar ++ ['"']

def encodeKeyEntry (e : Enrollment) : List Char :=
  "\x7b\"alg\":\"".toList ++ e.key.alg.toList ++ "\",\"key\":\"".toList ++ e.key.toHex.toList ++
    "\",\"anchor\":".toList ++ (if e.anchor then "true".toList else "false".toList) ++
    (match e.label with
      | some label => ",\"label\":".toList ++ escapeJsonString label
      | none => []) ++ ['}']

def encodeFingerprintEntry (fp : Fingerprint) : List Char := '"' :: fp.toHex.toList ++ ['"']

/-- The label of a key entry, where it has one. -/
def labelMember : Option Json → Outcome PayloadError (Option String)
  | none => .ok none
  | some (.string s) => if IsLabel s then .ok (some s) else .err .badRecord
  | some _ => .err .badRecord

/-- The signature of a record, where it has one. -/
def sigMember : Option Json → Outcome PayloadError (Option String)
  | none => .ok none
  | some (.string s) => .ok (some s)
  | some _ => .err .badRecord

def parseKeyEntry (v : Json) : Outcome PayloadError Enrollment := do
  let obj ← Outcome.okOr v.asObject .badRecord
  let alg ← Outcome.okOr ((Json.getMember obj "alg").bind Json.asStr) .badRecord
  let keyHex ← Outcome.okOr ((Json.getMember obj "key").bind Json.asStr) .badRecord
  let anchor ← Outcome.okOr ((Json.getMember obj "anchor").bind Json.asBool) .badRecord
  let label ← labelMember (Json.getMember obj "label")
  Outcome.refuseIf (obj.length ≠ 3 + if (Json.getMember obj "label").isSome then 1 else 0) .badRecord
  let key ← (PublicKey.parse alg keyHex).mapErr fun _ => .badRecord
  (Enrollment.new key anchor label).mapErr fun _ => .badRecord

def parseFingerprintEntry (v : Json) : Outcome PayloadError Fingerprint := do
  let hex ← Outcome.okOr v.asStr .badRecord
  Outcome.okOr (Fingerprint.parseHex hex) .badRecord

/-- A kind of record: its name, the member its entries stand under, how an entry is read
and spelled, and what two entries are compared by. -/
structure Schema (T : Type) where
  typeValue : String
  entriesMember : String
  parseEntry : Json → Outcome PayloadError T
  encodeEntry : T → List Char
  comparedBy : T → Fingerprint

def enrollSchema (sha256 : List UInt8 → Bytes32) : Schema Enrollment :=
  ⟨"skep-enroll", "keys", parseKeyEntry, encodeKeyEntry, fun e => Fingerprint.of sha256 e.key⟩

def retireSchema : Schema Fingerprint :=
  ⟨"skep-retire", "fingerprints", parseFingerprintEntry, encodeFingerprintEntry, id⟩

section Schema

variable {T : Type} (schema : Schema T)

/-- The canonical spelling of a record. -/
def canonicalRecord (entries : List T) (sig : Option String) : String :=
  String.ofList ("\x7b\"type\":\"".toList ++ schema.typeValue.toList ++ "\",\"".toList ++
    schema.entriesMember.toList ++ "\":[".toList ++ Json.joined (entries.map schema.encodeEntry) ++ [']'] ++
    (match sig with
      | some sig => ",\"sig\":".toList ++ escapeJsonString sig
      | none => []) ++ ['}'])

/-- A record's entries and its signature. -/
structure RecordValue (T : Type) where
  entries : List T
  sig : Option String
  deriving DecidableEq

/-- Refuse the first entry, counted from one, that repeats an earlier one. -/
def refuseRepeats (seen : List Fingerprint) (n : ℕ) : List Fingerprint → Outcome PayloadError Unit
  | [] => .ok ()
  | fp :: fps => if fp ∈ seen then .err (.duplicateKey n) else refuseRepeats (fp :: seen) (n + 1) fps

/-- Read a record's body. -/
def parseRecordValue (fromStr : String → Option Json) (bytes : List UInt8) :
    Outcome PayloadError (RecordValue T) := do
  Outcome.refuseIf (maxRecordBytes < bytes.length) .tooLarge
  let text ← Outcome.okOr (String.fromUTF8? ⟨bytes.toArray⟩) .notUtf8
  let value ← Outcome.okOr (fromStr text) .badRecord
  let obj ← Outcome.okOr value.asObject .badRecord
  Outcome.refuseIf ((Json.getMember obj "type").bind Json.asStr ≠ some schema.typeValue) .badRecord
  let entriesVal ← Outcome.okOr ((Json.getMember obj schema.entriesMember).bind Json.asArray) .badRecord
  let sig ← sigMember (Json.getMember obj "sig")
  Outcome.refuseIf (obj.length ≠ 2 + if (Json.getMember obj "sig").isSome then 1 else 0) .badRecord
  let entries ← entriesVal.mapM schema.parseEntry
  Outcome.refuseIf (canonicalRecord schema entries sig ≠ text) .badRecord
  refuseRepeats [] 1 (entries.map schema.comparedBy)
  Outcome.refuseIf (entries = []) .empty
  return ⟨entries, sig⟩

end Schema

/-- The fold's reader of enrollments: the signature is read and dropped. -/
def parseEnroll (sha256 : List UInt8 → Bytes32) (fromStr : String → Option Json) (bytes : List UInt8) :
    Outcome PayloadError (List Enrollment) :=
  RecordValue.entries <$> parseRecordValue (enrollSchema sha256) fromStr bytes

def parseRetire (fromStr : String → Option Json) (bytes : List UInt8) :
    Outcome PayloadError (List Fingerprint) :=
  RecordValue.entries <$> parseRecordValue retireSchema fromStr bytes

/-- A list is refused exactly where an entry repeats. -/
theorem refuseRepeats_eq_ok_iff {seen fps : List Fingerprint} {n : ℕ} :
    refuseRepeats seen n fps = .ok () ↔ fps.Nodup ∧ ∀ fp ∈ fps, fp ∉ seen := by
  induction fps generalizing seen n with
  | nil => simp [refuseRepeats]
  | cons fp fps ih =>
    rw [refuseRepeats]
    split
    · next hseen => simp [hseen]
    · next hnew =>
      rw [ih, List.nodup_cons]
      simp only [List.mem_cons, not_or, forall_eq_or_imp]
      constructor
      · rintro ⟨hnodup, hall⟩
        exact ⟨⟨fun hmem => (hall fp hmem).1 rfl, hnodup⟩, hnew, fun x hx => (hall x hx).2⟩
      · rintro ⟨⟨hmem, hnodup⟩, -, hall⟩
        exact ⟨hnodup, fun x hx => ⟨fun heq => hmem (heq ▸ hx), hall x hx⟩⟩

theorem PublicKey.parse_ne_fault (alg hex : String) : PublicKey.parse alg hex ≠ .fault := by
  refine Outcome.bind_ne_fault (by simp) fun _ => Outcome.bind_ne_fault (by simp) fun bytes => ?_
  unfold PublicKey.fromRaw
  split_ifs <;> simp

theorem Enrollment.new_ne_fault (key : PublicKey) (anchor : Bool) (label : Option String) :
    Enrollment.new key anchor label ≠ .fault := by
  unfold Enrollment.new
  cases label with
  | none => simp
  | some l =>
    simp only
    split_ifs <;> simp

theorem parseKeyEntry_ne_fault (v : Json) : parseKeyEntry v ≠ .fault := by
  have hlabel : ∀ m, labelMember m ≠ .fault := by
    intro m
    unfold labelMember
    split
    · simp
    · split_ifs <;> simp
    · simp
  unfold parseKeyEntry
  refine Outcome.bind_ne_fault (by simp) fun obj => ?_
  refine Outcome.bind_ne_fault (by simp) fun alg => ?_
  refine Outcome.bind_ne_fault (by simp) fun keyHex => ?_
  refine Outcome.bind_ne_fault (by simp) fun anchor => ?_
  refine Outcome.bind_ne_fault (hlabel _) fun label => ?_
  refine Outcome.bind_ne_fault (by simp) fun _ => ?_
  refine Outcome.bind_ne_fault (by simp [PublicKey.parse_ne_fault]) fun key => ?_
  simp [Enrollment.new_ne_fault]

theorem parseFingerprintEntry_ne_fault (v : Json) : parseFingerprintEntry v ≠ .fault :=
  Outcome.bind_ne_fault (by simp) fun _ => by simp

theorem refuseRepeats_ne_fault (seen fps : List Fingerprint) (n : ℕ) :
    refuseRepeats seen n fps ≠ .fault := by
  induction fps generalizing seen n with
  | nil => simp [refuseRepeats]
  | cons fp fps ih =>
    rw [refuseRepeats]
    split
    · simp
    · exact ih _ _

theorem parseRecordValue_ne_fault {T : Type} (schema : Schema T) (fromStr : String → Option Json)
    (hentry : ∀ v, schema.parseEntry v ≠ .fault) (bytes : List UInt8) :
    parseRecordValue schema fromStr bytes ≠ .fault := by
  have hsig : ∀ m, sigMember m ≠ .fault := by
    intro m
    unfold sigMember
    split <;> simp
  unfold parseRecordValue
  refine Outcome.bind_ne_fault (by simp) fun _ => ?_
  refine Outcome.bind_ne_fault (by simp) fun text => ?_
  refine Outcome.bind_ne_fault (by simp) fun value => ?_
  refine Outcome.bind_ne_fault (by simp) fun obj => ?_
  refine Outcome.bind_ne_fault (by simp) fun _ => ?_
  refine Outcome.bind_ne_fault (by simp) fun entriesVal => ?_
  refine Outcome.bind_ne_fault (hsig _) fun sig => ?_
  refine Outcome.bind_ne_fault (by simp) fun _ => ?_
  refine Outcome.bind_ne_fault (Outcome.mapM_ne_fault fun v _ => hentry v) fun entries => ?_
  refine Outcome.bind_ne_fault (by simp) fun _ => ?_
  refine Outcome.bind_ne_fault (refuseRepeats_ne_fault _ _ _) fun _ => ?_
  exact Outcome.bind_ne_fault (by simp) fun _ => by simp

theorem parseEnroll_ne_fault (sha256 : List UInt8 → Bytes32) (fromStr : String → Option Json)
    (bytes : List UInt8) : parseEnroll sha256 fromStr bytes ≠ .fault :=
  Outcome.bind_ne_fault (parseRecordValue_ne_fault (enrollSchema sha256) fromStr parseKeyEntry_ne_fault bytes)
    fun _ => by simp

theorem parseRetire_ne_fault (fromStr : String → Option Json) (bytes : List UInt8) :
    parseRetire fromStr bytes ≠ .fault :=
  Outcome.bind_ne_fault (parseRecordValue_ne_fault retireSchema fromStr parseFingerprintEntry_ne_fault bytes)
    fun _ => by simp

/-- The readers as the fold calls them. -/
def readEnroll (sha256 : List UInt8 → Bytes32) (fromStr : String → Option Json) (bytes : List UInt8) :
    Except PayloadError (List Enrollment) :=
  (parseEnroll sha256 fromStr bytes).toExcept (parseEnroll_ne_fault sha256 fromStr bytes)

def readRetire (fromStr : String → Option Json) (bytes : List UInt8) :
    Except PayloadError (List Fingerprint) :=
  (parseRetire fromStr bytes).toExcept (parseRetire_ne_fault fromStr bytes)

end Identity
